import Lasso.Lang.Expr
/-!
# Readers of token sequences

A reader takes a beginning of the tokens and yields a result, or refuses. The readers of a grammar need
each other: a `Parser R` reads its parts with the readers that it is given, one with the result `R i`
for each `i`.

Whatever a parser does, it takes a beginning of the tokens and sees no further than the next one, and it
goes on reading what it reads when its parts do (`Follows`). A `Parser` carries the proof of this, and
the vocabulary of this file keeps it: looking at the next token, taking one, requiring one, asking for a
part, repeating.
-/

namespace Lasso.Lang

/-! ## 1. Readings -/

/-- A way to read tokens: a result and the tokens that are left, or a refusal. -/
abbrev Reading (α : Type) := List Token → Option (α × List Token)

section Follows

variable {α β : Type}

/-- What `p` reads, `q` reads as well, also before other tokens as long as the next one is the same. -/
def Follows (p q : Reading α) : Prop :=
  ∀ ⦃ts a rest⦄, p ts = some (a, rest) →
    ∃ taken, ts = taken ++ rest ∧ ∀ k, k.head? = rest.head? → q (taken ++ k) = some (a, k)

theorem follows_pure (a : α) : Follows (fun ts => some (a, ts)) fun ts => some (a, ts) := by
  intro ts b rest h
  cases h
  exact ⟨[], rfl, fun _ _ => rfl⟩

theorem follows_peek :
    Follows (fun ts => some (ts.head?, ts)) fun ts => some (ts.head?, ts) := by
  intro ts b rest h
  cases h
  refine ⟨[], rfl, fun k hk => ?_⟩
  simp only [List.nil_append, hk]

theorem follows_skip :
    Follows (fun ts => some ((), ts.drop 1)) fun ts => some ((), ts.drop 1) := by
  intro ts b rest h
  cases h
  cases ts with
  | nil =>
    refine ⟨[], rfl, fun k hk => ?_⟩
    rw [List.head?_eq_none_iff.mp hk]
    rfl
  | cons t ts => exact ⟨[t], rfl, fun _ _ => rfl⟩

theorem follows_refuse (q : Reading α) : Follows (fun _ => none) q := fun _ _ _ h => nomatch h

/-- One reading behind another. -/
def Reading.andThen (p : Reading α) (f : α → Reading β) : Reading β := fun ts =>
  match p ts with
  | none => none
  | some (a, rest) => f a rest

theorem Reading.andThen_eq_some {p : Reading α} {f : α → Reading β} {ts rest : List Token} {b : β}
    (h : p.andThen f ts = some (b, rest)) : ∃ a mid, p ts = some (a, mid) ∧ f a mid = some (b, rest) := by
  unfold andThen at h
  split at h
  · cases h
  · rename_i a mid hp
    exact ⟨a, mid, hp, h⟩

/-- The next token of what the first one leaves is the same, whatever the second one leaves. -/
theorem Follows.andThen {p q : Reading α} {f g : α → Reading β} (h : Follows p q)
    (hf : ∀ a, Follows (f a) (g a)) : Follows (p.andThen f) (q.andThen g) := by
  intro ts b rest e
  obtain ⟨a, mid, hp, hfa⟩ := Reading.andThen_eq_some e
  obtain ⟨taken, rfl, hq⟩ := h hp
  obtain ⟨taken', rfl, hg⟩ := hf a hfa
  refine ⟨taken ++ taken', by rw [List.append_assoc], fun k hk => ?_⟩
  have hhead : (taken' ++ k).head? = (taken' ++ rest).head? := by
    rw [List.head?_append, List.head?_append, hk]
  rw [List.append_assoc, Reading.andThen, hq _ hhead]
  exact hg k hk

/-- Repeats a step that either goes on with a new result or stops. A step that goes on must take at
least one token, so the number of tokens bounds the repetitions. -/
def Reading.repeated (step : α → Reading (Option α)) : Nat → α → Reading α
  | 0, _, _ => none
  | n + 1, a, ts =>
    match step a ts with
    | none => none
    | some (none, rest) => some (a, rest)
    | some (some b, rest) => if rest.length < ts.length then repeated step n b rest else none

/-- As many repetitions as tokens are taken are enough. If each step takes tokens that are `ok` and reads
the same before what starts `alike`, then so do its repetitions. -/
theorem exists_repeated {step step' : α → Reading (Option α)}
    {alike : Option Token → Option Token → Prop} {ok : List Token → Prop} (hrefl : ∀ o, alike o o)
    (happend : ∀ us vs, ok us → ok vs → ok (us ++ vs))
    (h : ∀ a ts c rest, step a ts = some (c, rest) →
      ∃ taken, ts = taken ++ rest ∧ ok taken ∧
        ∀ k, alike rest.head? k.head? → step' a (taken ++ k) = some (c, k))
    {n : Nat} {a b : α} {ts rest : List Token}
    (e : Reading.repeated step n a ts = some (b, rest)) :
    ∃ taken, ts = taken ++ rest ∧ ok taken ∧ ∀ k, alike rest.head? k.head? → ∀ m, taken.length < m →
      Reading.repeated step' m a (taken ++ k) = some (b, k) := by
  induction n generalizing a ts with
  | zero => cases e
  | succ n ih =>
    unfold Reading.repeated at e
    split at e
    · cases e
    · rename_i hstep
      cases e
      obtain ⟨taken, rfl, hok, hs⟩ := h _ _ _ _ hstep
      refine ⟨taken, rfl, hok, fun k hk m hm => ?_⟩
      obtain ⟨m, rfl⟩ := Nat.exists_eq_succ_of_ne_zero (by omega : m ≠ 0)
      simp only [Reading.repeated, hs k hk]
    · rename_i c mid hstep
      split at e
      · rename_i hlt
        obtain ⟨taken, rfl, hok, hs⟩ := h a _ _ _ hstep
        obtain ⟨taken', rfl, hok', hr⟩ := ih e
        refine ⟨taken ++ taken', by rw [List.append_assoc], happend _ _ hok hok',
          fun k hk m hm => ?_⟩
        have hhead : alike (taken' ++ rest).head? (taken' ++ k).head? := by
          cases taken' with
          | nil => exact hk
          | cons t taken' => exact hrefl _
        simp only [List.length_append] at hlt hm
        obtain ⟨m, rfl⟩ := Nat.exists_eq_succ_of_ne_zero (by omega : m ≠ 0)
        rw [List.append_assoc]
        simp only [Reading.repeated, hs _ hhead]
        rw [if_pos (by simp only [List.length_append]; omega), hr k hk m (by omega)]
      · cases e

theorem Follows.repeated {step step' : α → Reading (Option α)}
    (h : ∀ a, Follows (step a) (step' a)) (a : α) :
    Follows (fun ts => Reading.repeated step (ts.length + 1) a ts)
      fun ts => Reading.repeated step' (ts.length + 1) a ts := by
  intro ts b rest e
  have hstep : ∀ a ts c rest, step a ts = some (c, rest) → ∃ taken, ts = taken ++ rest ∧ True ∧
      ∀ k : List Token, rest.head? = k.head? → step' a (taken ++ k) = some (c, k) := by
    intro a ts c rest e
    obtain ⟨taken, hts, hs⟩ := h a e
    exact ⟨taken, hts, trivial, fun k hk => hs k hk.symm⟩
  obtain ⟨taken, rfl, -, hr⟩ := exists_repeated (fun _ => rfl) (fun _ _ _ _ => trivial) hstep e
  refine ⟨taken, rfl, fun k hk => hr k hk.symm _ ?_⟩
  rw [List.length_append]
  omega

end Follows

/-! ## 2. Parsers -/

/-- A reader of tokens that reads its parts with given readers. -/
structure Parser {ι : Type} (R : ι → Type) (α : Type) where
  /-- Reads, given the readers for the parts. -/
  run : ((i : ι) → Reading (R i)) → Reading α
  follows : ∀ {p q : (i : ι) → Reading (R i)}, (∀ i, Follows (p i) (q i)) → Follows (run p) (run q)

namespace Parser

variable {ι : Type} {R : ι → Type} {α : Type}

instance : Monad (Parser R) where
  pure a := ⟨fun _ ts => some (a, ts), fun _ => follows_pure a⟩
  bind x f := ⟨fun p => (x.run p).andThen fun a => (f a).run p,
    fun h => (x.follows h).andThen fun a => (f a).follows h⟩

/-- Reads a part. -/
def part (i : ι) : Parser R (R i) := ⟨fun p => p i, fun h => h i⟩

/-- The next token. -/
def peek : Parser R (Option Token) := ⟨fun _ ts => some (ts.head?, ts), fun _ => follows_peek⟩

/-- Takes the next token. -/
def skip : Parser R Unit := ⟨fun _ ts => some ((), ts.drop 1), fun _ => follows_skip⟩

/-- Refuses. -/
def refuse : Parser R α := ⟨fun _ _ => none, fun _ => follows_refuse _⟩

/-- Repeats a step that either goes on with a new result or stops. A step that goes on takes at least
one token. -/
def repeatStep (step : α → Parser R (Option α)) (a : α) : Parser R α :=
  ⟨fun p ts => Reading.repeated (fun a => (step a).run p) (ts.length + 1) a ts,
    fun h => Follows.repeated (fun a => (step a).follows h) a⟩

section Run

variable {β : Type} (p : (i : ι) → Reading (R i)) (ts : List Token)

@[simp] theorem run_pure (a : α) : (pure a : Parser R α).run p ts = some (a, ts) := rfl

@[simp] theorem run_bind (x : Parser R α) (f : α → Parser R β) :
    (x >>= f).run p = (x.run p).andThen fun a => (f a).run p := rfl

@[simp] theorem run_part (i : ι) : (part i : Parser R (R i)).run p = p i := rfl

@[simp] theorem run_peek : (peek : Parser R _).run p ts = some (ts.head?, ts) := rfl

@[simp] theorem run_skip : (skip : Parser R _).run p ts = some ((), ts.drop 1) := rfl

@[simp] theorem run_refuse : (refuse : Parser R α).run p ts = none := rfl

end Run

/-- Whether the next token is `t`. -/
def at? (t : Token) : Parser R Bool := do return (← peek) = some t

/-- Whether the next token is the operator. -/
def atOp (o : Op) : Parser R Bool := at? (.op o)

/-- Whether the next token is a semicolon. -/
def atSemi : Parser R Bool := do
  match ← peek with
  | some (.semi _) => return true
  | _ => return false

/-- Takes the token if it comes next, and tells whether it did. -/
def accept (t : Token) : Parser R Bool := do
  if ← at? t then
    skip
    return true
  else return false

theorem run_accept (t : Token) (p : (i : ι) → Reading (R i)) (ts : List Token) :
    (accept t).run p ts =
      if ts.head? = some t then some (true, ts.drop 1) else some (false, ts) := by
  by_cases h : ts.head? = some t <;> simp [accept, at?, Reading.andThen, h]

/-- Takes the operator if it comes next, and tells whether it did. -/
def acceptOp (o : Op) : Parser R Bool := accept (.op o)

/-- Takes the token, which must come next. -/
def expect (t : Token) : Parser R Unit := do
  unless ← accept t do refuse

theorem run_expect (t : Token) (p : (i : ι) → Reading (R i)) (ts : List Token) :
    (expect t).run p ts = if ts.head? = some t then some ((), ts.drop 1) else none := by
  by_cases h : ts.head? = some t <;> simp [expect, run_accept, Reading.andThen, h]

/-- Takes the operator, which must come next. -/
def expectOp (o : Op) : Parser R Unit := expect (.op o)

/-- Takes the key word, which must come next. -/
def expectWord (w : Word) : Parser R Unit := expect (.word w)

/-- Takes a name. -/
def name : Parser R String := do
  match ← peek with
  | some (.name s) =>
    skip
    return s
  | _ => refuse

/-- Takes the semicolon behind a statement or a field, which a closing bracket stands for. -/
def endStatement : Parser R Unit := do
  match ← peek with
  | some (.semi _) => skip
  | some (.op .rparen) | some (.op .rbrace) => return ()
  | _ => refuse

/-- In a list that `closing` ends: takes a comma and says that the list may go on; or says that the
list ends here. Anything else is refused. -/
def comma (closing : Op) : Parser R Bool := do
  if ← acceptOp .comma then return true
  if ← atOp closing then return false
  refuse

/-- Items up to a closing bracket, with commas between them and possibly one behind the last; the
bracket itself stays. -/
def listUntil (closing : Op) (item : Parser R α) : Parser R (List α) :=
  List.reverse <$> (Prod.fst <$> repeatStep (fun (acc, more) => do
    if !more || (← atOp closing) then return none
    let a ← item
    return some (a :: acc, ← comma closing)) ([], true))

/-- Items with commas between them, at least one. -/
def separated (item : Parser R α) : Parser R (List α) := do
  let first ← item
  List.reverse <$> repeatStep (fun acc => do
    if ← acceptOp .comma then return some ((← item) :: acc) else return none) [first]

end Parser

end Lasso.Lang
