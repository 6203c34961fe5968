import Mathlib.Data.List.Basic
import Lasso.Proofs.Lang.Brackets
/-!
# Sequences of statements

Statements stand one behind the other up to a closing bracket or the next case. Each ends at a semicolon,
or before a closing bracket at a token that can end a statement.

* `Gives` -- what holds of every result of a rule, `ReadsStmt` -- the ways in which a statement is read;
* `run_stmtList_eq_some_iff` -- **a list of statements is a sequence of them** (`Sequence`);
* `exists_taken` -- an assignment is read the same whatever follows its semicolon;
* `Sequence.append` -- **a text that ends between two statements can be continued**: the statements of what
  follows come behind its own.
-/

namespace Lasso.Lang

open Lasso.Lang.Parser

/-! ## 1. Results -/

section Results

variable {α β : Type} {P : α → Prop} {Q : β → Prop} {x : Rule α} {f : α → Rule β}
  {p : (g : Goal) → Reading g.Result} {ts rest : List Token}

theorem run_map (f : α → β) (x : Rule α) (p : (g : Goal) → Reading g.Result) (ts : List Token) :
    (f <$> x).run p ts = (x.run p ts).map fun r => (f r.1, r.2) := by
  change Reading.andThen (x.run p) _ ts = _
  rw [Reading.andThen]
  cases x.run p ts <;> rfl

/-- Whatever the rule reads, its result satisfies `P`. -/
def Gives (P : α → Prop) (x : Rule α) : Prop := ∀ ⦃p ts a rest⦄, x.run p ts = some (a, rest) → P a

theorem gives_pure {a : α} (h : P a) : Gives P (pure a : Rule α) := by
  intro p ts b rest e
  cases e
  exact h

theorem gives_refuse : Gives P (refuse : Rule α) := fun _ _ _ _ e => nomatch e

theorem Gives.bind (hx : Gives P x) (hf : ∀ a, P a → Gives Q (f a)) : Gives Q (x >>= f) := by
  intro p ts b rest e
  obtain ⟨a, mid, ha, e⟩ := Reading.andThen_eq_some e
  exact hf a (hx ha) e

/-- The result is that of what is read last. -/
theorem Gives.behind (x : Rule α) (hf : ∀ a, Gives Q (f a)) : Gives Q (x >>= f) :=
  Gives.bind (P := fun _ => True) (fun _ _ _ _ _ => trivial) fun a _ => hf a

theorem Gives.map {g : α → β} (h : Gives (fun a => Q (g a)) x) : Gives Q (g <$> x) := by
  intro p ts b rest e
  rw [run_map] at e
  obtain ⟨⟨a, rest'⟩, ha, heq⟩ := Option.map_eq_some_iff.mp e
  cases heq
  exact h ha

/-- What holds at the start of a repetition and is kept by its steps holds at its end. -/
theorem Reading.repeated_induct {step : α → Reading (Option α)}
    (hstep : ∀ a ts b mid, P a → step a ts = some (some b, mid) → P b) {n : Nat} {a b : α} (ha : P a)
    (h : Reading.repeated step n a ts = some (b, rest)) : P b := by
  induction n generalizing a ts with
  | zero => cases h
  | succ n ih =>
    unfold Reading.repeated at h
    split at h
    · cases h
    · cases h
      exact ha
    · rename_i c mid hc
      split at h
      · exact ih (hstep _ _ _ _ ha hc) h
      · cases h

theorem Gives.repeatStep {step : α → Rule (Option α)}
    (h : ∀ a, P a → Gives (fun b? => ∀ b ∈ b?, P b) (step a)) {a : α} (ha : P a) :
    Gives P (repeatStep step a) := by
  intro p ts b rest e
  exact Reading.repeated_induct (fun a ts b mid ha e => h a ha e b rfl) ha e

/-- The same where the first step makes it hold. -/
theorem Gives.repeatStep_of_first {step : α → Rule (Option α)}
    (h : ∀ a, P a → Gives (fun b? => ∀ b ∈ b?, P b) (step a)) {a b : α}
    (hfirst : ∀ b? mid, (step a).run p ts = some (b?, mid) → ∃ b ∈ b?, P b)
    (e : (Parser.repeatStep step a).run p ts = some (b, rest)) : P b := by
  unfold Parser.repeatStep Reading.repeated at e
  split at e
  · cases e
  · rename_i hstop
    obtain ⟨b, hb, -⟩ := hfirst _ _ hstop
    cases hb
  · rename_i c mid hc
    obtain ⟨b, hb, hP⟩ := hfirst _ _ hc
    cases hb
    split at e
    · exact Reading.repeated_induct (fun a ts b mid ha e => h a ha e b rfl) hP e
    · cases e

end Results

/-! ## 2. Simple statements -/

/-- Whether the expression is a name. -/
def Expr.isName : Expr → Bool
  | .name _ => true
  | _ => false

/-- Whether the statement does nothing but assign to names. -/
def Stmt.assignsNames : Stmt → Bool
  | .empty => true
  | .assign lhs _ _ => lhs.all Expr.isName
  | .increment x | .decrement x => x.isName
  | .expr _ | .labeled | .other => false

/-- The statement starts with the expression, if that is kept. -/
def Stmt.StartsWith (x : Expr) : Stmt → Prop
  | .assign lhs _ _ => lhs.head? = some x
  | .increment y | .decrement y | .expr y => y = x
  | .labeled | .other => True
  | .empty => False

theorem Stmt.StartsWith.assignsNames {s : Stmt} {x : Expr} (h : s.StartsWith x) (hx : x.isName = false) :
    s.assignsNames = false := by
  cases s with
  | empty => cases h
  | assign lhs o rhs =>
    obtain ⟨tail, rfl⟩ := List.head?_eq_some_iff.mp h
    simp [Stmt.assignsNames, hx]
  | increment y | decrement y =>
    cases h
    exact hx
  | _ => rfl

section Simple

variable {α : Type} {item : Rule α} {lit r : Bool} {p : (g : Goal) → Reading g.Result}
  {ts rest : List Token} {s : Stmt}

theorem isPhrase_separated (h : IsPhrase item) : IsPhrase (separated item) := by
  refine h.bind fun first => (isTail_repeatStep (fun acc => ?_) _).bind fun _ => isTail_pure _
  exact phrased_acceptOp (by decide) (h.map) (isTail_pure _)

/-- A simple statement that is no label is a phrase. -/
theorem isPhrase_simpleStmt (lit : Bool) : IsPhrase (simpleStmt lit .basic) := by
  have hexpr : IsPhrase (ask (.expr lit 1)) := isPhrase_ask rfl fun _ => trivial
  have hexprs : IsPhrase (separated (ask (.expr lit 1))) := isPhrase_separated hexpr
  refine hexprs.bind fun xs => phrased_peek (fun o => ?_) fun b => ?_
  · split
    · rename_i o x others
      split
      · exact phrased_behind _ (fun _ => hexprs.map) _
      · cases others with
        | cons y others => exact fun _ _ _ _ _ _ _ e => nomatch e
        | nil =>
          simp only [List.isEmpty_nil, if_true]
          split
          · exact phrased_refuse _
          · exact phrased_refuse _
          · exact phrased_behind _ (fun _ => hexpr.map) _
          · exact phrasedAt_skip rfl (isTail_pure _)
          · exact phrasedAt_skip rfl (isTail_pure _)
          · exact isTail_pure _ _
    · exact isTail_pure _ _
    · exact phrased_refuse _
  · cases xs with
    | nil => rfl
    | cons x others => cases others <;> rfl

/-- A label apart, what is a simple statement where a label may stand is one where none may. -/
theorem simpleStmt_basic (h : (simpleStmt lit .labelOk).run p ts = some ((s, r), rest))
    (hs : s ≠ .labeled) : (simpleStmt lit .basic).run p ts = some ((s, r), rest) := by
  obtain ⟨xs, mid, hxs, h⟩ := Reading.andThen_eq_some h
  unfold simpleStmt
  rw [run_bind, Reading.andThen, hxs]
  simp only
  rw [run_bind, Reading.andThen, run_peek] at h ⊢
  simp only at h ⊢
  split at h
  · rename_i o x others hhead
    by_cases hassigns : o.assigns = true
    · rw [if_pos hassigns] at h ⊢
      exact h
    rw [if_neg hassigns] at h ⊢
    cases others with
    | cons y others => cases h
    | nil =>
      simp only [List.isEmpty_nil, if_true] at h ⊢
      split at h
      · have hlabeled : Gives (·.1 = .labeled) (do
            skip
            let _ ← ask .stmt
            return (.labeled, false) : Rule (Stmt × Bool)) :=
          .behind _ fun _ => .behind _ fun _ => gives_pure rfl
        exact absurd (hlabeled h) hs
      all_goals exact h
  · exact h
  · cases h

/-- A list with commas starts with its first item. -/
theorem exists_item {xs : List α} (h : (separated item).run p ts = some (xs, rest)) :
    ∃ x mid, item.run p ts = some (x, mid) ∧ xs.head? = some x := by
  obtain ⟨x, mid, hx, h⟩ := Reading.andThen_eq_some h
  refine ⟨x, mid, hx, ?_⟩
  -- the items are collected in reverse, so that the first one stays the last
  have hfirst : Gives (fun acc : List α => acc.getLast? = some x) (repeatStep (fun acc => do
      if ← acceptOp .comma then return some ((← item) :: acc) else return none) [x]) := by
    refine Gives.repeatStep (fun acc hacc => .behind _ fun comma => ?_) rfl
    split
    · refine .behind _ fun y => gives_pure fun b hb => ?_
      cases hb
      rw [List.getLast?_cons, hacc]
      rfl
    · exact gives_pure nofun
  exact Gives.map (Q := fun xs => xs.head? = some x)
    (fun _ _ _ _ e => List.head?_reverse.trans (hfirst e)) h

/-- A simple statement starts with an expression. -/
theorem exists_startsWith (h : (simpleStmt lit .basic).run p ts = some ((s, r), rest)) :
    ∃ x mid, p (.expr lit 1) ts = some (x, mid) ∧ s.StartsWith x := by
  obtain ⟨xs, mid, hxs, h⟩ := Reading.andThen_eq_some h
  obtain ⟨x, mid', hx, hhead⟩ := exists_item hxs
  refine ⟨x, mid', hx, Gives.behind (Q := fun r => r.1.StartsWith x) peek (fun o => ?_) h⟩
  split
  · rename_i o y others
    cases hhead
    split
    · exact .behind _ fun _ => .behind _ fun _ => gives_pure rfl
    · cases others with
      | cons y others => exact gives_refuse.bind (P := fun _ => False) nofun
      | nil =>
        simp only [List.isEmpty_nil, if_true]
        split
        · exact gives_refuse
        · exact gives_refuse
        · exact .behind _ fun _ => .behind _ fun _ => gives_pure trivial
        · exact .behind _ fun _ => gives_pure rfl
        · exact .behind _ fun _ => gives_pure rfl
        · exact gives_pure rfl
  · cases hhead
    exact gives_pure rfl
  · exact gives_refuse

end Simple

/-! ## 3. Statements -/

/-- How a statement is read: an empty one, one of which nothing is kept, or a simple one. -/
inductive ReadsStmt (p : (g : Goal) → Reading g.Result) (ts : List Token) : Stmt → List Token → Prop
  | empty {b : Bool} {rest : List Token} (h : ts = .semi b :: rest) : ReadsStmt p ts .empty rest
  | closed (h : ts.head? = some (.op .rbrace)) : ReadsStmt p ts .empty ts
  | other {rest : List Token} : ReadsStmt p ts .other rest
  | simple {t : Token} {s : Stmt} {rest : List Token} (ht : ts.head? = some t)
      (h : (stmtRule.simple t).run p ts = some (s, rest)) : ReadsStmt p ts s rest

section Stmt

variable {p q : (g : Goal) → Reading g.Result} {ts rest k : List Token} {s : Stmt} {t : Token}

theorem readsStmt_of_gives {x : Rule Stmt} (hx : Gives (· = .other) x)
    (h : x.run p ts = some (s, rest)) : ReadsStmt p ts s rest := by
  obtain rfl : s = .other := hx h
  exact .other

theorem readsStmt_of_run (h : stmtRule.run p ts = some (s, rest)) : ReadsStmt p ts s rest := by
  unfold stmtRule at h
  rw [run_bind, Reading.andThen, run_peek] at h
  simp only at h
  split at h
  · cases h
  · rename_i b hhead
    obtain ⟨tail, rfl⟩ := List.head?_eq_some_iff.mp hhead
    cases h
    exact .empty rfl
  · rename_i hhead
    cases h
    exact .closed hhead
  · exact readsStmt_of_gives (.behind _ fun _ => .behind _ fun _ => gives_pure rfl) h
  · rename_i w hhead
    cases w with
    | const | type | var | «if» => exact readsStmt_of_gives (.behind _ fun _ => gives_pure rfl) h
    | go | defer | switch | select | «for» | «fallthrough» =>
      exact readsStmt_of_gives (.behind _ fun _ => .behind _ fun _ => gives_pure rfl) h
    | goto =>
      exact readsStmt_of_gives (.behind _ fun _ => .behind _ fun _ => .behind _ fun _ => gives_pure rfl) h
    | «return» =>
      refine readsStmt_of_gives (.behind _ fun _ => .behind _ fun _ => .behind _ fun _ => ?_) h
      split
      · exact .behind _ fun _ => gives_pure rfl
      · exact .behind _ fun _ => .behind _ fun _ => gives_pure rfl
    | «break» | «continue» =>
      refine readsStmt_of_gives (.behind _ fun _ => .behind _ fun o => ?_) h
      split
      · exact .behind _ fun _ => .behind _ fun _ => gives_pure rfl
      · exact .behind _ fun _ => gives_pure rfl
    | _ => exact .simple hhead h
  · rename_i hhead
    exact .simple hhead h

/-- What ends a statement: a semicolon, which is taken, or a closing bracket, which is not. -/
theorem endStatement_cases {u : Unit} (h : (endStatement : Rule Unit).run p ts = some (u, rest)) :
    (∃ b, ts = .semi b :: rest) ∨
      ts = rest ∧ (rest.head? = some (.op .rparen) ∨ rest.head? = some (.op .rbrace)) := by
  unfold endStatement at h
  rw [run_bind, Reading.andThen, run_peek] at h
  simp only at h
  split at h
  · rename_i b hhead
    obtain ⟨tail, rfl⟩ := List.head?_eq_some_iff.mp hhead
    cases h
    exact Or.inl ⟨b, rfl⟩
  · rename_i hhead
    cases h
    exact Or.inr ⟨rfl, Or.inl hhead⟩
  · rename_i hhead
    cases h
    exact Or.inr ⟨rfl, Or.inr hhead⟩
  · cases h

/-- A simple statement and what ends it; a label needs no end. -/
theorem exists_simpleStmt (h : (stmtRule.simple t).run p ts = some (s, rest)) :
    startsSimple t = true ∧ (s = .labeled ∨ ∃ r mid,
      (simpleStmt true .labelOk).run p ts = some ((s, r), mid) ∧
        (endStatement : Rule Unit).run p mid = some ((), rest)) := by
  unfold stmtRule.simple at h
  cases hstarts : startsSimple t with
  | false =>
    rw [hstarts] at h
    cases h
  | true =>
    rw [hstarts] at h
    obtain ⟨⟨s', r⟩, mid, hsimple, h⟩ := Reading.andThen_eq_some h
    refine ⟨rfl, ?_⟩
    simp only at h
    split at h
    · rename_i hlabeled
      cases h
      exact Or.inl hlabeled
    · obtain ⟨_, mid', hend, h⟩ := Reading.andThen_eq_some h
      cases h
      exact Or.inr ⟨r, mid, hsimple, hend⟩

/-- The first token tells that a statement is simple. -/
theorem run_stmtRule_of_startsSimple (h : startsSimple t = true) (ts : List Token) :
    stmtRule.run q (t :: ts) = (stmtRule.simple t).run q (t :: ts) := by
  cases t with
  | op o => cases o <;> first | rfl | cases h
  | word w => cases w <;> first | rfl | cases h
  | semi b => cases h
  | _ => rfl

theorem run_simple_of_semi {r b : Bool} (h : startsSimple t = true) (hs : s ≠ .labeled)
    (hsimple : (simpleStmt true .labelOk).run q ts = some ((s, r), .semi b :: k)) :
    (stmtRule.simple t).run q ts = some (s, k) := by
  unfold stmtRule.simple
  rw [h, if_pos rfl, run_bind, Reading.andThen, hsimple]
  simp only
  rw [if_neg hs]
  rfl

/-- **A statement of which something is kept ends at a semicolon**, whatever follows it then, or a closing
    bracket follows a token that can end a statement. -/
theorem exists_taken (hsound : Sound p q) (h : stmtRule.run p ts = some (s, rest))
    (hopen : ts.head? ≠ some (.op .rbrace)) (hother : s ≠ .other) (hlabeled : s ≠ .labeled) :
    ∃ taken, taken ≠ [] ∧ ts = taken ++ rest ∧ ((∀ k, stmtRule.run q (taken ++ k) = some (s, k)) ∨
      EndsWell taken ∧ (rest.head? = some (.op .rparen) ∨ rest.head? = some (.op .rbrace))) := by
  cases readsStmt_of_run h with
  | @empty b _ hts => exact ⟨[.semi b], List.cons_ne_nil _ _, hts, Or.inl fun k => rfl⟩
  | closed hclosed => exact absurd hclosed hopen
  | other => exact absurd rfl hother
  | @simple t _ _ ht hsimple =>
    obtain ⟨hstarts, hl | ⟨r, mid, hread, hend⟩⟩ := exists_simpleStmt hsimple
    · exact absurd hl hlabeled
    obtain ⟨taken, rfl, hne, hends, -⟩ :=
      isPhrase_simpleStmt true _ hsound rfl (simpleStmt_basic hread hlabeled)
    obtain ⟨u, us, rfl⟩ := List.exists_cons_of_ne_nil (hne trivial)
    obtain rfl : u = t := Option.some.inj ht
    rcases endStatement_cases hend with ⟨b, rfl⟩ | ⟨rfl, hclosing⟩
    · refine ⟨u :: us ++ [.semi b], nofun, by simp, Or.inl fun k => ?_⟩
      obtain ⟨taken', heq, hq⟩ := (simpleStmt true .labelOk).follows hsound.follows hread
      obtain rfl := List.append_cancel_right heq
      rw [List.append_assoc, List.cons_append, run_stmtRule_of_startsSimple hstarts]
      exact run_simple_of_semi hstarts hlabeled (hq (.semi b :: k) rfl)
    · exact ⟨u :: us, nofun, rfl, Or.inr ⟨hends, hclosing⟩⟩

end Stmt

/-! ## 4. Sequences -/

/-- Whether a list of statements ends before the token. -/
def endsList : Option Token → Bool
  | none | some (.word .case) | some (.word .default) | some (.op .rbrace) => true
  | _ => false

/-- The statements `ss` stand one behind the other, and `rest` is behind them. -/
inductive Sequence (p : (g : Goal) → Reading g.Result) : List Token → List Stmt → List Token → Prop
  | stop {ts : List Token} (hends : endsList ts.head? = true) : Sequence p ts [] ts
  | step {ts mid rest : List Token} {s : Stmt} {ss : List Stmt} (hends : endsList ts.head? = false)
      (hstmt : p .stmt ts = some (s, mid)) (hlt : mid.length < ts.length)
      (hrest : Sequence p mid ss rest) : Sequence p ts (s :: ss) rest

section Sequence

variable {p : (g : Goal) → Reading g.Result} {ts rest : List Token} {ss : List Stmt}

/-- One turn of the loop that reads a list of statements. -/
def nextStmt (acc : List Stmt) : Rule (Option (List Stmt)) := do
  match ← peek with
  | none | some (.word .case) | some (.word .default) | some (.op .rbrace) => return none
  | _ => return some ((← ask .stmt) :: acc)

theorem stmtList_eq : stmtList = List.reverse <$> repeatStep nextStmt [] := rfl

theorem run_nextStmt_of_stop (h : endsList ts.head? = true) (acc : List Stmt) :
    (nextStmt acc).run p ts = some (none, ts) := by
  unfold nextStmt
  rw [run_bind, Reading.andThen, run_peek]
  simp only
  generalize ts.head? = o at h
  unfold endsList at h
  split at h
  · rfl
  · rfl
  · rfl
  · rfl
  · cases h

theorem run_nextStmt_of_step (h : endsList ts.head? = false) (acc : List Stmt) :
    (nextStmt acc).run p ts = (p .stmt ts).map fun r => (some (r.1 :: acc), r.2) := by
  unfold nextStmt
  rw [run_bind, Reading.andThen, run_peek]
  simp only
  generalize ts.head? = o at h
  unfold endsList at h
  split at h
  · cases h
  · cases h
  · cases h
  · cases h
  · rw [run_bind, Reading.andThen, ask, run_part]
    cases p .stmt ts <;> rfl

theorem Sequence.repeated (h : Sequence p ts ss rest) {n : Nat} (hn : ts.length < n) (acc : List Stmt) :
    Reading.repeated (fun acc => (nextStmt acc).run p) n acc ts = some (ss.reverse ++ acc, rest) := by
  induction h generalizing n acc with
  | stop hends =>
    obtain ⟨n, rfl⟩ := Nat.exists_eq_succ_of_ne_zero (by omega : n ≠ 0)
    simp only [Reading.repeated, run_nextStmt_of_stop hends]
    rfl
  | step hends hstmt hlt _ ih =>
    obtain ⟨n, rfl⟩ := Nat.exists_eq_succ_of_ne_zero (by omega : n ≠ 0)
    simp only [Reading.repeated, run_nextStmt_of_step hends, hstmt, Option.map_some, if_pos hlt]
    rw [ih (by omega), List.reverse_cons, List.append_assoc]
    rfl

theorem exists_sequence {n : Nat} {acc out : List Stmt}
    (h : Reading.repeated (fun acc => (nextStmt acc).run p) n acc ts = some (out, rest)) :
    ∃ ss, Sequence p ts ss rest ∧ out = ss.reverse ++ acc := by
  induction n generalizing acc ts with
  | zero => cases h
  | succ n ih =>
    cases hends : endsList ts.head? with
    | true =>
      simp only [Reading.repeated, run_nextStmt_of_stop hends] at h
      cases h
      exact ⟨[], .stop hends, rfl⟩
    | false =>
      simp only [Reading.repeated, run_nextStmt_of_step hends] at h
      cases hstmt : p .stmt ts with
      | none =>
        rw [hstmt] at h
        cases h
      | some r =>
        obtain ⟨s, mid⟩ := r
        rw [hstmt] at h
        simp only [Option.map_some] at h
        split at h
        · rename_i hlt
          obtain ⟨ss, hss, rfl⟩ := ih h
          exact ⟨s :: ss, .step hends hstmt hlt hss, by simp⟩
        · cases h

/-- **A list of statements is read** exactly if it is a sequence of them. -/
theorem run_stmtList_eq_some_iff : stmtList.run p ts = some (ss, rest) ↔ Sequence p ts ss rest := by
  have hrun : stmtList.run p ts =
      (Reading.repeated (fun acc => (nextStmt acc).run p) (ts.length + 1) [] ts).map
        fun r => (r.1.reverse, r.2) := by
    rw [stmtList_eq, run_map]
    rfl
  rw [hrun]
  constructor
  · intro h
    obtain ⟨⟨out, rest'⟩, hrep, heq⟩ := Option.map_eq_some_iff.mp h
    cases heq
    obtain ⟨ss, hss, rfl⟩ := exists_sequence hrep
    rwa [List.append_nil, List.reverse_reverse]
  · intro h
    rw [h.repeated (Nat.lt_succ_self _), Option.map_some, List.append_nil, List.reverse_reverse]

theorem Sequence.eq_of_endsList (h : Sequence p ts ss rest) (hends : endsList ts.head? = true) :
    ts = rest := by
  cases h with
  | stop => rfl
  | step hgoes =>
    rw [hends] at hgoes
    cases hgoes

end Sequence

/-! ## 5. Sequences one behind the other -/

section Append

variable {n m : Nat} {ts us e k rest : List Token} {ss ss' : List Stmt}

/-- A sequence takes the beginning of the tokens, also at a greater depth and before other tokens, as long as
    the next one is the same. -/
theorem Sequence.follows (h : Sequence (parse n) ts ss rest) (hnm : n ≤ m) :
    ∃ taken, ts = taken ++ rest ∧ ∀ k, k.head? = rest.head? → Sequence (parse m) (taken ++ k) ss k := by
  obtain ⟨taken, hts, hq⟩ := stmtList.follows (sound_parse hnm).follows (run_stmtList_eq_some_iff.mpr h)
  exact ⟨taken, hts, fun k hk => run_stmtList_eq_some_iff.mp (hq k hk)⟩

theorem Sequence.mono (h : Sequence (parse n) ts ss rest) (hnm : n ≤ m) :
    Sequence (parse m) ts ss rest := by
  obtain ⟨taken, rfl, hq⟩ := h.follows hnm
  exact hq rest rfl

theorem Sequence.exists_taken (h : Sequence (parse n) ts ss rest) : ∃ taken, ts = taken ++ rest := by
  obtain ⟨taken, hts, -⟩ := h.follows (Nat.le_refl n)
  exact ⟨taken, hts⟩

/-- No statement starts with a closing bracket. -/
theorem Sequence.head?_ne_rparen (h : Sequence (parse n) ts ss rest) :
    ts.head? ≠ some (.op .rparen) := by
  intro hhead
  obtain ⟨tail, rfl⟩ := List.head?_eq_some_iff.mp hhead
  cases h with
  | stop hends => cases hends
  | step _ hstmt =>
    cases n with
    | zero => cases hstmt
    | succ n => cases hstmt

/-- **A text that ends between statements can be continued**: the statements of what follows come behind
    its own. A bracket that closes the text stands for a semicolon only behind a token that can end a
    statement, and the last one cannot. -/
theorem Sequence.append (h : Sequence (parse n) (us ++ e) ss e) (hnm : n ≤ m)
    (he : e.head? = some (.op .rbrace)) (hss : ∀ s ∈ ss, s.assignsNames = true)
    (hlast : ∀ t ∈ us.getLast?, t.ends = false) (hk : Sequence (parse m) k ss' rest) :
    Sequence (parse m) (us ++ k) (ss ++ ss') rest := by
  generalize hts : us ++ e = ts at h
  induction h generalizing us with
  | stop =>
    obtain rfl : us = [] := List.append_left_eq_self.mp hts
    exact hk
  | @step ts mid e s ss hends hstmt _ hrest ih =>
    subst hts
    obtain ⟨us', rfl⟩ := hrest.exists_taken
    obtain ⟨hs, hss⟩ := List.forall_mem_cons.mp hss
    cases n with
    | zero => cases hstmt
    | succ n =>
      obtain ⟨m, rfl⟩ := Nat.exists_eq_succ_of_ne_zero (by omega : m ≠ 0)
      have hsound : Sound (parse n) (parse m) := sound_parse (by omega)
      have hopen : (us ++ e).head? ≠ some (.op .rbrace) := by
        intro hhead
        rw [hhead] at hends
        cases hends
      obtain ⟨taken, hne, heq, hread⟩ := Lang.exists_taken hsound hstmt hopen
        (by rintro rfl; cases hs) (by rintro rfl; cases hs)
      rw [← List.append_assoc] at heq
      obtain rfl := List.append_cancel_right heq
      rcases hread with hread | ⟨hwell, hclosing⟩
      · have hlast' : ∀ t ∈ us'.getLast?, t.ends = false := fun t ht => hlast t (by
          rw [List.getLast?_append, Option.mem_def.mp ht]
          rfl)
        rw [List.append_assoc] at hends ⊢
        refine .step ?_ (hread (us' ++ k)) ?_ (ih he hss hlast' rfl)
        · rwa [List.head?_append_of_ne_nil _ hne] at hends ⊢
        · have hpos := List.length_pos_iff.mpr hne
          simp only [List.length_append]
          omega
      · exfalso
        rcases hclosing with hclosing | hclosing
        · exact hrest.head?_ne_rparen hclosing
        · -- nothing comes behind the statement, so that its last token is the last one of all
          have hstop : us' ++ e = e := hrest.eq_of_endsList (by rw [hclosing]; rfl)
          obtain rfl : us' = [] := List.append_left_eq_self.mp hstop
          rw [List.append_nil] at hlast
          have ht := List.getLast?_eq_some_getLast hne
          exact absurd (hwell _ ht) (by rw [hlast _ ht]; decide)

end Append

end Lasso.Lang
