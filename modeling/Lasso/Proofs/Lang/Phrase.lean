import Lasso.Lang.Grammar
/-!
# Expressions and types are phrases

A reader of an expression or of a type stops at a semicolon as it stops at a closing bracket, and the
last token that it takes is one that can end a statement. So what is an expression in front of the
semicolon that ends a text is the same expression in front of a bracket.

* `Stops` -- how such a reading ends; `Phrased` -- the rules that read so, given that the readers of
  their parts do (`Sound`);
* one lemma for each rule of types and expressions, put together from those for sequences, choices and
  repetitions;
* `sound_parse` -- **every reading of the grammar goes on at a greater depth and before other tokens**,
  and those of expressions and types are phrases.
-/

namespace Lasso.Lang

open Lasso.Lang.Parser

variable {α β : Type}

/-! ## 1. Ends of phrases -/

/-- Whether a line break behind the token ends a statement. -/
def Token.ends : Token → Bool
  | .name _ | .int _ | .str _ | .literal => true
  | .op o => o.endsStatement
  | .word w => w.endsStatement
  | .semi _ => false

/-- The next token is the same, or a closing bracket in the place of a semicolon. -/
def Alike (o o' : Option Token) : Prop :=
  o' = o ∨ (∃ b, o = some (.semi b)) ∧ o' = some (.op .rparen)

theorem Alike.refl (o : Option Token) : Alike o o := Or.inl rfl

theorem Alike.append {rest k : List Token} (h : Alike rest.head? k.head?) (taken : List Token) :
    Alike (taken ++ rest).head? (taken ++ k).head? := by
  cases taken with
  | nil => exact h
  | cons t taken => exact Alike.refl _

/-- The last token, if there is one, can end a statement. -/
def EndsWell (ts : List Token) : Prop := ∀ t ∈ ts.getLast?, t.ends = true

theorem EndsWell.nil : EndsWell [] := fun _ h => nomatch h

theorem EndsWell.append {us vs : List Token} (hu : EndsWell us) (hv : EndsWell vs) :
    EndsWell (us ++ vs) := by
  intro t ht
  rw [List.getLast?_append] at ht
  cases hlast : vs.getLast? with
  | none => exact hu t (by rwa [hlast] at ht)
  | some v => exact hv t (by rwa [hlast] at ht ⊢)

theorem EndsWell.behind {vs : List Token} (hv : EndsWell vs) (h : vs ≠ []) (us : List Token) :
    EndsWell (us ++ vs) := by
  intro t ht
  rw [List.getLast?_append, List.getLast?_eq_some_getLast h] at ht
  exact hv t (by rwa [List.getLast?_eq_some_getLast h])

theorem EndsWell.singleton {t : Token} (h : t.ends = true) : EndsWell [t] := by
  intro u hu
  cases hu
  exact h

/-- The reading `q` takes a beginning of the tokens up to `rest`, whose last token can end a statement,
    and reads the same before everything that starts alike. It takes something if it `must`. -/
def Stops (q : Reading α) (must : Prop) (ts : List Token) (a : α) (rest : List Token) : Prop :=
  ∃ taken, ts = taken ++ rest ∧ (must → taken ≠ []) ∧ EndsWell taken ∧
    ∀ k, Alike rest.head? k.head? → q (taken ++ k) = some (a, k)

/-- Whether the readings of a goal are phrases. -/
def Goal.isPhrase : Goal → Bool
  | .stmt | .ifStmt => false
  | _ => true

/-- Whether a phrase with this result has tokens; only a type may be missing. -/
def Goal.must : (g : Goal) → g.Result → Prop
  | .type, t => t.isSome = true
  | _, _ => True

/-- What the readers of the parts `p` read, the readers `q` read as well, and expressions and types are
    phrases. -/
structure Sound (p q : (g : Goal) → Reading g.Result) : Prop where
  follows : ∀ g, Follows (p g) (q g)
  stops : ∀ g, g.isPhrase = true → ∀ ⦃ts a rest⦄, p g ts = some (a, rest) →
    Stops (q g) (g.must a) ts a rest

/-- A rule that reads phrases where the next token is `o`. -/
def PhrasedAt (o : Option Token) (must : α → Prop) (r : Rule α) : Prop :=
  ∀ ⦃p q⦄, Sound p q → ∀ ⦃ts a rest⦄, ts.head? = o → r.run p ts = some (a, rest) →
    Stops (r.run q) (must a) ts a rest

/-- A rule that reads phrases. -/
def Phrased (must : α → Prop) (r : Rule α) : Prop := ∀ o, PhrasedAt o must r

/-- A rule that reads phrases of at least one token. -/
abbrev IsPhrase (r : Rule α) : Prop := Phrased (fun _ => True) r

/-- A rule that reads what may follow in a phrase. -/
abbrev IsTail (r : Rule α) : Prop := Phrased (fun _ => False) r

/-! ## 2. Sequences, choices and repetitions -/

section Combinators

variable {o : Option Token} {m : α → Prop} {n : β → Prop} {x : Rule α} {f : α → Rule β}

theorem Phrased.mono {m' : α → Prop} (h : Phrased m x) (hm : ∀ a, m' a → m a) : Phrased m' x := by
  intro o p q hs ts a rest ho e
  obtain ⟨taken, hts, htakes, hends, hq⟩ := h o hs ho e
  exact ⟨taken, hts, fun hma => htakes (hm a hma), hends, hq⟩

theorem IsPhrase.phrased (h : IsPhrase x) (m : α → Prop) : Phrased m x := h.mono fun _ _ => trivial

theorem phrased_pure {a : α} (h : ¬ m a) : Phrased m (pure a : Rule α) := by
  intro o p q hs ts b rest ho e
  cases e
  exact ⟨[], rfl, fun hma => absurd hma h, EndsWell.nil, fun k _ => rfl⟩

theorem isTail_pure (a : α) : IsTail (pure a : Rule α) := phrased_pure id

theorem phrased_refuse : Phrased m (refuse : Rule α) := by
  intro o p q hs ts b rest ho e
  cases e

theorem phrased_ask {g : Goal} (h : g.isPhrase = true) : Phrased g.must (ask g) :=
  fun _ _ _ hs _ _ _ _ e => hs.stops g h e

/-- Two phrases one behind the other. -/
theorem Phrased.bind {m' : α → β → Prop} (hx : Phrased m x) (hf : ∀ a, Phrased (m' a) (f a))
    (hm : ∀ a b, n b → m a ∨ m' a b) : Phrased n (x >>= f) := by
  intro o p q hs ts b rest ho e
  obtain ⟨a, mid, hp, hfa⟩ := Reading.andThen_eq_some e
  obtain ⟨taken, rfl, htakes, hends, hq⟩ := hx o hs ho hp
  obtain ⟨taken', rfl, htakes', hends', hq'⟩ := hf a _ hs rfl hfa
  refine ⟨taken ++ taken', by rw [List.append_assoc], fun hn hnil => ?_, hends.append hends',
    fun k hk => ?_⟩
  · obtain ⟨h, h'⟩ := List.append_eq_nil_iff.mp hnil
    rcases hm a b hn with hma | hma
    · exact htakes hma h
    · exact htakes' hma h'
  · rw [List.append_assoc, run_bind, Reading.andThen, hq _ (hk.append taken')]
    exact hq' k hk

/-- A phrase with something behind it. -/
theorem IsPhrase.bind (hx : IsPhrase x) (hf : ∀ a, IsTail (f a)) : Phrased n (x >>= f) :=
  Phrased.bind hx hf fun _ _ _ => Or.inl trivial

theorem IsPhrase.map {g : α → β} (hx : IsPhrase x) : Phrased n (x >>= fun a => pure (g a)) :=
  hx.bind fun _ => isTail_pure _

theorem IsTail.bind (hx : IsTail x) (hf : ∀ a, Phrased n (f a)) : Phrased n (x >>= f) :=
  Phrased.bind hx hf fun _ _ hn => Or.inr hn

/-- A phrase behind anything: what is before it sees no further than the phrase. -/
theorem phrased_behind (x : Rule α) (hf : ∀ a, IsPhrase (f a)) : Phrased n (x >>= f) := by
  intro o p q hs ts b rest ho e
  obtain ⟨a, mid, hp, hfa⟩ := Reading.andThen_eq_some e
  obtain ⟨taken, rfl, hq⟩ := x.follows hs.follows hp
  obtain ⟨taken', rfl, htakes', hends', hq'⟩ := hf a _ hs rfl hfa
  have hne : taken' ≠ [] := htakes' trivial
  refine ⟨taken ++ taken', by rw [List.append_assoc], fun _ hnil => ?_, hends'.behind hne taken,
    fun k hk => ?_⟩
  · exact hne (List.append_eq_nil_iff.mp hnil).2
  · have hhead : (taken' ++ k).head? = (taken' ++ rest).head? := by
      rw [List.head?_append, List.head?_append, List.head?_eq_some_head hne]
      rfl
    rw [List.append_assoc, run_bind, Reading.andThen, hq _ hhead]
    exact hq' k hk

/-- A choice by the next token. It must not tell a semicolon from a closing bracket. -/
theorem phrased_peek {f : Option Token → Rule α} (h : ∀ o, PhrasedAt o m (f o))
    (hstop : ∀ b, f (some (.semi b)) = f (some (.op .rparen))) : Phrased m (peek >>= f) := by
  intro o p q hs ts a rest ho e
  obtain ⟨taken, rfl, htakes, hends, hq⟩ := h _ hs rfl e
  refine ⟨taken, rfl, htakes, hends, fun k hk => ?_⟩
  have hf : f (taken ++ k).head? = f (taken ++ rest).head? := by
    rcases hk.append taken with e | ⟨⟨b, e⟩, e'⟩
    · rw [e]
    · rw [e, e', hstop]
  rw [run_bind, Reading.andThen, run_peek]
  simp only [hf]
  exact hq k hk

/-- Taking a token that can end a statement. -/
theorem phrasedAt_skip {t : Token} (ht : t.ends = true) {r : Rule α} (hr : IsTail r) :
    PhrasedAt (some t) m (skip >>= fun _ => r) := by
  intro p q hs ts a rest ho e
  obtain ⟨tail, rfl⟩ := List.head?_eq_some_iff.mp ho
  obtain ⟨taken, rfl, -, hends, hq⟩ := hr _ hs rfl e
  exact ⟨t :: taken, rfl, fun _ => List.cons_ne_nil _ _, (EndsWell.singleton ht).append hends, hq⟩

/-- Whether a token comes next, which is neither a semicolon nor a closing bracket. -/
theorem isTail_at? {t : Token} (ht : ∀ b, t ≠ .semi b) (hr : t ≠ .op .rparen) :
    IsTail (at? t : Rule Bool) := by
  refine phrased_peek (fun o => isTail_pure _ o) fun b => ?_
  rw [decide_eq_false fun h => ht b (Option.some.inj h).symm,
    decide_eq_false fun h => hr (Option.some.inj h).symm]

theorem isTail_atOp {op : Op} (h : op ≠ .rparen) : IsTail (atOp op : Rule Bool) :=
  isTail_at? (fun _ h => nomatch h) fun e => h (Token.op.inj e)

/-- Taking an operator if it comes next, with a phrase behind it then. -/
theorem phrased_acceptOp {op : Op} (hop : op ≠ .rparen) {f : Bool → Rule α}
    (htrue : IsPhrase (f true)) (hfalse : Phrased m (f false)) : Phrased m (acceptOp op >>= f) := by
  intro o p q hs ts a rest ho e
  simp only [acceptOp, run_bind, Reading.andThen, run_accept] at e
  by_cases hhead : ts.head? = some (.op op)
  · obtain ⟨tail, rfl⟩ := List.head?_eq_some_iff.mp hhead
    rw [if_pos hhead] at e
    obtain ⟨taken, rfl, htakes, hends, hq⟩ := htrue _ hs rfl e
    refine ⟨.op op :: taken, rfl, fun _ => List.cons_ne_nil _ _, hends.behind (htakes trivial) [_],
      fun k hk => ?_⟩
    rw [acceptOp, run_bind, Reading.andThen, run_accept, if_pos (by rfl)]
    exact hq k hk
  · rw [if_neg hhead] at e
    obtain ⟨taken, rfl, htakes, hends, hq⟩ := hfalse _ hs rfl e
    refine ⟨taken, rfl, htakes, hends, fun k hk => ?_⟩
    have hhead' : (taken ++ k).head? ≠ some (.op op) := by
      rcases hk.append taken with e | ⟨-, e⟩
      · rwa [e]
      · rw [e]
        exact fun h => hop (Token.op.inj (Option.some.inj h)).symm
    simp only [acceptOp, run_bind, Reading.andThen, run_accept, if_neg hhead']
    exact hq k hk

theorem isPhrase_expect {t : Token} (ht : t.ends = true) : IsPhrase (expect t : Rule Unit) := by
  intro o p q hs ts a rest ho e
  rw [run_expect] at e
  split at e
  · rename_i hhead
    obtain ⟨tail, rfl⟩ := List.head?_eq_some_iff.mp hhead
    cases e
    refine ⟨[t], rfl, fun _ => List.cons_ne_nil _ _, EndsWell.singleton ht, fun k _ => ?_⟩
    rw [run_expect, if_pos (by rfl)]
    rfl
  · cases e

/-- A repetition of phrases. -/
theorem isTail_repeatStep {step : α → Rule (Option α)} (h : ∀ a, IsTail (step a)) (a : α) :
    IsTail (repeatStep step a) := by
  intro o p q hs ts b rest ho e
  have hstep : ∀ a ts c rest, (step a).run p ts = some (c, rest) →
      ∃ taken, ts = taken ++ rest ∧ EndsWell taken ∧
        ∀ k, Alike rest.head? k.head? → (step a).run q (taken ++ k) = some (c, k) := by
    intro a ts c rest e
    obtain ⟨taken, hts, -, hends, hq⟩ := h a _ hs rfl e
    exact ⟨taken, hts, hends, hq⟩
  obtain ⟨taken, rfl, hends, hr⟩ :=
    exists_repeated Alike.refl (fun _ _ hu hv => EndsWell.append hu hv) hstep e
  refine ⟨taken, rfl, False.elim, hends, fun k hk => hr k hk _ ?_⟩
  rw [List.length_append]
  omega

end Combinators

/-! ## 3. Types -/

theorem isPhrase_ask {g : Goal} (h : g.isPhrase = true) (hm : ∀ a, g.must a) : IsPhrase (ask g) :=
  (phrased_ask h).mono fun a _ => hm a

theorem isPhrase_name : IsPhrase (name : Rule String) := by
  refine phrased_peek (fun o => ?_) fun _ => rfl
  split
  · exact phrasedAt_skip rfl (isTail_pure _)
  · exact phrased_refuse _

theorem isPhrase_someType : IsPhrase someType := by
  -- either there is a type, or the rest of the rule refuses
  have hsome : ∀ (t : Option Expr) (_ : Expr), True → Goal.must .type t ∨ t = none := by
    intro t _ _
    cases t with
    | none => exact Or.inr rfl
    | some t => exact Or.inl rfl
  refine Phrased.bind (phrased_ask rfl) (fun t => ?_) hsome
  cases t with
  | none => exact phrased_refuse
  | some t => exact phrased_pure nofun

theorem isTail_typeName (first : String) : IsTail (typeName first) :=
  phrased_acceptOp (by decide) (isPhrase_name.map) (isTail_pure _)

theorem isPhrase_typeArgs : IsPhrase typeArgs := by
  refine phrased_behind _ fun _ => phrased_behind _ fun args => ?_
  refine (isPhrase_expect rfl).bind fun _ => ?_
  split
  · exact phrased_refuse
  · exact isTail_pure _

theorem isTail_maybeTypeArgs (t : Expr) : IsTail (maybeTypeArgs t) := by
  refine (isTail_atOp (by decide)).bind fun b => ?_
  split
  · exact isPhrase_typeArgs.phrased _
  · exact isTail_pure _

theorem isTail_namedType (first : String) : IsTail (namedType first) :=
  (isTail_typeName first).bind fun t => isTail_maybeTypeArgs t

theorem isPhrase_arrayElement : IsPhrase arrayElement :=
  phrased_behind _ fun _ => isPhrase_someType.map

theorem isPhrase_arrayType : IsPhrase arrayType := by
  refine phrased_behind _ fun b => ?_
  split
  · exact isPhrase_arrayElement
  · refine phrased_behind _ fun b => ?_
    split
    · exact isPhrase_arrayElement
    · exact phrased_behind _ fun _ => isPhrase_arrayElement

theorem isPhrase_structType : IsPhrase structType :=
  phrased_behind _ fun _ => phrased_behind _ fun _ => phrased_behind _ fun _ =>
    (isPhrase_expect rfl).map

theorem isPhrase_params (spread : Bool) : IsPhrase (params spread) :=
  phrased_behind _ fun _ => phrased_behind _ fun _ => isPhrase_expect rfl

theorem isPhrase_signature : IsPhrase signature := by
  refine (isPhrase_params true).bind fun _ => (isTail_atOp (by decide)).bind fun b => ?_
  split
  · exact (isPhrase_params false).phrased _
  · have htype : IsTail (ask .type) := (phrased_ask rfl).mono fun _ => False.elim
    exact htype.bind fun _ => isTail_pure _

theorem isPhrase_funcType : IsPhrase funcType :=
  phrased_behind _ fun _ => isPhrase_signature.map

theorem isPhrase_interfaceType : IsPhrase interfaceType :=
  phrased_behind _ fun _ => phrased_behind _ fun _ => phrased_behind _ fun _ =>
    (isPhrase_expect rfl).map

theorem isPhrase_mapType : IsPhrase mapType :=
  phrased_behind _ fun _ => phrased_behind _ fun _ => phrased_behind _ fun _ => phrased_behind _ fun _ =>
    isPhrase_someType.map

theorem isPhrase_chanElement (d : Direction) : IsPhrase (chanElement d) := by
  refine isPhrase_someType.bind fun t => ?_
  split
  · exact isTail_pure _
  · exact isTail_pure _

theorem isPhrase_chanType : IsPhrase chanType := by
  refine phrased_behind _ fun b => ?_
  split
  · exact phrased_behind _ fun _ => phrased_behind _ fun d => isPhrase_chanElement d
  · refine phrased_behind _ fun _ => phrased_behind _ fun b => ?_
    split
    · exact phrased_behind _ fun d => isPhrase_chanElement d
    · exact phrased_behind _ fun d => isPhrase_chanElement d

theorem phrased_typeRule : Phrased (Goal.must .type) typeRule := by
  refine phrased_peek (fun o => ?_) fun _ => rfl
  split
  · exact phrasedAt_skip rfl ((isTail_namedType _).bind fun _ => isTail_pure _)
  · exact phrased_behind _ (fun _ => isPhrase_arrayType.map) _
  · exact phrased_behind _ (fun _ => isPhrase_someType.map) _
  · exact phrased_behind _ (fun _ => phrased_behind _ fun _ => (isPhrase_expect rfl).map) _
  · exact isPhrase_chanType.map _
  · exact isPhrase_chanType.map _
  · exact isPhrase_structType.map _
  · exact isPhrase_funcType.map _
  · exact isPhrase_interfaceType.map _
  · exact isPhrase_mapType.map _
  · exact phrased_pure nofun _

/-! ## 4. Expressions -/

theorem isPhrase_block : IsPhrase block :=
  phrased_behind _ fun _ => phrased_behind _ fun _ => (isPhrase_expect rfl).map

theorem isPhrase_elementsRule : IsPhrase elementsRule :=
  phrased_behind _ fun _ => phrased_behind _ fun _ => isPhrase_expect rfl

theorem isPhrase_operand : IsPhrase operand := by
  refine phrased_peek (fun o => ?_) fun _ => rfl
  split
  · exact phrasedAt_skip rfl (isTail_pure _)
  · exact phrasedAt_skip rfl (isTail_pure _)
  · exact phrasedAt_skip rfl (isTail_pure _)
  · exact phrasedAt_skip rfl (isTail_pure _)
  · exact phrased_behind _ (fun _ => phrased_behind _ fun _ => (isPhrase_expect rfl).map) _
  · refine isPhrase_funcType.bind (fun t => (isTail_atOp (by decide)).bind fun b => ?_) _
    split
    · exact isPhrase_block.map
    · exact isTail_pure _
  · exact isPhrase_someType _

theorem isPhrase_selection : IsPhrase selection := by
  refine phrased_behind _ fun b => ?_
  split
  · refine phrased_behind _ fun isOpen => ?_
    have hclose : IsPhrase (do
        expectOp .rparen
        return .other (.typeAssert isOpen) : Rule Expr) :=
      (isPhrase_expect rfl).map
    split
    · exact hclose
    · exact phrased_behind _ fun _ => hclose
  · exact isPhrase_name.map

theorem isPhrase_indexing : IsPhrase indexing := by
  refine phrased_behind _ fun first => phrased_behind _ fun isSlice => ?_
  split
  · have hclose : IsPhrase (do
        expectOp .rbrack
        return .other .slice : Rule Expr) := (isPhrase_expect rfl).map
    refine phrased_behind _ fun second => phrased_behind _ fun full => ?_
    split
    · refine phrased_behind _ fun third => ?_
      split
      · exact hclose
      · exact phrased_behind _ fun _ => hclose
    · exact hclose
  · split
    · exact phrased_behind _ fun args => (isPhrase_expect rfl).map
    · exact phrased_behind _ fun _ => phrased_behind _ fun args => (isPhrase_expect rfl).map

theorem isPhrase_callArgs (f : Expr) : IsPhrase (callArgs f) := by
  refine phrased_behind _ fun (args, spread, _) => (isPhrase_expect rfl).bind fun _ => ?_
  split
  · exact isTail_pure _
  · exact isTail_pure _

theorem isTail_primaryTail (lit : Bool) (x : Expr) : IsTail (primaryTail lit x) := by
  refine isTail_repeatStep (fun x => phrased_peek (fun o => ?_) fun _ => rfl) x
  split
  · exact phrased_behind _ (fun _ => isPhrase_selection.map) _
  · exact phrased_behind _ (fun _ => isPhrase_indexing.map) _
  · exact phrased_behind _ (fun _ => (isPhrase_callArgs x).map) _
  · split
    · have helements : IsPhrase (ask .elements) := isPhrase_ask rfl fun _ => trivial
      split
      · exact phrased_behind _ (fun _ => helements.map) _
      · exact helements.map _
    · exact isTail_pure _ _
  · exact isTail_pure _ _

theorem isPhrase_unaryRule (lit : Bool) : IsPhrase (unaryRule lit) := by
  have hunary : IsPhrase (ask (.unary lit)) := isPhrase_ask rfl fun _ => trivial
  have hprimary : IsPhrase (operand >>= primaryTail lit) :=
    isPhrase_operand.bind fun x => isTail_primaryTail lit x
  refine phrased_peek (fun o => ?_) fun _ => rfl
  split
  · refine phrased_behind _ (fun _ => hunary.bind fun x => ?_) _
    split
    · split
      · exact isTail_pure _
      · exact phrased_refuse
    · exact isTail_pure _
  · exact phrased_behind _ (fun _ => hunary.map) _
  · split
    · exact phrased_behind _ (fun _ => hunary.map) _
    · exact hprimary _
  · exact hprimary _

theorem isTail_binaryTail (lit : Bool) (strength : Nat) (x : Expr) :
    IsTail (binaryTail lit strength x) := by
  refine isTail_repeatStep (fun x => phrased_peek (fun o => ?_) fun _ => rfl) x
  split
  · split
    · split
      · exact isTail_pure _ _
      · rename_i k _ _
        have hexpr : IsPhrase (ask (.expr lit (k + 1))) := isPhrase_ask rfl fun _ => trivial
        exact phrased_behind _ (fun _ => hexpr.map) _
    · exact isTail_pure _ _
  · exact isTail_pure _ _

theorem isPhrase_exprRule (lit : Bool) (strength : Nat) : IsPhrase (exprRule lit strength) :=
  (isPhrase_ask (g := .unary lit) rfl fun _ => trivial).bind fun x => isTail_binaryTail lit strength x

/-! ## 5. The grammar -/

theorem phrased_rule {g : Goal} (h : g.isPhrase = true) : Phrased g.must (rule g) := by
  cases g with
  | expr lit strength => exact (isPhrase_exprRule lit strength).phrased _
  | unary lit => exact (isPhrase_unaryRule lit).phrased _
  | type => exact phrased_typeRule
  | elements => exact isPhrase_elementsRule.phrased _
  | stmt => cases h
  | ifStmt => cases h

/-- **What the grammar reads, it reads at a greater depth too**, and its expressions and types are
    phrases. -/
theorem sound_parse {n m : Nat} (h : n ≤ m) : Sound (parse n) (parse m) := by
  induction n generalizing m with
  | zero => exact ⟨fun _ _ _ _ e => (nomatch e), fun _ _ _ _ _ e => (nomatch e)⟩
  | succ n ih =>
    obtain ⟨m, rfl⟩ := Nat.exists_eq_succ_of_ne_zero (by omega : m ≠ 0)
    have hparts : Sound (parse n) (parse m) := ih (by omega)
    exact ⟨fun g => (rule g).follows hparts.follows,
      fun g hg _ _ _ e => phrased_rule hg _ hparts rfl e⟩

/-! ## 6. Texts -/

/-- Tokens that spell `x` in front of a semicolon or a closing bracket, at every depth that is enough for
    them. -/
def Spells (us : List Token) (x : Expr) : Prop :=
  ∀ m k, depth (us ++ [.semi true]) ≤ m → k.head? = some (.semi true) ∨ k.head? = some (.op .rparen) →
    parse m (.expr true 1) (us ++ k) = some (x, k)

/-- A text that is an expression ends in a semicolon, and what is before it spells the expression. -/
theorem exists_spells {ts : List Token} {x : Expr} (h : expression? ts = some x)
    (hlast : ∀ t ∈ ts.getLast?, t.ends = false) :
    ∃ us, ts = us ++ [.semi true] ∧ Spells us x := by
  obtain ⟨⟨y, rest⟩, hrun, hrest⟩ := Option.bind_eq_some_iff.mp h
  obtain ⟨us, rfl, htakes, hends, -⟩ := (sound_parse (Nat.le_refl _)).stops (.expr true 1) rfl hrun
  have hsemi : rest = [.semi true] ∧ y = x := by
    simp only at hrest
    split at hrest
    · -- the last token would be one that can end a statement
      rw [List.append_nil] at hlast
      have ht := List.getLast?_eq_some_getLast (htakes trivial)
      exact absurd (hends _ ht) (by rw [hlast _ ht]; decide)
    · exact ⟨rfl, Option.some.inj hrest⟩
    · cases hrest
  obtain ⟨rfl, rfl⟩ := hsemi
  refine ⟨us, rfl, fun m k hm hk => ?_⟩
  obtain ⟨us', heq, -, -, hq⟩ := (sound_parse hm).stops (.expr true 1) rfl hrun
  obtain rfl := List.append_cancel_right heq
  refine hq k ?_
  rcases hk with hk | hk
  · exact Or.inl hk
  · exact Or.inr ⟨⟨true, rfl⟩, hk⟩

end Lasso.Lang
