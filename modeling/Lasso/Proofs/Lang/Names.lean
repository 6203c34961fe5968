import Lasso.Proofs.Lang.Piece
/-!
# The names that texts are read with

The target of an assignment is a name, and a name is never made up: it stands in the text as a token.

* `Parser.Brings` -- what a parser returns, if its parts return what they should and the names among the
  tokens are as they should be; the rules of this section carry it through the grammar's vocabulary;
* `Stmt.targets` -- the expressions that a statement assigns to;
* `targetsOk_of_statements?` -- **the targets of the statements are names of the tokens**, or no names at all;
* `named_of_tokens?` -- and the names among the tokens of a text have no blank in them.
-/

namespace Lasso.Lang

open Lasso.Text

/-! ## 1. What parsers return -/

/-- The names among the tokens are as they should be. -/
def Named (ok : String → Prop) (ts : List Token) : Prop := ∀ n, Token.name n ∈ ts → ok n

variable {ok : String → Prop}

theorem Named.of_append {us vs : List Token} (h : Named ok (us ++ vs)) : Named ok vs :=
  fun n hn => h n (List.mem_append_right _ hn)

namespace Parser

variable {ι : Type} {R : ι → Type} {α β : Type} {P : (i : ι) → R i → Prop} {A : α → Prop} {B : β → Prop}

/-- The parser returns what satisfies `A`, if its parts return what satisfies `P` and the names among the
    tokens are as they should be. -/
def Brings (ok : String → Prop) (P : (i : ι) → R i → Prop) (A : α → Prop) (x : Parser R α) : Prop :=
  ∀ p : (i : ι) → Reading (R i), (∀ i, Follows (p i) (p i)) →
    (∀ i ts r rest, p i ts = some (r, rest) → Named ok ts → P i r) →
      ∀ ts a rest, x.run p ts = some (a, rest) → Named ok ts → A a

theorem brings_pure {a : α} (h : A a) : Brings ok P A (pure a) := by
  intro p _ _ ts b rest hrun _
  cases hrun
  exact h

theorem brings_refuse : Brings ok P A refuse := fun _ _ _ _ _ _ h => nomatch h

theorem brings_part (i : ι) : Brings ok P (P i) (part i) := fun _ _ hP _ _ _ h => hP i _ _ _ h

theorem brings_peek : Brings ok P (fun t => ∀ n, t = some (.name n) → ok n) peek := by
  intro p _ _ ts t rest hrun hts n hn
  cases hrun
  exact hts n (List.mem_of_mem_head? hn)

theorem brings_any (x : Parser R α) : Brings ok P (fun _ => True) x := fun _ _ _ _ _ _ _ _ => trivial

/-- The tokens that are left are an end of the tokens that there were. -/
theorem Brings.bind {x : Parser R β} {f : β → Parser R α} (hx : Brings ok P B x)
    (hf : ∀ b, B b → Brings ok P A (f b)) : Brings ok P A (x >>= f) := by
  intro p hp hP ts a rest hrun hts
  obtain ⟨b, mid, hb, ha⟩ := Reading.andThen_eq_some hrun
  obtain ⟨taken, rfl, -⟩ := x.follows hp hb
  exact hf b (hx p hp hP _ b mid hb hts) p hp hP mid a rest ha hts.of_append

/-- Where only the end of a parser matters. -/
theorem Brings.after {x : Parser R β} {f : β → Parser R α} (hf : ∀ b, Brings ok P A (f b)) :
    Brings ok P A (x >>= f) := (brings_any x).bind fun b _ => hf b

theorem brings_refuse_bind {f : β → Parser R α} : Brings ok P A (refuse >>= f) :=
  Brings.bind (B := fun _ => False) brings_refuse fun _ h => h.elim

theorem Brings.map {x : Parser R β} {f : β → α} (hx : Brings ok P B x) (h : ∀ b, B b → A (f b)) :
    Brings ok P A (f <$> x) := hx.bind fun b hb => brings_pure (h b hb)

theorem brings_repeatStep {step : α → Parser R (Option α)} {a : α}
    (h : ∀ a, A a → Brings ok P (fun o => ∀ b, o = some b → A b) (step a)) (ha : A a) :
    Brings ok P A (repeatStep step a) := by
  intro p hp hP ts b rest hrun hts
  have hrep : Reading.repeated (fun a => (step a).run p) (ts.length + 1) a ts = some (b, rest) := hrun
  -- the induction is on the number of repetitions that are left
  generalize ts.length + 1 = k at hrep
  clear hrun
  induction k generalizing a ts with
  | zero => cases hrep
  | succ k ih =>
    rw [Reading.repeated] at hrep
    split at hrep
    · cases hrep
    · cases hrep
      exact ha
    · rename_i c mid hstep
      split at hrep
      · obtain ⟨taken, rfl, -⟩ := (step a).follows hp hstep
        exact ih (h a ha p hp hP _ _ mid hstep hts c rfl) _ hts.of_append hrep
      · cases hrep

theorem brings_separated {item : Parser R α} (h : Brings ok P A item) :
    Brings ok P (fun as => ∀ a ∈ as, A a) (separated item) := by
  refine h.bind fun a ha => ?_
  refine Brings.map (brings_repeatStep (A := fun as => ∀ a ∈ as, A a) (fun as has => ?_) ?_) ?_
  · refine .after fun more => ?_
    cases more with
    | false => exact brings_pure nofun
    | true =>
      refine h.bind fun b hb => brings_pure ?_
      rintro _ ⟨⟩ c hc
      rcases List.mem_cons.mp hc with rfl | hc
      · exact hb
      · exact has c hc
  · intro b hb
    rw [List.mem_singleton.mp hb]
    exact ha
  · exact fun as has b hb => has b (List.mem_reverse.mp hb)

end Parser

/-! ## 2. What the grammar's rules return -/

/-- The expression, if it is a name, is one that is as it should be. -/
def Expr.NameOk (ok : String → Prop) (e : Expr) : Prop := ∀ n, e = .name n → ok n

/-- The expressions that a statement assigns to. -/
def Stmt.targets : Stmt → List Expr
  | .assign lhs _ _ => lhs
  | .increment e | .decrement e => [e]
  | .empty | .expr _ | .labeled | .other => []

/-- What the rule of a goal returns. -/
def Goal.Ok (ok : String → Prop) : (g : Goal) → g.Result → Prop
  | .expr _ _, e | .unary _, e => e.NameOk ok
  | .type, t => ∀ e, t = some e → e.NameOk ok
  | .stmt, s => ∀ e ∈ s.targets, e.NameOk ok
  | .elements, _ | .ifStmt, _ => True

open Lasso.Lang.Parser

/-- A rule that returns what satisfies `A`. -/
abbrev Returns (ok : String → Prop) {α : Type} (A : α → Prop) (r : Rule α) : Prop :=
  Brings ok (Goal.Ok ok) A r

theorem nameOk_name {n : String} (h : ok n) : (Expr.name n).NameOk ok := by
  rintro m ⟨⟩
  exact h

theorem returns_someType : Returns ok (Expr.NameOk ok) someType := by
  refine (brings_part Goal.type).bind fun t ht => ?_
  cases t with
  | none => exact brings_refuse
  | some e => exact brings_pure (ht e rfl)

theorem nameOk_other (f : Form) : (Expr.other f).NameOk ok := nofun

theorem returns_typeName {n : String} (h : ok n) : Returns ok (Expr.NameOk ok) (typeName n) := by
  refine .after fun selected => ?_
  split
  · exact .after fun _ => brings_pure (nameOk_other _)
  · exact brings_pure (nameOk_name h)

theorem returns_typeArgs : Returns ok (Expr.NameOk ok) typeArgs := by
  refine .after fun _ => .after fun args => .after fun _ => ?_
  split
  · exact .after fun _ => brings_pure (nameOk_other _)
  · exact brings_pure (nameOk_other _)

theorem returns_maybeTypeArgs {t : Expr} (h : t.NameOk ok) :
    Returns ok (Expr.NameOk ok) (maybeTypeArgs t) := by
  refine .after fun bracket => ?_
  split
  · exact returns_typeArgs
  · exact brings_pure h

theorem returns_namedType {n : String} (h : ok n) : Returns ok (Expr.NameOk ok) (namedType n) :=
  (returns_typeName h).bind fun _ => returns_maybeTypeArgs

theorem returns_arrayElement : Returns ok (Expr.NameOk ok) arrayElement :=
  .after fun _ => .after fun _ => brings_pure (nameOk_other _)

theorem returns_arrayType : Returns ok (Expr.NameOk ok) arrayType := by
  refine .after fun ellipsis => ?_
  dsimp only
  split
  · exact returns_arrayElement
  · refine .after fun closed => ?_
    split
    · exact returns_arrayElement
    · exact .after fun _ => returns_arrayElement

theorem returns_chanElement (d : Direction) : Returns ok (Expr.NameOk ok) (chanElement d) := by
  refine .after fun t => ?_
  split
  · exact brings_pure (nameOk_other _)
  · exact brings_pure (nameOk_other _)

theorem returns_chanType : Returns ok (Expr.NameOk ok) chanType := by
  refine .after fun receives => ?_
  dsimp only
  split
  · exact .after fun _ => .after returns_chanElement
  · refine .after fun _ => .after fun sends => ?_
    split
    · exact .after returns_chanElement
    · exact .after returns_chanElement

theorem returns_structType : Returns ok (Expr.NameOk ok) structType :=
  .after fun _ => .after fun _ => .after fun _ => .after fun _ => brings_pure (nameOk_other _)

theorem returns_interfaceType : Returns ok (Expr.NameOk ok) interfaceType :=
  .after fun _ => .after fun _ => .after fun _ => .after fun _ => brings_pure (nameOk_other _)

theorem returns_funcType : Returns ok (Expr.NameOk ok) funcType :=
  .after fun _ => .after fun _ => brings_pure (nameOk_other _)

theorem returns_mapType : Returns ok (Expr.NameOk ok) mapType :=
  .after fun _ => .after fun _ => .after fun _ => .after fun _ => .after fun _ =>
    brings_pure (nameOk_other _)

/-- A type that is there. -/
theorem returns_some {r : Rule Expr} (h : Returns ok (Expr.NameOk ok) r) :
    Returns ok (Goal.Ok ok .type) (do return some (← r)) := by
  refine h.bind fun t ht => brings_pure ?_
  rintro e ⟨⟩
  exact ht

/-- **A type that is a name is one of the tokens.** -/
theorem returns_typeRule : Returns ok (Goal.Ok ok .type) typeRule := by
  refine brings_peek.bind fun t ht => ?_
  split
  · exact .after fun _ => returns_some (returns_namedType (ht _ rfl))
  · exact .after fun _ => returns_some returns_arrayType
  · exact .after fun _ => .after fun _ => brings_pure nofun
  · exact .after fun _ => .after fun _ => .after fun _ => brings_pure nofun
  · exact returns_some returns_chanType
  · exact returns_some returns_chanType
  · exact returns_some returns_structType
  · exact returns_some returns_funcType
  · exact returns_some returns_interfaceType
  · exact returns_some returns_mapType
  · exact brings_pure nofun

theorem returns_operand : Returns ok (Expr.NameOk ok) operand := by
  refine brings_peek.bind fun t ht => ?_
  split
  · exact .after fun _ => brings_pure (nameOk_name (ht _ rfl))
  · exact .after fun _ => brings_pure nofun
  · exact .after fun _ => brings_pure nofun
  · exact .after fun _ => brings_pure nofun
  · exact .after fun _ => .after fun _ => .after fun _ => brings_pure nofun
  · refine returns_funcType.bind fun t ht => .after fun body => ?_
    split
    · exact .after fun _ => brings_pure nofun
    · exact brings_pure ht
  · exact returns_someType

theorem returns_selection : Returns ok (Expr.NameOk ok) selection := by
  refine .after fun asserts => ?_
  split
  · refine .after fun isOpen => ?_
    dsimp only
    split
    · exact .after fun _ => brings_pure nofun
    · exact .after fun _ => .after fun _ => brings_pure nofun
  · exact .after fun _ => brings_pure nofun

theorem returns_indexing : Returns ok (Expr.NameOk ok) indexing := by
  refine .after fun first => .after fun colon => ?_
  dsimp only
  split
  · refine .after fun second => .after fun _ => ?_
    split
    · refine .after fun third => ?_
      split
      · exact .after fun _ => brings_pure nofun
      · exact .after fun _ => .after fun _ => brings_pure nofun
    · exact .after fun _ => brings_pure nofun
  · split
    · exact .after fun _ => .after fun _ => brings_pure nofun
    · exact .after fun _ => .after fun _ => .after fun _ => brings_pure nofun

theorem returns_callArgs (f : Expr) : Returns ok (Expr.NameOk ok) (callArgs f) := by
  refine .after fun args => .after fun _ => ?_
  split
  · exact brings_pure nofun
  · exact brings_pure nofun

/-- A step of a repetition that goes on. -/
theorem returns_step {r : Rule Expr} (h : Returns ok (Expr.NameOk ok) r) :
    Returns ok (fun o => ∀ e, o = some e → e.NameOk ok) (do return some (← r)) := returns_some h

theorem returns_primaryTail (lit : Bool) {x : Expr} (h : x.NameOk ok) :
    Returns ok (Expr.NameOk ok) (primaryTail lit x) := by
  refine brings_repeatStep (fun x _ => .after fun t => ?_) h
  split
  · exact .after fun _ => returns_step returns_selection
  · exact .after fun _ => returns_step returns_indexing
  · exact .after fun _ => returns_step (returns_callArgs x)
  · dsimp only
    split
    · split
      · exact .after fun _ => .after fun _ => brings_pure nofun
      · exact .after fun _ => brings_pure nofun
    · exact brings_pure nofun
  · exact brings_pure nofun

theorem returns_unaryRule (lit : Bool) : Returns ok (Expr.NameOk ok) (unaryRule lit) := by
  have hplain : Returns ok (Expr.NameOk ok) (do primaryTail lit (← operand)) :=
    returns_operand.bind fun _ => returns_primaryTail lit
  refine .after fun t => ?_
  split
  · refine .after fun _ => .after fun x => ?_
    split
    · split
      · exact brings_pure nofun
      · exact brings_refuse
    · exact brings_pure nofun
  · exact .after fun _ => .after fun _ => brings_pure nofun
  · split
    · exact .after fun _ => .after fun _ => brings_pure nofun
    · exact hplain
  · exact hplain

/-- **An expression that is a name is one of the tokens.** -/
theorem returns_exprRule (lit : Bool) (strength : Nat) :
    Returns ok (Expr.NameOk ok) (exprRule lit strength) := by
  refine (brings_part (Goal.unary lit)).bind fun x hx => ?_
  refine brings_repeatStep (fun y _ => .after fun t => ?_) hx
  split
  · split
    · split
      · exact brings_pure nofun
      · exact .after fun _ => .after fun _ => brings_pure nofun
    · exact brings_pure nofun
  · exact brings_pure nofun

/-! ## 3. Statements -/

/-- The statement assigns to no other names. -/
def Stmt.TargetsOk (ok : String → Prop) (s : Stmt) : Prop := ∀ e ∈ s.targets, e.NameOk ok

theorem returns_simpleStmt (lit : Bool) (mode : Simple) :
    Returns ok (fun s => s.1.TargetsOk ok) (simpleStmt lit mode) := by
  refine (brings_separated (brings_part (Goal.expr lit 1))).bind fun xs hxs => .after fun t => ?_
  split
  · rename_i o x others
    have hx : ∀ e ∈ [x], Expr.NameOk ok e := fun e he =>
      hxs e (List.mem_singleton.mp he ▸ List.mem_cons_self)
    dsimp only
    split
    · refine .after fun _ => ?_
      split
      · refine .after fun range => ?_
        split
        · exact .after fun _ => brings_pure hxs
        · exact .after fun _ => brings_pure hxs
      · exact .after fun _ => brings_pure hxs
    · split
      · split
        · split
          · exact .after fun _ => .after fun _ => brings_pure nofun
          · exact brings_refuse
        · exact brings_refuse
        · exact .after fun _ => .after fun _ => brings_pure nofun
        · exact .after fun _ => brings_pure hx
        · exact .after fun _ => brings_pure hx
        · exact brings_pure nofun
      · exact brings_refuse_bind
  · exact brings_pure nofun
  · exact brings_refuse

theorem returns_simple (t : Token) : Returns ok (Stmt.TargetsOk ok) (stmtRule.simple t) := by
  unfold stmtRule.simple
  dsimp only
  split
  · refine (returns_simpleStmt true .labelOk).bind fun s hs => ?_
    split
    · exact brings_pure hs
    · exact .after fun _ => brings_pure hs
  · exact brings_refuse_bind

/-- **A statement assigns to names of the tokens.** -/
theorem returns_stmtRule : Returns ok (Stmt.TargetsOk ok) stmtRule := by
  refine .after fun t => ?_
  split
  · exact brings_refuse
  · exact .after fun _ => brings_pure nofun
  · exact brings_pure nofun
  · exact .after fun _ => .after fun _ => brings_pure nofun
  · split
    · exact .after fun _ => brings_pure nofun
    · exact .after fun _ => brings_pure nofun
    · exact .after fun _ => brings_pure nofun
    · exact .after fun _ => .after fun _ => brings_pure nofun
    · exact .after fun _ => .after fun _ => brings_pure nofun
    · refine .after fun _ => .after fun _ => .after fun _ => ?_
      dsimp only
      split
      · exact .after fun _ => brings_pure nofun
      · exact .after fun _ => .after fun _ => brings_pure nofun
    · exact .after fun _ => .after fun _ => .after fun _ => brings_pure nofun
    · refine .after fun _ => .after fun _ => ?_
      dsimp only
      split
      · exact .after fun _ => .after fun _ => brings_pure nofun
      · exact .after fun _ => brings_pure nofun
    · refine .after fun _ => .after fun _ => ?_
      dsimp only
      split
      · exact .after fun _ => .after fun _ => brings_pure nofun
      · exact .after fun _ => brings_pure nofun
    · exact .after fun _ => .after fun _ => brings_pure nofun
    · exact .after fun _ => brings_pure nofun
    · exact .after fun _ => .after fun _ => brings_pure nofun
    · exact .after fun _ => .after fun _ => brings_pure nofun
    · exact .after fun _ => .after fun _ => brings_pure nofun
    · exact returns_simple _
  · exact returns_simple _

/-- Every rule returns what it should, if its parts do. -/
theorem returns_rule (g : Goal) : Returns ok (Goal.Ok ok g) (rule g) := by
  cases g with
  | expr lit strength => exact returns_exprRule lit strength
  | unary lit => exact returns_unaryRule lit
  | type => exact returns_typeRule
  | stmt => exact returns_stmtRule
  | elements => exact fun _ _ _ _ _ _ _ _ => trivial
  | ifStmt => exact fun _ _ _ _ _ _ _ _ => trivial

theorem follows_parse (n : Nat) (g : Goal) : Follows (parse n g) (parse n g) := by
  induction n generalizing g with
  | zero => exact follows_refuse _
  | succ n ih => exact (rule g).follows ih

/-- So every part of a text is what it should be, however deep it stands. -/
theorem ok_of_parse (n : Nat) (g : Goal) (ts : List Token) (r : g.Result) (rest : List Token)
    (h : parse n g ts = some (r, rest)) (hts : Named ok ts) : g.Ok ok r := by
  induction n generalizing g ts rest with
  | zero => cases h
  | succ n ih => exact returns_rule g (parse n) (follows_parse n) ih ts r rest h hts

theorem returns_stmtList : Returns ok (fun ss => ∀ s ∈ ss, s.TargetsOk ok) stmtList := by
  refine Brings.map (brings_repeatStep (A := fun ss => ∀ s ∈ ss, s.TargetsOk ok)
    (fun ss hss => .after fun t => ?_) nofun) fun ss hss s hs => hss s (List.mem_reverse.mp hs)
  split
  all_goals try exact brings_pure nofun
  refine (brings_part Goal.stmt).bind fun s hs => brings_pure ?_
  rintro _ ⟨⟩ s' hs'
  rcases List.mem_cons.mp hs' with rfl | hs'
  · exact hs
  · exact hss s' hs'

/-- **The statements of a text assign to names of its tokens.** -/
theorem targetsOk_of_statements? {ts : List Token} {ss : List Stmt} (h : statements? ts = some ss)
    (hts : Named ok ts) : ∀ s ∈ ss, s.TargetsOk ok := by
  obtain ⟨⟨ss, rest⟩, hrun, rfl⟩ := Option.map_eq_some_iff.mp h
  have hbody : Returns ok (fun ss => ∀ s ∈ ss, s.TargetsOk ok) bodyRule :=
    returns_stmtList.bind fun ss hss => .after fun _ => .after fun _ => .after fun _ => brings_pure hss
  exact hbody (parse (depth ts)) (follows_parse _) (ok_of_parse _) ts ss rest hrun hts

/-! ## 4. Tokens -/

/-- A name without a blank in it. -/
def Unbroken (n : String) : Prop := ' ' ∉ n.toList

instance (n : String) : Decidable (Unbroken n) := inferInstanceAs (Decidable (' ' ∉ n.toList))

variable {p : Place} {c : Char} {cs : List Char} {l : Lexeme} {n : String}

theorem unbroken_of_forall (h : ∀ c ∈ n.toList, isNameChar c = true) : Unbroken n := by
  intro hblank
  have hno : isNameChar ' ' = false := by decide +kernel
  rw [h ' ' hblank] at hno
  cases hno

/-- **A lexeme that is a name has no blank in it.** -/
theorem unbroken_of_lexeme? (h : lexeme? p c cs = some l) (hn : .name n ∈ l.tokens) : Unbroken n := by
  rcases ends_lexeme? h with ⟨hnone, -⟩ | ⟨t, hone, hfits⟩
  · rw [hnone] at hn
    cases hn
  · rw [hone] at hn
    exact unbroken_of_forall (hfits.name n (List.mem_singleton.mp hn).symm)

/-- **So have the names among the tokens of a text.** -/
theorem named_of_tokens? {ts : List Token} (h : tokens? p cs = some ts) : Named Unbroken ts := by
  fun_induction tokens? p cs generalizing ts with
  | case1 p =>
    cases h
    intro n hn
    split at hn
    · cases List.mem_singleton.mp hn
    · cases hn
  | case2 p c rest ih =>
    obtain ⟨l, hl, h⟩ := Option.bind_eq_some_iff.mp h
    obtain ⟨us, hus, h⟩ := Option.bind_eq_some_iff.mp h
    cases h
    intro n hn
    rcases List.mem_append.mp hn with hn | hn
    · exact unbroken_of_lexeme? hl hn
    · exact ih l hus n hn

theorem named_of_scan? {ts : List Token} (h : scan? cs = some ts) : Named Unbroken ts :=
  named_of_tokens? (Option.ite_none_left_eq_some.mp h).2

end Lasso.Lang
