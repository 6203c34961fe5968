import Lasso.Eval.Evaluators
import Lasso.Proofs.Env
import Lasso.Proofs.Eval.Reading
import Lasso.Proofs.Yields
/-!
# The guard of two synchronising transitions

`Handshake.conjoin` makes one text of two guards: it drops the blanks around them, and puts brackets around
each if both are left. What the text means is a matter of how it is read.

* `Evaluators.holds_eq_ok_iff` -- a condition that is not blank holds if the expression it spells is true;
* `holds_conjoin_eq` -- two guards that can still be read when they are pasted (`conjoinable`) are conjoined,
  and others make a malformed guard; `conjoinable_of_plain` -- guards without comments can be;
* `Handshake.holds_conjoin` -- **conjoining guards means conjunction**, exactly where they are conjoinable.
-/

namespace Lasso

open Lang

/-! ## 1. Conditions -/

namespace Evaluators

variable {ev : Evaluators} {e : Env} {c : String} {b : Bool}

/-- Families of the same kind answer alike, so the first one decides. -/
theorem go_expressions {fs : List ConditionFamily} (hfs : ∀ f ∈ fs, f = .expressions) (hne : fs ≠ []) :
    holds.go e c fs = ConditionFamily.holds e c .expressions := by
  induction fs with
  | nil => exact absurd rfl hne
  | cons f fs ih =>
    obtain rfl := hfs f List.mem_cons_self
    have hrest : ∀ f ∈ fs, f = .expressions := fun f hf => hfs f (List.mem_cons_of_mem _ hf)
    rw [holds.go]
    cases hr : ConditionFamily.holds e c .expressions with
    | error err => rfl
    | ok b =>
      cases b with
      | true => rfl
      | false =>
        cases fs with
        | nil => rfl
        | cons f' fs => exact (ih hrest (List.cons_ne_nil _ _)).trans hr

theorem holds_of_expressions (hev : ∀ f ∈ ev.conditions, f = .expressions) (hne : ev.conditions ≠ [])
    (hc : c.toList.all Text.isBlank = false) :
    ev.holds e c = (ConditionFamily.holds e c .expressions).mapError (.inCondition c) := by
  rw [holds, if_neg (by rw [hc]; exact Bool.false_ne_true), go_expressions hev hne]

/-- The truth of a condition that is not blank is that of the expression it spells. -/
theorem holds_eq_ok_iff (hev : ∀ f ∈ ev.conditions, f = .expressions) (hne : ev.conditions ≠ [])
    (hc : c.toList.all Text.isBlank = false) :
    ev.holds e c = .ok b ↔ ∃ x, readExpr c = .ok x ∧ x.eval e = .ok (.bool b) := by
  rw [holds_of_expressions hev hne hc, mapError_eq_ok]
  constructor
  · intro h
    obtain ⟨v, hv, h⟩ := bind_eq_ok.mp h
    obtain ⟨x, hx, hv⟩ := bind_eq_ok.mp hv
    cases v with
    | bool b' =>
      cases h
      exact ⟨x, hx, hv⟩
    | _ => cases h
  · rintro ⟨x, hx, hv⟩
    rw [ConditionFamily.holds, evalText, hx]
    change (x.eval e >>= _) = _
    rw [hv]
    rfl

theorem holds_of_malformed (hev : ∀ f ∈ ev.conditions, f = .expressions) (hne : ev.conditions ≠ [])
    (hc : c.toList.all Text.isBlank = false) (h : readExpr c = .error .malformed) :
    ev.holds e c = .error (.inCondition c .malformed) := by
  rw [holds_of_expressions hev hne hc, ConditionFamily.holds, evalText, h]
  rfl

theorem holds_of_blank (hc : c.toList.all Text.isBlank = true) : ev.holds e c = .ok true := by
  rw [holds, if_pos hc]

theorem holds_of_no_conditions (hnil : ev.conditions = []) (hc : c.toList.all Text.isBlank = false) :
    ev.holds e c = .ok false := by
  rw [holds, if_neg (by rw [hc]; exact Bool.false_ne_true), hnil]
  rfl

end Evaluators

/-! ## 2. Conjunction -/

theorem eval_land {e : Env} {x y : Expr} {b₁ b₂ : Bool} (h₁ : x.eval e = .ok (.bool b₁))
    (h₂ : y.eval e = .ok (.bool b₂)) :
    (Expr.binary .land (.paren x) (.paren y)).eval e = .ok (.bool (b₁ && b₂)) := by
  cases b₁ <;> simp [Expr.eval, h₁, h₂] <;> rfl

/-- Whether a text spells an expression. -/
def isExpression (s : String) : Bool := (readExpr s).isOk

theorem isExpression_eq_true_iff {s : String} : isExpression s = true ↔ ∃ x, readExpr s = .ok x := by
  unfold isExpression
  cases readExpr s <;> simp [Except.isOk, Except.toBool]

theorem readExpr_of_not_isExpression {s : String} (h : isExpression s = false) :
    readExpr s = .error .malformed := by
  refine readExpr_eq_malformed fun ts hts => ?_
  cases hx : expression? ts with
  | none => rfl
  | some x =>
    rw [isExpression_eq_true_iff.mpr ⟨x, readExpr_eq_ok_iff.mpr ⟨ts, hts, hx⟩⟩] at h
    cases h

section Trim

variable {c : String} {x : Expr}

theorem blank_eq_decide (c : String) : c.toList.all Text.isBlank = decide (Text.trim c = "") := by
  obtain ⟨bl, bl', hbl, hbl', e⟩ := exists_trim c
  rw [Bool.eq_iff_iff, decide_eq_true_iff, List.all_eq_true]
  constructor
  · intro hall
    have hlast : (Text.trim c).toList.getLast? = none := by
      rw [Option.eq_none_iff_forall_ne_some]
      intro d hd
      have hblank := hall d (by rw [e]; simp [List.mem_of_getLast? hd])
      rw [getLast?_trim hd] at hblank
      cases hblank
    simpa using hlast
  · intro ht d hd
    rw [e, ht] at hd
    rcases List.mem_append.mp hd with hd | hd
    · exact hbl d hd
    · exact hbl' d (by simpa using hd)

theorem not_blank_trim (h : Text.trim c ≠ "") : (Text.trim c).toList.all Text.isBlank = false := by
  rw [List.all_eq_false]
  have hne : (Text.trim c).toList ≠ [] := by simpa using h
  refine ⟨_, List.getLast_mem hne, ?_⟩
  rw [getLast?_trim (List.getLast?_eq_some_getLast hne)]
  exact Bool.false_ne_true

/-- A guard without comments is an expression without the blanks around it as well. -/
theorem isExpression_trim (hx : readExpr c = .ok x) (hne : Text.trim c ≠ "") (hplain : IsPlain c) :
    isExpression (Text.trim c) = true := by
  rcases closed_or_unclosed hx hne with ⟨hall, us, q, hus, hq, hr⟩ | ⟨-, hnot⟩
  · refine isExpression_eq_true_iff.mpr ⟨x, readExpr_eq_ok_iff.mpr ⟨_, ?_, hus.expression?_eq⟩⟩
    have hread := hr [] nofun
    rw [List.append_nil, tokens?_nil, hq] at hread
    rw [scanText?_of_clean hall, tokens?_fresh hplain.trim false true false, hread]
    rfl
  · exact absurd hplain hnot

theorem isExpression_paren (hx : readExpr c = .ok x) (hne : Text.trim c ≠ "") (hplain : IsPlain c) :
    isExpression ("(" ++ Text.trim c ++ ")") = true := by
  rcases closed_or_unclosed hx hne with hclosed | ⟨-, hnot⟩
  · exact isExpression_eq_true_iff.mpr ⟨_, hclosed.readExpr_paren⟩
  · exact absurd hplain hnot

end Trim

namespace Handshake

/-- Whether two guards can be conjoined: a guard that stands alone is an expression without the blanks
    around it; of two guards each is one in brackets of its own. -/
def conjoinable (c₁ c₂ : String) : Bool :=
  let (t₁, t₂) := (Text.trim c₁, Text.trim c₂)
  if t₁ = "" then t₂ = "" || isExpression t₂
  else if t₂ = "" then isExpression t₁
  else isExpression ("(" ++ t₁ ++ ")") && isExpression ("(" ++ t₂ ++ ")")

end Handshake

section Conjoin

variable {ev : Evaluators} {e : Env} {c c₁ c₂ : String} {b b₁ b₂ : Bool}

/-- A guard next to a blank one. -/
theorem holds_trim (hev : ∀ f ∈ ev.conditions, f = .expressions) (hne : ev.conditions ≠ [])
    (hc : Text.trim c ≠ "") (h : ev.holds e c = .ok b) :
    ev.holds e (Text.trim c) = if isExpression (Text.trim c) then .ok b
      else .error (.inCondition (Text.trim c) .malformed) := by
  have hblank : c.toList.all Text.isBlank = false := by
    rw [blank_eq_decide, decide_eq_false hc]
  obtain ⟨x, hx, hb⟩ := (Evaluators.holds_eq_ok_iff hev hne hblank).mp h
  cases hread : isExpression (Text.trim c) with
  | true =>
    obtain ⟨y, hy⟩ := isExpression_eq_true_iff.mp hread
    obtain rfl := eq_of_readExpr_trim hx hy
    exact (Evaluators.holds_eq_ok_iff hev hne (not_blank_trim hc)).mpr ⟨y, hy, hb⟩
  | false =>
    exact Evaluators.holds_of_malformed hev hne (not_blank_trim hc) (readExpr_of_not_isExpression hread)

theorem blank_land (t₁ t₂ : String) :
    ("(" ++ t₁ ++ ") && (" ++ t₂ ++ ")").toList.all Text.isBlank = false := by
  rw [toList_land, List.all_cons]
  rfl

/-- Two guards, each in brackets. -/
theorem holds_land (hev : ∀ f ∈ ev.conditions, f = .expressions) (hne : ev.conditions ≠ [])
    (hc₁ : Text.trim c₁ ≠ "") (hc₂ : Text.trim c₂ ≠ "") (h₁ : ev.holds e c₁ = .ok b₁)
    (h₂ : ev.holds e c₂ = .ok b₂) :
    ev.holds e ("(" ++ Text.trim c₁ ++ ") && (" ++ Text.trim c₂ ++ ")") =
      if isExpression ("(" ++ Text.trim c₁ ++ ")") && isExpression ("(" ++ Text.trim c₂ ++ ")")
      then .ok (b₁ && b₂)
      else .error (.inCondition ("(" ++ Text.trim c₁ ++ ") && (" ++ Text.trim c₂ ++ ")") .malformed) := by
  have hblank₁ : c₁.toList.all Text.isBlank = false := by
    rw [blank_eq_decide, decide_eq_false hc₁]
  have hblank₂ : c₂.toList.all Text.isBlank = false := by
    rw [blank_eq_decide, decide_eq_false hc₂]
  have hblank := blank_land (Text.trim c₁) (Text.trim c₂)
  obtain ⟨x, hx, hb₁⟩ := (Evaluators.holds_eq_ok_iff hev hne hblank₁).mp h₁
  obtain ⟨y, hy, hb₂⟩ := (Evaluators.holds_eq_ok_iff hev hne hblank₂).mp h₂
  rcases closed_or_unclosed hx hc₁ with hclosed₁ | ⟨hopen₁, -⟩
  · rw [isExpression_eq_true_iff.mpr ⟨_, hclosed₁.readExpr_paren⟩, Bool.true_and]
    rcases closed_or_unclosed hy hc₂ with hclosed₂ | ⟨hopen₂, -⟩
    · rw [isExpression_eq_true_iff.mpr ⟨_, hclosed₂.readExpr_paren⟩, if_pos rfl]
      exact (Evaluators.holds_eq_ok_iff hev hne hblank).mpr
        ⟨_, hclosed₁.readExpr_land hclosed₂, eval_land hb₁ hb₂⟩
    · rw [isExpression, hopen₂.readExpr_paren]
      exact Evaluators.holds_of_malformed hev hne hblank (Unclosed.readExpr_right hclosed₁ hopen₂)
  · rw [isExpression, hopen₁.readExpr_paren]
    exact Evaluators.holds_of_malformed hev hne hblank (hopen₁.readExpr_left _)

theorem blank_conjoin (c₁ c₂ : String) : (Handshake.conjoin c₁ c₂).toList.all Text.isBlank =
    (c₁.toList.all Text.isBlank && c₂.toList.all Text.isBlank) := by
  rw [blank_eq_decide c₁, blank_eq_decide c₂]
  by_cases hc₁ : Text.trim c₁ = ""
  · rw [decide_eq_true hc₁, Bool.true_and, Handshake.conjoin, if_pos hc₁]
    by_cases hc₂ : Text.trim c₂ = ""
    · rw [hc₂]
      rfl
    · rw [not_blank_trim hc₂, decide_eq_false hc₂]
  · rw [decide_eq_false hc₁, Bool.false_and, Handshake.conjoin, if_neg hc₁]
    by_cases hc₂ : Text.trim c₂ = ""
    · rw [if_pos hc₂, not_blank_trim hc₁]
    · rw [if_neg hc₂, blank_land]

/-- The guard of both is read and decided as a whole, or not at all. -/
theorem holds_conjoin_eq (hev : ∀ f ∈ ev.conditions, f = .expressions) (hne : ev.conditions ≠ [])
    (h₁ : ev.holds e c₁ = .ok b₁) (h₂ : ev.holds e c₂ = .ok b₂) :
    ev.holds e (Handshake.conjoin c₁ c₂) = if Handshake.conjoinable c₁ c₂ then .ok (b₁ && b₂)
      else .error (.inCondition (Handshake.conjoin c₁ c₂) .malformed) := by
  have hblank : ∀ {c b}, ev.holds e c = .ok b → Text.trim c = "" → b = true := by
    intro c b h hc
    have hall : c.toList.all Text.isBlank = true := by rw [blank_eq_decide, hc]; rfl
    rw [Evaluators.holds_of_blank hall] at h
    exact (Except.ok.inj h).symm
  by_cases hc₁ : Text.trim c₁ = ""
  · obtain rfl := hblank h₁ hc₁
    by_cases hc₂ : Text.trim c₂ = ""
    · obtain rfl := hblank h₂ hc₂
      simp only [Handshake.conjoin, Handshake.conjoinable, hc₁, hc₂]
      exact Evaluators.holds_of_blank rfl
    · simp only [Handshake.conjoin, Handshake.conjoinable, if_pos hc₁, hc₂, decide_false,
        Bool.false_or, Bool.true_and]
      exact holds_trim hev hne hc₂ h₂
  · by_cases hc₂ : Text.trim c₂ = ""
    · obtain rfl := hblank h₂ hc₂
      simp only [Handshake.conjoin, Handshake.conjoinable, if_neg hc₁, if_pos hc₂, Bool.and_true]
      exact holds_trim hev hne hc₁ h₁
    · simp only [Handshake.conjoin, Handshake.conjoinable, if_neg hc₁, if_neg hc₂]
      exact holds_land hev hne hc₁ hc₂ h₁ h₂

/-- Guards without comments can be conjoined. -/
theorem conjoinable_of_plain (hev : ∀ f ∈ ev.conditions, f = .expressions) (hne : ev.conditions ≠ [])
    (h₁ : ev.holds e c₁ = .ok b₁) (h₂ : ev.holds e c₂ = .ok b₂) (hp₁ : IsPlain c₁) (hp₂ : IsPlain c₂) :
    Handshake.conjoinable c₁ c₂ = true := by
  have hread : ∀ {c b}, ev.holds e c = .ok b → Text.trim c ≠ "" → ∃ x, readExpr c = .ok x := by
    intro c b h hc
    have hblank : c.toList.all Text.isBlank = false := by rw [blank_eq_decide, decide_eq_false hc]
    obtain ⟨x, hx, -⟩ := (Evaluators.holds_eq_ok_iff hev hne hblank).mp h
    exact ⟨x, hx⟩
  by_cases hc₁ : Text.trim c₁ = ""
  · by_cases hc₂ : Text.trim c₂ = ""
    · simp [Handshake.conjoinable, hc₁, hc₂]
    · obtain ⟨y, hy⟩ := hread h₂ hc₂
      simp [Handshake.conjoinable, hc₁, isExpression_trim hy hc₂ hp₂]
  · obtain ⟨x, hx⟩ := hread h₁ hc₁
    by_cases hc₂ : Text.trim c₂ = ""
    · simp [Handshake.conjoinable, hc₁, hc₂, isExpression_trim hx hc₁ hp₁]
    · obtain ⟨y, hy⟩ := hread h₂ hc₂
      simp [Handshake.conjoinable, hc₁, hc₂, isExpression_paren hx hc₁ hp₁,
        isExpression_paren hy hc₂ hp₂]

end Conjoin

namespace Handshake

/-- **Conjoining guards means conjunction** exactly where both can still be read when they are pasted:
    the guard of two conditions without comments holds if both do; a comment at the end of one may swallow
    the bracket behind it, or a line break in it may part the two, and then the pasted guard is malformed. -/
theorem holds_conjoin {ev : Evaluators} {e : Env} {c₁ c₂ : String} {b₁ b₂ : Bool}
    (hev : ∀ f ∈ ev.conditions, f = .expressions) (h₁ : ev.holds e c₁ = .ok b₁)
    (h₂ : ev.holds e c₂ = .ok b₂) :
    (ev.holds e (conjoin c₁ c₂) =
      if ev.conditions.isEmpty || conjoinable c₁ c₂ then .ok (b₁ && b₂)
      else .error (.inCondition (conjoin c₁ c₂) .malformed)) ∧
    (IsPlain c₁ → IsPlain c₂ → ev.holds e (conjoin c₁ c₂) = .ok (b₁ && b₂)) := by
  by_cases hne : ev.conditions = []
  · -- without families nothing but a blank condition holds, and nothing is read
    have hdecide : ∀ c, ev.holds e c = .ok (c.toList.all Text.isBlank) := by
      intro c
      cases hc : c.toList.all Text.isBlank with
      | true => exact Evaluators.holds_of_blank hc
      | false => exact Evaluators.holds_of_no_conditions hne hc
    have hboth : ev.holds e (conjoin c₁ c₂) = .ok (b₁ && b₂) := by
      rw [hdecide] at h₁ h₂
      rw [hdecide, blank_conjoin, Except.ok.inj h₁, Except.ok.inj h₂]
    rw [hne]
    exact ⟨hboth, fun _ _ => hboth⟩
  · have heq := holds_conjoin_eq hev hne h₁ h₂
    have hempty : ev.conditions.isEmpty = false := by simpa using hne
    rw [hempty, Bool.false_or]
    refine ⟨heq, fun hp₁ hp₂ => ?_⟩
    rw [heq, conjoinable_of_plain hev hne h₁ h₂ hp₁ hp₂, if_pos rfl]

/-- A guard that is decided by its left side alone, next to one with brackets of its own. -/
theorem holds_conjoin_counting :
    ({} : Evaluators).holds Env.counting " count == 3 || missing\n" = .ok true ∧
      ({} : Evaluators).holds Env.counting "\t!(len(queue) < 2)" = .ok true ∧
      ({} : Evaluators).holds Env.counting (conjoin " count == 3 || missing\n" "\t!(len(queue) < 2)") =
        .ok true := by
  have hev : ∀ f ∈ ({} : Evaluators).conditions, f = .expressions := fun f hf => List.mem_singleton.mp hf
  have h₁ : ({} : Evaluators).holds Env.counting " count == 3 || missing\n" = .ok true := by
    decide +kernel
  have h₂ : ({} : Evaluators).holds Env.counting "\t!(len(queue) < 2)" = .ok true := by decide +kernel
  exact ⟨h₁, h₂, (holds_conjoin hev h₁ h₂).2 (by decide +kernel) (by decide +kernel)⟩

/-- Both guards hold, and yet the comment swallows the bracket behind it. -/
theorem conjoin_swallows_bracket :
    ({} : Evaluators).holds ∅ "true // always" = .ok true ∧ ({} : Evaluators).holds ∅ "true" = .ok true ∧
      ({} : Evaluators).holds ∅ (conjoin "true // always" "true") =
        .error (.inCondition "(true // always) && (true)" .malformed) := by
  refine ⟨?_, ?_, ?_⟩ <;> decide +kernel

end Handshake

end Lasso
