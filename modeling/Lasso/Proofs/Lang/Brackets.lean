import Lasso.Proofs.Lang.Phrase
/-!
# Expressions in brackets

Tokens that spell an expression (`Spells`) spell an operand when brackets are put around them. The
conjunction of two such operands is read as one; where a semicolon stands in the place of a closing
bracket, nothing is read.
-/

namespace Lasso.Lang

open Lasso.Lang.Parser

/-! ## 1. Repetitions that end -/

section Repetition

variable {α : Type} {p : (g : Goal) → Reading g.Result} {step : α → Rule (Option α)} {a b : α}
  {ts mid rest : List Token}

theorem run_repeatStep_of_stop (h : (step a).run p ts = some (none, rest)) :
    (repeatStep step a).run p ts = some (a, rest) := by
  simp only [repeatStep, Reading.repeated, h]

theorem run_repeatStep_of_step (h : (step a).run p ts = some (some b, mid))
    (hlt : mid.length < ts.length) (hstop : (step b).run p mid = some (none, rest)) :
    (repeatStep step a).run p ts = some (b, rest) := by
  obtain ⟨n, hn⟩ := Nat.exists_eq_succ_of_ne_zero (by omega : ts.length ≠ 0)
  simp only [repeatStep, Reading.repeated, h, if_pos hlt]
  simp only [hn, Reading.repeated, hstop]

theorem run_repeatStep_of_refuse (h : (step a).run p ts = none) :
    (repeatStep step a).run p ts = none := by
  simp only [repeatStep, Reading.repeated, h]

end Repetition

/-! ## 2. Operands -/

section Operand

variable {m : Nat} {us k : List Token} {x : Expr}

/-- How brackets are read around an expression. -/
theorem run_operand_paren (p : (g : Goal) → Reading g.Result) (ts : List Token) :
    operand.run p (.op .lparen :: ts) = (p (.expr true 1)).andThen (fun e ts =>
      if ts.head? = some (.op .rparen) then some (.paren e, ts.drop 1) else none) ts := by
  change Reading.andThen (p (.expr true 1)) _ ts = _
  congr 1
  funext e ts
  rw [run_bind, Reading.andThen, expectOp, run_expect]
  by_cases h : ts.head? = some (.op .rparen)
  · rw [if_pos h, if_pos h]
    rfl
  · rw [if_neg h, if_neg h]

/-- An operand that stands before a semicolon or before another operand of a conjunction goes no
    further. -/
theorem run_primaryTail_of_stop (p : (g : Goal) → Reading g.Result) (x : Expr)
    (hk : k.head? = some (.semi true) ∨ k.head? = some (.op .land)) :
    (primaryTail true x).run p k = some (x, k) := by
  refine run_repeatStep_of_stop ?_
  rw [run_bind, Reading.andThen, run_peek]
  rcases hk with hk | hk
  · simp only [hk]
    rfl
  · simp only [hk]
    rfl

/-- An expression in brackets is an operand. -/
theorem parse_unary_of_paren (hx : Spells us x) (hm : depth (us ++ [.semi true]) ≤ m)
    (hk : k.head? = some (.semi true) ∨ k.head? = some (.op .land)) :
    parse (m + 1) (.unary true) (.op .lparen :: (us ++ .op .rparen :: k)) = some (.paren x, k) := by
  have hread : parse m (.expr true 1) (us ++ .op .rparen :: k) = some (x, .op .rparen :: k) :=
    hx m _ hm (Or.inr rfl)
  have hoperand : operand.run (parse m) (.op .lparen :: (us ++ .op .rparen :: k)) =
      some (.paren x, k) := by
    rw [run_operand_paren, Reading.andThen, hread]
    rfl
  change (operand >>= primaryTail true).run (parse m) _ = _
  rw [run_bind, Reading.andThen, hoperand]
  exact run_primaryTail_of_stop _ _ hk

/-- A semicolon does not close a bracket. -/
theorem parse_unary_of_semi (hx : Spells us x) (hm : depth (us ++ [.semi true]) ≤ m) :
    parse (m + 1) (.unary true) (.op .lparen :: (us ++ .semi true :: k)) = none := by
  have hread : parse m (.expr true 1) (us ++ .semi true :: k) = some (x, .semi true :: k) :=
    hx m _ hm (Or.inl rfl)
  have hoperand : operand.run (parse m) (.op .lparen :: (us ++ .semi true :: k)) = none := by
    rw [run_operand_paren, Reading.andThen, hread]
    rfl
  change (operand >>= primaryTail true).run (parse m) _ = _
  rw [run_bind, Reading.andThen, hoperand]

end Operand

/-! ## 3. Expressions -/

section Expression

variable {m : Nat} {ts us vs k : List Token} {x y : Expr}

theorem parse_expr (m s : Nat) : parse (m + 1) (.expr true s) =
    (parse m (.unary true)).andThen fun x => (binaryTail true s x).run (parse m) := rfl

theorem parse_expr_of_refuse (h : parse m (.unary true) ts = none) (s : Nat) :
    parse (m + 1) (.expr true s) ts = none := by
  rw [parse_expr, Reading.andThen, h]

/-- No operator goes on before a semicolon. -/
theorem parse_expr_of_semi (h : parse m (.unary true) ts = some (x, k))
    (hk : k.head? = some (.semi true)) (s : Nat) :
    parse (m + 1) (.expr true s) ts = some (x, k) := by
  rw [parse_expr, Reading.andThen, h]
  refine run_repeatStep_of_stop ?_
  rw [run_bind, Reading.andThen, run_peek]
  simp only [hk]
  rfl

/-- The right side of a conjunction binds more tightly than the conjunction. -/
theorem parse_expr_of_land (h : parse m (.unary true) ts = some (x, .op .land :: vs))
    (hvs : parse m (.expr true 3) vs = some (y, [.semi true])) (hlen : 0 < vs.length) :
    parse (m + 1) (.expr true 1) ts = some (.binary .land x y, [.semi true]) := by
  rw [parse_expr, Reading.andThen, h]
  refine run_repeatStep_of_step (b := Expr.binary .land x y) ?_ (?_ : [Token.semi true].length < _) rfl
  · change (parse m (.expr true 3)).andThen _ vs = _
    rw [Reading.andThen, hvs]
    rfl
  · simpa using hlen

theorem parse_expr_of_land_refuse (h : parse m (.unary true) ts = some (x, .op .land :: vs))
    (hvs : parse m (.expr true 3) vs = none) : parse (m + 1) (.expr true 1) ts = none := by
  rw [parse_expr, Reading.andThen, h]
  refine run_repeatStep_of_refuse ?_
  change (parse m (.expr true 3)).andThen _ vs = _
  rw [Reading.andThen, hvs]

end Expression

/-! ## 4. Texts -/

section Texts

variable {ts us vs k : List Token} {x y : Expr}

theorem expression?_of_parse (h : parse (depth ts) (.expr true 1) ts = some (x, [.semi true])) :
    expression? ts = some x := by
  change (parse (depth ts) (.expr true 1) ts).bind _ = _
  rw [h]
  rfl

theorem expression?_of_refuse (h : parse (depth ts) (.expr true 1) ts = none) :
    expression? ts = none := by
  change (parse (depth ts) (.expr true 1) ts).bind _ = _
  rw [h]
  rfl

theorem Spells.expression?_eq (h : Spells us x) : expression? (us ++ [.semi true]) = some x :=
  expression?_of_parse (h _ _ (Nat.le_refl _) (Or.inl rfl))

/-- The depth of a text is enough for the brackets around a shorter one and the operators next to
    them. -/
theorem exists_depth (ts : List Token) :
    ∃ m, depth ts = m + 3 ∧ ∀ us : List Token, us.length + 1 < ts.length →
      depth (us ++ [.semi true]) ≤ m := by
  refine ⟨depth ts - 3, ?_, fun us h => ?_⟩
  · simp only [depth]
    omega
  · simp only [depth, List.length_append, List.length_singleton]
    omega

theorem expression?_paren (hx : Spells us x) :
    expression? (.op .lparen :: (us ++ [.op .rparen, .semi true])) = some (.paren x) := by
  obtain ⟨m, hdepth, hm⟩ := exists_depth (.op .lparen :: (us ++ [.op .rparen, .semi true]))
  apply expression?_of_parse
  rw [hdepth]
  have hus : depth (us ++ [.semi true]) ≤ m + 1 := Nat.le_succ_of_le (hm us (by simp))
  exact parse_expr_of_semi (parse_unary_of_paren hx hus (Or.inl rfl)) rfl 1

/-- An opening bracket that a semicolon answers is refused. -/
theorem expression?_paren_semi (hx : Spells us x) :
    expression? (.op .lparen :: (us ++ .semi true :: k)) = none := by
  obtain ⟨m, hdepth, hm⟩ := exists_depth (.op .lparen :: (us ++ .semi true :: k))
  apply expression?_of_refuse
  rw [hdepth]
  have hus : depth (us ++ [.semi true]) ≤ m + 1 := Nat.le_succ_of_le (hm us (by simp))
  exact parse_expr_of_refuse (parse_unary_of_semi hx hus) 1

/-- Two expressions in brackets with the sign of a conjunction between them. -/
theorem expression?_land (hx : Spells us x) (hy : Spells vs y) :
    expression? (.op .lparen :: (us ++ .op .rparen :: .op .land :: .op .lparen ::
      (vs ++ [.op .rparen, .semi true]))) = some (.binary .land (.paren x) (.paren y)) := by
  obtain ⟨m, hdepth, hm⟩ := exists_depth (.op .lparen :: (us ++ .op .rparen :: .op .land ::
    .op .lparen :: (vs ++ [.op .rparen, .semi true])))
  apply expression?_of_parse
  rw [hdepth]
  have hus : depth (us ++ [.semi true]) ≤ m + 1 := Nat.le_succ_of_le (hm us (by simp))
  have hvs : depth (vs ++ [.semi true]) ≤ m := hm vs (by simp; omega)
  have hright := parse_expr_of_semi (k := [.semi true])
    (parse_unary_of_paren hy hvs (Or.inl rfl)) rfl 3
  exact parse_expr_of_land (parse_unary_of_paren hx hus (Or.inr rfl)) hright (by simp)

/-- The same, with a semicolon in the place of the last bracket. -/
theorem expression?_land_semi (hx : Spells us x) (hy : Spells vs y) :
    expression? (.op .lparen :: (us ++ .op .rparen :: .op .land :: .op .lparen ::
      (vs ++ .semi true :: k))) = none := by
  obtain ⟨m, hdepth, hm⟩ := exists_depth (.op .lparen :: (us ++ .op .rparen :: .op .land ::
    .op .lparen :: (vs ++ .semi true :: k)))
  apply expression?_of_refuse
  rw [hdepth]
  have hus : depth (us ++ [.semi true]) ≤ m + 1 := Nat.le_succ_of_le (hm us (by simp))
  have hvs : depth (vs ++ [.semi true]) ≤ m := hm vs (by simp; omega)
  have hright := parse_expr_of_refuse (parse_unary_of_semi (k := k) hy hvs) 3
  exact parse_expr_of_land_refuse (parse_unary_of_paren hx hus (Or.inr rfl)) hright

end Texts

end Lasso.Lang
