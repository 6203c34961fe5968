import Lasso.Proofs.Eval.Reading
import Lasso.Proofs.Value.Text
/-!
# Printed values are read back

The text of an integer, a truth value or a byte string is an expression of the language. This file shows that it
spells the value it was printed for, whatever the environment binds.

* `number?_toDigits`, `literalNat_toDigits` -- the digits of a number are one integer literal, which spells the number;
* `readExpr_natCast`, `readExpr_negSucc`, `readExpr_quoteBytes` -- what is read of a printed value: a literal, and
  behind a sign the negation of one;
* `printed_values_read_back` -- **the value of a printed value is the value.** The least integer is the one exception:
  its literal stands behind the sign, and has one bit too many.
-/

namespace Lasso

open Lang

namespace Lang

/-! ## 1. Digits -/

variable {c : Char} {cs : List Char} {n : Nat}

theorem isDecimal_of_mem_toDigits (h : c ∈ Nat.toDigits 10 n) : isDecimal c = true := by
  have hdigit := Value.isDigit_of_mem_toDigits h
  rw [Char.isDigit, Bool.and_eq_true] at hdigit
  rw [isDecimal, Bool.and_eq_true]
  exact hdigit

theorem digitRun_of_isDecimal (hex : Bool) (h : ∀ c ∈ cs, isDecimal c = true) : digitRun hex cs = cs := by
  refine List.takeWhile_eq_self_iff.mpr fun c hc => ?_
  rw [h c hc]
  rfl

/-- Without a zero in front nothing announces another base. -/
theorem Radix.ofStart_of_ne (h : c ≠ '0') (cs : List Char) : Radix.ofStart (c :: cs) = (.decimal, 0) := by
  rw [Radix.ofStart.eq_def]
  split
  · rename_i heq
    exact absurd (List.cons.inj heq).1 h
  · rename_i heq
    exact absurd (List.cons.inj heq).1 h
  · rfl

theorem toNat_of_isDecimal (h : isDecimal c = true) : '0'.toNat ≤ c.toNat ∧ c.toNat ≤ '9'.toNat := by
  rw [isDecimal, Bool.and_eq_true, decide_eq_true_iff, decide_eq_true_iff] at h
  exact h

theorem ne_underscore_of_isDecimal (h : isDecimal c = true) : c ≠ '_' := by
  rintro rfl
  cases h

theorem numberOk_of_isDecimal (hne : cs ≠ []) (h : ∀ c ∈ cs, isDecimal c = true) :
    numberOk .decimal ⟨cs, none⟩ none true cs = true := by
  have hdigit : ∃ c ∈ cs, ¬ c = '_' := by
    obtain ⟨c, cs, rfl⟩ := List.exists_cons_of_ne_nil hne
    exact ⟨c, List.mem_cons_self, ne_underscore_of_isDecimal (h c List.mem_cons_self)⟩
  have hsmall : ∀ c ∈ cs, ¬ c = '_' → c.toNat - 48 < Radix.decimal.bound := by
    intro c hc _
    obtain ⟨hlo, hhi⟩ : 48 ≤ c.toNat ∧ c.toNat ≤ 57 := toNat_of_isDecimal (h c hc)
    show c.toNat - 48 < 10
    omega
  have hplain : cs.any (· = '_') = false := by
    rw [List.any_eq_false]
    intro c hc
    simpa using ne_underscore_of_isDecimal (h c hc)
  simpa [numberOk, hplain] using ⟨hdigit, hsmall⟩

theorem number?_of_isDecimal (hc : c ≠ '0') (h : ∀ d ∈ c :: cs, isDecimal d = true) :
    number? (c :: cs) = some ((c :: cs).length, true) := by
  have hm : mantissa? .decimal (c :: cs) = some ⟨c :: cs, none⟩ := by
    simp only [mantissa?, digitRun_of_isDecimal _ h, List.drop_length]
  have hlen : Mantissa.length 0 ⟨c :: cs, none⟩ = (c :: cs).length := by simp [Mantissa.length]
  have hexp : exponent? .decimal [] = some none := rfl
  have hok := numberOk_of_isDecimal (List.cons_ne_nil c cs) h
  simp [number?, Radix.ofStart_of_ne hc, hm, hlen, hexp, hok]

/-- **The digits of a number are one integer literal.** -/
theorem number?_toDigits (n : Nat) :
    number? (Nat.toDigits 10 n) = some ((Nat.toDigits 10 n).length, true) := by
  by_cases hn : n = 0
  · subst hn
    decide
  · obtain ⟨d, ds, hdigits, hd, -⟩ := Value.exists_toDigits_eq_cons (Nat.pos_of_ne_zero hn)
    have hall : ∀ c ∈ Nat.toDigits 10 n, isDecimal c = true := fun c hc => isDecimal_of_mem_toDigits hc
    rw [hdigits] at hall ⊢
    exact number?_of_isDecimal hd hall

/-- **The literal spells the number.** -/
theorem literalNat_toDigits (n : Nat) : literalNat (.ofList (Nat.toDigits 10 n)) = n := by
  by_cases hn : n = 0
  · subst hn
    decide
  · obtain ⟨d, ds, hdigits, hd, -⟩ := Value.exists_toDigits_eq_cons (Nat.pos_of_ne_zero hn)
    have hstep : ∀ acc k, k < 10 → some (if k.digitChar = '_' then acc else
        acc * 10 + (hexValue? k.digitChar).getD 0) = some (acc * 10 + k) := by
      intro acc k hk
      have hne : ∀ i : Fin 10, i.val.digitChar ≠ '_' := by decide
      rw [if_neg (hne ⟨k, hk⟩), Text.hexValue?_digitChar (by omega), Option.getD_some]
    have hread := Text.foldlM_toDigits (by decide)
      (f := fun acc c => some (if c = '_' then acc else acc * 10 + (hexValue? c).getD 0)) hstep n
    rw [hdigits] at hread
    simp only [literalNat, String.toList_ofList, hdigits, literalDigits, Radix.ofStart_of_ne hd, List.drop_zero]
    exact Option.some.inj (List.foldlM_pure.symm.trans hread)

/-! ## 2. Tokens -/

theorem isLetter_of_isDecimal (h : isDecimal c = true) : Text.isLetter c = false := by
  obtain ⟨hlo, hhi⟩ : 48 ≤ c.toNat ∧ c.toNat ≤ 57 := toNat_of_isDecimal h
  have hall : ∀ k : Fin 10, Text.isLetter (Char.ofNat (48 + k.val)) = false := by decide
  have hdigit := hall ⟨c.toNat - 48, by omega⟩
  rwa [Nat.add_sub_cancel' hlo, Char.ofNat_toNat] at hdigit

theorem Start.of_isDecimal (h : isDecimal c = true) (next : Option Char) : Start.of c next = .number := by
  have hne : ∀ d, isDecimal d = false → c ≠ d := by
    rintro d hd rfl
    rw [h] at hd
    cases hd
  simp only [Start.of, hne ' ' (by decide), hne '\t' (by decide), hne '\r' (by decide), hne '\n' (by decide),
    hne '/' (by decide), isLetter_of_isDecimal h, h, false_or, true_or, false_and, Bool.false_eq_true,
    if_false, if_true]

/-- The digits of a number, at the end of a text. -/
theorem tokens?_toDigits (p : Place) (n : Nat) :
    tokens? p (Nat.toDigits 10 n) = some [.int (.ofList (Nat.toDigits 10 n)), .semi true] := by
  obtain ⟨d, ds, hdigits⟩ := List.exists_cons_of_ne_nil (Nat.toDigits_ne_nil (n := n) (b := 10))
  have hnum := number?_toDigits n
  have hd : isDecimal d = true := isDecimal_of_mem_toDigits (n := n) (by simp [hdigits])
  rw [hdigits] at hnum ⊢
  have hl : lexeme? p d ds = some (.one (.int (.ofList (d :: ds))) true ds.length) := by
    unfold lexeme?
    rw [Start.of_isDecimal hd]
    simp [hnum]
  rw [tokens?_of_lexeme hl, Lexeme.one, List.drop_length, tokens?_nil]
  rfl

theorem operator?_minus (hc : isDecimal c = true) (cs : List Char) : operator? ('-' :: c :: cs) = some .sub := by
  have hequals : '=' ≠ c := by
    rintro rfl
    cases hc
  have hminus : '-' ≠ c := by
    rintro rfl
    cases hc
  simp [operator?, Op.all, Op.text, List.isPrefixOf, hequals, hminus]

/-- A sign in front of a digit is an operator of its own. -/
theorem tokens?_minus (p : Place) (hc : isDecimal c = true) (cs : List Char) :
    tokens? p ('-' :: c :: cs) = (tokens? ⟨false, false⟩ (c :: cs)).map (.op .sub :: ·) := by
  have hl : lexeme? p '-' (c :: cs) = some (.one (.op .sub) false 0) := by
    show (operator? ('-' :: c :: cs)).bind _ = _
    rw [operator?_minus hc]
    rfl
  rw [tokens?_of_lexeme hl]
  rfl

/-- A quoted form, at the end of a text. -/
theorem tokens?_quoteBytes (p : Place) (b : Bytes) :
    tokens? p (Text.quoteBytes b).toList = some [.str b, .semi true] := by
  have hbytes : (b.units.map Bytes.Unit.bytes).flatten = b := by rw [← List.flatMap_def, Bytes.flatMap_units]
  have hl : lexeme? p '"' (b.units.flatMap Text.quoteUnit ++ ['"']) =
      some (.one (.str b) true (b.units.flatMap Text.quoteUnit ++ ['"']).length) := by
    show (quoted? '"' _).bind _ = _
    rw [Text.quoted?_quoteUnits, List.length_append]
    show some (Lexeme.one (.str (b.units.map Bytes.Unit.bytes).flatten) true _) = _
    rw [hbytes]
    rfl
  rw [Text.toList_quoteBytes, tokens?_of_lexeme hl, Lexeme.one, List.drop_length, tokens?_nil]
  rfl

end Lang

/-! ## 3. Expressions -/

/-- What has printable characters only is read from its first character on. -/
theorem scanText?_of_isPrintable {cs : List Char} (h : ∀ c ∈ cs, Text.isPrintable c = true) :
    scanText? cs = tokens? ⟨false, true⟩ cs := by
  refine scanText?_of_clean (List.any_eq_false.mpr fun c hc hbad => ?_)
  rw [isForbidden, Bool.or_eq_true, decide_eq_true_iff, decide_eq_true_iff] at hbad
  rcases hbad with rfl | rfl
  · exact absurd (h _ hc) (by decide)
  · exact absurd (h _ hc) (by decide +kernel)

theorem isPrintable_of_mem_toDigits {n : Nat} {c : Char} (h : c ∈ Nat.toDigits 10 n) :
    Text.isPrintable c = true := by
  have hc : hexValue? c = some (c.toNat - '0'.toNat) :=
    if_pos (toNat_of_isDecimal (isDecimal_of_mem_toDigits h))
  refine Text.isPrintable_of_hexValue? ?_
  rw [hc]
  rfl

/-- The digits of a number spell a literal. -/
theorem readExpr_natCast (n : Nat) :
    readExpr (toString (n : Int)) = .ok (.int (.ofList (Nat.toDigits 10 n))) := by
  refine readExpr_eq_ok_iff.mpr ⟨[.int (.ofList (Nat.toDigits 10 n)), .semi true], ?_, rfl⟩
  rw [Value.toList_toString_natCast, scanText?_of_isPrintable fun _ => isPrintable_of_mem_toDigits,
    tokens?_toDigits]

/-- **The sign is no part of the literal**: a negative number is read as a negation. -/
theorem readExpr_negSucc (n : Nat) :
    readExpr (toString (Int.negSucc n)) = .ok (.unary .sub (.int (.ofList (Nat.toDigits 10 (n + 1))))) := by
  refine readExpr_eq_ok_iff.mpr
    ⟨[.op .sub, .int (.ofList (Nat.toDigits 10 (n + 1))), .semi true], ?_, rfl⟩
  have hprint : ∀ c ∈ '-' :: Nat.toDigits 10 (n + 1), Text.isPrintable c = true := by
    intro c hc
    rcases List.mem_cons.mp hc with rfl | hc
    · decide
    · exact isPrintable_of_mem_toDigits hc
  rw [Value.toList_toString_negSucc, scanText?_of_isPrintable hprint]
  have hread := tokens?_toDigits ⟨false, false⟩ (n + 1)
  obtain ⟨d, ds, hdigits⟩ := List.exists_cons_of_ne_nil (Nat.toDigits_ne_nil (n := n + 1) (b := 10))
  have hd : isDecimal d = true := isDecimal_of_mem_toDigits (n := n + 1) (by simp [hdigits])
  rw [hdigits] at hread ⊢
  rw [tokens?_minus _ hd, hread]
  rfl

theorem readExpr_bool (b : Bool) : readExpr (toString b) = .ok (.name (toString b)) := by
  cases b <;> decide +kernel

/-- **A quoted form spells the bytes it was made from.** -/
theorem readExpr_quoteBytes (b : Bytes) : readExpr (Text.quoteBytes b) = .ok (.str b) := by
  refine readExpr_eq_ok_iff.mpr ⟨[.str b, .semi true], ?_, rfl⟩
  rw [scanText?_of_isPrintable fun _ => Text.isPrintable_of_mem_quoteBytes, tokens?_quoteBytes]

/-! ## 4. Values -/

section Values

variable {s : String} {x : Expr}

/-- The value of a literal, if it has at most 63 bits. -/
theorem eval_toDigits (e : Env) (k : Nat) : (Expr.int (.ofList (Nat.toDigits 10 k))).eval e =
    if k < Word64.limit then .ok (.int (.ofNat k)) else .error (.outOfRange (.ofList (Nat.toDigits 10 k))) := by
  simp only [Expr.eval, literalInt?, literalNat_toDigits]
  by_cases hk : k < Word64.limit
  · rw [if_pos hk, if_pos hk]
  · rw [if_neg hk, if_neg hk]

theorem evalText_of_readExpr (e : Env) (h : readExpr s = .ok x) : evalText e s = x.eval e := by
  rw [evalText, h]
  rfl

theorem evalText_natCast (e : Env) {k : Nat} (hk : k < Word64.limit) :
    evalText e (toString (k : Int)) = .ok (.int (.ofNat k)) := by
  rw [evalText_of_readExpr e (readExpr_natCast k), eval_toDigits, if_pos hk]

theorem evalText_negSucc (e : Env) {k : Nat} (hk : k + 1 < Word64.limit) :
    evalText e (toString (Int.negSucc k)) = .ok (.int (.ofInt (Int.negSucc k))) := by
  have hneg : -Int64.ofNat (k + 1) = .ofInt (Int.negSucc k) := by
    rw [Int.negSucc_eq, Int64.ofInt_neg]
    rfl
  rw [evalText_of_readExpr e (readExpr_negSucc k), Expr.eval, eval_toDigits, if_pos hk, ← hneg]
  rfl

/-- **The least integer is not read back**: without its sign it is too large. -/
theorem evalText_minValue (e : Env) :
    evalText e (Value.int .minValue).text = .error (.outOfRange "9223372036854775808") := by
  have hdigits : String.ofList (Nat.toDigits 10 (9223372036854775807 + 1)) = "9223372036854775808" := by decide
  have hmin : Int64.minValue.toInt = Int.negSucc 9223372036854775807 := rfl
  rw [Value.text, hmin, evalText_of_readExpr e (readExpr_negSucc _), Expr.eval, eval_toDigits, hdigits,
    if_neg (by decide)]
  rfl

theorem evalText_int (e : Env) {n : Int64} (hne : n ≠ .minValue) :
    evalText e (Value.int n).text = .ok (.int n) := by
  have hn : Int64.ofInt n.toInt = n := Int64.ofInt_toInt n
  have hlo := n.le_toInt
  have hhi := n.toInt_lt
  rw [Value.text]
  cases hi : n.toInt with
  | ofNat k =>
    rw [hi, Int.ofNat_eq_natCast] at hn hhi
    have hk : k < Word64.limit := by
      unfold Word64.limit
      omega
    rw [Int64.ofInt_eq_ofNat] at hn
    rw [Int.ofNat_eq_natCast, evalText_natCast e hk, hn]
  | negSucc k =>
    rw [hi] at hn hlo
    have hk : k + 1 < Word64.limit := by
      have hleast : k ≠ 9223372036854775807 := by
        rintro rfl
        exact hne hn.symm
      unfold Word64.limit
      omega
    rw [evalText_negSucc e hk, hn]

theorem evalText_bool (e : Env) (b : Bool) : evalText e (Value.bool b).text = .ok (.bool b) := by
  rw [Value.text, evalText_of_readExpr e (readExpr_bool b)]
  cases b <;> rfl

theorem evalText_str (e : Env) (b : Bytes) : evalText e (Value.str b).text = .ok (.str b) := by
  rw [Value.text, evalText_of_readExpr e (readExpr_quoteBytes b)]
  rfl

end Values

/-- **Printed values are read back**, whatever the environment binds: truth values, byte strings of any bytes, and
    integers of 64 bits. Only the least integer is not: its text is refused as not of the grammar, since the digits
    behind the sign spell a number of 64 bits. -/
theorem printed_values_read_back (e : Env) :
    (∀ b : Bool, evalText e (Value.bool b).text = .ok (.bool b)) ∧
    (∀ b : Bytes, evalText e (Value.str b).text = .ok (.str b)) ∧
    (∀ n : Int64, n ≠ .minValue → evalText e (Value.int n).text = .ok (.int n)) ∧
    ∃ cause : EvalError, cause.kind = .grammar ∧ evalText e (Value.int .minValue).text = .error cause :=
  ⟨evalText_bool e, evalText_str e, fun _ => evalText_int e, .outOfRange _, rfl, evalText_minValue e⟩

/-- Names that look like printed values, a stray byte behind a quote, and the integer next to the least one. -/
theorem printed_values_read_back_shadowed :
    let e := Env.ofList [("true", .bool false), ("\"", .int 1)]
    let n : Int64 := Int64.minValue + 1
    evalText e (Value.bool true).text = .ok (.bool true) ∧
      evalText e (Value.str [0x22, 0xff]).text = .ok (.str [0x22, 0xff]) ∧
      n ≠ .minValue ∧ evalText e (Value.int n).text = .ok (.int n) :=
  have h := printed_values_read_back (Env.ofList [("true", .bool false), ("\"", .int 1)])
  have hne : (Int64.minValue + 1 : Int64) ≠ .minValue := by decide
  ⟨h.1 true, h.2.1 [0x22, 0xff], hne, h.2.2.1 _ hne⟩

end Lasso
