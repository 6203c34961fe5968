import Lasso.Proofs.Number.Double
import Lasso.Proofs.Value.Text
import Lasso.Proofs.Yaml.Reader
/-!
# Reading whole numbers back

A whole number is sent as a rounded number, and its text is read as a whole number again.

* `IsDecimal` -- a text of digits, with or without a sign in front; `meaningWith_of_isDecimal` -- it means a number;
* `int_natCast`, `int_neg_natCast` -- what is read of a whole number. What is too small becomes the least one;
* `int_numberNode_iff` -- **a number of 64 bits is read back exactly if its text stays its own**, or if it is the
  least one.
-/

namespace Lasso.Yaml

/-! ## 1. Digits -/

variable {v : Nat} {c : Char} {cs : List Char}

theorem digits?_toDigits (v : Nat) : digits? 10 (Nat.toDigits 10 v) = some v := by
  have hall : ∀ d : Fin 10, digit? d.val.digitChar = some d.val := by decide
  refine Text.foldlM_toDigits (by decide) (fun acc d hd => ?_) v
  rw [hall ⟨d, hd⟩]
  exact if_pos hd

theorem natural?_toDigits (hv : 0 < v) : natural? (Nat.toDigits 10 v) = some v := by
  obtain ⟨d, ds, hdigits, hd, -⟩ := Value.exists_toDigits_eq_cons hv
  have hread := digits?_toDigits v
  rw [hdigits] at hread ⊢
  rw [natural?.eq_def]
  split
  · rename_i heq
    cases heq
  · rename_i heq
    exact absurd (List.cons.inj heq).1 hd
  · rename_i heq
    exact absurd (List.cons.inj heq).1 hd
  · exact hread

theorem splitSign_of_isDigit (hc : c.isDigit = true) (cs : List Char) : splitSign (c :: cs) = (false, false, c :: cs) := by
  rw [splitSign.eq_def]
  split
  · rename_i heq
    obtain ⟨rfl, -⟩ := List.cons.inj heq
    cases hc
  · rename_i heq
    obtain ⟨rfl, -⟩ := List.cons.inj heq
    cases hc
  · rfl

theorem whole?_toDigits (hv : 0 < v) (hlt : v < Word64.count) : whole? (Nat.toDigits 10 v) = some (v : Int) := by
  obtain ⟨d, ds, hdigits, -, hd⟩ := Value.exists_toDigits_eq_cons hv
  have hread := natural?_toDigits hv
  rw [hdigits] at hread ⊢
  rw [whole?, splitSign_of_isDigit hd]
  dsimp only
  rw [hread]
  simp [fit?, hlt]

theorem whole?_neg_toDigits (hv : 0 < v) :
    whole? ('-' :: Nat.toDigits 10 v) = if v ≤ Word64.limit then some (-(v : Int)) else none := by
  rw [whole?, splitSign]
  dsimp only
  rw [natural?_toDigits hv]
  rfl

theorem decimal?_neg_toDigits (v : Nat) :
    decimal? ('-' :: Nat.toDigits 10 v) = some ⟨true, Nat.toDigits 10 v, [], 0⟩ := by
  have hdigits : ∀ x ∈ Nat.toDigits 10 v, x.isDigit = true := fun x hx => Value.isDigit_of_mem_toDigits hx
  have hne : (Nat.toDigits 10 v).isEmpty = false := by simp [Nat.toDigits_ne_nil]
  rw [decimal?, splitSign]
  dsimp only
  rw [List.takeWhile_eq_self_iff.mpr hdigits, List.dropWhile_eq_nil_iff.mpr hdigits]
  dsimp only
  rw [hne]
  rfl

/-- A number with its sign, large and negative. -/
theorem float?_neg_toDigits (v : Nat) : float? ('-' :: Nat.toDigits 10 v) =
    (Decimal.double? ⟨true, Nat.toDigits 10 v, [], 0⟩).map .float := by
  rw [float?, decimal?_neg_toDigits, Option.map_eq_bind]
  rfl

/-! ## 2. Meanings -/

/-- The digits of a number, with or without a sign in front. -/
def IsDecimal (v : Nat) (text : String) : Prop :=
  text.toList = Nat.toDigits 10 v ∨ text.toList = '-' :: Nat.toDigits 10 v

theorem isDecimal_natCast (v : Nat) : IsDecimal v (toString (v : Int)) := .inl (Value.toList_toString_natCast v)

theorem toList_toString_neg (hv : 0 < v) : (toString (-(v : Int))).toList = '-' :: Nat.toDigits 10 v := by
  obtain ⟨v, rfl⟩ := Nat.exists_eq_succ_of_ne_zero hv.ne'
  exact Value.toList_toString_negSucc v

theorem isDecimal_neg_natCast (hv : 0 < v) : IsDecimal v (toString (-(v : Int))) := .inr (toList_toString_neg hv)

variable {text : String}

theorem IsDecimal.all (h : IsDecimal v text) : ∀ x ∈ text.toList, x.isDigit = true ∨ x = '-' := by
  intro x hx
  obtain h | h := h
  · rw [h] at hx
    exact .inl (Value.isDigit_of_mem_toDigits hx)
  · rw [h] at hx
    obtain rfl | hx := List.mem_cons.mp hx
    · exact .inr rfl
    · exact .inl (Value.isDigit_of_mem_toDigits hx)

theorem IsDecimal.exists_digit (h : IsDecimal v text) : ∃ x ∈ text.toList, x.isDigit = true := by
  obtain ⟨x, hx, hd⟩ := Value.head?_toDigits v
  have hmem := List.mem_of_mem_head? hx
  obtain h | h := h
  · exact ⟨x, h ▸ hmem, hd⟩
  · exact ⟨x, h ▸ List.mem_cons_of_mem '-' hmem, hd⟩

/-- A decimal is no word. -/
theorem IsDecimal.word?_eq_none (h : IsDecimal v text) : word? text = none := by
  have hnot : ∀ words : List String, (∀ s ∈ words, (s.toList.all (fun x => x.isDigit || x = '-') &&
      s.toList.any Char.isDigit) = false) → words.contains text = false := by
    intro words hwords
    rw [Bool.eq_false_iff, ne_eq, List.contains_iff_mem]
    intro hmem
    have hall : text.toList.all (fun x => x.isDigit || x = '-') = true := by simpa using h.all
    have hany : text.toList.any Char.isDigit = true := by simpa using h.exists_digit
    have hword := hwords text hmem
    rw [hall, hany] at hword
    cases hword
  rw [word?, hnot _ (by decide), hnot _ (by decide), hnot _ (by decide), hnot _ (by decide), hnot _ (by decide),
    hnot _ (by decide)]
  rfl

/-- A decimal is no point in time. -/
theorem IsDecimal.isTimestamp_eq_false (h : IsDecimal v text) : isTimestamp text = false := by
  have hdate : date? text.toList = none := by
    obtain h | h := h
    · have htake : text.toList.takeWhile Char.isDigit = text.toList :=
        List.takeWhile_eq_self_iff.mpr fun x hx => Value.isDigit_of_mem_toDigits (h ▸ hx)
      rw [date?, htake]
      dsimp only
      by_cases hlen : text.toList.length = 4
      · rw [if_neg (not_not_intro hlen), List.drop_eq_nil_of_le hlen.le]
        rfl
      · rw [if_pos hlen]
        rfl
    · rw [h]
      rfl
  rw [isTimestamp, hdate]

/-- **A decimal means a number.** -/
theorem IsDecimal.meaningWith_eq (h : IsDecimal v text) (times : Bool) : meaningWith times text =
    (((whole? text.toList).map Meaning.int).or <| (float? text.toList).or
      ((innerSigned? text.toList).map Meaning.int)).getD (.text text) := by
  have hplain : text.toList.filter (· ≠ '_') = text.toList := by
    refine List.filter_eq_self.mpr fun x hx => ?_
    obtain hx | rfl := h.all x hx
    · exact decide_eq_true fun heq => by rw [heq] at hx; cases hx
    · rfl
  rw [meaningWith, h.word?_eq_none, h.isTimestamp_eq_false]
  cases htext : text.toList with
  | nil =>
    obtain ⟨x, hx, -⟩ := h.exists_digit
    simp [htext] at hx
  | cons c cs =>
    have hc := h.all c (by simp [htext])
    have hdot : c ≠ '.' := by
      rintro rfl
      revert hc
      decide
    have hstart : (c.isDigit || c = '+' || c = '-') = true := by
      obtain hc | rfl := hc
      · rw [hc]
        rfl
      · rfl
    rw [htext] at hplain
    dsimp only
    rw [if_neg hdot, if_pos hstart, hplain]
    simp

theorem meaningWith_natCast (hv : 0 < v) (hlt : v < Word64.count) (times : Bool) :
    meaningWith times (toString (v : Int)) = .int v := by
  rw [(isDecimal_natCast v).meaningWith_eq, Value.toList_toString_natCast, whole?_toDigits hv hlt]
  rfl

theorem meaningWith_neg_natCast (hv : 0 < v) (hle : v ≤ Word64.limit) (times : Bool) :
    meaningWith times (toString (-(v : Int))) = .int (-v) := by
  rw [(isDecimal_neg_natCast hv).meaningWith_eq, toList_toString_neg hv, whole?_neg_toDigits hv, if_pos hle]
  rfl

/-- **What is too small for a whole number means a rounded one.** -/
theorem meaningWith_neg_natCast_of_lt (hlt : Word64.limit < v) (hcount : v < Word64.count) :
    ∃ m i : Nat, Word64.limit ≤ m * 2 ^ i ∧
      ∀ times, meaningWith times (toString (-(v : Int))) = .float (.finite true m i) := by
  have hv : 0 < v := by omega
  obtain ⟨m, i, hround, -, -, hm⟩ := Double.ofRatio_one_of_le true (N := v)
    (by unfold Word64.limit at hlt; omega) (by unfold Word64.count at hcount; omega)
  refine ⟨m, i, hm (by unfold Word64.limit at hlt; omega), fun times => ?_⟩
  have hdouble : Decimal.double? ⟨true, Nat.toDigits 10 v, [], 0⟩ = some (.finite true m i) := by
    have hcut : Double.ofDecimal true v (0 - ([] : List Char).length) = .finite true m i := by
      rw [← hround]
      exact Double.ofDecimal_zero true hv (by unfold Word64.count at hcount; omega)
    rw [Decimal.double?, List.append_nil, digits?_toDigits, Option.bind_eq_bind, Option.bind_some, hcut]
  rw [(isDecimal_neg_natCast hv).meaningWith_eq, toList_toString_neg hv, whole?_neg_toDigits hv,
    if_neg (Nat.not_le_of_lt hlt), float?_neg_toDigits, hdouble]
  rfl

/-! ## 3. Reading -/

/-- **A decimal is read as what it means.** -/
theorem IsDecimal.scalar_eq {α : Type} {f : Meaning → String → Option α} (h : IsDecimal v text) {m : Meaning}
    (hm : ∀ times, meaningWith times text = m) (hnumber : (∃ n, m = .int n) ∨ ∃ x, m = .float x) :
    Reader.scalar f (Node.ofScalar "" text .plain) = (f m text).map some := by
  have hmerge : text ≠ "<<" := by
    rintro rfl
    have hany : "<<".toList.any Char.isDigit = false := by decide
    obtain ⟨x, hx, hd⟩ := h.exists_digit
    exact List.any_eq_false.mp hany x hx hd
  have hnode : Node.ofScalar "" text .plain = .scalar m.tag text := by simp [Node.ofScalar, hmerge, meaning, hm]
  have hscalar : scalarMeaning? m.tag text = some m := by
    obtain ⟨n, rfl⟩ | ⟨x, rfl⟩ := hnumber
    · show scalarMeaning? "!!int" text = _
      rw [scalarMeaning?, if_neg (by decide), resolve?, if_neg (by decide), hm]
      rfl
    · show scalarMeaning? "!!float" text = _
      rw [scalarMeaning?, if_neg (by decide), resolve?, if_neg (by decide), hm]
      rfl
  rw [hnode, Reader.scalar]
  dsimp only [Node.target?, Option.bind_eq_bind, Option.bind_some]
  rw [hscalar]
  obtain ⟨n, rfl⟩ | ⟨x, rfl⟩ := hnumber
  · rfl
  · rfl

theorem int_natCast (hv : 0 < v) (hlt : v < Word64.count) :
    Reader.int (Node.ofScalar "" (toString (v : Int)) .plain) =
      if v < Word64.limit then some (some (v : Int)) else none := by
  refine ((isDecimal_natCast v).scalar_eq (meaningWith_natCast hv hlt) (.inl ⟨_, rfl⟩)).trans ?_
  by_cases hlimit : v < Word64.limit <;> simp [hlimit]

theorem cutToInt_of_le {m i : Nat} (h : Word64.limit ≤ m * 2 ^ i) :
    Reader.cutToInt (.finite true m i) = some Word64.least := by
  have hcut : Double.truncate? (.finite true m i) = some (-((m * 2 ^ i : Nat) : Int)) := by simp [Double.truncate?]
  simp only [Reader.cutToInt, hcut, Option.bind_eq_bind, Option.bind_some]
  rw [if_neg (by omega)]
  by_cases hfits : Word64.fits (-((m * 2 ^ i : Nat) : Int)) = true
  · have hleast : -((m * 2 ^ i : Nat) : Int) = Word64.least := by
      obtain ⟨hlow, -⟩ := Word64.fits_iff.mp hfits
      unfold Word64.least
      omega
    rw [if_pos hfits, hleast]
  · rw [if_neg hfits]

/-- **What is too small becomes the least number.** -/
theorem int_neg_natCast (hv : 0 < v) (hlt : v < Word64.count) :
    Reader.int (Node.ofScalar "" (toString (-(v : Int))) .plain) =
      some (some (if v ≤ Word64.limit then -(v : Int) else Word64.least)) := by
  have hdecimal := isDecimal_neg_natCast hv
  by_cases hle : v ≤ Word64.limit
  · have hlimit : -(v : Int) < (Word64.limit : Int) := by omega
    rw [if_pos hle]
    refine (hdecimal.scalar_eq (meaningWith_neg_natCast hv hle) (.inl ⟨_, rfl⟩)).trans ?_
    simp [hlimit]
  · obtain ⟨m, i, hm, hmeaning⟩ := meaningWith_neg_natCast_of_lt (Nat.lt_of_not_le hle) hlt
    rw [if_neg hle]
    exact (hdecimal.scalar_eq hmeaning (.inr ⟨_, rfl⟩)).trans (congrArg (Option.map some) (cutToInt_of_le hm))

theorem int_numberNode_least : Reader.int (Content.numberNode Word64.least) = some (some Word64.least) := by
  decide +kernel

/-- A number of 64 bits is read from its own text. -/
theorem int_toString {n : Int} (hn : n ≠ 0) (hfits : Word64.fits n = true) :
    Reader.int (Node.ofScalar "" (toString n) .plain) = some (some n) := by
  obtain ⟨hlow, hhigh⟩ := Word64.fits_iff.mp hfits
  have hcount : n.natAbs < Word64.count := by
    unfold Word64.limit at hlow hhigh
    unfold Word64.count
    omega
  obtain hneg | hpos := lt_or_gt_of_ne hn
  · have hread := int_neg_natCast (v := n.natAbs) (by omega) hcount
    have habs : -(n.natAbs : Int) = n := by omega
    rw [habs] at hread
    rw [hread, if_pos (by omega)]
  · have hread := int_natCast (v := n.natAbs) (by omega) hcount
    have habs : (n.natAbs : Int) = n := by omega
    rw [habs] at hread
    rw [hread, if_pos (by omega)]

/-- **A whole number is read back exactly if its text is its own**, or if it is the least. -/
theorem int_numberNode_iff {n : Int} (hn : n ≠ 0) (hfits : Word64.fits n = true) :
    Reader.int (Content.numberNode n) = some (some n) ↔ (Double.ofInt n).text = toString n ∨ n = Word64.least := by
  constructor
  · intro hread
    obtain ⟨v, hv, hlt, -, htext⟩ := Double.text_ofInt hn hfits
    rw [Content.numberNode, htext] at hread
    by_cases hneg : n < 0
    · rw [if_pos hneg] at htext hread
      rw [int_neg_natCast hv hlt, Option.some_inj, Option.some_inj] at hread
      by_cases hle : v ≤ Word64.limit
      · rw [if_pos hle] at hread
        exact .inl (hread ▸ htext)
      · rw [if_neg hle] at hread
        exact .inr hread.symm
    · rw [if_neg hneg] at htext hread
      rw [int_natCast hv hlt, Option.ite_none_right_eq_some, Option.some_inj, Option.some_inj] at hread
      exact .inl (hread.2 ▸ htext)
  · rintro (hown | rfl)
    · rw [Content.numberNode, hown]
      exact int_toString hn hfits
    · exact int_numberNode_least

end Lasso.Yaml
