import Mathlib.Tactic.Positivity
import Mathlib.Tactic.Ring
import Mathlib.Data.Nat.Log
import Lasso.Number.Double
import Lasso.Number.Word64
/-!
# Whole numbers as floating-point numbers

A whole number of 64 bits is rounded to 53 binary digits, and its text is the shortest decimal that is read as the
rounded number.

* `Stands` -- a mantissa and an exponent stand for a whole number;
* `ofRatio_one_of_lt`, `ofRatio_one_of_le` -- rounding a whole number gives a whole number, and changes none below the
  53rd power of two;
* `Stands.shortest_eq` -- the shortest decimal of a whole number is whole;
* `text_ofInt` -- **the text of a rounded whole number is that of a whole number**, and of the number itself if it is
  below the 53rd power of two.
-/

namespace Lasso

theorem Word64.fits_iff {n : Int} : fits n = true ↔ -(limit : Int) ≤ n ∧ n < (limit : Int) := by
  rw [fits, Bool.and_eq_true, decide_eq_true_iff, decide_eq_true_iff]
  rfl

namespace Double

variable {m w n N : Nat} {e k : Int}

/-! ## 1. Rounding -/

/-- The mantissa and the exponent stand for a whole number. -/
def Stands (m : Nat) (e : Int) (w : Nat) : Prop :=
  (∃ i : Nat, e = i ∧ w = m * 2 ^ i) ∨ ∃ i : Nat, e = -(i : Int) ∧ m = w * 2 ^ i

theorem Stands.pos (h : Stands m e w) (hm : 0 < m) : 0 < w := by
  obtain ⟨i, -, rfl⟩ | ⟨i, -, rfl⟩ := h
  · exact Nat.mul_pos hm (Nat.two_pow_pos i)
  · exact Nat.pos_of_mul_pos_right hm

theorem roundDiv_one (n : Nat) : roundDiv n 1 = n := by
  simp [roundDiv, Nat.mod_one]

/-- Rounding goes down, or up by less than one. -/
theorem roundDiv_cases {n d : Nat} (hd : 0 < d) : roundDiv n d = n / d ∨ roundDiv n d = n / d + 1 ∧ n % d ≠ 0 := by
  simp only [roundDiv]
  split_ifs
  · exact .inl rfl
  · exact .inr ⟨rfl, by omega⟩
  · exact .inl rfl
  · exact .inr ⟨rfl, by omega⟩

theorem log2_bounds (h : 0 < N) : 2 ^ N.log2 ≤ N ∧ N < 2 ^ (N.log2 + 1) :=
  ⟨Nat.log2_self_le h.ne', Nat.lt_log2_self⟩

/-- The exponent of a whole number is found by its length. -/
theorem exponentFor_one (h : 0 < N) : exponentFor N 1 = (N.log2 : Int) - 52 := by
  obtain ⟨hlow, -⟩ := log2_bounds h
  have hone : Nat.log2 1 = 0 := by decide
  have hfull : ¬ (if (N.log2 : Int) - (0 : Nat) - 52 ≥ 0 then N / (1 * Nat.pow 2 ((N.log2 : Int) - (0 : Nat) - 52).toNat)
      else N * Nat.pow 2 (-((N.log2 : Int) - (0 : Nat) - 52)).toNat / 1) < 4503599627370496 := by
    rw [Nat.not_lt, Nat.one_mul, Nat.div_one, Nat.pow_eq, Nat.pow_eq]
    split_ifs with he
    · rw [Nat.le_div_iff_mul_le (Nat.two_pow_pos _)]
      calc 4503599627370496 * 2 ^ ((N.log2 : Int) - (0 : Nat) - 52).toNat
          = 2 ^ (52 + ((N.log2 : Int) - (0 : Nat) - 52).toNat) := by rw [Nat.pow_add]
        _ = 2 ^ N.log2 := by congr 1; omega
        _ ≤ N := hlow
    · calc 4503599627370496 = 2 ^ (N.log2 + (-((N.log2 : Int) - (0 : Nat) - 52)).toNat) := by
            rw [show N.log2 + (-((N.log2 : Int) - (0 : Nat) - 52)).toNat = 52 by omega]
        _ = 2 ^ N.log2 * 2 ^ (-((N.log2 : Int) - (0 : Nat) - 52)).toNat := Nat.pow_add ..
        _ ≤ _ := Nat.mul_le_mul_right _ hlow
  simp only [exponentFor, hone]
  rw [if_neg hfull]
  omega

theorem roundScaled_one_neg (N i : Nat) : roundScaled N 1 (-(i : Int)) = N * 2 ^ i := by
  rw [roundScaled]
  split_ifs with hi
  · obtain rfl : i = 0 := by omega
    exact (roundDiv_one N).trans (Nat.mul_one N).symm
  · rw [Int.neg_neg, Int.toNat_natCast, Nat.pow_eq, roundDiv_one]

theorem roundScaled_one_natCast (N i : Nat) : roundScaled N 1 (i : Int) = roundDiv N (2 ^ i) := by
  rw [roundScaled, if_pos (Int.natCast_nonneg i), Int.toNat_natCast, Nat.one_mul, Nat.pow_eq]

/-- **A small whole number is not changed.** -/
theorem ofRatio_one_of_lt (negative : Bool) (h : 0 < N) (hN : N < 2 ^ 53) :
    ∃ i : Nat, ofRatio negative N 1 = .finite negative (N * 2 ^ i) (-(i : Int)) := by
  obtain ⟨-, hhigh⟩ := log2_bounds h
  have hlog : N.log2 ≤ 52 := Nat.le_of_lt_succ ((Nat.log2_lt h.ne').mpr hN)
  have he : exponentFor N 1 = -((52 - N.log2 : Nat) : Int) := by rw [exponentFor_one h]; omega
  have hlt : N * 2 ^ (52 - N.log2) < 9007199254740992 := by
    calc N * 2 ^ (52 - N.log2) < 2 ^ (N.log2 + 1) * 2 ^ (52 - N.log2) :=
          Nat.mul_lt_mul_of_pos_right hhigh (Nat.two_pow_pos _)
      _ = 2 ^ (N.log2 + 1 + (52 - N.log2)) := (Nat.pow_add ..).symm
      _ = 2 ^ 53 := by rw [show N.log2 + 1 + (52 - N.log2) = 53 by omega]
  refine ⟨52 - N.log2, ?_⟩
  rw [ofRatio, if_neg h.ne', he]
  simp only [roundScaled_one_neg, if_neg hlt.ne]
  rw [if_neg (by omega)]

/-- **A large whole number becomes a multiple of a power of two**, on the same side of the 63rd power of two. -/
theorem ofRatio_one_of_le (negative : Bool) (h : 2 ^ 53 ≤ N) (hN : N < 2 ^ 64) :
    ∃ m i : Nat, ofRatio negative N 1 = .finite negative m i ∧ 0 < m ∧ (N ≤ 2 ^ 63 → m * 2 ^ i ≤ 2 ^ 63) ∧
      (2 ^ 63 ≤ N → 2 ^ 63 ≤ m * 2 ^ i) := by
  have hpos : 0 < N := Nat.lt_of_lt_of_le (by decide) h
  obtain ⟨hlow, hhigh⟩ := log2_bounds hpos
  have hlog : 53 ≤ N.log2 := (Nat.le_log2 hpos.ne').mpr h
  obtain ⟨i, hi⟩ : ∃ i, N.log2 = 52 + i := ⟨N.log2 - 52, by omega⟩
  have he : exponentFor N 1 = (i : Int) := by rw [exponentFor_one hpos]; omega
  rw [hi] at hlow hhigh
  have hle : 52 + i < 64 := (Nat.pow_lt_pow_iff_right (by decide)).mp (Nat.lt_of_le_of_lt hlow hN)
  have hquotient : 2 ^ 52 ≤ N / 2 ^ i ∧ N / 2 ^ i < 2 ^ 53 := by
    rw [Nat.le_div_iff_mul_le (Nat.two_pow_pos i), Nat.div_lt_iff_lt_mul (Nat.two_pow_pos i), ← Nat.pow_add,
      ← Nat.pow_add, show 53 + i = 52 + i + 1 by omega]
    exact ⟨hlow, hhigh⟩
  have hround := roundDiv_cases (n := N) (Nat.two_pow_pos i)
  have hbelow : N ≤ 2 ^ 63 → roundDiv N (2 ^ i) * 2 ^ i ≤ 2 ^ 63 := by
    intro hN
    obtain hdown | ⟨hup, hrest⟩ := hround
    · rw [hdown]
      exact (Nat.div_mul_le_self N _).trans hN
    · -- the power of two itself is not rounded
      have hlt : N < 2 ^ 63 := Nat.lt_of_le_of_ne hN fun heq =>
        hrest (Nat.mod_eq_zero_of_dvd (heq ▸ Nat.pow_dvd_pow 2 (by omega)))
      have hi : 52 + i < 63 := (Nat.pow_lt_pow_iff_right (by decide)).mp (Nat.lt_of_le_of_lt hlow hlt)
      calc roundDiv N (2 ^ i) * 2 ^ i ≤ 2 ^ 53 * 2 ^ i := Nat.mul_le_mul_right _ (by omega)
        _ = 2 ^ (53 + i) := (Nat.pow_add ..).symm
        _ ≤ 2 ^ 63 := Nat.pow_le_pow_right (by decide) (by omega)
  have habove : 2 ^ 63 ≤ N → 2 ^ 63 ≤ roundDiv N (2 ^ i) * 2 ^ i := by
    intro hN
    have hi : 63 < 52 + i + 1 := (Nat.pow_lt_pow_iff_right (by decide)).mp (Nat.lt_of_le_of_lt hN hhigh)
    calc 2 ^ 63 ≤ 2 ^ (52 + i) := Nat.pow_le_pow_right (by decide) (by omega)
      _ = 2 ^ 52 * 2 ^ i := Nat.pow_add ..
      _ ≤ _ := Nat.mul_le_mul_right _ (by omega)
  rw [ofRatio, if_neg hpos.ne', he]
  simp only [roundScaled_one_natCast]
  by_cases hcarry : roundDiv N (2 ^ i) = 9007199254740992
  · rw [hcarry] at hbelow habove
    refine ⟨4503599627370496, i + 1, ?_, by decide, ?_⟩
    · rw [if_pos hcarry, if_neg (by omega)]
      rfl
    · rw [Nat.pow_succ]
      omega
  · refine ⟨roundDiv N (2 ^ i), i, ?_, by omega, hbelow, habove⟩
    rw [if_neg hcarry, if_neg (by omega)]

/-! ## 2. Shortest decimals -/

variable {g : Gap} {j : Nat}

/-- What lies in a gap lies between its bounds. -/
theorem Gap.bounds_of_has (h : g.has n (j : Int) = true) :
    g.low ≤ n * 10 ^ j * g.den ∧ n * 10 ^ j * g.den ≤ g.high := by
  simp only [Gap.has, ge_iff_le, Int.natCast_nonneg, if_true, Int.toNat_natCast, Nat.pow_eq, Nat.mul_one] at h
  split_ifs at h
  · simpa using h
  · have hlt : g.low < n * 10 ^ j * g.den ∧ n * 10 ^ j * g.den < g.high := by simpa using h
    exact ⟨hlt.1.le, hlt.2.le⟩

theorem Gap.has_zero (hlow : g.low < n * g.den) (hhigh : n * g.den < g.high) : g.has n 0 = true := by
  simp [Gap.has, hlow, hhigh, hlow.le, hhigh.le]

/-- Halfway to the neighbour below, in quarters of the last digit. -/
def lowest (m : Nat) (e : Int) : Nat := if m = 4503599627370496 && e > -1074 then 4 * m - 1 else 4 * m - 2

theorem lowest_bounds (hm : 0 < m) (e : Int) : 4 * m - 2 ≤ lowest m e ∧ lowest m e < 4 * m := by
  rw [lowest]
  split <;> omega

/-- The numbers that are read as a whole number. -/
theorem Stands.gap_eq (h : Stands m e w) :
    ∃ a b, gap m e = ⟨lowest m e * a, (4 * m + 2) * a, 4 * b, m % 2 = 0⟩ ∧ 0 < a ∧ 0 < b ∧ m * a = w * b ∧
      (e ≤ 0 → a = 1) := by
  obtain ⟨i, rfl, rfl⟩ | ⟨i, rfl, rfl⟩ := h
  · refine ⟨2 ^ i, 1, ?_, Nat.two_pow_pos i, Nat.one_pos, (Nat.mul_one _).symm, fun hi => ?_⟩
    · rw [gap, if_pos (Int.natCast_nonneg i), Int.toNat_natCast]
      rfl
    · rw [show i = 0 by omega, Nat.pow_zero]
  · obtain rfl | hi := Nat.eq_zero_or_pos i
    · refine ⟨1, 1, ?_, Nat.one_pos, Nat.one_pos, by rw [Nat.pow_zero, Nat.mul_one], fun _ => rfl⟩
      rw [gap, if_pos (by omega)]
      rfl
    · refine ⟨1, 2 ^ i, ?_, Nat.one_pos, Nat.two_pow_pos i, Nat.mul_one _, fun _ => rfl⟩
      rw [gap, if_neg (by omega), Int.neg_neg, Int.toNat_natCast, Nat.mul_one, Nat.mul_one]
      rfl

theorem Stands.divPower_zero (h : Stands m e w) : ∃ d, 0 < d ∧ divPower m e 0 = (w, 0, d) := by
  obtain ⟨i, rfl, rfl⟩ | ⟨i, rfl, rfl⟩ := h
  · refine ⟨1, Nat.one_pos, ?_⟩
    simp [divPower, Nat.mod_one]
  · obtain rfl | hi := Nat.eq_zero_or_pos i
    · refine ⟨1, Nat.one_pos, ?_⟩
      simp [divPower, Nat.mod_one]
    · refine ⟨2 ^ i, Nat.two_pow_pos i, ?_⟩
      simp [divPower, hi, Nat.mul_div_cancel _ (Nat.two_pow_pos i)]

/-- **What is read as a whole number is near to it**, and is the number itself where its last digit counts. -/
theorem Stands.near (h : Stands m e w) (hm : 0 < m) (hhas : (gap m e).has n (j : Int) = true) :
    n * 10 ^ j * 2 ≤ 3 * w ∧ (e ≤ 0 → n * 10 ^ j = w) := by
  obtain ⟨a, b, hgap, ha, hb, hw, he⟩ := h.gap_eq
  obtain ⟨hge, hle⟩ := Gap.bounds_of_has hhas
  obtain ⟨hlow, -⟩ := lowest_bounds hm e
  rw [hgap] at hge hle
  dsimp only at hge hle
  constructor
  · have hsix : (4 * m + 2) * a ≤ 6 * (w * b) := by
      rw [← hw, ← Nat.mul_assoc]
      exact Nat.mul_le_mul_right a (by omega)
    refine Nat.le_of_mul_le_mul_right (c := 2 * b) ?_ (by omega)
    calc n * 10 ^ j * 2 * (2 * b) = n * 10 ^ j * (4 * b) := by ring
      _ ≤ 6 * (w * b) := hle.trans hsix
      _ = 3 * w * (2 * b) := by ring
  · intro hneg
    rw [he hneg, Nat.mul_one] at hge hle hw
    have heq : n * 10 ^ j * b = w * b := by
      rw [show n * 10 ^ j * (4 * b) = 4 * (n * 10 ^ j * b) by ring] at hge hle
      omega
    exact Nat.eq_of_mul_eq_mul_right hb heq

/-- At the latest, whole numbers are found. -/
theorem Stands.onGrid?_zero (h : Stands m e w) (hm : 0 < m) : onGrid? m e 0 = some w := by
  obtain ⟨a, b, hgap, ha, hb, hw, -⟩ := h.gap_eq
  obtain ⟨d, hd, hdiv⟩ := h.divPower_zero
  obtain ⟨-, hlow⟩ := lowest_bounds hm e
  have hquarters : w * (4 * b) = 4 * m * a := by rw [Nat.mul_assoc, hw]; ring
  have hhas : (gap m e).has w 0 = true := by
    rw [hgap]
    refine Gap.has_zero ?_ ?_
    · rw [hquarters]
      exact Nat.mul_lt_mul_of_pos_right hlow ha
    · rw [hquarters]
      exact Nat.mul_lt_mul_of_pos_right (by omega) ha
  cases hnext : (gap m e).has (w + 1) 0 <;> simp [onGrid?, hdiv, hhas, hnext, hd]

theorem has_of_onGrid? (h : onGrid? m e k = some n) : (gap m e).has n k = true := by
  simp only [onGrid?] at h
  split at h
  · split at h <;> (cases h; assumption)
  · cases h; assumption
  · cases h; assumption
  · cases h

/-- The first grid that meets the gap is not finer than that of the whole numbers. -/
theorem firstOnGrid_of_zero (hzero : onGrid? m e 0 = some w) (hw : 0 < w) {fuel : Nat} (hfuel : j < fuel) :
    ∃ n i : Nat, firstOnGrid m e fuel j = (n, (i : Int)) ∧ 0 < n ∧ (gap m e).has n i = true := by
  induction fuel generalizing j with
  | zero => exact absurd hfuel (Nat.not_lt_zero j)
  | succ fuel ih =>
    -- where nothing is found, the grid is not yet that of the whole numbers
    have hfiner : (∀ n, 0 < n → onGrid? m e j ≠ some n) →
        ∃ n i : Nat, firstOnGrid m e fuel ((j : Int) - 1) = (n, (i : Int)) ∧ 0 < n ∧ (gap m e).has n i = true := by
      intro hnone
      obtain ⟨j, rfl⟩ : ∃ i, j = i + 1 := by
        refine Nat.exists_eq_succ_of_ne_zero ?_
        rintro rfl
        exact hnone w hw hzero
      rw [Int.natCast_succ, Int.add_sub_cancel]
      exact ih (by omega)
    rw [firstOnGrid]
    cases hgrid : onGrid? m e j with
    | none => exact hfiner fun n _ => by rw [hgrid]; exact nofun
    | some n =>
      obtain rfl | hn := Nat.eq_zero_or_pos n
      · refine hfiner fun n hn heq => ?_
        rw [hgrid] at heq
        exact hn.ne (Option.some.inj heq)
      · exact ⟨n, j, if_neg hn.ne', hn, has_of_onGrid? hgrid⟩

/-- Taking zeros from the end does not change a number. -/
theorem dropZeros_eq (fuel : Nat) (hn : 0 < n) (j : Nat) :
    ∃ n' i : Nat, dropZeros fuel n j = (n', (i : Int)) ∧ 0 < n' ∧ n' * 10 ^ i = n * 10 ^ j := by
  induction fuel generalizing n j with
  | zero => exact ⟨n, j, rfl, hn, rfl⟩
  | succ fuel ih =>
    rw [dropZeros]
    split
    · rename_i hzero
      rw [Bool.and_eq_true, decide_eq_true_eq] at hzero
      obtain ⟨n', i, hdrop, hn', heq⟩ := ih (n := n / 10) (by omega) (j + 1)
      refine ⟨n', i, hdrop, hn', heq.trans ?_⟩
      rw [Nat.pow_succ', ← Nat.mul_assoc, Nat.div_mul_cancel (Nat.dvd_of_mod_eq_zero hzero.1)]
    · exact ⟨n, j, rfl, hn, rfl⟩

theorem digitCount_le {d : Nat} (hd : 0 < d) (h : n < 10 ^ d) : digitCount n ≤ d :=
  (Nat.length_toDigits_le_iff (by decide) hd).mpr h

/-- **The shortest decimal of a whole number is whole.** -/
theorem Stands.shortest_eq (h : Stands m e w) (hm : 0 < m) (hw : w ≤ 2 ^ 63) :
    ∃ n i : Nat, shortest m e = (n, (i : Int)) ∧ 0 < n ∧ n * 10 ^ i * 2 ≤ 3 * w ∧ (e ≤ 0 → n * 10 ^ i = w) := by
  obtain ⟨d, -, hdiv⟩ := h.divPower_zero
  have hpos := h.pos hm
  have hcount : digitCount w ≤ 19 := digitCount_le (by decide) (Nat.lt_of_le_of_lt hw (by decide))
  obtain ⟨n, i, hfirst, hn, hhas⟩ := firstOnGrid_of_zero (h.onGrid?_zero hm) hpos (show digitCount w < 400 by omega)
  obtain ⟨n', i', hdrop, hn', heq⟩ := dropZeros_eq 400 hn i
  have hnear := h.near hm hhas
  rw [← heq] at hnear
  refine ⟨n', i', ?_, hn', hnear⟩
  rw [shortest, if_neg hm.ne', hdiv]
  dsimp only
  rw [if_neg hpos.ne', hfirst]
  exact hdrop

/-! ## 3. Texts -/

/-- The text of a whole number. -/
theorem text_of_stands (negative : Bool) (h : Stands m e w) (hm : 0 < m) (hw : w ≤ 2 ^ 63) :
    ∃ v : Nat, 0 < v ∧ v * 2 ≤ 3 * w ∧ (e ≤ 0 → v = w) ∧
      (Double.finite negative m e).text = (if negative then "-" else "") ++ toString v := by
  obtain ⟨n, i, hshortest, hn, hle, heq⟩ := h.shortest_eq hm hw
  refine ⟨n * 10 ^ i, by positivity, hle, heq, ?_⟩
  have hlt : n * 10 ^ i < 10 ^ 20 := by omega
  have hi : i < 20 := by
    refine (Nat.pow_lt_pow_iff_right (a := 10) (by decide)).mp (Nat.lt_of_le_of_lt ?_ hlt)
    exact Nat.le_mul_of_pos_left _ hn
  have hcount : digitCount n ≤ 20 - i := by
    refine digitCount_le (by omega) (Nat.lt_of_mul_lt_mul_right (a := 10 ^ i) ?_)
    rwa [← Nat.pow_add, Nat.sub_add_cancel hi.le]
  have hshort : ¬ (n ≠ 0 && ((digitCount n : Int) + i > 21 || (digitCount n : Int) + i < -5)) = true := by
    have htop : ¬ (digitCount n : Int) + i > 21 ∧ ¬ (digitCount n : Int) + i < -5 := by omega
    simp [htop]
  simp only [text, hshortest]
  rw [if_neg hshort, positional, if_pos (Int.natCast_nonneg i), Int.toNat_natCast, Nat.pow_eq]

/-- A decimal without an exponent is a whole number. -/
theorem ofDecimal_zero (negative : Bool) (h : 0 < N) (hN : N < 10 ^ 400) : ofDecimal negative N 0 = ofRatio negative N 1 := by
  have htop := digitCount_le (by decide) hN
  rw [ofDecimal, if_neg h.ne']
  dsimp only
  rw [if_neg (by omega), if_neg (by omega), if_pos (le_refl 0)]
  simp

theorem toString_neg_natCast {v : Nat} (hv : 0 < v) : toString (-(v : Int)) = "-" ++ toString v := by
  obtain ⟨v, rfl⟩ := Nat.exists_eq_succ_of_ne_zero hv.ne'
  rfl

/-- **The text of a rounded whole number** is that of a whole number, and of the number itself if it is small. -/
theorem text_ofInt {n : Int} (hn : n ≠ 0) (hfits : Word64.fits n = true) :
    ∃ v : Nat, 0 < v ∧ v < Word64.count ∧ (n.natAbs < 2 ^ 53 → v = n.natAbs) ∧
      (ofInt n).text = toString (if n < 0 then -(v : Int) else v) := by
  have hpos : 0 < n.natAbs := Int.natAbs_pos.mpr hn
  have hle : n.natAbs ≤ 2 ^ 63 := by
    rw [Word64.fits_iff, Word64.limit] at hfits
    omega
  obtain ⟨m, e, w, hround, hm, hstands, hw, hsmall⟩ : ∃ m e w, ofInt n = .finite (n < 0) m e ∧ 0 < m ∧
      Stands m e w ∧ w ≤ 2 ^ 63 ∧ (n.natAbs < 2 ^ 53 → e ≤ 0 ∧ w = n.natAbs) := by
    by_cases hlt : n.natAbs < 2 ^ 53
    · obtain ⟨i, hround⟩ := ofRatio_one_of_lt (n < 0) hpos hlt
      exact ⟨_, _, n.natAbs, hround, by positivity, .inr ⟨i, rfl, rfl⟩, hle, fun _ => ⟨by omega, rfl⟩⟩
    · obtain ⟨m, i, hround, hm, hw, -⟩ := ofRatio_one_of_le (n < 0) (Nat.le_of_not_lt hlt) (by omega)
      exact ⟨m, i, _, hround, hm, .inl ⟨i, rfl, rfl⟩, hw hle, fun h => absurd h hlt⟩
  obtain ⟨v, hv, hbound, heq, htext⟩ := text_of_stands (n < 0) hstands hm hw
  refine ⟨v, hv, ?_, fun hlt => ?_, ?_⟩
  · rw [Word64.count]
    omega
  · obtain ⟨he, hw⟩ := hsmall hlt
    rw [heq he, hw]
  · rw [hround, htext]
    by_cases hneg : n < 0
    · rw [if_pos (decide_eq_true hneg), if_pos hneg, toString_neg_natCast hv]
    · rw [if_neg (by simpa using hneg), if_neg hneg, String.empty_append]
      rfl

/-- **The text of a small whole number is its own.** -/
theorem text_ofInt_of_lt {n : Int} (h : n.natAbs < 2 ^ 53) : (ofInt n).text = toString n := by
  obtain rfl | hn := eq_or_ne n 0
  · decide
  · have hfits : Word64.fits n = true := by
      rw [Word64.fits_iff, Word64.limit]
      omega
    obtain ⟨v, -, -, heq, htext⟩ := text_ofInt hn hfits
    rw [htext, heq h]
    congr 1
    split_ifs <;> omega

end Double

end Lasso
