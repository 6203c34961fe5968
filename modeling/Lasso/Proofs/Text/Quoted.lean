import Mathlib.Algebra.Group.Nat.Defs
import Mathlib.Tactic.SplitIfs
import Lasso.Lang.Scan
import Lasso.Text.Quoted
import Lasso.Proofs.Bytes
/-!
# Quoted texts are literals

The quoted form of a byte string is a string literal of the language, and stands for these bytes. So it
says itself where it ends, whatever the bytes are and whatever follows.

* `foldlM_hex` -- hexadecimal numbers are read back;
* `StandsFor` -- characters that stand for some bytes within a literal; what is written for one position of a
  byte string spells its bytes (`standsFor_quoteUnit`);
* `quoted?_quoteUnits` -- **a quoted form is read as the bytes it was made from**;
* `quoteBytes_append_inj` -- so two quoted forms that start the same text are the same;
* `eq_of_parted` -- and so are two lists of things whose texts can be told apart (`ToldApart`).
-/

namespace Lasso.Text

open Lang (hexValue? fixedDigits? codePoint? plainEscape? escape? quoted?)

/-! ## 1. Hexadecimal numbers -/

theorem hexValue?_digitChar {d : Nat} (h : d < 16) : hexValue? d.digitChar = some d := by
  have hall : ∀ k : Fin 16, hexValue? k.val.digitChar = some k.val := by decide
  exact hall ⟨d, h⟩

section

variable {f : Nat → Char → Option Nat}

/-- Digits in any base are read back. -/
theorem foldlM_toDigits {b : Nat} (hb : 1 < b) (hf : ∀ acc d, d < b → f acc d.digitChar = some (acc * b + d))
    (n : Nat) : (Nat.toDigits b n).foldlM f 0 = some n := by
  induction n using Nat.strongRecOn with
  | ind n ih =>
    by_cases hn : n < b
    · have hone := hf 0 n hn
      rw [Nat.zero_mul, Nat.zero_add] at hone
      simp [Nat.toDigits_of_lt_base hn, hone]
    · have hdiv : n / b * b + n % b = n := Nat.div_add_mod' n b
      have hlast := hf (n / b) (n % b) (Nat.mod_lt n (Nat.lt_of_succ_lt hb))
      rw [hdiv] at hlast
      rw [Nat.toDigits_of_base_le hb (Nat.le_of_not_lt hn), List.foldlM_append,
        ih (n / b) (Nat.div_lt_self (by omega) hb)]
      simp [hlast]

theorem foldlM_zeros (hf : ∀ acc d, d < 16 → f acc d.digitChar = some (acc * 16 + d)) (k : Nat)
    (cs : List Char) : (List.replicate k '0' ++ cs).foldlM f 0 = cs.foldlM f 0 := by
  induction k with
  | zero => rfl
  | succ k ih =>
    have hzero : f 0 '0' = some 0 := hf 0 0 (by decide)
    rw [List.replicate_succ, List.cons_append, List.foldlM_cons, hzero]
    exact ih

/-- **A hexadecimal number is read back**, zeros in front or not. -/
theorem foldlM_hex (hf : ∀ acc d, d < 16 → f acc d.digitChar = some (acc * 16 + d)) (w n : Nat) :
    (hex w n).foldlM f 0 = some n := by
  rw [hex, foldlM_zeros hf, foldlM_toDigits (by decide) hf]

end

theorem length_hex {w n : Nat} (hw : 0 < w) (h : n < 16 ^ w) : (hex w n).length = w := by
  have hle : (Nat.toDigits 16 n).length ≤ w := (Nat.length_toDigits_le_iff (by decide) hw).mpr h
  simp only [hex, List.length_append, List.length_replicate]
  omega

theorem isSome_hexValue?_of_mem_toDigits {n : Nat} {c : Char} (h : c ∈ Nat.toDigits 16 n) :
    (hexValue? c).isSome = true := by
  induction n using Nat.strongRecOn with
  | ind n ih =>
    by_cases hn : n < 16
    · rw [Nat.toDigits_of_lt_base hn, List.mem_singleton] at h
      rw [h, hexValue?_digitChar hn]
      rfl
    · rw [Nat.toDigits_of_base_le (by decide) (Nat.le_of_not_lt hn), List.mem_append,
        List.mem_singleton] at h
      rcases h with h | h
      · exact ih (n / 16) (by omega) h
      · rw [h, hexValue?_digitChar (Nat.mod_lt n (by decide))]
        rfl

theorem isSome_hexValue?_of_mem_hex {w n : Nat} {c : Char} (h : c ∈ hex w n) :
    (hexValue? c).isSome = true := by
  rcases List.mem_append.mp h with h | h
  · rw [List.eq_of_mem_replicate h]
    rfl
  · exact isSome_hexValue?_of_mem_toDigits h

theorem fixedDigits?_hex {w n : Nat} (hw : 0 < w) (h : n < 16 ^ w) (rest : List Char) :
    fixedDigits? 16 w (hex w n ++ rest) = some n := by
  have hlen := length_hex hw h
  rw [fixedDigits?, List.take_left' hlen, if_neg (by omega)]
  refine foldlM_hex (fun acc d hd => ?_) w n
  simp [hexValue?_digitChar hd, hd]

/-! ## 2. What characters spell within a literal -/

/-- **The characters stand for the bytes** within a literal, whatever follows them. -/
def StandsFor (cs : List Char) (b : Bytes) : Prop :=
  ∀ rest, quoted? '"' (cs ++ rest) = (quoted? '"' rest).map fun x => (b :: x.1, cs.length + x.2)

theorem standsFor_char {c : Char} (hbreak : c ≠ '\n') (hquote : c ≠ '"') (hslash : c ≠ '\\') :
    StandsFor [c] (String.utf8EncodeChar c) := by
  intro rest
  rw [List.singleton_append, quoted?, if_neg hbreak, if_neg hquote, if_neg hslash]
  cases quoted? '"' rest <;> rfl

theorem standsFor_escape {cs : List Char} {b : Bytes}
    (h : ∀ rest, escape? '"' (cs ++ rest) = some (b, cs.length)) : StandsFor ('\\' :: cs) b := by
  intro rest
  rw [List.cons_append, quoted?, if_neg (by decide), if_neg (by decide), if_pos rfl, h rest]
  show (quoted? '"' ((cs ++ rest).drop cs.length)).bind _ = _
  rw [List.drop_left]
  cases quoted? '"' rest with
  | none => rfl
  | some x =>
    show some (b :: x.1, 1 + cs.length + x.2) = some (b :: x.1, ('\\' :: cs).length + x.2)
    rw [List.length_cons, Nat.add_comm 1]

theorem standsFor_plain {l : Char} {b : Bytes} (h : plainEscape? '"' l = some b) : StandsFor ['\\', l] b := by
  refine standsFor_escape fun rest => ?_
  rw [List.singleton_append, escape?, h]
  rfl

/-- Two digits stand for one byte. -/
theorem standsFor_byte {n : Nat} (h : n < 256) : StandsFor ('\\' :: 'x' :: hex 2 n) [n.toUInt8] := by
  refine standsFor_escape fun rest => ?_
  have hx : escape? '"' ('x' :: (hex 2 n ++ rest)) =
    (fixedDigits? 16 2 (hex 2 n ++ rest)).bind fun k => some ([k.toUInt8], 3) := rfl
  rw [List.cons_append, hx, fixedDigits?_hex (by decide) h, List.length_cons, length_hex (by decide) h]
  rfl

theorem codePoint?_toNat (c : Char) : codePoint? c.toNat = some (String.utf8EncodeChar c) := by
  have hvalid : c.toNat.isValidChar := c.valid
  rw [codePoint?, dif_pos hvalid]
  exact congrArg (fun d => some (String.utf8EncodeChar d)) (Char.ext rfl)

/-- Four digits stand for a character, if they are enough. -/
theorem standsFor_four {c : Char} (h : c.toNat < 0x10000) :
    StandsFor ('\\' :: 'u' :: hex 4 c.toNat) (String.utf8EncodeChar c) := by
  refine standsFor_escape fun rest => ?_
  have hu : escape? '"' ('u' :: (hex 4 c.toNat ++ rest)) =
    (fixedDigits? 16 4 (hex 4 c.toNat ++ rest)).bind fun k =>
      (codePoint? k).bind fun b => some (b, 5) := rfl
  rw [List.cons_append, hu, fixedDigits?_hex (by decide) h, Option.bind_some, codePoint?_toNat,
    List.length_cons, length_hex (by decide) h]
  rfl

/-- Eight digits stand for any character. -/
theorem standsFor_eight (c : Char) :
    StandsFor ('\\' :: 'U' :: hex 8 c.toNat) (String.utf8EncodeChar c) := by
  refine standsFor_escape fun rest => ?_
  have hlt : c.toNat < 16 ^ 8 := c.val.toNat_lt
  have hU : escape? '"' ('U' :: (hex 8 c.toNat ++ rest)) =
    (fixedDigits? 16 8 (hex 8 c.toNat ++ rest)).bind fun k =>
      (codePoint? k).bind fun b => some (b, 9) := rfl
  rw [List.cons_append, hU, fixedDigits?_hex (by decide) hlt, Option.bind_some, codePoint?_toNat,
    List.length_cons, length_hex (by decide) hlt]
  rfl

/-! ## 3. Positions of a byte string -/

theorem plainEscape?_of_controlLetter? {c l : Char} (h : controlLetter? c = some l) :
    plainEscape? '"' l = some (String.utf8EncodeChar c) := by
  have hc : c = Char.ofNat c.toNat := (Char.ofNat_toNat c).symm
  generalize hn : c.toNat = n at hc
  rw [controlLetter?, hn] at h
  subst hc
  split at h
  all_goals
    cases h
    try rfl

theorem utf8EncodeChar_of_lt {c : Char} (h : c.toNat < 128) :
    String.utf8EncodeChar c = [c.toNat.toUInt8] := by
  have hle : c.val.toNat ≤ 0x7f := Nat.le_of_lt_succ h
  rw [String.utf8EncodeChar, if_pos hle]
  rfl

/-- **What is written for a character stands for it.** -/
theorem standsFor_quoteChar (c : Char) : StandsFor (quoteChar c) (String.utf8EncodeChar c) := by
  rw [quoteChar]
  by_cases hmark : c = '"' ∨ c = '\\'
  · rw [if_pos hmark]
    exact standsFor_plain (by rw [plainEscape?, if_pos hmark])
  · rw [if_neg hmark]
    obtain ⟨hquote, hslash⟩ := not_or.mp hmark
    by_cases hprint : isPrintable c = true
    · rw [if_pos hprint]
      have hbreak : c ≠ '\n' := by
        rintro rfl
        exact absurd hprint (by decide)
      exact standsFor_char hbreak hquote hslash
    · rw [if_neg hprint]
      cases hl : controlLetter? c with
      | some l => exact standsFor_plain (plainEscape?_of_controlLetter? hl)
      | none =>
        simp only
        by_cases hsmall : c.toNat < 0x20 ∨ c.toNat = 0x7f
        · rw [if_pos hsmall, utf8EncodeChar_of_lt (by omega)]
          exact standsFor_byte (by omega)
        · rw [if_neg hsmall]
          by_cases hfour : c.toNat < 0x10000
          · rw [if_pos hfour]
            exact standsFor_four hfour
          · rw [if_neg hfour]
            exact standsFor_eight c

theorem standsFor_quoteUnit (u : Bytes.Unit) : StandsFor (quoteUnit u) u.bytes := by
  cases u with
  | char c => exact standsFor_quoteChar c
  | byte b =>
    have hb : b.toNat.toUInt8 = b := UInt8.ofNat_toNat
    have h := standsFor_byte b.toNat_lt
    rw [hb] at h
    exact h

theorem isPrintable_of_controlLetter? {c l : Char} (h : controlLetter? c = some l) :
    isPrintable l = true := by
  rw [controlLetter?] at h
  split at h
  all_goals
    cases h
    try decide

/-- **What is written for a position** is a printable character, or a backslash with a printable character
    and perhaps hexadecimal digits behind it. -/
theorem quoteUnit_cases (u : Bytes.Unit) :
    (∃ c, quoteUnit u = [c] ∧ isPrintable c = true ∧ c ≠ '"' ∧ c ≠ '\\') ∨
      ∃ x ds, quoteUnit u = '\\' :: x :: ds ∧ isPrintable x = true ∧
        ∀ d ∈ ds, (hexValue? d).isSome = true := by
  cases u with
  | byte b => exact Or.inr ⟨'x', _, rfl, by decide, fun _ => isSome_hexValue?_of_mem_hex⟩
  | char c =>
    rw [quoteUnit, quoteChar]
    by_cases hmark : c = '"' ∨ c = '\\'
    · rw [if_pos hmark]
      refine Or.inr ⟨c, [], rfl, ?_, fun _ h => nomatch h⟩
      rcases hmark with rfl | rfl <;> decide
    · rw [if_neg hmark]
      by_cases hprint : isPrintable c = true
      · rw [if_pos hprint]
        exact Or.inl ⟨c, rfl, hprint, not_or.mp hmark⟩
      · rw [if_neg hprint]
        refine Or.inr ?_
        cases hl : controlLetter? c with
        | some l => exact ⟨l, [], rfl, isPrintable_of_controlLetter? hl, fun _ h => nomatch h⟩
        | none =>
          simp only
          split_ifs
          · exact ⟨'x', _, rfl, by decide, fun _ => isSome_hexValue?_of_mem_hex⟩
          · exact ⟨'u', _, rfl, by decide, fun _ => isSome_hexValue?_of_mem_hex⟩
          · exact ⟨'U', _, rfl, by decide, fun _ => isSome_hexValue?_of_mem_hex⟩

theorem toList_quoteBytes (b : Bytes) :
    (quoteBytes b).toList = '"' :: (b.units.flatMap quoteUnit ++ ['"']) := by
  rw [quoteBytes, String.toList_ofList, List.cons_append]

theorem isPrintable_of_hexValue? {c : Char} (h : (hexValue? c).isSome = true) : isPrintable c = true := by
  have hrange : '0'.toNat ≤ c.toNat ∧ c.toNat ≤ 'f'.toNat := by
    unfold hexValue? at h
    split_ifs at h with h₁ h₂ h₃
    · exact ⟨h₁.1, Nat.le_trans h₁.2 (by decide)⟩
    · exact ⟨Nat.le_trans (by decide) h₂.1, h₂.2⟩
    · exact ⟨Nat.le_trans (by decide) h₃.1, Nat.le_trans h₃.2 (by decide)⟩
    · cases h
  have hlo : 48 ≤ c.toNat := hrange.1
  have hhi : c.toNat ≤ 102 := hrange.2
  rw [isPrintable, if_pos (by omega), decide_eq_true_iff]
  omega

/-- **A quoted form has printable characters only.** -/
theorem isPrintable_of_mem_quoteBytes {b : Bytes} {c : Char} (h : c ∈ (quoteBytes b).toList) :
    isPrintable c = true := by
  rw [toList_quoteBytes] at h
  rcases List.mem_cons.mp h with rfl | h
  · decide
  · rcases List.mem_append.mp h with h | h
    · obtain ⟨u, -, hu⟩ := List.mem_flatMap.mp h
      rcases quoteUnit_cases u with ⟨x, e, hx, -⟩ | ⟨x, ds, e, hx, hds⟩
      · rw [e, List.mem_singleton] at hu
        rw [hu]
        exact hx
      · rw [e, List.mem_cons, List.mem_cons] at hu
        rcases hu with rfl | rfl | hu
        · decide
        · exact hx
        · exact isPrintable_of_hexValue? (hds c hu)
    · rw [List.mem_singleton.mp h]
      decide

/-- **A quoted form stands in one line.** -/
theorem not_mem_quoteBytes (b : Bytes) : '\n' ∉ (quoteBytes b).toList := by
  intro h
  exact absurd (isPrintable_of_mem_quoteBytes h) (by decide)

/-- **A quoted form is read as the bytes it was made from**, up to its last quote. -/
theorem quoted?_quoteUnits (us : List Bytes.Unit) (rest : List Char) :
    quoted? '"' (us.flatMap quoteUnit ++ '"' :: rest) =
      some (us.map Bytes.Unit.bytes, (us.flatMap quoteUnit).length + 1) := by
  induction us with
  | nil => rw [List.flatMap_nil, List.nil_append, quoted?, if_neg (by decide), if_pos rfl]; rfl
  | cons u us ih =>
    rw [List.flatMap_cons, List.append_assoc, standsFor_quoteUnit, ih, Option.map_some,
      List.map_cons, List.length_append, Nat.add_assoc]

/-- **A quoted form says itself where it ends.** -/
theorem quoteBytes_append_inj {b d : Bytes} {r s : List Char}
    (h : (quoteBytes b).toList ++ r = (quoteBytes d).toList ++ s) : b = d ∧ r = s := by
  simp only [toList_quoteBytes, List.cons_append, List.append_assoc, List.nil_append,
    List.cons.injEq, true_and] at h
  have hread := quoted?_quoteUnits b.units r
  rw [h, quoted?_quoteUnits, Option.some.injEq, Prod.mk.injEq] at hread
  have hbytes := congrArg List.flatten hread.1
  rw [← List.flatMap_def, ← List.flatMap_def, Bytes.flatMap_units, Bytes.flatMap_units] at hbytes
  subst hbytes
  exact ⟨rfl, List.cons.inj (List.append_cancel_left h) |>.2⟩

/-! ## 4. Lists of texts -/

/-- No digit stands here. -/
def EndsNumber (r : List Char) : Prop := ∀ c ∈ r.head?, c.isDigit = false

theorem endsNumber_nil : EndsNumber [] := fun _ h => nomatch h

theorem endsNumber_cons {c : Char} (r : List Char) (h : c.isDigit = false) : EndsNumber (c :: r) := by
  rintro d hd
  cases hd
  exact h

section

variable {α : Type} {f : α → List Char} {as bs : List α} {p q : Char} {ps : List Char}

/-- **The texts of two things can be told apart**, wherever they stand and whatever follows them, if that
    is no digit. -/
def ToldApart (f : α → List Char) (a b : α) : Prop :=
  ∀ ⦃r s : List Char⦄, EndsNumber r → EndsNumber s → f a ++ r = f b ++ s → a = b ∧ r = s

/-- Things behind the first of a list, each behind a mark. -/
def behind (mark : List Char) (f : α → List Char) (as : List α) : List Char :=
  as.flatMap fun a => mark ++ f a

theorem endsNumber_behind (hp : p.isDigit = false) (hq : q.isDigit = false) (as : List α)
    (r : List Char) : EndsNumber (behind (p :: ps) f as ++ q :: r) := by
  cases as with
  | nil => exact endsNumber_cons r hq
  | cons a as => exact endsNumber_cons _ hp

/-- **The things of a list can be told apart** if any two of them can, and the mark in front of each
    differs from the one behind the last. -/
theorem eq_of_parted (hp : p.isDigit = false) (hq : q.isDigit = false) (hpq : p ≠ q)
    (h : ∀ a ∈ as, ∀ b ∈ bs, ToldApart f a b) {r s : List Char}
    (e : behind (p :: ps) f as ++ q :: r = behind (p :: ps) f bs ++ q :: s) : as = bs ∧ r = s := by
  induction as generalizing bs with
  | nil =>
    cases bs with
    | nil => exact ⟨rfl, (List.cons.inj e).2⟩
    | cons b bs => exact absurd (List.cons.inj e).1.symm hpq
  | cons a as ih =>
    cases bs with
    | nil => exact absurd (List.cons.inj e).1 hpq
    | cons b bs =>
      have hcons : ∀ (c : α) (cs : List α) (t : List Char),
          behind (p :: ps) f (c :: cs) ++ q :: t =
            (p :: ps) ++ (f c ++ (behind (p :: ps) f cs ++ q :: t)) := by
        intro c cs t
        simp [behind]
      rw [hcons, hcons] at e
      obtain ⟨rfl, hrest⟩ := h a List.mem_cons_self b List.mem_cons_self (endsNumber_behind hp hq as r)
        (endsNumber_behind hp hq bs s) (List.append_cancel_left e)
      obtain ⟨rfl, rfl⟩ := ih (fun c hc d hd => h c (List.mem_cons_of_mem _ hc) d
        (List.mem_cons_of_mem _ hd)) hrest
      exact ⟨rfl, rfl⟩

end

end Lasso.Text
