import Mathlib.Data.List.Basic
import Lasso.Bytes
/-!
# Characters and stray bytes

Any bytes are read as characters and stray bytes. Nothing is lost by that:

* `firstChar?_eq_some_iff` -- a byte string starts with a character exactly if it starts with the bytes of
  the character;
* `flatMap_units` -- **bytes are known by what is read from them**;
* `units_append` -- in front of a plain character the reading starts afresh, so what stands in front of a
  text within a text is a text (`exists_of_ofString_eq_append`).
-/

namespace Lasso.Bytes

variable {b : Bytes} {c : Char} {x a : UInt8}

/-- The bytes at a position. -/
def Unit.bytes : Unit → Bytes
  | .char c => String.utf8EncodeChar c
  | .byte b => [b]

/-! ## 1. The first character -/

theorem mk_toArray (b : Bytes) : (⟨b.toArray⟩ : ByteArray) = b.toByteArray := by
  apply ByteArray.ext
  rw [List.data_toByteArray]

/-- **A byte string starts with a character** exactly if it starts with the bytes of the character. -/
theorem firstChar?_eq_some_iff : firstChar? b = some c ↔ String.utf8EncodeChar c <+: b := by
  rw [firstChar?, mk_toArray]
  constructor
  · intro h
    obtain ⟨l, hl⟩ := ByteArray.exists_of_utf8DecodeChar?_eq_some h
    have htake : b.take 4 = String.utf8EncodeChar c ++ l.data.toList := by
      simpa using congrArg (fun a : ByteArray => a.data.toList) hl
    exact (List.prefix_append _ _).trans (htake ▸ List.take_prefix 4 b)
  · intro h
    have hsize : (String.utf8EncodeChar c).length ≤ 4 := by
      rw [String.length_utf8EncodeChar]
      exact c.utf8Size_le_four
    obtain ⟨l, hl⟩ : String.utf8EncodeChar c <+: b.take 4 := List.prefix_take_iff.mpr ⟨h, hsize⟩
    rw [← hl, List.toByteArray_append]
    exact ByteArray.utf8DecodeChar?_utf8EncodeChar_append

theorem utf8Size_le_of_firstChar? (h : firstChar? b = some c) : c.utf8Size ≤ b.length := by
  have hle := (firstChar?_eq_some_iff.mp h).length_le
  rwa [String.length_utf8EncodeChar] at hle

theorem units_of_firstChar? (h : firstChar? b = some c) :
    units b = .char c :: units (b.drop c.utf8Size) := by
  cases b with
  | nil => exact absurd (utf8Size_le_of_firstChar? h) (Nat.not_le.mpr c.utf8Size_pos)
  | cons x rest => rw [units, h]

theorem units_of_stray {rest : Bytes} (h : firstChar? (x :: rest) = none) :
    units (x :: rest) = .byte x :: units rest := by
  rw [units, h]

/-- A plain character is its byte. -/
theorem utf8EncodeChar_ofNat (h : x.toNat < 128) : String.utf8EncodeChar (Char.ofNat x.toNat) = [x] := by
  have hvalid : x.toNat.isValidChar := Or.inl (by omega)
  have hc : (Char.ofNat x.toNat).val.toNat = x.toNat := by
    rw [Char.ofNat, dif_pos hvalid]
    rfl
  rw [String.utf8EncodeChar, hc, if_pos (by omega), UInt8.ofNat_toNat]

theorem firstChar?_of_lt (rest : Bytes) (h : x.toNat < 128) :
    firstChar? (x :: rest) = some (Char.ofNat x.toNat) := by
  rw [firstChar?_eq_some_iff, utf8EncodeChar_ofNat h]
  exact ⟨rest, rfl⟩

/-! ## 2. Nothing is lost -/

/-- **What is read from bytes has these bytes.** -/
theorem flatMap_units (b : Bytes) : (units b).flatMap Unit.bytes = b := by
  fun_induction units b with
  | case1 => rfl
  | case2 x rest c hc ih =>
    have hpre := List.prefix_iff_eq_take.mp (firstChar?_eq_some_iff.mp hc)
    rw [String.length_utf8EncodeChar] at hpre
    rw [List.flatMap_cons, ih, Unit.bytes, hpre, List.take_append_drop]
  | case3 x rest hc ih =>
    rw [List.flatMap_cons, ih]
    rfl

/-! ## 3. Texts -/

theorem ofString_append (s t : String) : ofString (s ++ t) = ofString s ++ ofString t := by
  simp [ofString]

theorem ofString_ofList (cs : List Char) :
    ofString (String.ofList cs) = cs.flatMap String.utf8EncodeChar := by
  simp [ofString, List.utf8Encode]

/-- Characters are read back, and what follows them is read as it stands. -/
theorem units_flatMap_append (cs : List Char) (b : Bytes) :
    units (cs.flatMap String.utf8EncodeChar ++ b) = cs.map Unit.char ++ units b := by
  induction cs with
  | nil => rfl
  | cons c cs ih =>
    rw [List.flatMap_cons, List.append_assoc]
    rw [units_of_firstChar? (firstChar?_eq_some_iff.mpr (List.prefix_append _ _)),
      List.drop_left' (String.length_utf8EncodeChar c), ih, List.map_cons, List.cons_append]

theorem units_ofString (s : String) : units (ofString s) = s.toList.map Unit.char := by
  have h := units_flatMap_append s.toList []
  rw [List.append_nil, ← ofString_ofList, String.ofList_toList] at h
  rw [h, units, List.append_nil]

theorem isUTF8FirstByte_of_lt (h : x.toNat < 128) : x.IsUTF8FirstByte := by
  have hlt : 0 < (String.utf8EncodeChar (Char.ofNat x.toNat)).length := by simp [utf8EncodeChar_ofNat h]
  have hfirst : ((String.utf8EncodeChar (Char.ofNat x.toNat))[0]).IsUTF8FirstByte :=
    UInt8.isUTF8FirstByte_getElem_utf8EncodeChar.mpr rfl
  simp only [utf8EncodeChar_ofNat h, List.getElem_cons_zero] at hfirst
  exact hfirst

/-- No character goes on over a plain one: only its first byte could start one. -/
theorem firstChar?_append (n r : Bytes) (h : a.toNat < 128) :
    firstChar? (x :: n ++ a :: r) = firstChar? (x :: n) := by
  refine Option.ext fun c => ?_
  rw [firstChar?_eq_some_iff, firstChar?_eq_some_iff]
  refine ⟨fun hp => ?_, fun hp => hp.trans (List.prefix_append _ _)⟩
  refine List.prefix_of_prefix_length_le hp (List.prefix_append _ _) (Nat.le_of_not_lt fun hlt => ?_)
  have hat : (String.utf8EncodeChar c)[(x :: n).length] = a := by
    rw [hp.getElem hlt]
    simp
  have hfirst := isUTF8FirstByte_of_lt h
  rw [← hat, UInt8.isUTF8FirstByte_getElem_utf8EncodeChar] at hfirst
  cases hfirst

/-- **In front of a plain character the reading starts afresh.** -/
theorem units_append (n r : Bytes) (h : a.toNat < 128) :
    units (n ++ a :: r) = units n ++ units (a :: r) := by
  fun_induction units n with
  | case1 => rfl
  | case2 x rest c hc ih =>
    have hc' := (firstChar?_append rest r h).trans hc
    rw [units_of_firstChar? hc', List.drop_append_of_le_length (utf8Size_le_of_firstChar? hc), ih,
      List.cons_append]
  | case3 x rest hc ih =>
    have hc' : firstChar? (x :: (rest ++ a :: r)) = none := (firstChar?_append rest r h).trans hc
    rw [List.cons_append, units_of_stray hc', ih, List.cons_append]

/-- **What stands in front of a text within a text is a text**, if the former starts with a plain
    character. -/
theorem exists_of_ofString_eq_append {s t : String} {n : Bytes} (hs : ∀ a ∈ (ofString s).head?, a.toNat < 128)
    (h : ofString t = n ++ ofString s) : ∃ u : String, n = ofString u ∧ t = u ++ s := by
  have hunits : t.toList.map Unit.char = units n ++ s.toList.map Unit.char := by
    rw [← units_ofString, ← units_ofString, h]
    cases hcons : ofString s with
    | nil => rw [units, List.append_nil, List.append_nil]
    | cons a r => exact units_append n r (hs a (by rw [hcons]; rfl))
  obtain ⟨us, vs, ht, hus, hvs⟩ := List.map_eq_append_iff.mp hunits
  have hvs' : vs = s.toList := List.map_injective_iff.mpr (fun _ _ e => Unit.char.inj e) hvs
  refine ⟨String.ofList us, ?_, ?_⟩
  · rw [← flatMap_units n, ← hus, List.flatMap_map, ofString_ofList]
    rfl
  · rw [← String.ofList_toList (s := t), ht, hvs', String.ofList_append, String.ofList_toList]

end Lasso.Bytes
