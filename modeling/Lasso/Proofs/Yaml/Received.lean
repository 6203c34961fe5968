import Mathlib.Data.List.Perm.Basic
import Lasso.Proofs.Yaml.Node
/-!
# What is received of a message

* `isPlainText` -- whether a text may stand in a message; `isLegible` -- whether it can be read there, too;
* `all_isAllowed_spelled` -- a message may be read if all its texts may stand in it;
* `ofText_json` -- **the source of a message**: the node of what its texts carry if they are legible and the names are
  near, and otherwise nothing at all;
* `Content.isSteady` -- whether nothing is changed on the way, and `isSteady_iff`: **it is so if all texts are read as
  they are**.
-/

namespace Lasso.Yaml

open Message (jsonChar jsonText)

/-! ## 1. Characters -/

/-- **Whether a text may stand in a message**: its characters are allowed, or are escaped. -/
def isPlainText (s : String) : Bool := s.toList.all fun x => x < ' ' || isAllowed x

theorem isAllowed_of_isWordChar {x : Char} (hx : isWordChar x = true) : isAllowed x = true := by
  change (decide ('A'.val ≤ x.val ∧ x.val ≤ 'Z'.val) || (decide ('a'.val ≤ x.val) && decide (x.val ≤ 'z'.val)) ||
    (decide ('0'.val ≤ x.val) && decide (x.val ≤ '9'.val)) || decide (x = '+') || decide (x = '-') ||
    decide (x = '.')) = true at hx
  simp only [Bool.or_eq_true, Bool.and_eq_true, decide_eq_true_eq, UInt32.le_iff_toNat_le] at hx
  obtain ((hletter | rfl) | rfl) | rfl := hx
  · change ((65 ≤ x.toNat ∧ x.toNat ≤ 90) ∨ (97 ≤ x.toNat ∧ x.toNat ≤ 122)) ∨ (48 ≤ x.toNat ∧ x.toNat ≤ 57) at hletter
    have hrange : 0x20 ≤ x.toNat ∧ x.toNat ≤ 0x7E := by omega
    simp [isAllowed, hrange]
  all_goals decide

/-- A control character is escaped. -/
theorem all_isAllowed_jsonChar_of_lt {x : Char} (hx : x < ' ') : (jsonChar x).all isAllowed = true := by
  have hall : ∀ n < 32, (jsonChar (Char.ofNat n)).all isAllowed = true := by decide
  have hn := hall x.toNat hx
  rwa [Char.ofNat_toNat] at hn

theorem all_isAllowed_jsonChar (x : Char) : (jsonChar x).all isAllowed = (x < ' ' || isAllowed x) := by
  by_cases hx : x < ' '
  · simp [all_isAllowed_jsonChar_of_lt hx, hx]
  · have hcontrol : ∀ y < ' ', x ≠ y := by
      rintro y hy rfl
      exact hx hy
    rw [jsonChar]
    split_ifs with hquote hb hf hn hr ht
    · have hslash : isAllowed '\\' = true := by decide
      have hself : isAllowed x = true := by
        obtain rfl | rfl : x = '"' ∨ x = '\\' := by simpa using hquote
        all_goals decide
      simp [hslash, hself]
    · exact absurd hb (hcontrol _ (by decide))
    · exact absurd hf (hcontrol _ (by decide))
    · exact absurd hn (hcontrol _ (by decide))
    · exact absurd hr (hcontrol _ (by decide))
    · exact absurd ht (hcontrol _ (by decide))
    · simp [hx]

theorem all_isAllowed_jsonText (s : String) : (jsonText s).toList.all isAllowed = isPlainText s := by
  have hquote : isAllowed '"' = true := by decide
  simp [jsonText, List.all_flatMap, all_isAllowed_jsonChar, isPlainText, hquote]

theorem all_congr_mem {α : Type} {l : List α} {p q : α → Bool} (h : ∀ a ∈ l, p a = q a) : l.all p = l.all q := by
  rw [Bool.eq_iff_iff, List.all_eq_true, List.all_eq_true]
  exact forall₂_congr fun a ha => by rw [h a ha]

/-- The parts of a text and the commas between them. -/
theorem all_intercalate {p : Char → Bool} (hp : p ',' = true) (parts : List (List Char)) :
    ([','].intercalate parts).all p = parts.all (·.all p) := by
  cases parts with
  | nil => rfl
  | cons w parts => simp [Text.intercalate_cons, List.all_flatMap, hp]

namespace Content

/-- **A message may be read if all its texts may stand in it.** -/
theorem all_isAllowed_spelled (c : Content) : c.spelled.all isAllowed = c.texts.all isPlainText := by
  have hcomma : isAllowed ',' = true := by decide
  have hword : ∀ {w : List Char}, IsWord w → w.all isAllowed = true := fun hw =>
    List.all_eq_true.mpr fun x hx => isAllowed_of_isWordChar (hw.all x hx)
  induction c using Content.induct with
  | text s => rw [spelled_text, texts_text, all_isAllowed_jsonText]; simp
  | int n => rw [spelled_int, texts_int, hword (isWord_text _)]; rfl
  | bool b => rw [spelled_bool, texts_bool, hword (isWord_toString b)]; rfl
  | list items ih =>
    have hopen : isAllowed '[' = true := by decide
    have hclose : isAllowed ']' = true := by decide
    rw [spelled_list, texts_list, spelledList, List.all_flatMap]
    simp only [List.all_cons, List.all_append, List.all_nil, hopen, hclose, all_intercalate hcomma, List.all_map,
      Bool.true_and, Bool.and_true]
    exact all_congr_mem ih
  | record entries ih =>
    have hopen : isAllowed '\x7b' = true := by decide
    have hclose : isAllowed '\x7d' = true := by decide
    have hcolon : isAllowed ':' = true := by decide
    rw [spelled_record, texts_record, spelledRecord, List.all_flatMap]
    simp only [List.all_cons, List.all_append, List.all_nil, hopen, hclose, all_intercalate hcomma, List.all_map,
      Bool.true_and, Bool.and_true]
    refine all_congr_mem fun e he => ?_
    simp [spelledEntry, all_isAllowed_jsonText, hcolon, ih e he]

/-! ## 2. Contents in order -/

/-- The order of records does not matter to their entries. -/
theorem perm_byName {α : Type} (entries : List (String × α)) : (byName entries).Perm entries :=
  List.mergeSort_perm entries _

/-- **The texts of a content in order are its texts.** -/
theorem perm_texts_ordered (c : Content) : c.ordered.texts.Perm c.texts := by
  induction c using Content.induct with
  | text s => exact .refl _
  | int n => exact .refl _
  | bool b => exact .refl _
  | list items ih =>
    rw [ordered_list, texts_list, texts_list, List.flatMap_map]
    exact List.Perm.flatMap_left items ih
  | record entries ih =>
    rw [ordered_record, texts_record, texts_record]
    refine ((perm_byName _).flatMap_right _).trans ?_
    rw [List.flatMap_map]
    exact List.Perm.flatMap_left entries fun e he => (ih e he).cons e.1

theorem isNear_ordered (c : Content) : c.ordered.isNear = c.isNear := by
  induction c using Content.induct with
  | text s => rfl
  | int n => rfl
  | bool b => rfl
  | list items ih =>
    rw [ordered_list, isNear_list, isNear_list, List.all_map]
    exact all_congr_mem ih
  | record entries ih =>
    rw [ordered_record, isNear_record, isNear_record, (perm_byName _).all_eq, List.all_map]
    exact all_congr_mem fun e he => by rw [Function.comp_apply, ih e he]

theorem mapTexts_ordered (f : String → String) (c : Content) : c.ordered.mapTexts f = (c.mapTexts f).ordered := by
  induction c using Content.induct with
  | text s => rfl
  | int n => rfl
  | bool b => rfl
  | list items ih =>
    rw [ordered_list, mapTexts_list, mapTexts_list, ordered_list, List.map_map, List.map_map]
    exact congrArg Content.list (List.map_congr_left ih)
  | record entries ih =>
    rw [ordered_record, mapTexts_record, mapTexts_record, ordered_record]
    rw [← byName_map (g := fun e => (e.1, mapTexts f e.2)) (fun _ => rfl), List.map_map, List.map_map]
    refine congrArg (fun entries => Content.record (byName entries)) (List.map_congr_left fun e he => ?_)
    exact congrArg (Prod.mk e.1) (ih e he)

/-! ## 3. Texts that can be read -/

/-- **Whether the message of a content can be read**: all its texts may stand in it and are carried, and the names
    are near. -/
def isLegible (c : Content) : Bool :=
  c.texts.all (fun s => isPlainText s && (carried? false s.toList).isSome) && c.isNear

theorem isLegible_iff {c : Content} :
    c.isLegible = true ↔ c.spelled.all isAllowed = true ∧ c.Readable ∧ c.isNear = true := by
  rw [all_isAllowed_spelled, isLegible, Readable]
  simp only [Bool.and_eq_true, List.all_eq_true, forall_and, and_assoc]

theorem isLegible_ordered (c : Content) : c.ordered.isLegible = c.isLegible := by
  rw [isLegible, isLegible, (perm_texts_ordered c).all_eq, isNear_ordered]

end Content

/-- The source of what spells a record. -/
theorem ofText_of_spelled {text : String} {entries : List (String × Content)}
    (h : text.toList = (Content.record entries).spelled) :
    Source.ofText text =
      if (Content.record entries).isLegible then .document (Content.record entries).carriedNode else .malformed := by
  rw [Source.ofText]
  by_cases hallowed : (Content.record entries).spelled.all isAllowed = true
  · have hallowed' : text.toList.all isAllowed = true := by rw [h, hallowed]
    by_cases hread : (Content.record entries).Readable
    · rw [scan_of_readable h hallowed' hread]
      refine (ofTokens_record entries).trans ?_
      congr 1
      rw [eq_iff_iff, Content.isLegible_iff, and_iff_right hallowed, and_iff_right hread]
    · obtain ⟨us, vs, htokens, hne, hscan⟩ := scan_of_not_readable h hallowed' hread
      rw [hscan, if_neg fun hlegible => hread (Content.isLegible_iff.mp hlegible).2.1]
      exact ofTokens_cut htokens hne
  · have hscan : scan text = none := by
      rw [scan, contents_of_spelled h, h]
      exact if_neg hallowed
    rw [hscan, if_neg fun hlegible => hallowed (Content.isLegible_iff.mp hlegible).1]

/-- **The source of a message**: the node of what its texts carry, if it can be read. -/
theorem ofText_json (entries : List (String × Content)) :
    Source.ofText (Content.record entries).message.json =
      if (Content.record entries).isLegible then
        .document ((Content.record entries).mapTexts carriedText).ordered.node
      else .malformed := by
  have hspelled := json_message (.record entries)
  rw [Content.ordered_record] at hspelled
  rw [ofText_of_spelled hspelled, ← Content.ordered_record, Content.isLegible_ordered, Content.carriedNode,
    Content.mapTexts_ordered]

/-! ## 4. Texts that are read as they are -/

theorem carriedText_eq_self_iff {s : String} (h : (carried? false s.toList).isSome = true) :
    carriedText s = s ↔ lasts s.toList = true := by
  obtain ⟨t, ht⟩ := Option.isSome_iff_exists.mp h
  have hself : carried? false s.toList = some s.toList ↔ lasts s.toList = true := by
    rw [carried?_eq_self_iff, Bool.false_and, eq_self, true_and]
  rw [← hself, carriedText, ht, Option.getD_some, Option.some_inj, ← String.toList_inj, String.toList_ofList]

/-- Only of the empty text, nothing is read. -/
theorem isEmpty_carriedText (s : String) : (carriedText s).isEmpty = s.isEmpty := by
  rw [Bool.eq_iff_iff, String.isEmpty_iff, String.isEmpty_iff, ← String.toList_eq_nil_iff, ← String.toList_eq_nil_iff,
    carriedText, String.toList_ofList]
  cases h : carried? false s.toList with
  | none => rfl
  | some t =>
    rw [Option.getD_some]
    constructor
    · rintro rfl
      exact eq_nil_of_carried? h
    · intro hs
      have hlength := length_carried?_le h
      rw [hs] at hlength
      exact List.eq_nil_of_length_eq_zero (Nat.le_zero.mp hlength)

theorem map_eq_self_iff {α : Type} {f : α → α} {l : List α} : l.map f = l ↔ ∀ a ∈ l, f a = a := by
  have hid : l.map f = l.map id ↔ ∀ a ∈ l, f a = id a := List.map_inj_left
  rwa [List.map_id] at hid

namespace Content

theorem mapTexts_list_eq_self_iff {f : String → String} {items : List Content} :
    mapTexts f (.list items) = .list items ↔ ∀ c ∈ items, c.mapTexts f = c := by
  rw [mapTexts_list, Content.list.injEq, map_eq_self_iff]

theorem mapTexts_record_eq_self_iff {f : String → String} {entries : List (String × Content)} :
    mapTexts f (.record entries) = .record entries ↔ ∀ e ∈ entries, e.2.mapTexts f = e.2 := by
  rw [mapTexts_record, Content.record.injEq, map_eq_self_iff]
  exact forall₂_congr fun e _ => ⟨congrArg Prod.snd, congrArg (Prod.mk e.1)⟩

theorem mapTexts_eq_self {f : String → String} {c : Content} (h : ∀ s ∈ c.texts, f s = s) : c.mapTexts f = c := by
  induction c using Content.induct with
  | text s => rw [mapTexts_text, h s (by rw [texts_text]; exact List.mem_singleton_self s)]
  | int n => exact mapTexts_int f n
  | bool b => exact mapTexts_bool f b
  | list items ih =>
    rw [texts_list, List.forall_mem_flatMap] at h
    exact mapTexts_list_eq_self_iff.mpr fun c hc => ih c hc (h c hc)
  | record entries ih =>
    rw [texts_record, List.forall_mem_flatMap] at h
    exact mapTexts_record_eq_self_iff.mpr fun e he => ih e he (List.forall_mem_cons.mp (h e he)).2

/-- What is received of a content is the content only if all its texts are read as they are. -/
theorem carriedText_of_mapTexts_eq {c : Content} (hnear : c.isNear = true) (h : c.mapTexts carriedText = c) :
    ∀ s ∈ c.texts, carriedText s = s := by
  induction c using Content.induct with
  | text s =>
    rw [mapTexts_text, Content.text.injEq] at h
    rw [texts_text, List.forall_mem_singleton]
    exact h
  | int n => rw [texts_int]; exact List.forall_mem_nil _
  | bool b => rw [texts_bool]; exact List.forall_mem_nil _
  | list items ih =>
    rw [isNear_list, List.all_eq_true] at hnear
    rw [mapTexts_list_eq_self_iff] at h
    rw [texts_list, List.forall_mem_flatMap]
    exact fun c hc => ih c hc (hnear c hc) (h c hc)
  | record entries ih =>
    rw [isNear_record, List.all_eq_true] at hnear
    rw [mapTexts_record_eq_self_iff] at h
    rw [texts_record, List.forall_mem_flatMap]
    intro e he
    obtain ⟨hname, hvalue⟩ := Bool.and_eq_true_iff.mp (hnear e he)
    exact List.forall_mem_cons.mpr ⟨carriedText_of_isNearName hname, ih e he hvalue (h e he)⟩

/-- **Whether a content is received as it was sent**: its texts may stand in a message and last there, and its names
    are near. -/
def isSteady (c : Content) : Bool := c.texts.all (fun s => isPlainText s && lasts s.toList) && c.isNear

theorem isSteady_iff {c : Content} : c.isSteady = true ↔ c.isLegible = true ∧ c.mapTexts carriedText = c := by
  have hcarried : ∀ s : String, lasts s.toList = true → (carried? false s.toList).isSome = true := fun s hs => by
    rw [carried?_eq_self_iff.mpr ⟨rfl, hs⟩, Option.isSome_some]
  simp only [isSteady, isLegible, Bool.and_eq_true, List.all_eq_true]
  constructor
  · rintro ⟨htexts, hnear⟩
    refine ⟨⟨fun s hs => ⟨(htexts s hs).1, hcarried s (htexts s hs).2⟩, hnear⟩, mapTexts_eq_self fun s hs => ?_⟩
    exact (carriedText_eq_self_iff (hcarried s (htexts s hs).2)).mpr (htexts s hs).2
  · rintro ⟨⟨htexts, hnear⟩, hself⟩
    refine ⟨fun s hs => ⟨(htexts s hs).1, ?_⟩, hnear⟩
    exact (carriedText_eq_self_iff (htexts s hs).2).mp (carriedText_of_mapTexts_eq hnear hself s hs)

end Content

end Lasso.Yaml
