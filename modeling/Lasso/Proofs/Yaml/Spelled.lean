import Lasso.Message
import Lasso.Proofs.Text
/-!
# How messages are spelled

* `Content.fold` -- a function on contents, given by what it does to each kind; `Content.induct` -- the induction
  that goes with it;
* `Content.message` -- the message that a content becomes if its text is read back as it is (`Restored`);
* `Content.ordered` -- the content with all records in the order of their names;
* `Content.spelled` -- the characters of a content, its records in the order in which they stand;
* `json_message` -- **the text of a message spells the content in order.**
-/

namespace Lasso.Yaml

open Message (jsonText)

namespace Content

/-! ## 1. Functions on contents -/

/-- What a function on contents does to each kind, from the results on the parts. -/
structure Algebra (α : Type) where
  text : String → α
  int : Int → α
  bool : Bool → α
  list : List α → α
  record : List (String × α) → α

section Fold

variable {α : Type} (A : Algebra α)

mutual

/-- The result on a content. -/
def fold : Content → α
  | .text s => A.text s
  | .int n => A.int n
  | .bool b => A.bool b
  | .list items => A.list (foldItems items)
  | .record entries => A.record (foldEntries entries)

def foldItems : List Content → List α
  | [] => []
  | c :: rest => fold c :: foldItems rest

def foldEntries : List (String × Content) → List (String × α)
  | [] => []
  | (k, c) :: rest => (k, fold c) :: foldEntries rest

end

theorem foldItems_eq (items : List Content) : foldItems A items = items.map (fold A) := by
  induction items with
  | nil => rfl
  | cons c rest ih => rw [foldItems, ih, List.map_cons]

theorem foldEntries_eq (entries : List (String × Content)) :
    foldEntries A entries = entries.map fun e => (e.1, fold A e.2) := by
  induction entries with
  | nil => rfl
  | cons e rest ih => rw [foldEntries, ih, List.map_cons]

theorem fold_list (items : List Content) : fold A (.list items) = A.list (items.map (fold A)) := by
  rw [fold, foldItems_eq]

theorem fold_record (entries : List (String × Content)) :
    fold A (.record entries) = A.record (entries.map fun e => (e.1, fold A e.2)) := by
  rw [fold, foldEntries_eq]

end Fold

/-- What holds of a content whenever it holds of its parts holds of every content. -/
theorem induct {P : Content → Prop} (text : ∀ s, P (.text s)) (int : ∀ n, P (.int n)) (bool : ∀ b, P (.bool b))
    (list : ∀ items, (∀ c ∈ items, P c) → P (.list items))
    (record : ∀ entries, (∀ e ∈ entries, P e.2) → P (.record entries)) : ∀ c, P c
  | .text s => text s
  | .int n => int n
  | .bool b => bool b
  | .list items => list items (allItems items)
  | .record entries => record entries (allEntries entries)
where
  allItems : ∀ items : List Content, ∀ c ∈ items, P c
    | [] => List.forall_mem_nil _
    | c :: rest => List.forall_mem_cons.mpr ⟨induct text int bool list record c, allItems rest⟩
  allEntries : ∀ entries : List (String × Content), ∀ e ∈ entries, P e.2
    | [] => List.forall_mem_nil _
    | (_, c) :: rest => List.forall_mem_cons.mpr ⟨induct text int bool list record c, allEntries rest⟩

/-! ## 2. Messages -/

/-- **The message of a content.** -/
def message : Content → Message := fold
  { text := .text, int := fun n => .number (.ofInt n), bool := .bool, list := .list, record := .fields }

theorem message_list (items : List Content) : message (.list items) = .list (items.map message) := fold_list _ items

theorem message_record (entries : List (String × Content)) :
    message (.record entries) = .fields (entries.map fun e => (e.1, e.2.message)) :=
  fold_record _ entries

/-- **The text of a content is read back as it is.** -/
def Restored (c : Content) : Prop := Message.ofContent? c = some c.message

/-- The entries of a record in the order of their names. -/
def byName {α : Type} (entries : List (String × α)) : List (String × α) :=
  entries.mergeSort fun a b => !nameLt b.1 a.1

/-- What keeps the names keeps the order. -/
theorem byName_map {α β : Type} {g : String × α → String × β} (hg : ∀ e, (g e).1 = e.1)
    (entries : List (String × α)) : byName (entries.map g) = (byName entries).map g := by
  refine (List.map_mergeSort fun a _ b _ => ?_).symm
  rw [hg, hg]

/-- The content with all records in the order of their names. -/
def ordered : Content → Content := fold
  { text := .text, int := .int, bool := .bool, list := .list, record := fun entries => .record (byName entries) }

theorem ordered_list (items : List Content) : ordered (.list items) = .list (items.map ordered) := fold_list _ items

theorem ordered_record (entries : List (String × Content)) :
    ordered (.record entries) = .record (byName (entries.map fun e => (e.1, e.2.ordered))) :=
  fold_record _ entries

/-- The characters of a list. -/
def spelledList (parts : List (List Char)) : List Char := '[' :: ([','].intercalate parts ++ [']'])

/-- The characters of an entry. -/
def spelledEntry (entry : String × List Char) : List Char := (jsonText entry.1).toList ++ ':' :: entry.2

/-- The characters of a record. -/
def spelledRecord (entries : List (String × List Char)) : List Char :=
  '\x7b' :: ([','].intercalate (entries.map spelledEntry) ++ ['\x7d'])

/-- The characters of a content. -/
def spelled : Content → List Char := fold
  { text := fun s => (jsonText s).toList
    int := fun n => (Double.ofInt n).text.toList
    bool := fun b => (toString b).toList
    list := spelledList
    record := spelledRecord }

theorem spelled_text (s : String) : spelled (.text s) = (jsonText s).toList := by rw [spelled, fold]

theorem spelled_int (n : Int) : spelled (.int n) = (Double.ofInt n).text.toList := by rw [spelled, fold]

theorem spelled_bool (b : Bool) : spelled (.bool b) = (toString b).toList := by rw [spelled, fold]

theorem spelled_list (items : List Content) : spelled (.list items) = spelledList (items.map spelled) :=
  fold_list _ items

theorem spelled_record (entries : List (String × Content)) :
    spelled (.record entries) = spelledRecord (entries.map fun e => (e.1, e.2.spelled)) :=
  fold_record _ entries

end Content

theorem jsonItems_eq (items : List Message) : Message.jsonItems items = items.map Message.json := by
  induction items with
  | nil => rw [Message.jsonItems, List.map_nil]
  | cons m rest ih => rw [Message.jsonItems, ih, List.map_cons]

theorem jsonEntries_eq (entries : List (String × Message)) :
    Message.jsonEntries entries = entries.map fun e => (e.1, jsonText e.1 ++ ":" ++ e.2.json) := by
  induction entries with
  | nil => rw [Message.jsonEntries, List.map_nil]
  | cons e rest ih => rw [Message.jsonEntries, ih, List.map_cons]

open Content in
/-- **The text of a message spells the content in order.** -/
theorem json_message (c : Content) : c.message.json.toList = c.ordered.spelled := by
  induction c using Content.induct with
  | text s => rfl
  | int n => rfl
  | bool b => rfl
  | list items ih =>
    have hparts : ((items.map message).map Message.json).map String.toList = (items.map ordered).map spelled := by
      simp only [List.map_map]
      exact List.map_congr_left ih
    rw [message_list, ordered_list, spelled_list, Message.json, jsonItems_eq, spelledList, ← hparts]
    simp [String.toList_intercalate]
  | record entries ih =>
    have hentries : (entries.map fun e => (e.1, e.2.message)).map (fun e => (e.1, jsonText e.1 ++ ":" ++ e.2.json)) =
        (entries.map fun e => (e.1, e.2.ordered)).map fun e =>
          (e.1, jsonText e.1 ++ ":" ++ String.ofList e.2.spelled) := by
      simp only [List.map_map]
      refine List.map_congr_left fun e he => ?_
      have hspelled : e.2.message.json = String.ofList e.2.ordered.spelled := by
        rw [← String.toList_inj, ih e he, String.toList_ofList]
      simp [hspelled]
    -- the entries are sorted after they are written, which makes no difference
    have hsort := byName_map (g := fun e => (e.1, jsonText e.1 ++ ":" ++ String.ofList e.2.spelled))
      (fun _ => rfl) (entries.map fun e => (e.1, e.2.ordered))
    rw [← hentries, byName] at hsort
    rw [message_record, ordered_record, spelled_record, Message.json, jsonEntries_eq, hsort, spelledRecord]
    simp [String.toList_intercalate, spelledEntry, Function.comp_def]

end Lasso.Yaml
