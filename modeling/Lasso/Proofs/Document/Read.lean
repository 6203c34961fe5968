import Lasso.Document.Read
import Lasso.Document.Write
import Lasso.Proofs.Yaml.Reader
/-!
# Documents are read as they are written
-/

namespace Lasso.Document

open Yaml (Content Reader)
open Yaml.Reader (Reads Fills Independent field fills_unless reads_text reads_bool reads_list reads_table
  reads_optional isNull isNull_record fill place field_of_eq_some)

/-! ## 1. Parts -/

section Fields

variable {α σ : Type} {fields : List (String × Reader.Field σ)} {name : String} {s : σ} {strict : Bool}

theorem reads_texts (xs : List String) : Reads texts (textsContent xs) xs := reads_list fun s _ => reads_text s

theorem fills_texts {put : List String → σ → σ} (hlookup : fields.lookup name = some (field texts put)) (xs : List String)
    (hs : put [] s = s) : Fills strict fields [name] (textsField name xs) s (put xs s) := by
  refine fills_unless hlookup (fun _ => reads_texts xs) fun hempty => ?_
  rw [List.isEmpty_iff.mp hempty, hs]

theorem fills_list {r : Reader α} {f : α → Content} {put : List α → σ → σ}
    (hlookup : fields.lookup name = some (field (Reader.list r) put)) {xs : List α} (hread : ∀ x ∈ xs, Reads r (f x) x)
    (hs : put [] s = s) : Fills strict fields [name] (listField name f xs) s (put xs s) := by
  refine fills_unless hlookup (fun _ => reads_list hread) fun hempty => ?_
  rw [List.isEmpty_iff.mp hempty, hs]

theorem fills_flag {put : Bool → σ → σ} (hlookup : fields.lookup name = some (field Reader.bool put)) (b : Bool)
    (hs : put false s = s) : Fills strict fields [name] (flagField name b) s (put b s) := by
  cases b with
  | false => exact ⟨List.nil_sublist _, congrArg some hs.symm⟩
  | true => exact .cons hlookup (reads_bool true) .nil

/-- The entry of a part that may be missing. -/
def optionalField (name : String) (f : α → Content) (a? : Option α) : List (String × Content) :=
  a?.elim [] fun a => [(name, f a)]

theorem fills_optional {r : Reader α} {f : α → Content} {put : Option α → σ → σ} {a? : Option α}
    (hlookup : fields.lookup name = some (field (Reader.optional r) put))
    (hnull : ∀ a, isNull (f a).ordered.node = some false) (hread : ∀ a ∈ a?, Reads r (f a) a) (hs : put none s = s) :
    Fills strict fields [name] (optionalField name f a?) s (put a? s) := by
  cases a? with
  | none => exact ⟨List.nil_sublist _, congrArg some hs.symm⟩
  | some a => exact .cons hlookup (reads_optional (hnull a) (hread a rfl)) .nil

end Fields

theorem reads_transition (t : Transition) : Reads transition t.content t := by
  rw [transition, Transition.content]
  exact Fills.reads (.cons rfl (reads_text _) (.cons rfl (reads_text _) (.cons rfl (reads_text _) .nil)))
    (by simp [Independent]) (by decide) rfl

theorem reads_step (s : Step) : Reads step s.content s := by
  rw [step, Step.content]
  refine Fills.reads (.append (.append (.cons rfl (reads_text _) .nil)
    (fills_unless rfl (fun _ => reads_text s.condition) fun hempty => ?_))
    (.cons rfl (reads_text _) (.cons rfl (reads_text _) .nil))) (by simp [Independent]) (by decide) rfl
  rw [String.isEmpty_iff.mp hempty]

theorem reads_program (p : Program) : Reads program p.content p := by
  rw [program, Program.content]
  exact Fills.reads (.append (.append
    (.cons rfl (reads_text _) (.cons rfl (reads_texts _) (.cons rfl (reads_texts _) .nil)))
    (fills_list rfl (fun xs _ => reads_texts xs) rfl)) (fills_list rfl (fun s _ => reads_step s) rfl))
    (by simp [Independent]) (by decide) rfl

theorem reads_edge (e : Edge) : Reads edge e.content e := by
  rw [edge, Edge.content]
  exact Fills.reads (.append (.append (.append (.append
    (.cons rfl (reads_text _) (.cons rfl (reads_text _) .nil))
    (fills_flag rfl _ rfl)) (fills_flag rfl _ rfl)) (fills_texts rfl _ rfl)) (fills_texts rfl _ rfl))
    (by simp [Independent]) (by decide) rfl

theorem reads_automaton (a : Automaton) : Reads automaton a.content a := by
  rw [automaton, Automaton.content]
  exact Fills.reads (.cons rfl (reads_texts _) (.cons rfl (reads_texts _) (.cons rfl (reads_texts _)
    (.cons rfl (reads_list fun e _ => reads_edge e) .nil)))) (by simp [Independent]) (by decide) rfl

/-- The table of labels ascends. -/
def System.Sorted (s : System) : Prop := Ascending s.labels

theorem reads_system (s : System) (h : s.Sorted) : Reads system s.content s := by
  rw [system, System.content]
  refine Fills.reads (.append (.append (.append (.append
    (.cons rfl (reads_texts _) (.cons rfl (reads_texts _) .nil))
    (fills_texts rfl _ rfl)) (fills_texts rfl _ rfl)) (fills_list rfl (fun t _ => reads_transition t) rfl))
    (fills_unless rfl (fun _ => reads_table h (List.mergeSort_perm _ _) fun x _ => reads_texts x.2) fun hempty => ?_))
    (by simp [Independent]) (by decide) ?_
  · rw [List.isEmpty_iff.mp hempty]
    rfl
  · rw [sortedTable_of_ascending h]

theorem Property.content_eq (p : Property) : p.content = .record
    ([("name", .text p.name)] ++ textsField "eventually" p.eventually ++ textsField "thenAlways" p.thenAlways ++
      textsField "infinitelyOften" p.infinitelyOften ++ textsField "never" p.never ++
      optionalField "automaton" Automaton.content p.automaton?) := by
  rw [Property.content]
  cases p.automaton? <;> rfl

theorem reads_property (p : Property) : Reads property p.content p := by
  rw [property, Property.content_eq]
  exact Fills.reads (.append (.append (.append (.append (.append
    (.cons rfl (reads_text _) .nil)
    (fills_texts rfl _ rfl)) (fills_texts rfl _ rfl)) (fills_texts rfl _ rfl)) (fills_texts rfl _ rfl))
    (fills_optional rfl (fun _ => isNull_record _) (fun a _ => reads_automaton a) rfl))
    (by simp [Independent]) (by decide) rfl

/-! ## 2. Whole documents -/

/-- The entry of the capacity of channels. -/
def capacityField (n : Int) : List (String × Content) := if n = 0 then [] else [("channelCapacity", .int n)]

/-- What is written of a document, with the capacity between the other fields. -/
theorem content_eq (d : Document) : d.content = .record
    ([("name", .text d.name)] ++ optionalField "system" System.content d.system? ++
        listField "programs" Program.content d.programs ++
      capacityField d.channelCapacity ++
      (textsField "observe" d.observe ++ [("properties", .list (d.properties.map Property.content))])) := by
  rw [content, ← List.append_assoc]
  cases d.system? <;> rfl

/-- What is read of the capacity of channels. It is zero if nothing is written. -/
def readCapacity (n : Int) : Option Int := if n = 0 then some 0 else (Reader.int (Content.numberNode n)).map (·.getD 0)

theorem names_capacityField (n : Int) : ((capacityField n).map Prod.fst).Sublist ["channelCapacity"] := by
  rw [capacityField]
  split
  · exact List.nil_sublist _
  · exact .refl _

theorem fill_capacityField {fields : List (String × Reader.Field Document)} {d : Document} (hd : d.channelCapacity = 0)
    (hlookup : fields.lookup "channelCapacity" = some (field Reader.int fun a d => { d with channelCapacity := a }))
    (n : Int) :
    fill true fields (capacityField n) d = (readCapacity n).map fun n => { d with channelCapacity := n } := by
  rw [capacityField, readCapacity]
  by_cases hn : n = 0
  · rw [if_pos hn, if_pos hn, Option.map_some, ← hd]
    rfl
  · have hfill : fill true fields [("channelCapacity", .int n)] d =
        field Reader.int (fun a d => { d with channelCapacity := a }) (Content.numberNode n) d := by
      rw [fill, List.map_singleton, List.foldlM_cons, place, hlookup]
      exact Option.bind_fun_some _
    rw [if_neg hn, if_neg hn, hfill]
    cases hread : Reader.int (Content.numberNode n) with
    | none => rw [field, hread]; rfl
    | some n? =>
      rw [field_of_eq_some hread, Option.map_some, Option.map_some]
      cases n? with
      | none => rw [Option.elim_none, Option.getD_none, ← hd]
      | some n => rfl

/-- **A document is read as it was written**, up to what is read of the capacity. -/
theorem document_content (d : Document) (hlabels : ∀ s ∈ d.system?, s.Sorted) :
    document d.content.ordered.node =
      (readCapacity d.channelCapacity).map fun n => some { d with channelCapacity := n } := by
  rw [document, content_eq]
  exact Fills.record_eq_map
    (.append (.append (.cons rfl (reads_text _) .nil)
      (fills_optional rfl (fun _ => isNull_record _) (fun s hs => reads_system s (hlabels s hs)) rfl))
      (fills_list rfl (fun p _ => reads_program p) rfl))
    (names_capacityField _) (fill_capacityField rfl rfl d.channelCapacity)
    (fun n => .append (fills_texts rfl _ rfl) (.cons rfl (reads_list fun p _ => reads_property p) .nil))
    (by simp [Independent]) (by decide)

end Lasso.Document
