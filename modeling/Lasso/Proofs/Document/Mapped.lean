import Lasso.Proofs.Document.Read
/-!
# Documents with other texts

A function on texts is applied to all texts of a document. The states that have labels are names there and stay as
they are.

* `mapTexts` -- the document with other texts, part by part;
* `content_mapTexts` -- **what is written of it is what was written, with the other texts**, if the function keeps
  apart what is empty and what is not.
-/

namespace Lasso.Document

open Yaml (Content)

variable (f : String → String)

/-! ## 1. Parts -/

def Transition.mapTexts (t : Transition) : Transition := ⟨f t.source, f t.action, f t.target⟩

def System.mapTexts (s : System) : System where
  states := s.states.map f
  initial := s.initial.map f
  actions := s.actions.map f
  propositions := s.propositions.map f
  transitions := s.transitions.map (Transition.mapTexts f)
  labels := s.labels.map fun x => (x.1, x.2.map f)

def Step.mapTexts (s : Step) : Step := ⟨f s.source, f s.condition, f s.action, f s.target⟩

def Program.mapTexts (p : Program) : Program where
  name := f p.name
  locations := p.locations.map f
  initial := p.initial.map f
  initializations := p.initializations.map (List.map f)
  steps := p.steps.map (Step.mapTexts f)

def Edge.mapTexts (e : Edge) : Edge :=
  { e with source := f e.source, target := f e.target, label := e.label.map f, holds := e.holds.map f }

def Automaton.mapTexts (a : Automaton) : Automaton where
  states := a.states.map f
  initial := a.initial.map f
  accepting := a.accepting.map f
  edges := a.edges.map (Edge.mapTexts f)

def Property.mapTexts (p : Property) : Property where
  name := f p.name
  eventually := p.eventually.map f
  thenAlways := p.thenAlways.map f
  infinitelyOften := p.infinitelyOften.map f
  never := p.never.map f
  automaton? := p.automaton?.map (Automaton.mapTexts f)

/-- **The document with other texts.** -/
def mapTexts (d : Document) : Document :=
  { d with
    name := f d.name, system? := d.system?.map (System.mapTexts f), programs := d.programs.map (Program.mapTexts f),
    observe := d.observe.map f, properties := d.properties.map (Property.mapTexts f) }

/-! ## 2. What is written of them -/

/-- Entries with other texts. -/
def mapEntries (entries : List (String × Content)) : List (String × Content) :=
  entries.map fun e => (e.1, e.2.mapTexts f)

theorem mapTexts_record (entries : List (String × Content)) :
    (Content.record entries).mapTexts f = .record (mapEntries f entries) :=
  Content.mapTexts_record f entries

theorem mapEntries_nil : mapEntries f [] = [] := rfl

theorem mapEntries_cons (name : String) (c : Content) (entries : List (String × Content)) :
    mapEntries f ((name, c) :: entries) = (name, c.mapTexts f) :: mapEntries f entries := rfl

theorem mapEntries_append (entries entries' : List (String × Content)) :
    mapEntries f (entries ++ entries') = mapEntries f entries ++ mapEntries f entries' :=
  List.map_append

theorem mapTexts_textsContent (xs : List String) : (textsContent xs).mapTexts f = textsContent (xs.map f) := by
  simp [textsContent, Content.mapTexts_list, Content.mapTexts_text, Function.comp_def]

theorem mapEntries_textsField (name : String) (xs : List String) :
    mapEntries f (textsField name xs) = textsField name (xs.map f) := by
  cases xs with
  | nil => rfl
  | cons x xs =>
    rw [textsField, textsField, if_neg (by simp), if_neg (by simp), mapEntries_cons, mapTexts_textsContent, mapEntries_nil]

theorem mapEntries_flagField (name : String) (b : Bool) : mapEntries f (flagField name b) = flagField name b := by
  cases b with
  | false => rfl
  | true => simp [flagField, mapEntries, Content.mapTexts_bool]

theorem mapEntries_capacityField (n : Int) : mapEntries f (capacityField n) = capacityField n := by
  rw [capacityField]
  split_ifs
  · rfl
  · rw [mapEntries_cons, Content.mapTexts_int, mapEntries_nil]

section

variable {f} {α : Type} {content : α → Content} {g : α → α} (h : ∀ a, content (g a) = (content a).mapTexts f)

include h

theorem mapTexts_list (xs : List α) : (Content.list (xs.map content)).mapTexts f = .list ((xs.map g).map content) := by
  simp [Content.mapTexts_list, Function.comp_def, h]

theorem mapEntries_listField (name : String) (xs : List α) :
    mapEntries f (listField name content xs) = listField name content (xs.map g) := by
  cases xs with
  | nil => rfl
  | cons x xs =>
    rw [listField, listField, if_neg (by simp), if_neg (by simp), mapEntries_cons, mapTexts_list h, mapEntries_nil]

theorem mapEntries_optionalField (name : String) (a? : Option α) :
    mapEntries f (optionalField name content a?) = optionalField name content (a?.map g) := by
  cases a? with
  | none => rfl
  | some a =>
    rw [optionalField, optionalField, Option.map_some, Option.elim_some, Option.elim_some, mapEntries_cons, h,
      mapEntries_nil]

end

theorem sortNaturally_map {α β : Type} (g : α → β) (xs : List (String × α)) :
    Text.sortNaturally (xs.map fun x => (x.1, g x.2)) = (Text.sortNaturally xs).map fun x => (x.1, g x.2) := by
  rw [Text.sortNaturally, Text.sortNaturally]
  refine (List.map_mergeSort ?_).symm
  exact fun _ _ _ _ => rfl

theorem mapEntries_labelsField (labels : List (String × List String)) :
    mapEntries f (labelsField labels) = labelsField (labels.map fun x => (x.1, x.2.map f)) := by
  cases labels with
  | nil => rfl
  | cons x xs =>
    rw [labelsField, labelsField, if_neg (by simp), if_neg (by simp), mapEntries_cons, mapTexts_record, mapEntries_nil,
      sortNaturally_map, mapEntries, List.map_map, List.map_map]
    simp [Function.comp_def, mapTexts_textsContent]

theorem Transition.content_mapTexts (t : Transition) : (t.mapTexts f).content = t.content.mapTexts f := by
  simp [Transition.content, Transition.mapTexts, mapTexts_record, mapEntries, Content.mapTexts_text]

theorem System.content_mapTexts (s : System) : (s.mapTexts f).content = s.content.mapTexts f := by
  simp only [System.content, System.mapTexts, mapTexts_record, mapEntries_append, mapEntries_cons, mapEntries_nil,
    mapTexts_textsContent, mapEntries_textsField, mapEntries_listField (Transition.content_mapTexts f),
    mapEntries_labelsField]

theorem Edge.content_mapTexts (e : Edge) : (e.mapTexts f).content = e.content.mapTexts f := by
  simp only [Edge.content, Edge.mapTexts, mapTexts_record, mapEntries_append, mapEntries_cons, mapEntries_nil,
    Content.mapTexts_text, mapEntries_textsField, mapEntries_flagField]

theorem Automaton.content_mapTexts (a : Automaton) : (a.mapTexts f).content = a.content.mapTexts f := by
  simp only [Automaton.content, Automaton.mapTexts, mapTexts_record, mapEntries_cons, mapEntries_nil,
    mapTexts_textsContent, mapTexts_list (Edge.content_mapTexts f)]

theorem Property.content_mapTexts (p : Property) : (p.mapTexts f).content = p.content.mapTexts f := by
  simp only [Property.content_eq, Property.mapTexts, mapTexts_record, mapEntries_append, mapEntries_cons,
    mapEntries_nil, Content.mapTexts_text, mapEntries_textsField,
    mapEntries_optionalField (Automaton.content_mapTexts f)]

section

variable {f} (hf : ∀ s, (f s).isEmpty = s.isEmpty)

include hf

/-- A condition is left out where it is empty, so it matters which texts become empty. -/
theorem Step.content_mapTexts (s : Step) : (s.mapTexts f).content = s.content.mapTexts f := by
  simp only [Step.content, Step.mapTexts, mapTexts_record, mapEntries_append, mapEntries_cons, mapEntries_nil,
    Content.mapTexts_text, hf]
  split_ifs <;> simp only [mapEntries_nil, mapEntries_cons, Content.mapTexts_text]

theorem Program.content_mapTexts (p : Program) : (p.mapTexts f).content = p.content.mapTexts f := by
  have htexts : ∀ xs, textsContent (xs.map f) = (textsContent xs).mapTexts f := fun xs =>
    (mapTexts_textsContent f xs).symm
  simp only [Program.content, Program.mapTexts, mapTexts_record, mapEntries_append, mapEntries_cons, mapEntries_nil,
    Content.mapTexts_text, mapTexts_textsContent, mapEntries_listField htexts,
    mapEntries_listField (Step.content_mapTexts hf)]

/-- **What is written of a document with other texts** is what was written, with the other texts. -/
theorem content_mapTexts (d : Document) : (d.mapTexts f).content = d.content.mapTexts f := by
  simp only [content_eq, mapTexts, mapTexts_record, mapEntries_append, mapEntries_cons, mapEntries_nil,
    Content.mapTexts_text, mapEntries_textsField, mapEntries_capacityField,
    mapEntries_optionalField (System.content_mapTexts f), mapEntries_listField (Program.content_mapTexts hf),
    mapTexts_list (Property.content_mapTexts f)]

end

/-- The labels of states stay in the order of the states. -/
theorem System.Sorted.mapTexts {s : System} (h : s.Sorted) : (s.mapTexts f).Sorted :=
  List.pairwise_map.mpr h

end Lasso.Document
