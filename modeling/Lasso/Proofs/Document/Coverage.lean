import Lasso.Proofs.Document.Build
/-!
# Flaws account for failures

Validation and building go through a document on their own. Validation looks up every name in the
lists of the document and notes what it misses; building declares the names first, and then stops at
the first one that was not declared. Here the two are compared:

* `Problem.failures` -- the failures of building that a flaw accounts for, which name the same thing;
* `Covers` -- **every failure of a computation is accounted for** by one of the flaws;
* `System.covers_build`, `Program.covers_build`, `Property.covers_build` -- the flaws of a part cover
  the building of that part;
* `validation_covers_building` -- so **a document without flaws can be built**, and what cannot be built
  was noted.
-/

namespace Lasso.Document

/-! ## 1. Accounts -/

/-- The failures of building that a flaw accounts for. -/
def Problem.failures : Problem → List DocumentError
  | .undeclaredInitial s => [.system (.noState s)]
  | .undeclaredState s a t => [.system (.badTransition (s ++ " -" ++ a ++ "-> " ++ t))]
  | .undeclaredAction s a t => [.system (.badTransition (s ++ " -" ++ a ++ "-> " ++ t))]
  | .labelOfUndeclared s => [.system (.noState s)]
  | .undeclaredProposition _ p => [.system (.noProposition p)]
  | .undeclaredInitialLocation _ l => [.program ⟨l⟩]
  | .undeclaredLocation _ s t => [.program ⟨s⟩, .program ⟨t⟩]
  | .shapeCount p 0 => [.noShape p]
  | .undeclaredAutomatonState _ q => [.automaton ⟨q⟩]
  | .undeclaredEdgeState _ s t => [.automaton ⟨s⟩, .automaton ⟨t⟩]
  | _ => []

/-- One of the flaws accounts for a failure. -/
def Accounts (ps : List Problem) (e : DocumentError) : Prop := ∃ p ∈ ps, e ∈ p.failures

/-- **The flaws cover a computation**: they account for its failure if it has one. -/
def Covers {α : Type} (ps : List Problem) (r : Except DocumentError α) : Prop :=
  Yields (fun _ => True) (Accounts ps) r

section Covers

variable {α ε : Type} {ps qs : List Problem}

theorem Accounts.mono {e : DocumentError} (h : Accounts ps e) (hsub : ps ⊆ qs) : Accounts qs e := by
  obtain ⟨p, hp, he⟩ := h
  exact ⟨p, hsub hp, he⟩

theorem Covers.mono {r : Except DocumentError α} (h : Covers ps r) (hsub : ps ⊆ qs) : Covers qs r :=
  h.imp (fun _ _ => trivial) fun _ he => he.mono hsub

theorem covers_mapError {Q : α → Prop} {r : Except ε α} {f : ε → DocumentError}
    (h : Yields Q (fun c => Accounts ps (f c)) r) : Covers ps (r.mapError f) := by
  cases r with
  | ok b => exact trivial
  | error c => exact h

/-- Where there is no flaw, nothing fails. -/
theorem Covers.exists_ok {r : Except DocumentError α} (h : Covers [] r) : ∃ b, r = .ok b := by
  cases r with
  | ok b => exact ⟨b, rfl⟩
  | error e =>
    obtain ⟨p, hp, -⟩ := h
    exact absurd hp List.not_mem_nil

end Covers

theorem mem_problemIf {bad : Bool} {p q : Problem} : q ∈ problemIf bad p ↔ bad = true ∧ q = p := by
  cases bad <;> simp [problemIf]

theorem mem_sortProblems {ps : List Problem} {p : Problem} : p ∈ sortProblems ps ↔ p ∈ ps :=
  List.mem_mergeSort

theorem contains_ofList {names : List String} {x : String} :
    (Ordered.ofList names).contains x = true ↔ x ∈ names := by
  rw [(Ordered.valid_ofList names).contains_iff, Ordered.mem_ofList]

/-- The test for two names notes that one of them is missing. -/
theorem mem_problemIf_missing {names : List String} {x y : String} (h : ¬ (x ∈ names ∧ y ∈ names))
    (p : Problem) : p ∈ problemIf (!(names.contains x && names.contains y)) p := by
  have hno : (names.contains x && names.contains y) = false :=
    Bool.eq_false_iff.mpr fun h' => h (by simpa using h')
  exact mem_problemIf.mpr ⟨by rw [hno, Bool.not_false], rfl⟩

/-! ## 2. Systems -/

section System

variable {s : System} {m : TransitionSystem String String String}

/-- A failure of assembling a system is accounted for. -/
abbrev System.Notes (s : System) (c : SystemError) : Prop := Accounts s.problems (.system c)

theorem System.Declares.yields_setInitial (h : s.Declares m) {i : String} (hi : i ∈ s.initial) :
    Yields s.Declares s.Notes (m.setInitial i true) := by
  unfold TransitionSystem.setInitial
  by_cases hs : i ∈ m.states
  · simp only [h.consistent.states.contains_iff.mpr hs, Bool.not_true, if_true]
    exact h.congr (h.consistent.insertInitial hs) rfl
  · have hcontains : m.states.contains i = false :=
      Bool.eq_false_iff.mpr fun h' => hs (h.consistent.states.contains_iff.mp h')
    have hno : ¬ i ∈ s.states := fun h' => hs ((h.states i).mpr h')
    simp only [hcontains, Bool.not_false, if_true]
    refine ⟨.undeclaredInitial i, ?_, List.mem_singleton.mpr rfl⟩
    simp [System.problems, hi, hno]

theorem System.Declares.yields_addTransition (h : s.Declares m) {t : Transition}
    (ht : t ∈ s.transitions) :
    Yields s.Declares s.Notes (m.addTransition ⟨t.source, t.action, t.target⟩) := by
  unfold TransitionSystem.addTransition
  by_cases hadmits : m.admits ⟨t.source, t.action, t.target⟩ = true
  · rw [if_pos hadmits]
    have hends := (TransitionSystem.admits_iff h.consistent).mp hadmits
    exact h.congr (h.consistent.insertTransition hends) (by simp [TransitionSystem.declarations])
  · rw [if_neg hadmits]
    have hmem : ∀ p ∈ t.problems s, p ∈ s.problems := by
      intro p hp
      have hflat : p ∈ s.transitions.flatMap (·.problems s) := List.mem_flatMap.mpr ⟨t, ht, hp⟩
      simp only [System.problems, List.mem_append]
      exact Or.inl (Or.inr hflat)
    rw [TransitionSystem.admits_iff h.consistent] at hadmits
    simp only [h.states, h.actions] at hadmits
    by_cases haction : t.action ∈ s.actions
    · have hstate : ¬ (t.source ∈ s.states ∧ t.target ∈ s.states) := fun h' =>
        hadmits ⟨h'.1, h'.2, haction⟩
      refine ⟨.undeclaredState t.source t.action t.target, hmem _ ?_, List.mem_singleton.mpr rfl⟩
      exact List.mem_append_left _ (mem_problemIf_missing hstate _)
    · refine ⟨.undeclaredAction t.source t.action t.target, hmem _ ?_, List.mem_singleton.mpr rfl⟩
      refine List.mem_append_right _ (mem_problemIf.mpr ⟨?_, rfl⟩)
      simpa using haction

theorem System.Declares.yields_addLabel (h : s.Declares m) {l : String × List String}
    (hl : l ∈ s.labels) {p : String} (hp : p ∈ l.2) :
    Yields s.Declares s.Notes (m.addLabel l.1 p) := by
  have hmem : ∀ q ∈ labelProblems s l.1 l.2, q ∈ s.problems := by
    intro q hq
    have hflat : q ∈ s.labels.flatMap fun l => labelProblems s l.1 l.2 :=
      List.mem_flatMap.mpr ⟨l, hl, hq⟩
    exact List.mem_append_right _ (mem_sortProblems.mpr hflat)
  unfold TransitionSystem.addLabel
  rw [h.consistent.labels.contains_eq h.consistent.states]
  by_cases hs : l.1 ∈ m.states
  · rw [h.consistent.states.contains_iff.mpr hs]
    by_cases hprop : p ∈ m.props
    · rw [h.consistent.props.contains_iff.mpr hprop]
      exact h.congr (h.consistent.insertLabel l.1 hprop) rfl
    · have hcontains : m.props.contains p = false :=
        Bool.eq_false_iff.mpr fun h' => hprop (h.consistent.props.contains_iff.mp h')
      have hno : ¬ p ∈ s.propositions := fun h' => hprop ((h.props p).mpr h')
      rw [hcontains]
      refine ⟨.undeclaredProposition l.1 p, hmem _ ?_, List.mem_singleton.mpr rfl⟩
      simp [labelProblems, hp, hno]
  · have hcontains : m.states.contains l.1 = false :=
      Bool.eq_false_iff.mpr fun h' => hs (h.consistent.states.contains_iff.mp h')
    have hno : ¬ l.1 ∈ s.states := fun h' => hs ((h.states _).mpr h')
    rw [hcontains]
    refine ⟨.labelOfUndeclared l.1, hmem _ ?_, List.mem_singleton.mpr rfl⟩
    exact List.mem_append_left _ (mem_problemIf.mpr ⟨by simpa using hno, rfl⟩)

/-- **The flaws of a system cover its building.** -/
theorem System.covers_build (s : System) (name : String) : Covers s.problems (s.build name) := by
  refine covers_mapError (Q := s.Declares) ?_
  have hframe : s.Declares (s.parts.frame name) :=
    System.declares_of_parts (s.parts.frame_built name).consistent
      TransitionSystem.Parts.declarations_frame
  unfold System.assemble
  refine (Yields.foldlM_of_mem (fun i hi m h => h.yields_setInitial hi) hframe).bind fun m h => ?_
  refine (Yields.foldlM_of_mem (fun t ht m h => h.yields_addTransition ht) h).bind fun m h => ?_
  exact Yields.foldlM_of_mem (fun l hl m h =>
    Yields.foldlM_of_mem (fun p hp m h => h.yields_addLabel hl hp) h) h

end System

/-! ## 3. Programs -/

section Program

variable {p : Program} {g : ProgramGraph String}

/-- A program has the locations of a description. -/
def Program.Locates (p : Program) (g : ProgramGraph String) : Prop :=
  g.locations = .ofList p.locations

abbrev Program.Notes (p : Program) (c : LocationError) : Prop := Accounts p.problems (.program c)

theorem Program.Locates.yields_needLocation (h : p.Locates g) {l : String}
    (hno : ¬ l ∈ p.locations → p.Notes ⟨l⟩) : Yields (fun _ => True) p.Notes (g.needLocation l) := by
  unfold ProgramGraph.needLocation
  rw [show g.locations = .ofList p.locations from h]
  split
  · exact trivial
  · rename_i hl
    exact hno fun h' => hl (contains_ofList.mpr h')

theorem Program.Locates.yields_setInitial (h : p.Locates g) {l : String} (hl : l ∈ p.initial) :
    Yields p.Locates p.Notes (g.setInitial l true) := by
  refine (h.yields_needLocation fun hno => ?_).bind fun _ _ => h
  refine ⟨.undeclaredInitialLocation p.name l, ?_, List.mem_singleton.mpr rfl⟩
  simp [Program.problems, hl, hno]

theorem Program.Locates.yields_addStep (h : p.Locates g) {t : Step} (ht : t ∈ p.steps) :
    Yields p.Locates p.Notes (g.addStep ⟨t.source, t.condition, t.action, t.target⟩) := by
  have hmem : ¬ (t.source ∈ p.locations ∧ t.target ∈ p.locations) →
      .undeclaredLocation p.name t.source t.target ∈ p.problems := by
    intro hno
    exact List.mem_append_right _ (List.mem_flatMap.mpr ⟨t, ht, mem_problemIf_missing hno _⟩)
  refine (h.yields_needLocation fun hno => ?_).bind fun _ _ =>
    (h.yields_needLocation fun hno => ?_).bind fun _ _ => h
  · exact ⟨_, hmem fun h' => hno h'.1, by simp [Problem.failures]⟩
  · exact ⟨_, hmem fun h' => hno h'.2, by simp [Problem.failures]⟩

/-- **The flaws of a program cover its building.** -/
theorem Program.covers_build (p : Program) : Covers p.problems p.build := by
  have hframe : p.Locates ((ProgramGraph.empty p.name).addLocations p.locations) := by
    rw [Program.Locates, ProgramGraph.addLocations, ProgramGraph.foldl_addLocation]
    rfl
  refine covers_mapError (Q := p.Locates) ?_
  unfold Program.assemble
  refine (Yields.foldlM_of_mem (fun l hl g h => h.yields_setInitial hl) hframe).bind fun g h => ?_
  refine Yields.foldlM_of_mem (fun t ht g h => h.yields_addStep ht) ?_
  rw [ProgramGraph.foldl_addInitialization]
  exact h

end Program

/-! ## 4. Properties -/

section Property

variable {a : Automaton} {property : String} {m : Lasso.Automaton String String}

/-- An automaton has the states of a description. -/
def Automaton.Locates (a : Automaton) (m : Lasso.Automaton String String) : Prop :=
  m.states = .ofList a.states

abbrev Automaton.Notes (a : Automaton) (property : String) (c : AutomatonError) : Prop :=
  Accounts (a.problems property) (.automaton c)

theorem Automaton.Locates.yields_needState (h : a.Locates m) {q : String}
    (hno : ¬ q ∈ a.states → a.Notes property ⟨q⟩) :
    Yields (fun _ => True) (a.Notes property) (m.needState q) := by
  unfold Lasso.Automaton.needState
  rw [show m.states = .ofList a.states from h]
  split
  · exact trivial
  · rename_i hq
    exact hno fun h' => hq (contains_ofList.mpr h')

theorem Automaton.notes_marked {q : String} (hq : q ∈ a.initial ++ a.accepting)
    (hno : ¬ q ∈ a.states) : a.Notes property ⟨q⟩ := by
  refine ⟨.undeclaredAutomatonState property q, ?_, List.mem_singleton.mpr rfl⟩
  refine List.mem_append_left _ (List.mem_map.mpr ⟨q, List.mem_filter.mpr ⟨hq, ?_⟩, rfl⟩)
  simpa using hno

theorem Automaton.Locates.yields_addEdge (h : a.Locates m) {e : Edge} (he : e ∈ a.edges) :
    Yields a.Locates (a.Notes property) (m.addEdge ⟨e.source, e.guard, e.target⟩) := by
  have hmem : ¬ (e.source ∈ a.states ∧ e.target ∈ a.states) →
      .undeclaredEdgeState property e.source e.target ∈ a.problems property := by
    intro hno
    exact List.mem_append_right _ (List.mem_flatMap.mpr ⟨e, he, mem_problemIf_missing hno _⟩)
  refine (h.yields_needState fun hno => ?_).bind fun _ _ =>
    (h.yields_needState fun hno => ?_).bind fun _ _ => h
  · exact ⟨_, hmem fun h' => hno h'.1, by simp [Problem.failures]⟩
  · exact ⟨_, hmem fun h' => hno h'.2, by simp [Problem.failures]⟩

theorem Automaton.covers_build (a : Automaton) (property : String) :
    Covers (a.problems property) a.build := by
  have hframe : a.Locates (Lasso.Automaton.empty.addStates a.states) :=
    TransitionSystem.foldl_inserted (f := Lasso.Automaton.addState) (g := Lasso.Automaton.states)
      (fun _ _ => rfl) a.states _
  refine covers_mapError (Q := a.Locates) ?_
  unfold Automaton.assemble
  refine (Yields.foldlM_of_mem (fun q hq m h => ?_) hframe).bind fun m h => ?_
  · exact (h.yields_needState fun hno =>
      Automaton.notes_marked (List.mem_append_left _ hq) hno).bind fun _ _ => h
  refine (Yields.foldlM_of_mem (fun q hq m h => ?_) h).bind fun m h => ?_
  · exact (h.yields_needState fun hno =>
      Automaton.notes_marked (List.mem_append_right _ hq) hno).bind fun _ _ => h
  exact Yields.foldlM_of_mem (fun e he m h => h.yields_addEdge he) h

/-- **The flaws of a property cover its building**: without a shape, the number of shapes is noted. -/
theorem Property.covers_build (p : Property) : Covers p.problems p.build := by
  unfold Property.build
  split
  · exact trivial
  split
  · exact trivial
  split
  · exact trivial
  split
  · exact trivial
  rename_i hnever
  cases ha : p.automaton? with
  | some a =>
    refine (a.covers_build p.name).mono fun q hq => ?_
    simp only [Property.problems, ha, List.mem_append]
    exact Or.inr hq
  | none =>
    have hshapes : p.shapes = 0 := by
      simp_all [Property.shapes]
    refine ⟨.shapeCount p.name 0, ?_, List.mem_singleton.mpr rfl⟩
    simp [Property.problems, hshapes, mem_problemIf]

end Property

/-! ## 5. Documents -/

variable {d : Document}

theorem System.problems_subset {s : System} (hs : d.system? = some s) : s.problems ⊆ d.problems := by
  intro q hq
  simp only [Document.problems, hs, List.mem_append]
  tauto

theorem Program.problems_subset {p : Program} (hp : p ∈ d.programs) : p.problems ⊆ d.problems := by
  intro q hq
  have hflat : q ∈ d.programs.flatMap Program.problems := List.mem_flatMap.mpr ⟨p, hp, hq⟩
  simp only [Document.problems, List.mem_append]
  tauto

theorem Property.problems_subset {p : Property} (hp : p ∈ d.properties) :
    p.problems ⊆ d.problems := by
  intro q hq
  exact List.mem_append_right _ (List.mem_flatMap.mpr ⟨p, hp, hq⟩)

/-- The programs are built one after the other, up to the first failure. -/
theorem covers_buildPrograms (d : Document) : Covers d.problems d.buildPrograms := by
  have hall : ∀ p ∈ d.programs, Covers d.problems p.build := fun p hp =>
    p.covers_build.mono (Program.problems_subset hp)
  exact (Yields.forall_mapM hall).imp (fun _ _ => trivial) fun _ he => he

/-- Everything that a document describes can be built. -/
structure Builds (d : Document) : Prop where
  system : ∀ s, d.system? = some s → ∀ name, ∃ m, s.build name = .ok m
  programs : ∃ gs, d.buildPrograms = .ok gs
  properties : ∀ p ∈ d.properties, ∃ a, p.build = .ok a

/-- **What cannot be built was noted** among the flaws of the part in question, which are flaws of the
    document. -/
structure Noted (d : Document) : Prop where
  system : ∀ s, d.system? = some s → s.problems ⊆ d.problems ∧
    ∀ name e, s.build name = .error e → ∃ q ∈ s.problems, e ∈ q.failures
  program : ∀ p ∈ d.programs, p.problems ⊆ d.problems ∧
    ∀ e, p.build = .error e → ∃ q ∈ p.problems, e ∈ q.failures
  programs : ∀ e, d.buildPrograms = .error e → ∃ q ∈ d.problems, e ∈ q.failures
  property : ∀ p ∈ d.properties, p.problems ⊆ d.problems ∧
    ∀ e, p.build = .error e → ∃ q ∈ p.problems, e ∈ q.failures

theorem noted (d : Document) : d.Noted where
  system s hs := ⟨System.problems_subset hs, fun name _ e => (s.covers_build name).of_error e⟩
  program p hp := ⟨Program.problems_subset hp, fun _ e => p.covers_build.of_error e⟩
  programs _ e := d.covers_buildPrograms.of_error e
  property p hp := ⟨Property.problems_subset hp, fun _ e => p.covers_build.of_error e⟩

theorem builds_of_problems (h : d.problems = []) : d.Builds where
  system s hs name :=
    ((s.covers_build name).mono (h ▸ System.problems_subset hs)).exists_ok
  programs := (h ▸ d.covers_buildPrograms : Covers [] d.buildPrograms).exists_ok
  properties p hp := (p.covers_build.mono (h ▸ Property.problems_subset hp)).exists_ok

/-- **Validation covers everything that building can reject.** A document that is not refused can be
    built, every failure of building was noted as a flaw that names the same thing, and a document is
    refused with all its flaws, each of which is reported as one of an invalid document. -/
theorem validation_covers_building (d : Document) :
    (d.validate = .ok () → d.Builds) ∧ d.Noted ∧
      ∀ e, d.validate = .error e → e = .flawed d.problems ∧ d.problems ≠ [] ∧
        e.message = "; ".intercalate
          (d.problems.map fun p => "model: invalid document: " ++ p.text) := by
  refine ⟨fun h => builds_of_problems (validate_eq_ok.mp h), d.noted, fun e he => ?_⟩
  unfold validate at he
  split at he
  · cases he
  · rename_i hempty
    cases he
    exact ⟨rfl, by simpa using hempty, rfl⟩

/-- A ferry that crosses to and fro. -/
def ferryProgram : Program where
  name := "ferry"
  locations := ["near", "far"]
  initial := ["near"]
  initializations := [["trips = 0"]]
  steps := [⟨"near", "", "trips = trips + 1", "far"⟩, ⟨"far", "trips < 3", "", "near"⟩]

def ferry : Document where
  name := "ferry"
  programs := [ferryProgram]
  properties := [{ name := "sails", automaton? := some {
    states := ["waits", "sails"], initial := ["waits"], accepting := ["sails"],
    edges := [{ source := "waits", target := "sails", any := true },
      { source := "sails", target := "sails", holds := ["far"] }] } }]

/-- The ferry, which is to start from a shore that is not there. -/
def lostFerry : Document := { ferry with programs := [{ ferryProgram with initial := ["island"] }] }

theorem buildPrograms_lostFerry : lostFerry.buildPrograms = .error (.program ⟨"island"⟩) := by
  have hno : (Ordered.ofList ["near", "far"]).contains "island" = false :=
    Bool.eq_false_iff.mpr fun h => absurd (contains_ofList.mp h) (by decide)
  have hlocations : ((ProgramGraph.empty "ferry").addLocations ["near", "far"]).locations =
      .ofList ["near", "far"] := rfl
  have hneed : ((ProgramGraph.empty "ferry").addLocations ["near", "far"]).needLocation "island" =
      .error ⟨"island"⟩ := by
    rw [ProgramGraph.needLocation, hlocations, hno]
    rfl
  simp only [lostFerry, buildPrograms, Program.build, Program.assemble, ferryProgram, List.mapM_cons,
    List.foldlM_cons, ProgramGraph.setInitial, hneed]
  rfl

theorem validation_covers_building_ferry :
    ferry.Builds ∧ lostFerry.buildPrograms = .error (.program ⟨"island"⟩) ∧
      .undeclaredInitialLocation "ferry" "island" ∈ lostFerry.problems ∧
      ∃ q ∈ lostFerry.problems, .program ⟨"island"⟩ ∈ q.failures :=
  ⟨(validation_covers_building ferry).1 (validate_eq_ok.mpr (by decide +kernel)),
    buildPrograms_lostFerry, by decide +kernel,
    (validation_covers_building lostFerry).2.1.programs _ buildPrograms_lostFerry⟩

end Lasso.Document
