import Lasso.Document.Build
import Lasso.Document.Validate
import Lasso.Proofs.Automaton.Shapes
import Lasso.Proofs.Program.Graph
import Lasso.Proofs.System.Checked
import Lasso.Proofs.Yields
/-!
# What documents describe

* `System.Closed`, `Automaton.Closed`, `Property.Formed` -- what a document without flaws keeps, part
  by part; `formed_of_validate` finds it in every document that is not refused;
* `System.Closed.assemble` -- **a system that speaks of declared things only can be assembled**, and
  the assembled one is as described (`System.Describes`);
* `Automaton.Closed.assemble`, `Program.Closed.assemble` -- the same for automata and programs.
-/

namespace Lasso.Document

/-! ## 1. Documents without flaws -/

theorem problemIf_eq_nil {bad : Bool} {p : Problem} : problemIf bad p = [] ↔ bad = false := by
  cases bad <;> simp [problemIf]

theorem sortProblems_eq_nil {ps : List Problem} : sortProblems ps = [] ↔ ps = [] := by
  rw [← List.length_eq_zero_iff, sortProblems, List.length_mergeSort, List.length_eq_zero_iff]

/-- A system that speaks of declared things only. -/
structure System.Closed (s : System) : Prop where
  initial : ∀ i ∈ s.initial, i ∈ s.states
  transitions : ∀ t ∈ s.transitions, t.source ∈ s.states ∧ t.target ∈ s.states ∧ t.action ∈ s.actions
  labels : ∀ l ∈ s.labels, l.1 ∈ s.states ∧ ∀ p ∈ l.2, p ∈ s.propositions

theorem Transition.problems_eq_nil {s : System} {t : Transition} :
    t.problems s = [] ↔ t.source ∈ s.states ∧ t.target ∈ s.states ∧ t.action ∈ s.actions := by
  rw [Transition.problems, List.append_eq_nil_iff, problemIf_eq_nil, problemIf_eq_nil]
  simp [and_assoc]

theorem labelProblems_eq_nil {s : System} {state : String} {props : List String} :
    labelProblems s state props = [] ↔ state ∈ s.states ∧ ∀ p ∈ props, p ∈ s.propositions := by
  rw [labelProblems, List.append_eq_nil_iff, problemIf_eq_nil, List.map_eq_nil_iff,
    List.filter_eq_nil_iff]
  simp

theorem System.problems_eq_nil {s : System} : s.problems = [] ↔ s.Closed := by
  rw [System.problems, List.append_eq_nil_iff, List.append_eq_nil_iff, List.map_eq_nil_iff,
    List.filter_eq_nil_iff, List.flatMap_eq_nil_iff, sortProblems_eq_nil, List.flatMap_eq_nil_iff]
  simp only [Transition.problems_eq_nil, labelProblems_eq_nil]
  constructor
  · rintro ⟨⟨hi, ht⟩, hl⟩
    exact ⟨by simpa using hi, ht, hl⟩
  · intro h
    exact ⟨⟨by simpa using h.initial, h.transitions⟩, h.labels⟩

/-- An automaton that speaks of its own states only. -/
structure Automaton.Closed (a : Automaton) : Prop where
  initial : ∀ q ∈ a.initial, q ∈ a.states
  accepting : ∀ q ∈ a.accepting, q ∈ a.states
  edges : ∀ e ∈ a.edges, e.source ∈ a.states ∧ e.target ∈ a.states

theorem Automaton.problems_eq_nil {property : String} {a : Automaton} :
    a.problems property = [] ↔ a.Closed := by
  rw [Automaton.problems, List.append_eq_nil_iff, List.map_eq_nil_iff, List.filter_eq_nil_iff,
    List.flatMap_eq_nil_iff, List.forall_mem_append]
  simp only [problemIf_eq_nil]
  constructor
  · rintro ⟨⟨hi, ha⟩, he⟩
    exact ⟨by simpa using hi, by simpa using ha, by simpa using he⟩
  · intro h
    exact ⟨⟨by simpa using h.initial, by simpa using h.accepting⟩, by simpa using h.edges⟩

/-- A property that has one shape, in which an automaton speaks of its own states only. -/
structure Property.Formed (p : Property) : Prop where
  shapes : p.shapes = 1
  automaton : ∀ a, p.automaton? = some a → a.Closed

theorem Property.formed_of_problems {p : Property} (h : p.problems = []) : p.Formed := by
  rw [Property.problems, List.append_eq_nil_iff, List.append_eq_nil_iff, List.append_eq_nil_iff] at h
  obtain ⟨⟨⟨-, hshapes⟩, -⟩, ha⟩ := h
  refine ⟨by simpa using problemIf_eq_nil.mp hshapes, fun a e => ?_⟩
  rw [e] at ha
  exact Automaton.problems_eq_nil.mp ha

theorem validate_eq_ok {d : Document} : d.validate = .ok () ↔ d.problems = [] := by
  unfold validate
  split <;> simp_all

/-- **A document that is not refused** describes its system and its properties without flaws. -/
theorem formed_of_validate {d : Document} (h : d.validate = .ok ()) :
    (∀ s, d.system? = some s → s.Closed) ∧ ∀ p ∈ d.properties, p.Formed := by
  have hp := validate_eq_ok.mp h
  unfold problems at hp
  simp only [List.append_eq_nil_iff, List.flatMap_eq_nil_iff] at hp
  obtain ⟨⟨⟨⟨-, hsystem⟩, -⟩, -⟩, hproperties⟩ := hp
  refine ⟨fun s e => ?_, fun p hp => Property.formed_of_problems (hproperties p hp)⟩
  rw [e] at hsystem
  exact System.problems_eq_nil.mp hsystem

/-! ## 2. Systems -/

/-- A system has the declarations of a description. -/
structure System.Declares (s : System) (m : TransitionSystem String String String) : Prop where
  consistent : m.Consistent
  states : ∀ x, x ∈ m.states ↔ x ∈ s.states
  actions : ∀ a, a ∈ m.actions ↔ a ∈ s.actions
  props : ∀ p, p ∈ m.props ↔ p ∈ s.propositions

/-- A system is as described. -/
structure System.Describes (s : System) (m : TransitionSystem String String String) : Prop
    extends s.Declares m where
  initial : ∀ x, x ∈ m.initial ↔ x ∈ s.initial
  transitions : ∀ t, t ∈ m.transitions ↔ ⟨t.source, t.action, t.target⟩ ∈ s.transitions
  label : ∀ x p, p ∈ m.label x ↔ ∃ ps, (x, ps) ∈ s.labels ∧ p ∈ ps

section Assembly

variable {s : System} {name : String} {m : TransitionSystem String String String}

/-- The transitions of a system. -/
def System.steps (s : System) : List (Lasso.Transition String String) :=
  s.transitions.map fun t => ⟨t.source, t.action, t.target⟩

theorem System.mem_steps {t : Lasso.Transition String String} :
    t ∈ s.steps ↔ ⟨t.source, t.action, t.target⟩ ∈ s.transitions := by
  rw [System.steps, List.mem_map]
  constructor
  · rintro ⟨u, hu, rfl⟩
    exact hu
  · intro ht
    exact ⟨_, ht, rfl⟩

/-- The pairs of a state and a proposition in its label. -/
def System.labelPairs (s : System) : List (String × String) :=
  s.labels.flatMap fun l => l.2.map (l.1, ·)

theorem System.mem_labelPairs {x p : String} :
    (x, p) ∈ s.labelPairs ↔ ∃ ps, (x, ps) ∈ s.labels ∧ p ∈ ps := by
  simp [labelPairs]

/-- The system of a description as it is written down. -/
def System.parts (s : System) : TransitionSystem.Parts String String String where
  states := s.states
  starts := s.initial
  actions := s.actions
  props := s.propositions
  steps := s.steps
  labels := s.labelPairs

theorem System.Declares.congr (h : s.Declares m) {m' : TransitionSystem String String String}
    (hc : m'.Consistent) (e : m'.declarations = m.declarations) : s.Declares m' where
  consistent := hc
  states x := by
    rw [show m'.states = m.states from congrArg (·.1) e, h.states]
  actions a := by
    rw [show m'.actions = m.actions from congrArg (·.2.1) e, h.actions]
  props p := by
    rw [show m'.props = m.props from congrArg (·.2.2) e, h.props]

theorem System.declares_of_parts (hc : m.Consistent) (e : m.declarations = s.parts.declared) :
    s.Declares m := by
  obtain ⟨hstates, hactions, hprops⟩ := TransitionSystem.Parts.mem_of_declarations e
  exact ⟨hc, hstates, hactions, hprops⟩

/-- Labels are entered pair by pair. -/
theorem foldlM_labels {ls : List (String × List String)} :
    ls.foldlM (fun m l => l.2.foldlM (fun m p => TransitionSystem.addLabel m l.1 p) m) m =
      (ls.flatMap fun l => l.2.map (l.1, ·)).foldlM
        (fun m x => TransitionSystem.addLabel m x.1 x.2) m :=
  foldlM_eq_foldlM_flatMap (fun _ _ _ => by rw [List.foldlM_map]) m

/-- **A system that speaks of declared things only can be assembled**, and is then as described. -/
theorem System.Closed.assemble (hs : s.Closed) (name : String) :
    ∃ m, s.assemble name = .ok m ∧ s.Describes m := by
  have hclosed : s.parts.Closed := by
    refine ⟨hs.initial, fun t ht => hs.transitions _ (System.mem_steps.mp ht), fun x hx => ?_⟩
    obtain ⟨ps, hps, hp⟩ := System.mem_labelPairs.mp hx
    exact ⟨(hs.labels _ hps).1, (hs.labels _ hps).2 _ hp⟩
  have estart : s.initial.foldlM (fun m i => TransitionSystem.setInitial m i true)
      (((TransitionSystem.empty name |>.addStates s.states).addActions s.actions).addProps
        s.propositions) = .ok (s.parts.started name) := (hclosed.started name).1
  have elink : s.transitions.foldlM
      (fun m t => TransitionSystem.addTransition m ⟨t.source, t.action, t.target⟩)
      (s.parts.started name) = .ok (s.parts.linked name) :=
    List.foldlM_map.symm.trans (hclosed.linked name).1
  have elabel := foldlM_labels.trans (hclosed.labeled name).1
  have hdeclares := System.declares_of_parts (hclosed.labeled name).2.consistent
    TransitionSystem.Parts.declarations_system
  refine ⟨s.parts.system name, ?_, hdeclares, fun x => ?_, fun t => ?_, fun x p => ?_⟩
  · simp only [System.assemble, estart, elink, bind, Except.bind]
    exact elabel
  · exact TransitionSystem.Parts.mem_initial_system
  · exact TransitionSystem.Parts.mem_transitions_system.trans System.mem_steps
  · rw [hclosed.mem_label_system]
    exact System.mem_labelPairs

end Assembly

/-! ## 3. Automata -/

/-- An edge with its guard. -/
def Edge.arc (e : Edge) : Lasso.Edge String String := ⟨e.source, e.guard, e.target⟩

/-- The automaton that is described. -/
def Automaton.drawn (a : Automaton) : Lasso.Automaton String String :=
  ⟨.ofList a.states, .ofList a.initial, .ofList a.accepting, (a.edges.map Edge.arc).toArray⟩

/-- **An automaton that speaks of its own states only can be assembled**, and is then as described. -/
theorem Automaton.Closed.assemble {a : Automaton} (h : a.Closed) :
    a.assemble = .ok a.drawn ∧ a.drawn.Built := by
  have hclosed : Lasso.Automaton.Closed a.states a.initial a.accepting (a.edges.map Edge.arc) := by
    refine ⟨h.initial, h.accepting, fun e he => ?_⟩
    obtain ⟨e', he', rfl⟩ := List.mem_map.mp he
    exact h.edges e' he'
  obtain ⟨e, hbuilt⟩ := hclosed.enter_eq_ok
  simp only [Lasso.Automaton.enter, List.foldlM_map] at e
  exact ⟨e, hbuilt⟩

/-! ## 4. Programs -/

/-- A program that speaks of its own locations only. -/
structure Program.Closed (p : Program) : Prop where
  initial : ∀ l ∈ p.initial, l ∈ p.locations
  steps : ∀ t ∈ p.steps, t.source ∈ p.locations ∧ t.target ∈ p.locations

/-- A step between locations. -/
def Step.drawn (t : Step) : ProgramStep String := ⟨t.source, t.condition, t.action, t.target⟩

/-- The program that is described. -/
def Program.drawn (p : Program) : ProgramGraph String where
  name := p.name
  locations := .ofList p.locations
  initial := .ofList p.initial
  steps := .ofList (p.steps.map Step.drawn)
  initializations := .ofList p.initializations

theorem Program.Closed.consistent {p : Program} (h : p.Closed) : p.drawn.Consistent where
  locations := Ordered.valid_ofList _
  initial := Ordered.valid_ofList _
  steps := Ordered.valid_ofList _
  initializations := Ordered.valid_ofList _
  starts l hl := Ordered.mem_ofList.mpr (h.initial l (Ordered.mem_ofList.mp hl))
  ends t ht := by
    obtain ⟨u, hu, rfl⟩ := List.mem_map.mp (Ordered.mem_ofList.mp ht)
    exact ⟨Ordered.mem_ofList.mpr (h.steps u hu).1, Ordered.mem_ofList.mpr (h.steps u hu).2⟩

/-- **A program that speaks of its own locations only can be assembled**, and is then as described. -/
theorem Program.Closed.assemble {p : Program} (h : p.Closed) : p.assemble = .ok p.drawn := by
  have hc := h.consistent
  have hstart : p.initial.foldlM (fun g l => ProgramGraph.setInitial g l true)
      { ProgramGraph.empty p.name with locations := .ofList p.locations } =
      .ok { ProgramGraph.empty p.name with
        locations := .ofList p.locations, initial := .ofList p.initial } := by
    have hlocated : ({ ProgramGraph.empty p.name with locations := .ofList p.locations } :
        ProgramGraph String).Consistent :=
      { hc.withoutSteps.withoutInitial with initializations := Ordered.valid_empty }
    exact hlocated.foldlM_setInitial fun l hl => hc.starts l (Ordered.mem_ofList.mpr hl)
  have hsteps := hc.withoutSteps.foldlM_addStep fun t (ht : t ∈ p.steps.map Step.drawn) =>
    hc.ends t (Ordered.mem_ofList.mpr ht)
  rw [List.foldlM_map] at hsteps
  simp only [Program.assemble, ProgramGraph.addLocations, ProgramGraph.foldl_addLocation,
    ProgramGraph.foldl_addInitialization]
  exact bind_eq_ok.mpr ⟨_, hstart, hsteps⟩

theorem Program.closed_of_problems {p : Program} (h : p.problems = []) : p.Closed := by
  rw [Program.problems, List.append_eq_nil_iff, List.append_eq_nil_iff, List.map_eq_nil_iff,
    List.filter_eq_nil_iff, List.flatMap_eq_nil_iff] at h
  obtain ⟨⟨-, hinitial⟩, hsteps⟩ := h
  refine ⟨by simpa using hinitial, fun t ht => ?_⟩
  simpa using problemIf_eq_nil.mp (hsteps t ht)

/-- **The programs of a document that is not refused can be built.** -/
theorem buildPrograms_of_validate {d : Document} (h : d.validate = .ok ()) :
    d.buildPrograms = .ok (d.programs.map Program.drawn) := by
  have hp := validate_eq_ok.mp h
  simp only [problems, List.append_eq_nil_iff, List.flatMap_eq_nil_iff] at hp
  have hbuild : ∀ p ∈ d.programs, p.build = .ok p.drawn := fun p hmem =>
    mapError_eq_ok.mpr (Program.closed_of_problems (hp.1.1.2 p hmem)).assemble
  rw [buildPrograms]
  generalize d.programs = ps at hbuild
  induction ps with
  | nil => rfl
  | cons p ps ih =>
    rw [List.mapM_cons, hbuild p List.mem_cons_self, ih fun q hq => hbuild q (List.mem_cons_of_mem _ hq)]
    rfl

end Lasso.Document
