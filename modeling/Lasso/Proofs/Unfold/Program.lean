import Lasso.Proofs.Unfold.Explored
/-!
# Unfolding is the operational semantics

* `mem_label_labelStates` -- what the labels say of a state; they leave everything else as it is;
* `unfolded_of_unfold` -- a finished search has found all states and transitions of the program;
* `unfold_operational` -- **what is unfolded is the semantics**, and a failure has its cause in it.
-/

namespace Lasso.ProgramGraph

variable {L : Type} [DecidableEq L] [Hashable L]

/-! ## 1. Labels -/

section Labels

variable {m : TransitionSystem (State L) String String} {s : State L}

/-- Declares a proposition and labels a state with it. -/
def labelWith (s : State L) (m : TransitionSystem (State L) String String) (p : String) :
    TransitionSystem (State L) String String :=
  (m.addProp p).insertLabel s p

theorem consistent_labelWith (h : m.Consistent) (p : String) : (labelWith s m p).Consistent :=
  (h.addProp p).insertLabel s (h.props.mem_insert.mpr (Or.inr rfl))

theorem mem_label_labelWith (h : m.Consistent) (hs : s ∈ m.states) {p q : String} {t : State L} :
    q ∈ (labelWith s m p).label t ↔ q ∈ m.label t ∨ t = s ∧ q = p := by
  have hlabel := (h.addProp p).label_insertLabel hs p t
  have hprop : (m.addProp p).label t = m.label t := rfl
  rw [labelWith, hlabel, hprop]
  by_cases hst : s = t
  · rw [if_pos hst]
    refine ((h.labeled t).valid.mem_insert).trans ?_
    simp [hst]
  · rw [if_neg hst]
    simp [Ne.symm hst]

/-- A list of propositions labels a state with them and no other state with anything. -/
theorem mem_label_foldl_labelWith (ps : List String) (h : m.Consistent) (hs : s ∈ m.states) :
    (ps.foldl (labelWith s) m).Consistent ∧ ∀ q t,
      q ∈ (ps.foldl (labelWith s) m).label t ↔ q ∈ m.label t ∨ t = s ∧ q ∈ ps := by
  induction ps generalizing m with
  | nil => exact ⟨h, fun q t => by simp⟩
  | cons p ps ih =>
    obtain ⟨hc, hlabel⟩ := ih (consistent_labelWith h p) hs
    refine ⟨hc, fun q t => (hlabel q t).trans ?_⟩
    rw [mem_label_labelWith h hs, List.mem_cons, or_assoc, ← and_or_left]

variable [Display L]

/-- Labels one state with its propositions. -/
def labelState (m : TransitionSystem (State L) String String) (s : State L) :
    TransitionSystem (State L) String String :=
  (stateProps s).foldl (labelWith s) m

theorem labelStates_eq (m : TransitionSystem (State L) String String) :
    labelStates m = m.states.toList.foldl labelState m := rfl

/-- Labels leave everything else as it is. -/
theorem parts_labelState (m : TransitionSystem (State L) String String) (s : State L) :
    ((labelState m s).states, (labelState m s).initial, (labelState m s).transitions) =
      (m.states, m.initial, m.transitions) :=
  TransitionSystem.foldl_fixed (f := labelWith s) (g := fun m : TransitionSystem (State L) String String =>
    (m.states, m.initial, m.transitions)) (fun _ _ => rfl) (stateProps s) m

theorem mem_label_foldl_labelState {ss : List (State L)} (h : m.Consistent)
    (hss : ∀ s ∈ ss, s ∈ m.states) :
    (ss.foldl labelState m).Consistent ∧ ∀ q t,
      q ∈ (ss.foldl labelState m).label t ↔ q ∈ m.label t ∨ t ∈ ss ∧ q ∈ stateProps t := by
  induction ss generalizing m with
  | nil => exact ⟨h, fun q t => by simp⟩
  | cons s ss ih =>
    obtain ⟨hc₁, hlabel₁⟩ := mem_label_foldl_labelWith (stateProps s) h (hss s List.mem_cons_self)
    have hstates : (labelState m s).states = m.states := congrArg (·.1) (parts_labelState m s)
    obtain ⟨hc, hlabel⟩ := ih (m := labelState m s) hc₁ fun t ht => by
      rw [hstates]
      exact hss t (List.mem_cons_of_mem _ ht)
    refine ⟨hc, fun q t => (hlabel q t).trans ?_⟩
    rw [labelState, hlabel₁ q t, List.mem_cons, or_assoc, or_and_right]
    refine or_congr_right (or_congr_left ?_)
    constructor
    · rintro ⟨rfl, hq⟩
      exact ⟨rfl, hq⟩
    · rintro ⟨rfl, hq⟩
      exact ⟨rfl, hq⟩

/-- **Labelling the states of a system without labels.** -/
theorem mem_label_labelStates (h : m.Consistent) (hno : ∀ s p, ¬ p ∈ m.label s) :
    (labelStates m).Consistent ∧ ∀ q t,
      q ∈ (labelStates m).label t ↔ t ∈ m.states ∧ q ∈ stateProps t := by
  rw [labelStates_eq]
  obtain ⟨hc, hlabel⟩ := mem_label_foldl_labelState h fun s hs => hs
  refine ⟨hc, fun q t => (hlabel q t).trans ?_⟩
  simp [hno t q, Ordered.mem_toList]

theorem parts_labelStates (m : TransitionSystem (State L) String String) :
    ((labelStates m).states, (labelStates m).initial, (labelStates m).transitions) =
      (m.states, m.initial, m.transitions) := by
  rw [labelStates_eq]
  exact TransitionSystem.foldl_fixed (f := labelState) (g := fun m : TransitionSystem (State L) String String =>
    (m.states, m.initial, m.transitions)) parts_labelState m.states.toList m

end Labels

/-! ## 2. Unfolding -/

section Unfold

variable [Display L] {g : ProgramGraph L} {o : UnfoldOptions}

theorem yields_initialEnvs (o : UnfoldOptions) (g : ProgramGraph L) :
    Yields (fun es => ∀ e, e ∈ es ↔ g.StartsWith o.evaluators e) (g.Explains o)
      (g.initialEnvs o.evaluators) := by
  unfold initialEnvs
  have hmap : Yields (List.Forall₂ (fun stmts e => o.evaluators.initial stmts = .ok e)
      g.initializations.toList) (g.Explains o)
      (g.initializations.toList.mapM fun stmts =>
        (o.evaluators.initial stmts).mapError (.initialization g.name)) := by
    refine Yields.mapM fun stmts hstmts => ?_
    cases h : o.evaluators.initial stmts with
    | ok e => exact rfl
    | error c => exact ⟨⟨rfl, stmts, hstmts, h⟩, trivial⟩
  refine hmap.bind fun es hes e => ?_
  unfold StartsWith
  have hmem := mem_of_forall₂ hes (b := e)
  have hempty : es = [] ↔ g.initializations.toList = [] := by
    rw [← List.length_eq_zero_iff, ← List.length_eq_zero_iff, hes.length_eq]
  by_cases hnil : es = []
  · have hinit := hempty.mp hnil
    simp [hnil, hinit, ← Ordered.mem_toList]
  · have hinit : g.initializations.toList ≠ [] := fun h => hnil (hempty.mpr h)
    have hisEmpty : es.isEmpty = false := by simpa using hnil
    simp only [hisEmpty, Bool.false_eq_true, if_false, Ordered.mem_toList_ofList, hmem, hinit,
      false_and, false_or]
    exact Iff.rfl

omit [Display L] in
/-- Before any state is entered, all starts are ahead. -/
theorem explored_actions {todo : List (State L)} {ev : Evaluators}
    (htodo : ∀ s, s ∈ todo ↔ g.Starts ev s) :
    Explored g ev todo nothingDue
      ⟨(TransitionSystem.empty g.name).addActions (g.steps.toList.map (·.action)), []⟩ := by
  rw [TransitionSystem.addActions_eq]
  exact {
    consistent := by
      rw [← TransitionSystem.addActions_eq]
      exact (TransitionSystem.consistent_empty g.name).addActions _
    actions := fun t ht => Ordered.mem_ofList.mpr (List.mem_map.mpr ⟨t, ht, rfl⟩)
    unlabeled := fun s p => by
      have hlabel := (TransitionSystem.consistent_empty (S := State L) (A := String) (P := String)
        g.name).label_of_not_mem (Ordered.not_mem_empty s)
      exact hlabel ▸ Ordered.not_mem_empty p
    initial := fun s => by
      rw [← htodo s]
      exact or_iff_right (Ordered.not_mem_empty s)
    reachable := fun s hs => absurd hs (Ordered.not_mem_empty s)
    moves := fun t ht => absurd ht (Ordered.not_mem_empty t)
    waiting := fun s hs => absurd hs List.not_mem_nil
    handled := fun s hs => absurd hs (Ordered.not_mem_empty s) }

/-- **What unfolding leaves**: a search that came to its end, with labels. -/
theorem yields_unfold (o : UnfoldOptions) (g : ProgramGraph L) :
    Yields (fun m => ∃ m₀, Explored g o.evaluators [] nothingDue ⟨m₀, []⟩ ∧ m = labelStates m₀)
      (g.Explains o) (g.unfold o) := by
  unfold unfold
  refine (yields_initialEnvs o g).bind fun es hes => ?_
  have htodo : ∀ s, s ∈ (es.flatMap fun e => g.initial.toList.map fun l => (⟨l, e⟩ : State L)) ↔
      g.Starts o.evaluators s := fun s => by
    simp only [List.mem_flatMap, List.mem_map, hes]
    constructor
    · rintro ⟨e, he, l, hl, rfl⟩
      exact ⟨hl, he⟩
    · rintro ⟨hl, he⟩
      exact ⟨s.second, he, s.first, hl, rfl⟩
  have hstarts := Yields.foldlM (J := g.Explains o)
    (I := fun todo u => Explored g o.evaluators todo nothingDue u)
    (f := fun u s => do
      let u ← discover o g.name u s
      return { u with system := u.system.insertInitial s })
    (fun s rest u hu => (yields_discover hu.consistent).bind fun u' hu' => hu.start hu')
    (explored_actions htodo)
  refine hstarts.bind fun u hu => ?_
  have hsearch : Yields (fun m => Explored g o.evaluators [] nothingDue ⟨m, []⟩)
      (g.Explains o) ((followAll? o g u).getD (.error (.endless g.name))) := by
    cases hr : followAll? o g u with
    | none => exact ⟨trivial, u, hu, hr⟩
    | some r => exact (followAll?_eq_some_iff.mp hr).yields hu
  exact hsearch.bind fun m hm => ⟨m, hm, rfl⟩

/-! ## 3. What a finished search shows -/

section Finished

variable {ev : Evaluators} {m : TransitionSystem (State L) String String}

omit [Display L] in
theorem Explored.handled_of_mem (h : Explored g ev [] nothingDue ⟨m, []⟩) {s : State L}
    (hs : s ∈ m.states) {t : ProgramStep L} (ht : t ∈ g.steps) (hsource : t.source = s.first) :
    Handled ev m s t := by
  have hall := (h.handled s hs).resolve_left List.not_mem_nil
  exact (hall t (mem_outgoing.mpr ⟨ht, hsource⟩)).resolve_left id

omit [Display L] in
/-- The transitions are the steps of the program from the states entered. -/
theorem Explored.mem_transitions_iff (h : Explored g ev [] nothingDue ⟨m, []⟩) {s s' : State L}
    {a : String} : ⟨s, a, s'⟩ ∈ m.transitions ↔ s ∈ m.states ∧ g.Moves ev s a s' := by
  constructor
  · exact fun ht => ⟨(h.consistent.ends _ ht).1, h.moves _ ht⟩
  · rintro ⟨hs, cond, hstep, hholds, heffect⟩
    obtain ⟨r, hr, hmem⟩ := h.handled_of_mem hs hstep rfl
    exact hmem s' (hr.eq_some ⟨rfl, hholds, heffect⟩)

omit [Display L] in
/-- **The states of a finished search** are those that the program comes to. -/
theorem Explored.mem_states_iff (h : Explored g ev [] nothingDue ⟨m, []⟩) {s : State L} :
    s ∈ m.states ↔ g.Reached ev s := by
  constructor
  · exact fun hs => h.reached hs
  · intro hs
    induction hs with
    | start s hs =>
      exact h.consistent.starts s (((h.initial s).mpr hs).resolve_right List.not_mem_nil)
    | step s a s' _ hmove ih => exact (h.consistent.ends _ (h.mem_transitions_iff.mpr ⟨ih, hmove⟩)).2.1

omit [Display L] in
theorem Explored.not_fails (h : Explored g ev [] nothingDue ⟨m, []⟩) {s : State L}
    (hs : s ∈ m.states) (c : EvalError) : ¬ g.Fails ev s c := by
  rintro ⟨t, ht, hsource, hfails⟩
  obtain ⟨r, hr, -⟩ := h.handled_of_mem hs ht hsource
  exact hr.not_fails c hfails

/-- The labels a finished search is given leave its states, starts and transitions. -/
structure Unfolded (g : ProgramGraph L) (ev : Evaluators)
    (m : TransitionSystem (State L) String String) : Prop where
  consistent : m.Consistent
  states : ∀ s, s ∈ m.states ↔ g.Reached ev s
  initial : ∀ s, s ∈ m.initial ↔ g.Starts ev s
  transitions : ∀ s a s', ⟨s, a, s'⟩ ∈ m.transitions ↔ s ∈ m.states ∧ g.Moves ev s a s'
  reachable : ∀ s, s ∈ m.states → m.Reachable s
  label : ∀ s p, p ∈ m.label s ↔ s ∈ m.states ∧ p ∈ stateProps s
  sound : ∀ s, s ∈ m.states → ∀ c, ¬ g.Fails ev s c

theorem Explored.unfolded (h : Explored g ev [] nothingDue ⟨m, []⟩) :
    Unfolded g ev (labelStates m) := by
  obtain ⟨hc, hlabel⟩ := mem_label_labelStates h.consistent h.unlabeled
  have hparts := parts_labelStates m
  have hstates : (labelStates m).states = m.states := congrArg (·.1) hparts
  have hinitial : (labelStates m).initial = m.initial := congrArg (·.2.1) hparts
  have htransitions : (labelStates m).transitions = m.transitions := congrArg (·.2.2) hparts
  exact {
    consistent := hc
    states := fun s => by
      rw [hstates]
      exact h.mem_states_iff
    initial := fun s => by
      rw [hinitial]
      exact (or_iff_left List.not_mem_nil).symm.trans (h.initial s)
    transitions := fun s a s' => by
      rw [htransitions, hstates]
      exact h.mem_transitions_iff
    reachable := fun s hs => by
      refine (h.reachable s (hstates ▸ hs)).mono (fun x hx => ?_) fun t ht => ?_
      · rw [hinitial]
        exact hx
      · rw [htransitions]
        exact ht
    label := fun s p => by
      rw [hstates]
      exact hlabel p s
    sound := fun s hs => h.not_fails (hstates ▸ hs) }

theorem unfolded_of_unfold {m : TransitionSystem (State L) String String} (e : g.unfold o = .ok m) :
    Unfolded g o.evaluators m := by
  obtain ⟨m₀, h, rfl⟩ := (yields_unfold o g).of_ok e
  exact h.unfolded

end Finished

/-- **Unfolding is the operational semantics.** Its states are those that the program comes to, its
    initial states those in which the program starts, its transitions the steps of the program; all of
    it can be reached, each state is labeled with its location and its environment, and nothing fails
    in it. Where unfolding fails for an evaluator, the program does. -/
theorem unfold_operational (o : UnfoldOptions) (g : ProgramGraph L) :
    (∀ m, g.unfold o = .ok m →
      (∀ s, s ∈ m.states ↔ g.Reached o.evaluators s) ∧
      (∀ s, s ∈ m.initial ↔ g.Starts o.evaluators s) ∧
      (∀ s a s', ⟨s, a, s'⟩ ∈ m.transitions ↔ s ∈ m.states ∧ g.Moves o.evaluators s a s') ∧
      (∀ s, s ∈ m.states → m.Reachable s) ∧ m.prune = (m, 0) ∧
      (∀ s, s ∈ m.states → ∀ p,
        p ∈ m.label s ↔ p ∈ Display.parts s.first ∨ p ∈ s.second.entryTexts) ∧
      (∀ s, s ∈ m.states → ∀ c, ¬ g.Fails o.evaluators s c)) ∧
    ∀ x, g.unfold o = .error x → g.Justifies o.evaluators x := by
  refine ⟨fun m e => ?_, fun x e => ((yields_unfold o g).of_error e).1⟩
  have h := unfolded_of_unfold e
  refine ⟨h.states, h.initial, h.transitions, h.reachable,
    h.consistent.prune_eq_self h.reachable, fun s hs p => ?_, h.sound⟩
  rw [h.label s p, stateProps, List.mem_append]
  exact and_iff_right hs

end Unfold

end Lasso.ProgramGraph
