import Lasso.Proofs.System.Contents
/-!
# Additions that are checked

A change that speaks of declared things only is not refused. So a list of such changes is the list of
the same changes without checks:

* `Consistent.foldlM_setInitial`, `Consistent.foldlM_addTransition`, `Consistent.foldlM_addLabel`;
* `Consistent.mem_label_insertLabels` -- what labels there are behind a list of pairs;
* `Parts` -- a system as it is written down. **If it is `Closed`, it is entered without refusal**
  (`Closed.started`, `Closed.linked`, `Closed.stepsFirst`, `Closed.labeled`), and has what is written
  (`mem_states_system`, `mem_initial_system` and the others, `Closed.mem_label_system`);
* `Consistent.relabel_eq` -- **a relabeling over its own propositions succeeds**, changes nothing but
  the labels and gives each state the label that was asked for.
-/

namespace Lasso.TransitionSystem

variable {S A P : Type} [DecidableEq S] [Hashable S] [DecidableEq A] [Hashable A]
  [DecidableEq P] [Hashable P] {m : TransitionSystem S A P}

/-! ## 1. Additions -/

section Additions

variable [Display S] [Display A] [Display P]

omit [Display A] [Display P] in
theorem Consistent.foldlM_setInitial (h : m.Consistent) {ss : List S}
    (hs : ∀ s ∈ ss, s ∈ m.states) :
    ss.foldlM (fun m s => TransitionSystem.setInitial m s true) m =
      .ok (ss.foldl TransitionSystem.insertInitial m) := by
  induction ss generalizing m with
  | nil => rfl
  | cons s ss ih =>
    have hs₀ : s ∈ m.states := hs s List.mem_cons_self
    have e : m.setInitial s true = .ok (m.insertInitial s) := by
      rw [TransitionSystem.setInitial, h.states.contains_iff.mpr hs₀]
      rfl
    rw [List.foldlM_cons, e]
    exact ih (h.insertInitial hs₀) fun t ht => hs t (List.mem_cons_of_mem _ ht)

omit [Display P] in
theorem Consistent.foldlM_addTransition (h : m.Consistent) {ts : List (Transition S A)}
    (ht : ∀ t ∈ ts, t.source ∈ m.states ∧ t.target ∈ m.states ∧ t.action ∈ m.actions) :
    ts.foldlM TransitionSystem.addTransition m =
      .ok (ts.foldl TransitionSystem.insertTransition m) := by
  induction ts generalizing m with
  | nil => rfl
  | cons t ts ih =>
    have ht₀ := ht t List.mem_cons_self
    have e : m.addTransition t = .ok (m.insertTransition t) := by
      rw [TransitionSystem.addTransition, if_pos ((admits_iff h).mpr ht₀)]
    rw [List.foldlM_cons, e]
    refine ih (h.insertTransition ht₀) fun u hu => ?_
    rw [states_insertTransition, actions_insertTransition]
    exact ht u (List.mem_cons_of_mem _ hu)

/-- Enters labels that are given as pairs of a state and a proposition. -/
def insertLabels (m : TransitionSystem S A P) (xs : List (S × P)) : TransitionSystem S A P :=
  xs.foldl (fun m x => m.insertLabel x.1 x.2) m

omit [Display A] in
theorem Consistent.foldlM_addLabel (h : m.Consistent) {xs : List (S × P)}
    (hx : ∀ x ∈ xs, x.1 ∈ m.states ∧ x.2 ∈ m.props) :
    xs.foldlM (fun m x => TransitionSystem.addLabel m x.1 x.2) m = .ok (m.insertLabels xs) := by
  induction xs generalizing m with
  | nil => rfl
  | cons x xs ih =>
    obtain ⟨hs, hp⟩ := hx x List.mem_cons_self
    rw [List.foldlM_cons, h.addLabel_eq_ok.mpr ⟨hs, hp, rfl⟩]
    exact ih (h.insertLabel x.1 hp) fun y hy => hx y (List.mem_cons_of_mem _ hy)

end Additions

/-! ## 2. Labels -/

theorem insertLabels_fixed {β : Type} {g : TransitionSystem S A P → β}
    (hg : ∀ m s p, g (TransitionSystem.insertLabel m s p) = g m) (m : TransitionSystem S A P)
    (xs : List (S × P)) : g (m.insertLabels xs) = g m :=
  foldl_fixed (f := fun m (x : S × P) => m.insertLabel x.1 x.2) (fun m x => hg m x.1 x.2) xs m

@[simp] theorem initial_insertLabels (m : TransitionSystem S A P) (xs : List (S × P)) :
    (m.insertLabels xs).initial = m.initial := insertLabels_fixed initial_insertLabel m xs

@[simp] theorem states_insertLabels (m : TransitionSystem S A P) (xs : List (S × P)) :
    (m.insertLabels xs).states = m.states := insertLabels_fixed states_insertLabel m xs

@[simp] theorem transitions_insertLabels (m : TransitionSystem S A P) (xs : List (S × P)) :
    (m.insertLabels xs).transitions = m.transitions := insertLabels_fixed transitions_insertLabel m xs

theorem Consistent.insertLabels (h : m.Consistent) {xs : List (S × P)}
    (hx : ∀ x ∈ xs, x.1 ∈ m.states ∧ x.2 ∈ m.props) : (m.insertLabels xs).Consistent := by
  induction xs generalizing m with
  | nil => exact h
  | cons x xs ih =>
    exact ih (h.insertLabel x.1 (hx x List.mem_cons_self).2) fun y hy =>
      hx y (List.mem_cons_of_mem _ hy)

theorem Built.insertLabels [Display S] [Display A] [Display P] (h : m.Built) {xs : List (S × P)}
    (hx : ∀ x ∈ xs, x.1 ∈ m.states ∧ x.2 ∈ m.props) : (m.insertLabels xs).Built := by
  induction xs generalizing m with
  | nil => exact h
  | cons x xs ih =>
    obtain ⟨hs, hp⟩ := hx x List.mem_cons_self
    have hadd : m.addLabel x.1 x.2 = .ok (m.insertLabel x.1 x.2) :=
      h.consistent.addLabel_eq_ok.mpr ⟨hs, hp, rfl⟩
    exact ih (.addLabel m _ x.1 x.2 h hadd) fun y hy => hx y (List.mem_cons_of_mem _ hy)

theorem Consistent.mem_label_insertLabels (h : m.Consistent) {xs : List (S × P)}
    (hx : ∀ x ∈ xs, x.1 ∈ m.states ∧ x.2 ∈ m.props) {s : S} {p : P} :
    p ∈ (m.insertLabels xs).label s ↔ p ∈ m.label s ∨ (s, p) ∈ xs := by
  induction xs generalizing m with
  | nil => exact ⟨Or.inl, fun h' => h'.resolve_right List.not_mem_nil⟩
  | cons x xs ih =>
    obtain ⟨hs, hp⟩ := hx x List.mem_cons_self
    have hfirst : p ∈ (m.insertLabel x.1 x.2).label s ↔ p ∈ m.label s ∨ (s, p) = x := by
      rw [h.label_insertLabel hs]
      split
      · rename_i hxs
        have hpair : (s, p) = x ↔ p = x.2 :=
          ⟨fun e => e ▸ rfl, fun e => Prod.ext hxs.symm e⟩
        rw [(h.labeled s).valid.mem_insert, hpair, or_comm]
      · rename_i hxs
        exact ⟨Or.inl, fun h' => h'.resolve_right fun e => hxs (e ▸ rfl)⟩
    have hrest := ih (h.insertLabel x.1 hp) fun y hy => hx y (List.mem_cons_of_mem _ hy)
    rw [List.mem_cons, ← or_assoc, ← hfirst]
    exact hrest

/-! ## 3. Systems that are written down -/

/-- The things that are declared in a system. -/
def declarations (m : TransitionSystem S A P) : Ordered S × Ordered A × Ordered P :=
  (m.states, m.actions, m.props)

/-- The parts of a system as they are written down. -/
structure Parts (S A P : Type) where
  states : List S
  starts : List S
  actions : List A
  props : List P := []
  steps : List (Transition S A)
  labels : List (S × P) := []

namespace Parts

/-- Everything is declared. -/
structure Closed (p : Parts S A P) : Prop where
  starts : ∀ s ∈ p.starts, s ∈ p.states
  steps : ∀ t ∈ p.steps, t.source ∈ p.states ∧ t.target ∈ p.states ∧ t.action ∈ p.actions
  labels : ∀ x ∈ p.labels, x.1 ∈ p.states ∧ x.2 ∈ p.props

/-- The system that has the declarations and nothing else. -/
def frame (p : Parts S A P) (name : String) : TransitionSystem S A P :=
  (((empty name).addStates p.states).addActions p.actions).addProps p.props

/-- The system with its initial states. -/
def started (p : Parts S A P) (name : String) : TransitionSystem S A P :=
  p.starts.foldl insertInitial (p.frame name)

/-- The system with everything but its labels. -/
def linked (p : Parts S A P) (name : String) : TransitionSystem S A P :=
  p.steps.foldl insertTransition (p.started name)

/-- The system that has these parts. -/
def system (p : Parts S A P) (name : String) : TransitionSystem S A P :=
  (p.linked name).insertLabels p.labels

variable {p : Parts S A P} {name : String}

/-- The declarations that are written. -/
def declared (p : Parts S A P) : Ordered S × Ordered A × Ordered P :=
  (.ofList p.states, .ofList p.actions, .ofList p.props)

theorem declarations_frame : (p.frame name).declarations = p.declared := by
  rw [frame, addProps_eq, addActions_eq, declarations, states_addStates, actions_addStates,
    props_addStates]
  rfl

theorem declarations_started : (p.started name).declarations = p.declared :=
  (foldl_fixed (f := insertInitial) (g := declarations) (fun _ _ => rfl) p.starts _).trans
    declarations_frame

theorem declarations_linked : (p.linked name).declarations = p.declared := by
  rw [linked, foldl_fixed (g := declarations) (fun m t => by simp [declarations]), declarations_started]

theorem declarations_system : (p.system name).declarations = p.declared := by
  rw [system, insertLabels_fixed (g := declarations) (fun _ _ _ => rfl), declarations_linked]

@[simp]
theorem mem_initial_system {s : S} : s ∈ (p.system name).initial ↔ s ∈ p.starts := by
  rw [system, initial_insertLabels, linked,
    foldl_fixed (g := TransitionSystem.initial) initial_insertTransition, started,
    foldl_inserted (g := TransitionSystem.initial) initial_insertInitial, frame, addProps_eq,
    addActions_eq, initial_addStates]
  exact Ordered.mem_ofList

@[simp]
theorem mem_transitions_system {t : Transition S A} :
    t ∈ (p.system name).transitions ↔ t ∈ p.steps := by
  rw [system, transitions_insertLabels, linked,
    foldl_inserted (g := TransitionSystem.transitions) transitions_insertTransition, started,
    foldl_fixed (g := TransitionSystem.transitions) transitions_insertInitial, frame, addProps_eq,
    addActions_eq, transitions_addStates]
  exact Ordered.mem_ofList

theorem label_linked (s : S) : (p.linked name).label s = ∅ := by
  rw [linked, foldl_fixed (g := (TransitionSystem.label · s)) (fun m t => m.label_insertTransition t s),
    started, foldl_fixed (g := (TransitionSystem.label · s)) (fun m t => m.label_insertInitial t s), frame,
    label_addProps, label_addActions, (consistent_empty name).label_addStates]
  exact (consistent_empty name).label_of_not_mem (Ordered.not_mem_empty s)

/-- Membership in the declarations of a system that has these. -/
theorem mem_of_declarations (h : m.declarations = p.declared) :
    (∀ s, s ∈ m.states ↔ s ∈ p.states) ∧ (∀ a, a ∈ m.actions ↔ a ∈ p.actions) ∧
      ∀ q, q ∈ m.props ↔ q ∈ p.props := by
  rw [show m.states = .ofList p.states from congrArg (·.1) h,
    show m.actions = .ofList p.actions from congrArg (·.2.1) h,
    show m.props = .ofList p.props from congrArg (·.2.2) h]
  exact ⟨fun _ => Ordered.mem_ofList, fun _ => Ordered.mem_ofList, fun _ => Ordered.mem_ofList⟩

@[simp]
theorem mem_states_system {s : S} : s ∈ (p.system name).states ↔ s ∈ p.states :=
  (mem_of_declarations declarations_system).1 s

@[simp]
theorem mem_actions_system {a : A} : a ∈ (p.system name).actions ↔ a ∈ p.actions :=
  (mem_of_declarations declarations_system).2.1 a

@[simp]
theorem mem_props_system {q : P} : q ∈ (p.system name).props ↔ q ∈ p.props :=
  (mem_of_declarations declarations_system).2.2 q

section Declared

variable (h : p.Closed) (e : m.declarations = p.declared)
include h e

theorem Closed.starts_declared : ∀ s ∈ p.starts, s ∈ m.states :=
  fun s hs => ((mem_of_declarations e).1 s).mpr (h.starts s hs)

theorem Closed.steps_declared :
    ∀ t ∈ p.steps, t.source ∈ m.states ∧ t.target ∈ m.states ∧ t.action ∈ m.actions := by
  obtain ⟨hstates, hactions, -⟩ := mem_of_declarations e
  intro t ht
  rw [hstates, hstates, hactions]
  exact h.steps t ht

theorem Closed.labels_declared : ∀ x ∈ p.labels, x.1 ∈ m.states ∧ x.2 ∈ m.props := by
  obtain ⟨hstates, -, hprops⟩ := mem_of_declarations e
  intro x hx
  rw [hstates, hprops]
  exact h.labels x hx

end Declared

theorem consistent_frame (p : Parts S A P) (name : String) : (p.frame name).Consistent :=
  (((consistent_empty name).addStates _).addActions _).addProps _

theorem Closed.consistent_linked (h : p.Closed) (name : String) : (p.linked name).Consistent :=
  ((consistent_frame p name).foldl_insertInitial _ (h.starts_declared declarations_frame))
    |>.foldl_insertTransition _ (h.steps_declared declarations_started)

theorem Closed.consistent_system (h : p.Closed) (name : String) : (p.system name).Consistent :=
  (h.consistent_linked name).insertLabels (h.labels_declared declarations_linked)

theorem Closed.mem_label_system (h : p.Closed) {s : S} {q : P} :
    q ∈ (p.system name).label s ↔ (s, q) ∈ p.labels := by
  rw [system, (h.consistent_linked name).mem_label_insertLabels (h.labels_declared declarations_linked),
    label_linked]
  exact or_iff_right (Ordered.not_mem_empty q)

/-- Whether the initial states or the transitions are entered first makes no difference. -/
theorem foldl_insertInitial_steps (p : Parts S A P) (name : String) :
    p.starts.foldl insertInitial (p.steps.foldl insertTransition (p.frame name)) = p.linked name := by
  have hcomm : ∀ (m : TransitionSystem S A P) t, p.starts.foldl insertInitial (m.insertTransition t) =
      (p.starts.foldl insertInitial m).insertTransition t := fun m t =>
    List.foldl_hom (insertTransition · t) fun m s => by
      by_cases ht : m.transitions.contains t = true <;> simp [insertTransition, insertInitial, ht]
  exact (List.foldl_hom (p.starts.foldl insertInitial ·) fun m t => (hcomm m t).symm).symm

section Closed

variable [Display S] [Display A] [Display P]

theorem frame_built (p : Parts S A P) (name : String) : (p.frame name).Built :=
  List.foldlRecOn p.props addProp (List.foldlRecOn p.actions addAction
    (List.foldlRecOn p.states addState (Built.empty name) fun _ hm s _ => .addState _ s hm)
    fun _ hm a _ => .addAction _ a hm) fun _ hm q _ => .addProp _ q hm

theorem Closed.started (h : p.Closed) (name : String) :
    p.starts.foldlM (fun m s => TransitionSystem.setInitial m s true) (p.frame name) =
      .ok (p.started name) ∧ (p.started name).Built :=
  have hstarts := h.starts_declared declarations_frame
  ⟨(p.consistent_frame name).foldlM_setInitial hstarts,
    (p.frame_built name).foldl_insertInitial p.starts hstarts⟩

theorem Closed.linked (h : p.Closed) (name : String) :
    p.steps.foldlM TransitionSystem.addTransition (p.started name) = .ok (p.linked name) ∧
      (p.linked name).Built :=
  have hsteps := h.steps_declared declarations_started
  have hstarted := (h.started name).2
  ⟨hstarted.consistent.foldlM_addTransition hsteps, hstarted.foldl_insertTransition p.steps hsteps⟩

omit [Display P] in
/-- The same with the transitions before the initial states. -/
theorem Closed.stepsFirst (h : p.Closed) (name : String) :
    (p.steps.foldlM TransitionSystem.addTransition (p.frame name) >>= fun m =>
      p.starts.foldlM (fun m s => TransitionSystem.setInitial m s true) m) = .ok (p.linked name) := by
  have hframe := p.consistent_frame name
  have eframe : (p.frame name).declarations = p.declared := declarations_frame
  have hsteps := h.steps_declared eframe
  have hdeclared : (p.steps.foldl insertTransition (p.frame name)).declarations = p.declared :=
    (foldl_fixed (fun m t => by simp [declarations]) _ _).trans eframe
  rw [hframe.foldlM_addTransition hsteps, ← foldl_insertInitial_steps]
  exact (hframe.foldl_insertTransition _ hsteps).foldlM_setInitial (h.starts_declared hdeclared)

/-- **What speaks of declared things only is entered without refusal.** -/
theorem Closed.labeled (h : p.Closed) (name : String) :
    p.labels.foldlM (fun m x => TransitionSystem.addLabel m x.1 x.2) (p.linked name) =
      .ok (p.system name) ∧ (p.system name).Built :=
  have hlabels := h.labels_declared declarations_linked
  ⟨(h.consistent_linked name).foldlM_addLabel hlabels, (h.linked name).2.insertLabels hlabels⟩

end Closed

end Parts

/-! ## 4. Relabeling -/

section Relabeling

variable [Display S] [Display P]

/-- A relabeling enters its labels one by one. -/
theorem relabel_go_of_foldlM {xs : List (S × P)} {m' : TransitionSystem S A P}
    (e : xs.foldlM (fun m x => TransitionSystem.addLabel m x.1 x.2) m = .ok m') :
    relabel.go xs m = (m', none) := by
  induction xs generalizing m with
  | nil =>
    cases e
    rfl
  | cons x xs ih =>
    rw [List.foldlM_cons] at e
    unfold relabel.go
    cases hx : m.addLabel x.1 x.2 with
    | ok m₁ =>
      rw [hx] at e
      exact ih e
    | error c =>
      rw [hx] at e
      cases e

omit [Display S] [Display P] in
theorem label_clearLabels (m : TransitionSystem S A P) (props : List P) (s : S) :
    (m.clearLabels props).label s = ∅ := by
  show ((m.labels.map fun _ _ => (∅ : Ordered P))[s]?).getD ∅ = ∅
  rw [Std.HashMap.getElem?_map]
  cases m.labels[s]? <;> rfl

/-- **A relabeling over its own propositions** succeeds: it changes nothing but the labels, and every
    declared state has the label that was asked for. -/
theorem Consistent.relabel_eq (h : m.Consistent) (props : List P) (label : S → List P)
    (hl : ∀ s p, p ∈ label s → p ∈ props) :
    ∃ m', m.relabel props label = (m', none) ∧ m'.Consistent ∧ m'.initial = m.initial ∧
      m'.transitions = m.transitions ∧
      ∀ s p, p ∈ m'.label s ↔ s ∈ m.states ∧ p ∈ label s := by
  let xs : List (S × P) := m.states.toList.flatMap fun s => (label s).map (s, ·)
  have hxs : ∀ s p, (s, p) ∈ xs ↔ s ∈ m.states ∧ p ∈ label s := by
    intro s p
    simp [xs, Ordered.mem_toList]
  have hclear : (m.clearLabels props).Consistent := h.clearLabels props
  have hdeclared : ∀ x ∈ xs, x.1 ∈ (m.clearLabels props).states ∧
      x.2 ∈ (m.clearLabels props).props := by
    intro x hx
    obtain ⟨hs, hp⟩ := (hxs x.1 x.2).mp hx
    exact ⟨hs, Ordered.mem_ofList.mpr (hl _ _ hp)⟩
  refine ⟨(m.clearLabels props).insertLabels xs,
    relabel_go_of_foldlM (hclear.foldlM_addLabel hdeclared), hclear.insertLabels hdeclared,
    initial_insertLabels _ xs, transitions_insertLabels _ xs, fun s p => ?_⟩
  rw [hclear.mem_label_insertLabels hdeclared, label_clearLabels, hxs]
  exact or_iff_right (Ordered.not_mem_empty p)

end Relabeling

end Lasso.TransitionSystem
