import Lasso.Compose.Systems
import Lasso.Proofs.System.Checked
import Lasso.Proofs.Yields
/-!
# Two systems side by side

What two systems become side by side, part by part. The parts are first said of the composition with
all pairs of states (`besideUnpruned`), which can be written down (`besideParts`): all that it speaks of
is declared (`closed_besideParts`).

* `StepBeside` -- **a step of two systems side by side**: both move by an action of the handshake, or
  one of them moves by another action while the other stays;
* `Composed` -- what a composition is, after all that cannot be reached was dropped, and
  `composed_beside`: the composition is that;
* `checkedBeside` -- the composition by changes that may be refused; none of them is
  (`checkedBeside_eq_ok`).
-/

namespace Lasso.TransitionSystem

variable {S₁ S₂ A P : Type} [DecidableEq S₁] [Hashable S₁] [DecidableEq S₂] [Hashable S₂]
  [DecidableEq A] [Hashable A] [DecidableEq P] [Hashable P]

/-! ## 1. Steps -/

omit [DecidableEq S₁] [Hashable S₁] [DecidableEq S₂] [Hashable S₂] in
theorem mem_pairs {xs : List S₁} {ys : List S₂} {p : Pair S₁ S₂} :
    p ∈ pairs xs ys ↔ p.first ∈ xs ∧ p.second ∈ ys := by
  unfold pairs
  rw [List.mem_flatMap]
  constructor
  · rintro ⟨x, hx, hp⟩
    obtain ⟨y, hy, rfl⟩ := List.mem_map.mp hp
    exact ⟨hx, hy⟩
  · rintro ⟨hx, hy⟩
    exact ⟨p.first, hx, List.mem_map.mpr ⟨p.second, hy, rfl⟩⟩

/-- **A step of two systems side by side.** -/
inductive StepBeside (handshake : A → Bool) (m₁ : TransitionSystem S₁ A P)
    (m₂ : TransitionSystem S₂ A P) : Pair S₁ S₂ → A → Pair S₁ S₂ → Prop where
  | both (s₁ t₁ : S₁) (s₂ t₂ : S₂) (a : A) (ha : handshake a = true)
      (h₁ : ⟨s₁, a, t₁⟩ ∈ m₁.transitions) (h₂ : ⟨s₂, a, t₂⟩ ∈ m₂.transitions) :
      StepBeside handshake m₁ m₂ ⟨s₁, s₂⟩ a ⟨t₁, t₂⟩
  | left (s₁ t₁ : S₁) (s₂ : S₂) (a : A) (ha : handshake a = false)
      (h₁ : ⟨s₁, a, t₁⟩ ∈ m₁.transitions) : StepBeside handshake m₁ m₂ ⟨s₁, s₂⟩ a ⟨t₁, s₂⟩
  | right (s₁ : S₁) (s₂ t₂ : S₂) (a : A) (ha : handshake a = false)
      (h₂ : ⟨s₂, a, t₂⟩ ∈ m₂.transitions) : StepBeside handshake m₁ m₂ ⟨s₁, s₂⟩ a ⟨s₁, t₂⟩

section Transitions

variable {handshake : A → Bool} {m₁ : TransitionSystem S₁ A P} {m₂ : TransitionSystem S₂ A P}
  {u : Transition (Pair S₁ S₂) A}

theorem mem_jointTransitions :
    u ∈ jointTransitions handshake m₁ m₂ ↔ handshake u.action = true ∧
      ⟨u.source.first, u.action, u.target.first⟩ ∈ m₁.transitions ∧
      ⟨u.source.second, u.action, u.target.second⟩ ∈ m₂.transitions := by
  unfold jointTransitions
  simp only [List.mem_flatMap, List.mem_map, List.mem_filter, decide_eq_true_eq]
  constructor
  · rintro ⟨t, ⟨ht, ha⟩, w, ⟨hw, e⟩, rfl⟩
    exact ⟨ha, ht, e ▸ hw⟩
  · rintro ⟨ha, ht, hw⟩
    exact ⟨_, ⟨ht, ha⟩, _, ⟨hw, rfl⟩, rfl⟩

theorem mem_leftTransitions :
    u ∈ leftTransitions handshake m₁ m₂ ↔ handshake u.action = false ∧
      ⟨u.source.first, u.action, u.target.first⟩ ∈ m₁.transitions ∧
      u.target.second = u.source.second ∧ u.source.second ∈ m₂.states := by
  unfold leftTransitions
  simp only [List.mem_flatMap, List.mem_map, List.mem_filter, Bool.not_eq_true']
  constructor
  · rintro ⟨t, ⟨ht, ha⟩, s, hs, rfl⟩
    exact ⟨ha, ht, rfl, hs⟩
  · obtain ⟨⟨s₁, s₂⟩, a, ⟨t₁, t₂⟩⟩ := u
    rintro ⟨ha, ht, e, hs⟩
    obtain rfl : t₂ = s₂ := e
    exact ⟨_, ⟨ht, ha⟩, _, hs, rfl⟩

theorem mem_rightTransitions :
    u ∈ rightTransitions handshake m₁ m₂ ↔ handshake u.action = false ∧
      ⟨u.source.second, u.action, u.target.second⟩ ∈ m₂.transitions ∧
      u.target.first = u.source.first ∧ u.source.first ∈ m₁.states := by
  unfold rightTransitions
  simp only [List.mem_flatMap, List.mem_map, List.mem_filter, Bool.not_eq_true']
  constructor
  · rintro ⟨t, ⟨ht, ha⟩, s, hs, rfl⟩
    exact ⟨ha, ht, rfl, hs⟩
  · obtain ⟨⟨s₁, s₂⟩, a, ⟨t₁, t₂⟩⟩ := u
    rintro ⟨ha, ht, e, hs⟩
    obtain rfl : t₁ = s₁ := e
    exact ⟨_, ⟨ht, ha⟩, _, hs, rfl⟩

/-- All transitions of the composition. -/
def besideTransitions (m₁ : TransitionSystem S₁ A P) (m₂ : TransitionSystem S₂ A P)
    (handshake : A → Bool) : List (Transition (Pair S₁ S₂) A) :=
  jointTransitions handshake m₁ m₂ ++ leftTransitions handshake m₁ m₂ ++
    rightTransitions handshake m₁ m₂

/-- **The transitions are the steps** from the pairs of declared states. -/
theorem mem_besideTransitions (h₁ : m₁.Consistent) (h₂ : m₂.Consistent) :
    u ∈ m₁.besideTransitions m₂ handshake ↔
      (u.source.first ∈ m₁.states ∧ u.source.second ∈ m₂.states) ∧
        StepBeside handshake m₁ m₂ u.source u.action u.target := by
  unfold besideTransitions
  rw [List.mem_append, List.mem_append, mem_jointTransitions, mem_leftTransitions,
    mem_rightTransitions]
  constructor
  · obtain ⟨⟨s₁, s₂⟩, a, ⟨t₁, t₂⟩⟩ := u
    rintro ((⟨ha, ht, hw⟩ | ⟨ha, ht, e, hs⟩) | ⟨ha, hw, e, hs⟩)
    · exact ⟨⟨(h₁.ends _ ht).1, (h₂.ends _ hw).1⟩, .both _ _ _ _ a ha ht hw⟩
    · obtain rfl : t₂ = s₂ := e
      exact ⟨⟨(h₁.ends _ ht).1, hs⟩, .left _ _ _ a ha ht⟩
    · obtain rfl : t₁ = s₁ := e
      exact ⟨⟨hs, (h₂.ends _ hw).1⟩, .right _ _ _ a ha hw⟩
  · obtain ⟨s, a, t⟩ := u
    rintro ⟨⟨hs₁, hs₂⟩, hstep⟩
    cases hstep with
    | both s₁ t₁ s₂ t₂ a ha ht hw => exact Or.inl (Or.inl ⟨ha, ht, hw⟩)
    | left s₁ t₁ s₂ a ha ht => exact Or.inl (Or.inr ⟨ha, ht, rfl, hs₂⟩)
    | right s₁ s₂ t₂ a ha hw => exact Or.inr ⟨ha, hw, rfl, hs₁⟩

/-- A step leads from declared states to declared states, by a declared action. -/
theorem StepBeside.ends {s t : Pair S₁ S₂} {a : A} (h : StepBeside handshake m₁ m₂ s a t)
    (h₁ : m₁.Consistent) (h₂ : m₂.Consistent) (hs : s.first ∈ m₁.states ∧ s.second ∈ m₂.states) :
    (t.first ∈ m₁.states ∧ t.second ∈ m₂.states) ∧ (a ∈ m₁.actions ∨ a ∈ m₂.actions) := by
  cases h with
  | both s₁ t₁ s₂ t₂ a ha ht hw =>
    exact ⟨⟨(h₁.ends _ ht).2.1, (h₂.ends _ hw).2.1⟩, Or.inl (h₁.ends _ ht).2.2⟩
  | left s₁ t₁ s₂ a ha ht => exact ⟨⟨(h₁.ends _ ht).2.1, hs.2⟩, Or.inl (h₁.ends _ ht).2.2⟩
  | right s₁ s₂ t₂ a ha hw => exact ⟨⟨hs.1, (h₂.ends _ hw).2.1⟩, Or.inr (h₂.ends _ hw).2.2⟩

end Transitions

/-! ## 2. The composition written down -/

section Written

variable (m₁ : TransitionSystem S₁ A P) (m₂ : TransitionSystem S₂ A P) (handshake : A → Bool)

/-- The composition with its states, actions and propositions. -/
def besideFrame : TransitionSystem (Pair S₁ S₂) A P :=
  (((((TransitionSystem.empty (m₁.name ++ "||" ++ m₂.name)).addStates
    (pairs m₁.states.toList m₂.states.toList)).addActions m₁.actions.toList).addActions
      m₂.actions.toList).addProps m₁.props.toList).addProps m₂.props.toList

/-- The composition with all pairs of states, as it is written down. -/
def besideParts : Parts (Pair S₁ S₂) A P where
  states := pairs m₁.states.toList m₂.states.toList
  starts := pairs m₁.initial.toList m₂.initial.toList
  actions := m₁.actions.toList ++ m₂.actions.toList
  props := m₁.props.toList ++ m₂.props.toList
  steps := m₁.besideTransitions m₂ handshake
  labels := (pairs m₁.states.toList m₂.states.toList).flatMap fun s => (pairLabel m₁ m₂ s).map (s, ·)

theorem frame_besideParts :
    (m₁.besideParts m₂ handshake).frame (m₁.name ++ "||" ++ m₂.name) = m₁.besideFrame m₂ := by
  simp only [Parts.frame, besideParts, besideFrame, addActions, addProps, List.foldl_append]

theorem besideUnpruned_eq :
    m₁.besideUnpruned m₂ handshake =
      (m₁.besideParts m₂ handshake).system (m₁.name ++ "||" ++ m₂.name) := by
  rw [Parts.system, ← Parts.foldl_insertInitial_steps, frame_besideParts]
  unfold besideUnpruned besideFrame besideParts besideTransitions insertLabels
  rw [List.foldl_append, List.foldl_append, List.foldl_flatMap]
  simp only [List.foldl_map]

variable {m₁ m₂ handshake}

theorem mem_labels_besideParts {s : Pair S₁ S₂} {p : P} :
    (s, p) ∈ (m₁.besideParts m₂ handshake).labels ↔ (s.first ∈ m₁.states ∧ s.second ∈ m₂.states) ∧
      (p ∈ m₁.label s.first ∨ p ∈ m₂.label s.second) := by
  unfold besideParts pairLabel
  simp only [List.mem_flatMap, List.mem_map, mem_pairs, List.mem_append, Prod.mk.injEq]
  constructor
  · rintro ⟨t, ht, q, hq, rfl, rfl⟩
    exact ⟨ht, hq⟩
  · rintro ⟨hs, hp⟩
    exact ⟨s, hs, p, hp, rfl, rfl⟩

/-- **The composition speaks of declared things only.** -/
theorem closed_besideParts (handshake : A → Bool) (h₁ : m₁.Consistent) (h₂ : m₂.Consistent) :
    (m₁.besideParts m₂ handshake).Closed where
  starts s hs := by
    obtain ⟨hs₁, hs₂⟩ := mem_pairs.mp hs
    exact mem_pairs.mpr ⟨h₁.starts _ hs₁, h₂.starts _ hs₂⟩
  steps u hu := by
    obtain ⟨hs, hstep⟩ := (mem_besideTransitions h₁ h₂).mp hu
    obtain ⟨ht, ha⟩ := hstep.ends h₁ h₂ hs
    exact ⟨mem_pairs.mpr hs, mem_pairs.mpr ht, List.mem_append.mpr ha⟩
  labels x hx := by
    obtain ⟨hs, hp⟩ := mem_labels_besideParts.mp hx
    exact ⟨mem_pairs.mpr hs,
      List.mem_append.mpr (hp.imp ((h₁.labeled _).declared _) ((h₂.labeled _).declared _))⟩

end Written

/-! ## 3. What a composition is -/

/-- **What two systems side by side are**: they start together and move by steps of either or of both,
    every state can be reached, and its label is that of both its parts. -/
structure Composed (handshake : A → Bool) (m₁ : TransitionSystem S₁ A P) (m₂ : TransitionSystem S₂ A P)
    (p : TransitionSystem (Pair S₁ S₂) A P) : Prop where
  consistent : p.Consistent
  declared : ∀ s, s ∈ p.states → s.first ∈ m₁.states ∧ s.second ∈ m₂.states
  initial : ∀ s, s ∈ p.initial ↔ s.first ∈ m₁.initial ∧ s.second ∈ m₂.initial
  transitions : ∀ s a t, ⟨s, a, t⟩ ∈ p.transitions ↔
    s ∈ p.states ∧ StepBeside handshake m₁ m₂ s a t
  reachable : ∀ s, s ∈ p.states → p.Reachable s
  label : ∀ s, s ∈ p.states → ∀ q, q ∈ p.label s ↔ q ∈ m₁.label s.first ∨ q ∈ m₂.label s.second
  actions : ∀ a, a ∈ p.actions ↔ a ∈ m₁.actions ∨ a ∈ m₂.actions
  props : ∀ q, q ∈ p.props ↔ q ∈ m₁.props ∨ q ∈ m₂.props

section Composed

variable {m₁ : TransitionSystem S₁ A P} {m₂ : TransitionSystem S₂ A P}

/-- Dropping what cannot be reached leaves a composition. -/
theorem composed_beside (handshake : A → Bool) (h₁ : m₁.Consistent) (h₂ : m₂.Consistent) :
    Composed handshake m₁ m₂ (m₁.beside m₂ handshake) := by
  have hclosed := closed_besideParts handshake h₁ h₂
  have hu : (m₁.besideUnpruned m₂ handshake).Consistent :=
    besideUnpruned_eq m₁ m₂ handshake ▸ hclosed.consistent_system _
  have hp := hu.prune_pruned
  have hstates : ∀ s, s ∈ (m₁.beside m₂ handshake).states ↔
      (m₁.besideUnpruned m₂ handshake).Reachable s := fun s => hp.mem_states hu
  have hdeclared : ∀ s, s ∈ (m₁.beside m₂ handshake).states →
      s.first ∈ m₁.states ∧ s.second ∈ m₂.states := fun s hs => by
    have hs' := ((hstates s).mp hs).declared hu
    rw [besideUnpruned_eq, Parts.mem_states_system] at hs'
    exact mem_pairs.mp hs'
  exact {
    consistent := hu.prune
    declared := hdeclared
    initial := fun s => by
      rw [beside, hp.initial, besideUnpruned_eq, Parts.mem_initial_system]
      exact mem_pairs
    transitions := fun s a t => by
      rw [hstates]
      refine (hp.mem_transitions hu).trans ?_
      have htrans : (⟨s, a, t⟩ : Transition (Pair S₁ S₂) A) ∈
          (m₁.besideUnpruned m₂ handshake).transitions ↔
            (s.first ∈ m₁.states ∧ s.second ∈ m₂.states) ∧ StepBeside handshake m₁ m₂ s a t := by
        rw [besideUnpruned_eq, Parts.mem_transitions_system]
        exact mem_besideTransitions h₁ h₂
      rw [htrans]
      exact ⟨fun h => ⟨h.2, h.1.2⟩, fun h => ⟨⟨hdeclared s ((hstates s).mpr h.1), h.2⟩, h.1⟩⟩
    reachable := fun s hs => (hp.reachable_iff hu).mpr ((hstates s).mp hs)
    label := fun s hs q => by
      have hlabel : (m₁.beside m₂ handshake).label s = (m₁.besideUnpruned m₂ handshake).label s :=
        hp.label s ((hstates s).mp hs)
      rw [hlabel, besideUnpruned_eq, hclosed.mem_label_system, mem_labels_besideParts]
      exact and_iff_right (hdeclared s hs)
    actions := fun a => by
      rw [beside, hp.actions, besideUnpruned_eq, Parts.mem_actions_system]
      exact List.mem_append
    props := fun q => by
      rw [beside, hp.props, besideUnpruned_eq, Parts.mem_props_system]
      exact List.mem_append }

end Composed

/-! ## 4. The composition by checked changes -/

section Checked

variable [Display S₁] [Display S₂] [Display A] [Display P]

/-- Enters the label of a pair: that of its first state, then that of the second. -/
def enterLabel (m₁ : TransitionSystem S₁ A P) (m₂ : TransitionSystem S₂ A P)
    (m : TransitionSystem (Pair S₁ S₂) A P) (s : Pair S₁ S₂) :
    Except SystemError (TransitionSystem (Pair S₁ S₂) A P) := do
  let m ← (m₁.label s.first).toList.foldlM (TransitionSystem.addLabel · s ·) m
  (m₂.label s.second).toList.foldlM (TransitionSystem.addLabel · s ·) m

/-- **Two systems side by side, by changes that are checked.** It fails as soon as one of them is
    refused. -/
def checkedBeside (m₁ : TransitionSystem S₁ A P) (m₂ : TransitionSystem S₂ A P) (handshake : A → Bool) :
    Except SystemError (TransitionSystem (Pair S₁ S₂) A P) := do
  let m ← (jointTransitions handshake m₁ m₂).foldlM TransitionSystem.addTransition (m₁.besideFrame m₂)
  let m ← (leftTransitions handshake m₁ m₂).foldlM TransitionSystem.addTransition m
  let m ← (rightTransitions handshake m₁ m₂).foldlM TransitionSystem.addTransition m
  let m ← (pairs m₁.initial.toList m₂.initial.toList).foldlM
    (fun m s => TransitionSystem.setInitial m s true) m
  let m ← (pairs m₁.states.toList m₂.states.toList).foldlM (enterLabel m₁ m₂) m
  return m.prune.1

/-- **No change that composes two systems is refused.** -/
theorem checkedBeside_eq_ok {m₁ : TransitionSystem S₁ A P} {m₂ : TransitionSystem S₂ A P}
    {handshake : A → Bool} (h₁ : m₁.Consistent) (h₂ : m₂.Consistent) :
    m₁.checkedBeside m₂ handshake = .ok (m₁.beside m₂ handshake) := by
  have hclosed := closed_besideParts handshake h₁ h₂
  have hlinked : ((m₁.besideTransitions m₂ handshake).foldlM TransitionSystem.addTransition
      (m₁.besideFrame m₂) >>= fun m => (pairs m₁.initial.toList m₂.initial.toList).foldlM
        (fun m s => TransitionSystem.setInitial m s true) m) =
      .ok ((m₁.besideParts m₂ handshake).linked (m₁.name ++ "||" ++ m₂.name)) :=
    frame_besideParts m₁ m₂ handshake ▸ hclosed.stepsFirst _
  have hlabeled : (pairs m₁.states.toList m₂.states.toList).foldlM (enterLabel m₁ m₂)
      ((m₁.besideParts m₂ handshake).linked (m₁.name ++ "||" ++ m₂.name)) =
        .ok (m₁.besideUnpruned m₂ handshake) := by
    have hturn : ∀ s ∈ pairs m₁.states.toList m₂.states.toList, ∀ m, enterLabel m₁ m₂ m s =
        ((pairLabel m₁ m₂ s).map (s, ·)).foldlM (fun m x => TransitionSystem.addLabel m x.1 x.2) m := by
      intro s _ m
      rw [List.foldlM_map, pairLabel, List.foldlM_append]
      rfl
    rw [besideUnpruned_eq, foldlM_eq_foldlM_flatMap hturn]
    exact (hclosed.labeled _).1
  rw [besideTransitions, List.foldlM_append, List.foldlM_append] at hlinked
  unfold checkedBeside
  simp only [← bind_assoc] at hlinked ⊢
  rw [hlinked]
  simp only [bind, Except.bind, hlabeled]
  rfl

end Checked

end Lasso.TransitionSystem
