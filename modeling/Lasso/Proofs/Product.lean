import Lasso.Product
import Lasso.Proofs.Automaton.Acceptance
import Lasso.Proofs.Compose.Beside
import Lasso.Proofs.System.Path
/-!
# The product reads the labels of the system

The product is consistent, and its parts are those that its definition names: a transition for each
transition of the system and each way the automaton reads the label of the target, an initial state
for each way it reads the label of an initial state. So an infinite path of the product is a path of
the system together with a way to read its labels (`isPath_product`), and the system has an accepted
path exactly if the product has a path that meets accepting states again and again
(`exists_accepted_iff`).
-/

namespace Lasso.TransitionSystem

variable {S A P Q : Type} [DecidableEq S] [Hashable S] [DecidableEq A] [Hashable A]
  [DecidableEq P] [Hashable P] [DecidableEq Q] [Hashable Q]

/-! ## 1. The parts of the product -/

theorem mem_productTransitions {m : TransitionSystem S A P} {a : Automaton Q P} (ha : a.Consistent)
    {t : Transition S A} {u : Transition (Pair S Q) A} :
    u ∈ m.productTransitions a t ↔
      u.source.first = t.source ∧ u.action = t.action ∧ u.target.first = t.target ∧
        u.target.second ∈ a.next u.source.second (m.label t.target) := by
  unfold productTransitions
  rw [List.mem_flatMap]
  constructor
  · rintro ⟨q, _, hu⟩
    obtain ⟨r, hr, rfl⟩ := List.mem_map.mp hu
    exact ⟨rfl, rfl, rfl, hr⟩
  · rintro ⟨h1, h2, h3, h4⟩
    refine ⟨u.source.second, (ha.mem_states_of_next h4).1, List.mem_map.mpr ⟨_, h4, ?_⟩⟩
    rw [← h1, ← h2, ← h3]

theorem mem_productInitial {m : TransitionSystem S A P} {a : Automaton Q P} {s : S} {x : Pair S Q} :
    x ∈ m.productInitial a s ↔
      x.first = s ∧ ∃ q, q ∈ a.initial ∧ x.second ∈ a.next q (m.label s) := by
  unfold productInitial
  rw [List.mem_flatMap]
  constructor
  · rintro ⟨q, hq, hx⟩
    obtain ⟨r, hr, rfl⟩ := List.mem_map.mp hx
    exact ⟨rfl, q, hq, hr⟩
  · rintro ⟨rfl, q, hq, hr⟩
    exact ⟨q, hq, List.mem_map.mpr ⟨_, hr, rfl⟩⟩

/-- Declares a state of the product and labels it with the state of the automaton. -/
def productState (p : TransitionSystem (Pair S Q) A Q) (x : Pair S Q) :
    TransitionSystem (Pair S Q) A Q :=
  (p.addState x).insertLabel x x.second

/-- The states of the product, each with its label. -/
def productStates (p : TransitionSystem (Pair S Q) A Q) (xs : List (Pair S Q)) :
    TransitionSystem (Pair S Q) A Q :=
  xs.foldl productState p

section States

variable (p : TransitionSystem (Pair S Q) A Q) (xs : List (Pair S Q))

theorem states_productStates : (productStates p xs).states = p.states.insertMany xs :=
  foldl_inserted (f := productState) (g := TransitionSystem.states) (fun p x => p.states_addState x) xs p

theorem actions_productStates : (productStates p xs).actions = p.actions :=
  foldl_fixed (f := productState) (g := TransitionSystem.actions) (fun p x => p.actions_addState x) xs p

theorem initial_productStates : (productStates p xs).initial = p.initial :=
  foldl_fixed (f := productState) (g := TransitionSystem.initial) (fun p x => p.initial_addState x) xs p

theorem transitions_productStates : (productStates p xs).transitions = p.transitions :=
  foldl_fixed (f := productState) (g := TransitionSystem.transitions) (fun p x => p.transitions_addState x) xs p

variable {p xs}

theorem consistent_productStates (h : p.Consistent) (hxs : ∀ x ∈ xs, x.second ∈ p.props) :
    (productStates p xs).Consistent := by
  induction xs generalizing p with
  | nil => exact h
  | cons x xs ih =>
    refine ih ((h.addState x).insertLabel x ?_) fun y hy => ?_
    · rw [props_addState]
      exact hxs x List.mem_cons_self
    · rw [productState, props_insertLabel, props_addState]
      exact hxs y (List.mem_cons_of_mem _ hy)

end States

/-- The product before its transitions and initial states are entered. -/
def productFrame (m : TransitionSystem S A P) (a : Automaton Q P) :
    TransitionSystem (Pair S Q) A Q :=
  productStates
    (((TransitionSystem.empty (m.name ++ "×automaton")).addActions m.actions.toList).addProps
      a.states.toList)
    (pairs m.states.toList a.states.toList)

theorem productUnpruned_eq (m : TransitionSystem S A P) (a : Automaton Q P) :
    m.productUnpruned a =
      (m.initial.toList.flatMap (m.productInitial a)).foldl insertInitial
        ((m.transitions.toList.flatMap (m.productTransitions a)).foldl insertTransition
          (m.productFrame a)) := rfl

section Frame

variable {m : TransitionSystem S A P} {a : Automaton Q P}

theorem mem_states_productFrame {x : Pair S Q} :
    x ∈ (m.productFrame a).states ↔ x.first ∈ m.states ∧ x.second ∈ a.states := by
  rw [productFrame, states_productStates, addProps_eq, addActions_eq]
  exact Ordered.mem_ofList.trans mem_pairs

theorem mem_actions_productFrame {b : A} : b ∈ (m.productFrame a).actions ↔ b ∈ m.actions := by
  rw [productFrame, actions_productStates, addProps_eq, addActions_eq]
  exact Ordered.mem_ofList

theorem consistent_productFrame : (m.productFrame a).Consistent := by
  refine consistent_productStates (((consistent_empty _).addActions _).addProps _) fun x hx => ?_
  rw [addProps_eq, addActions_eq]
  exact Ordered.mem_ofList.mpr (mem_pairs.mp hx).2

theorem transitions_productFrame : (m.productFrame a).transitions = ∅ := by
  rw [productFrame, transitions_productStates, addProps_eq, addActions_eq]
  rfl

theorem initial_productFrame : (m.productFrame a).initial = ∅ := by
  rw [productFrame, initial_productStates, addProps_eq, addActions_eq]
  rfl

end Frame

/-! ## 2. The product is consistent -/

section Product

variable {m : TransitionSystem S A P} {a : Automaton Q P}

theorem mem_transitions_productUnpruned (ha : a.Consistent) {u : Transition (Pair S Q) A} :
    u ∈ (m.productUnpruned a).transitions ↔
      ⟨u.source.first, u.action, u.target.first⟩ ∈ m.transitions ∧
        u.target.second ∈ a.next u.source.second (m.label u.target.first) := by
  rw [productUnpruned_eq, foldl_fixed (g := TransitionSystem.transitions) transitions_insertInitial,
    foldl_inserted (g := TransitionSystem.transitions) transitions_insertTransition,
    transitions_productFrame]
  refine Ordered.mem_ofList.trans ?_
  rw [List.mem_flatMap]
  constructor
  · rintro ⟨t, ht, hu⟩
    obtain ⟨h1, h2, h3, h4⟩ := (mem_productTransitions ha).mp hu
    rw [h1, h2, h3]
    exact ⟨ht, h4⟩
  · rintro ⟨ht, hu⟩
    exact ⟨_, ht, (mem_productTransitions ha).mpr ⟨rfl, rfl, rfl, hu⟩⟩

theorem mem_initial_productUnpruned {x : Pair S Q} :
    x ∈ (m.productUnpruned a).initial ↔
      x.first ∈ m.initial ∧ ∃ q, q ∈ a.initial ∧ x.second ∈ a.next q (m.label x.first) := by
  rw [productUnpruned_eq, foldl_inserted (g := TransitionSystem.initial) initial_insertInitial,
    foldl_fixed (g := TransitionSystem.initial) initial_insertTransition, initial_productFrame]
  refine Ordered.mem_ofList.trans ?_
  rw [List.mem_flatMap]
  constructor
  · rintro ⟨s, hs, hx⟩
    obtain ⟨rfl, hq⟩ := mem_productInitial.mp hx
    exact ⟨hs, hq⟩
  · rintro ⟨hs, hq⟩
    exact ⟨x.first, hs, mem_productInitial.mpr ⟨rfl, hq⟩⟩

/-- The transitions of the product stand between its states. -/
theorem ends_productTransitions (hm : m.Consistent) (ha : a.Consistent)
    {u : Transition (Pair S Q) A} (hu : u ∈ m.transitions.toList.flatMap (m.productTransitions a)) :
    u.source ∈ (m.productFrame a).states ∧ u.target ∈ (m.productFrame a).states ∧
      u.action ∈ (m.productFrame a).actions := by
  obtain ⟨t, ht, hu⟩ := List.mem_flatMap.mp hu
  obtain ⟨h1, h2, h3, h4⟩ := (mem_productTransitions ha).mp hu
  obtain ⟨hs, ht, hb⟩ := hm.ends t ht
  obtain ⟨hq, hr⟩ := ha.mem_states_of_next h4
  refine ⟨mem_states_productFrame.mpr ⟨h1 ▸ hs, hq⟩, mem_states_productFrame.mpr ⟨h3 ▸ ht, hr⟩, ?_⟩
  rw [mem_actions_productFrame, h2]
  exact hb

/-- The product starts in its states. -/
theorem mem_states_of_productInitial (hm : m.Consistent) (ha : a.Consistent) {x : Pair S Q}
    (hx : x ∈ m.initial.toList.flatMap (m.productInitial a)) : x ∈ (m.productFrame a).states := by
  obtain ⟨s, hs, hx⟩ := List.mem_flatMap.mp hx
  obtain ⟨rfl, q, -, hr⟩ := mem_productInitial.mp hx
  exact mem_states_productFrame.mpr ⟨hm.starts _ hs, (ha.mem_states_of_next hr).2⟩

/-- The product before its initial states are entered. -/
def productLinked (m : TransitionSystem S A P) (a : Automaton Q P) :
    TransitionSystem (Pair S Q) A Q :=
  (m.transitions.toList.flatMap (m.productTransitions a)).foldl insertTransition (m.productFrame a)

theorem states_productLinked : (m.productLinked a).states = (m.productFrame a).states :=
  foldl_fixed (g := TransitionSystem.states) states_insertTransition _ _

theorem consistent_productLinked (hm : m.Consistent) (ha : a.Consistent) :
    (m.productLinked a).Consistent :=
  consistent_productFrame.foldl_insertTransition _ fun _ hu => ends_productTransitions hm ha hu

theorem consistent_productUnpruned (hm : m.Consistent) (ha : a.Consistent) :
    (m.productUnpruned a).Consistent := by
  rw [productUnpruned_eq]
  refine (consistent_productLinked hm ha).foldl_insertInitial _ fun x hx => ?_
  rw [states_productLinked]
  exact mem_states_of_productInitial hm ha hx

theorem consistent_product (hm : m.Consistent) (ha : a.Consistent) : (m.product a).Consistent :=
  (consistent_productUnpruned hm ha).prune.pruneProps

theorem step_of_product (hm : m.Consistent) (ha : a.Consistent) {x y : Pair S Q}
    (h : (m.product a).Step x y) : m.Step x.first y.first := by
  obtain ⟨b, hb⟩ := h
  have hu := consistent_productUnpruned hm ha
  have hb' := ((hu.prune_pruned.mem_transitions hu).mp hb).1
  exact ⟨b, ((mem_transitions_productUnpruned ha).mp hb').1⟩

/-! ## 3. The paths of the product -/

/-- A sequence behind a first element. -/
def ahead (q : Q) (r : Nat → Q) : Nat → Q
  | 0 => q
  | i + 1 => r i

/-- A path of the unpruned product reads labels as it goes. -/
theorem isPath_productUnpruned (ha : a.Consistent) {x : Nat → Pair S Q} :
    (m.productUnpruned a).IsPath x ↔
      m.IsPath (fun i => (x i).first) ∧
        ∃ q, a.Reads (fun i => m.label (x i).first) (ahead q fun i => (x i).second) := by
  constructor
  · intro hx
    obtain ⟨hs, q, hq, hr⟩ := mem_initial_productUnpruned.mp hx.start
    refine ⟨⟨hs, fun i => ?_⟩, q, hq, fun i => ?_⟩
    · obtain ⟨b, hb⟩ := hx.step i
      exact ⟨b, ((mem_transitions_productUnpruned ha).mp hb).1⟩
    · cases i with
      | zero => exact hr
      | succ i =>
        obtain ⟨b, hb⟩ := hx.step i
        exact ((mem_transitions_productUnpruned ha).mp hb).2
  · rintro ⟨hm, q, hr⟩
    refine ⟨mem_initial_productUnpruned.mpr ⟨hm.start, q, hr.start, hr.step 0⟩, fun i => ?_⟩
    obtain ⟨b, hb⟩ := hm.step i
    exact ⟨b, (mem_transitions_productUnpruned ha).mpr ⟨hb, hr.step (i + 1)⟩⟩

/-- **A path of the product is a path of the system with a way to read its labels.** -/
theorem isPath_product (hm : m.Consistent) (ha : a.Consistent) {x : Nat → Pair S Q} :
    (m.product a).IsPath x ↔
      m.IsPath (fun i => (x i).first) ∧
        ∃ q, a.Reads (fun i => m.label (x i).first) (ahead q fun i => (x i).second) := by
  have hu := consistent_productUnpruned hm ha
  have e : (m.product a).IsPath x ↔ (m.productUnpruned a).prune.1.IsPath x :=
    ⟨fun h => ⟨h.start, h.step⟩, fun h => ⟨h.start, h.step⟩⟩
  rw [e, hu.prune_pruned.isPath_iff hu]
  exact isPath_productUnpruned ha

/-- **The system has an accepted path exactly if the product has a path that meets accepting states
    again and again.** -/
theorem exists_accepted_iff (hm : m.Consistent) (ha : a.Consistent) :
    (∃ s, m.IsPath s ∧ a.Accepts fun i => m.label (s i)) ↔
      ∃ x, (m.product a).IsPath x ∧ ∀ n, ∃ i, n < i ∧ (x i).second ∈ a.accepting := by
  constructor
  · rintro ⟨s, hs, q, hq, hacc⟩
    refine ⟨fun i => ⟨s i, q (i + 1)⟩, (isPath_product hm ha).mpr ⟨hs, q 0, ?_⟩, fun n => ?_⟩
    · exact ⟨hq.start, fun i => by cases i <;> exact hq.step _⟩
    · obtain ⟨i, hi, hqi⟩ := hacc (n + 1)
      obtain ⟨j, rfl⟩ : ∃ j, i = j + 1 := ⟨i - 1, by omega⟩
      exact ⟨j, by omega, hqi⟩
  · rintro ⟨x, hx, hacc⟩
    obtain ⟨hs, q, hq⟩ := (isPath_product hm ha).mp hx
    refine ⟨_, hs, _, hq, fun n => ?_⟩
    obtain ⟨i, hi, hxi⟩ := hacc n
    exact ⟨i + 1, by omega, hxi⟩

end Product

end Lasso.TransitionSystem
