import Mathlib.Data.Finset.Card
import Lasso.Proofs.System.Reach
/-!
# What additions leave in a system

Systems are mostly built by additions alone, one after the other. For each addition this file says
what it does to each part of a system, and from that what a whole list of additions leaves there. An
addition touches one part and leaves the others as they were.
-/

namespace Lasso.TransitionSystem

variable {S A P : Type} [DecidableEq S] [Hashable S] [DecidableEq A] [Hashable A]
  [DecidableEq P] [Hashable P]

/-! ## 1. One addition -/

section One

variable (m : TransitionSystem S A P)

@[simp] theorem states_addState (s : S) : (m.addState s).states = m.states.insert s := by
  unfold addState Ordered.insert Ordered.add
  by_cases hs : m.states.contains s = true <;> simp [hs]

@[simp] theorem initial_addState (s : S) : (m.addState s).initial = m.initial := by
  unfold addState
  split <;> rfl

@[simp] theorem actions_addState (s : S) : (m.addState s).actions = m.actions := by
  unfold addState
  split <;> rfl

@[simp] theorem props_addState (s : S) : (m.addState s).props = m.props := by
  unfold addState
  split <;> rfl

@[simp] theorem transitions_addState (s : S) : (m.addState s).transitions = m.transitions := by
  unfold addState
  split <;> rfl

@[simp] theorem transitions_insertTransition (t : Transition S A) :
    (m.insertTransition t).transitions = m.transitions.insert t := by
  unfold insertTransition Ordered.insert Ordered.add
  by_cases ht : m.transitions.contains t = true <;> simp [ht]

@[simp] theorem states_insertTransition (t : Transition S A) :
    (m.insertTransition t).states = m.states := by
  unfold insertTransition
  split <;> rfl

@[simp] theorem initial_insertTransition (t : Transition S A) :
    (m.insertTransition t).initial = m.initial := by
  unfold insertTransition
  split <;> rfl

@[simp] theorem actions_insertTransition (t : Transition S A) :
    (m.insertTransition t).actions = m.actions := by
  unfold insertTransition
  split <;> rfl

@[simp] theorem props_insertTransition (t : Transition S A) :
    (m.insertTransition t).props = m.props := by
  unfold insertTransition
  split <;> rfl

@[simp] theorem label_insertTransition (t : Transition S A) (s : S) :
    (m.insertTransition t).label s = m.label s := by
  unfold insertTransition
  split <;> rfl

@[simp] theorem states_insertInitial (s : S) : (m.insertInitial s).states = m.states := rfl
@[simp] theorem initial_insertInitial (s : S) : (m.insertInitial s).initial = m.initial.insert s := rfl
@[simp] theorem actions_insertInitial (s : S) : (m.insertInitial s).actions = m.actions := rfl
@[simp] theorem props_insertInitial (s : S) : (m.insertInitial s).props = m.props := rfl
@[simp] theorem transitions_insertInitial (s : S) :
    (m.insertInitial s).transitions = m.transitions := rfl

@[simp] theorem label_insertInitial (s t : S) : (m.insertInitial s).label t = m.label t := rfl

@[simp] theorem states_insertLabel (s : S) (p : P) : (m.insertLabel s p).states = m.states := rfl
@[simp] theorem initial_insertLabel (s : S) (p : P) : (m.insertLabel s p).initial = m.initial := rfl
@[simp] theorem props_insertLabel (s : S) (p : P) : (m.insertLabel s p).props = m.props := rfl
@[simp] theorem transitions_insertLabel (s : S) (p : P) :
    (m.insertLabel s p).transitions = m.transitions := rfl

end One

variable {m : TransitionSystem S A P}

/-- A state that is not declared has no label. -/
theorem Consistent.label_of_not_mem (h : m.Consistent) {s : S} (hs : ¬ s ∈ m.states) :
    m.label s = ∅ := by
  rw [label, label?, h.labels.unknown s hs]
  rfl

/-- A new state has no label, so no label changes. -/
theorem Consistent.label_addState (h : m.Consistent) (s t : S) :
    (m.addState s).label t = m.label t := by
  unfold TransitionSystem.addState
  split
  · rfl
  · rename_i hs
    have hs' : ¬ s ∈ m.states := fun h' => hs (h.states.contains_iff.mpr h')
    show ((m.labels.insert s ∅)[t]?).getD ∅ = _
    rw [Std.HashMap.getElem?_insert]
    by_cases hst : s = t
    · subst hst
      rw [h.label_of_not_mem hs']
      simp
    · simp only [beq_iff_eq, hst, if_false]
      rfl

theorem Consistent.label_insertLabel (h : m.Consistent) {s : S} (hs : s ∈ m.states) (p : P) (t : S) :
    (m.insertLabel s p).label t = if s = t then (m.label t).insert p else m.label t := by
  show ((m.labels.modify s (·.insert p))[t]?).getD ∅ = _
  rw [Std.HashMap.getElem?_modify]
  by_cases hst : s = t
  · subst hst
    obtain ⟨l, hl, -⟩ := h.labels.known s hs
    simp [label, label?, hl]
  · simp only [beq_iff_eq, hst, if_false]
    rfl

/-- The states that are not entered yet, out of all that there are. -/
def missing (all : Finset S) (m : TransitionSystem S A P) : Finset S :=
  all.filter fun s => m.states.contains s = false

theorem Consistent.mem_missing (h : m.Consistent) {all : Finset S} {s : S} :
    s ∈ missing all m ↔ s ∈ all ∧ s ∉ m.states := by
  rw [missing, Finset.mem_filter, Bool.eq_false_iff, ne_eq, h.states.contains_iff]

/-- Entering a new state leaves fewer states to enter. -/
theorem Consistent.card_missing_addState (h : m.Consistent) {all : Finset S} {s : S} (hs : s ∈ all)
    (hnew : s ∉ m.states) : (missing all (m.addState s)).card < (missing all m).card := by
  have hmem : ∀ x, x ∈ missing all (m.addState s) ↔ x ∈ missing all m ∧ x ≠ s := fun x => by
    rw [(h.addState s).mem_missing, h.mem_missing, states_addState, h.states.mem_insert, not_or,
      and_assoc]
  refine Finset.card_lt_card ⟨fun x hx => ((hmem x).mp hx).1, fun hsub => ?_⟩
  exact ((hmem s).mp (hsub (h.mem_missing.mpr ⟨hs, hnew⟩))).2 rfl

/-! ## 2. Many additions -/

theorem foldl_fixed {M X β : Type} {f : M → X → M} {g : M → β} (h : ∀ m x, g (f m x) = g m)
    (l : List X) (m : M) : g (l.foldl f m) = g m := by
  induction l generalizing m with
  | nil => rfl
  | cons x l ih => rw [List.foldl_cons, ih, h]

theorem foldl_inserted {M X : Type} [DecidableEq X] [Hashable X] {f : M → X → M} {g : M → Ordered X}
    (h : ∀ m x, g (f m x) = (g m).insert x) (l : List X) (m : M) :
    g (l.foldl f m) = (g m).insertMany l := by
  induction l generalizing m with
  | nil => rfl
  | cons x l ih =>
    rw [List.foldl_cons, ih, h]
    rfl

theorem addActions_eq (m : TransitionSystem S A P) (as : List A) :
    m.addActions as = { m with actions := m.actions.insertMany as } := by
  induction as generalizing m with
  | nil => rfl
  | cons a as ih => exact ih (m.addAction a)

theorem addProps_eq (m : TransitionSystem S A P) (ps : List P) :
    m.addProps ps = { m with props := m.props.insertMany ps } := by
  induction ps generalizing m with
  | nil => rfl
  | cons p ps ih => exact ih (m.addProp p)

@[simp] theorem label_addActions (m : TransitionSystem S A P) (as : List A) (s : S) :
    (m.addActions as).label s = m.label s :=
  foldl_fixed (f := addAction) (g := (TransitionSystem.label · s)) (fun _ _ => rfl) as m

@[simp] theorem label_addProps (m : TransitionSystem S A P) (ps : List P) (s : S) :
    (m.addProps ps).label s = m.label s :=
  foldl_fixed (f := addProp) (g := (TransitionSystem.label · s)) (fun _ _ => rfl) ps m

@[simp] theorem states_addStates (m : TransitionSystem S A P) (ss : List S) :
    (m.addStates ss).states = m.states.insertMany ss :=
  foldl_inserted (g := TransitionSystem.states) states_addState ss m

@[simp] theorem initial_addStates (m : TransitionSystem S A P) (ss : List S) :
    (m.addStates ss).initial = m.initial :=
  foldl_fixed (g := TransitionSystem.initial) initial_addState ss m

@[simp] theorem actions_addStates (m : TransitionSystem S A P) (ss : List S) :
    (m.addStates ss).actions = m.actions :=
  foldl_fixed (g := TransitionSystem.actions) actions_addState ss m

@[simp] theorem props_addStates (m : TransitionSystem S A P) (ss : List S) :
    (m.addStates ss).props = m.props :=
  foldl_fixed (g := TransitionSystem.props) props_addState ss m

@[simp] theorem transitions_addStates (m : TransitionSystem S A P) (ss : List S) :
    (m.addStates ss).transitions = m.transitions :=
  foldl_fixed (g := TransitionSystem.transitions) transitions_addState ss m

theorem Consistent.label_addStates (h : m.Consistent) (ss : List S) (t : S) :
    (m.addStates ss).label t = m.label t := by
  induction ss generalizing m with
  | nil => rfl
  | cons s ss ih => exact (ih (h.addState s)).trans (h.label_addState s t)

theorem Consistent.addActions (h : m.Consistent) (as : List A) : (m.addActions as).Consistent :=
  List.foldlRecOn as TransitionSystem.addAction h fun _ hm a _ => hm.addAction a

theorem Consistent.addProps (h : m.Consistent) (ps : List P) : (m.addProps ps).Consistent :=
  List.foldlRecOn ps TransitionSystem.addProp h fun _ hm p _ => hm.addProp p

theorem Consistent.addStates (h : m.Consistent) (ss : List S) : (m.addStates ss).Consistent :=
  List.foldlRecOn ss TransitionSystem.addState h fun _ hm s _ => hm.addState s

theorem Consistent.foldl_insertTransition (h : m.Consistent) (ts : List (Transition S A))
    (ht : ∀ t ∈ ts, t.source ∈ m.states ∧ t.target ∈ m.states ∧ t.action ∈ m.actions) :
    (ts.foldl TransitionSystem.insertTransition m).Consistent := by
  induction ts generalizing m with
  | nil => exact h
  | cons t ts ih =>
    refine ih (h.insertTransition (ht t List.mem_cons_self)) fun u hu => ?_
    rw [states_insertTransition, actions_insertTransition]
    exact ht u (List.mem_cons_of_mem _ hu)

theorem Consistent.foldl_insertInitial (h : m.Consistent) (ss : List S)
    (hs : ∀ s ∈ ss, s ∈ m.states) : (ss.foldl TransitionSystem.insertInitial m).Consistent := by
  induction ss generalizing m with
  | nil => exact h
  | cons s ss ih =>
    exact ih (h.insertInitial (hs s List.mem_cons_self)) fun t ht => hs t (List.mem_cons_of_mem _ ht)

section Built

variable [Display S] [Display A] [Display P]

theorem Built.foldl_insertInitial (h : m.Built) (ss : List S) (hs : ∀ s ∈ ss, s ∈ m.states) :
    (ss.foldl TransitionSystem.insertInitial m).Built := by
  induction ss generalizing m with
  | nil => exact h
  | cons s ss ih =>
    have hdeclared := h.consistent.states.contains_iff.mpr (hs s List.mem_cons_self)
    exact ih (h.insertInitial hdeclared) fun t ht => hs t (List.mem_cons_of_mem _ ht)

theorem Built.foldl_insertTransition (h : m.Built) (ts : List (Transition S A))
    (ht : ∀ t ∈ ts, t.source ∈ m.states ∧ t.target ∈ m.states ∧ t.action ∈ m.actions) :
    (ts.foldl TransitionSystem.insertTransition m).Built := by
  induction ts generalizing m with
  | nil => exact h
  | cons t ts ih =>
    have hadmits := (admits_iff h.consistent).mpr (ht t List.mem_cons_self)
    refine ih (h.insertTransition hadmits) fun u hu => ?_
    rw [states_insertTransition, actions_insertTransition]
    exact ht u (List.mem_cons_of_mem _ hu)

end Built

end Lasso.TransitionSystem
