import Lasso.Proofs.System.Checked
import Lasso.Proofs.System.Path
/-!
# What pruning leaves, and how it answers

* `IsLeastClosed` -- the least set that has the initial states and that no transition leaves; `reach`
  is that set (`Consistent.isLeastClosed_reach`);
* `Consistent.length_unreached` -- pruning returns the number of the states outside of it;
* `AnswersWithin` -- how a pruned system answers: in a state that is kept as before, save that what led
  there from outside is gone (`Consistent.answersWithin_prune`);
* `reach_prune_exact` -- **reaching and pruning are exact**, and a second pruning does nothing.
-/

namespace Lasso

/-- Dropping members before or after a list is made a set is the same. -/
theorem Ordered.toList_ofList_filter {α : Type} [DecidableEq α] [Hashable α] (keep : α → Bool)
    (l : List α) : (ofList (l.filter keep)).toList = (ofList l).toList.filter keep := by
  have hmany : ∀ {o o' : Ordered α}, o.Valid → o'.Valid → o'.toList = o.toList.filter keep →
      (o'.insertMany (l.filter keep)).toList = (o.insertMany l).toList.filter keep := by
    induction l with
    | nil => exact fun _ _ e => e
    | cons a l ih =>
      intro o o' ho ho' e
      cases hk : keep a with
      | false =>
        rw [List.filter_cons_of_neg (by simp [hk])]
        refine ih (ho.insert a) ho' ?_
        rw [ho.toList_insert, e]
        split <;> simp [hk]
      | true =>
        rw [List.filter_cons_of_pos hk]
        refine ih (ho.insert a) (ho'.insert a) ?_
        rw [ho.toList_insert, ho'.toList_insert, e]
        by_cases ha : a ∈ o.toList <;> simp [ha, hk]
  exact hmany valid_empty valid_empty rfl

namespace TransitionSystem

variable {S A P : Type} [DecidableEq S] [Hashable S] [DecidableEq A] [Hashable A]
  [DecidableEq P] [Hashable P] {m p : TransitionSystem S A P}

/-! ## 1. The least closed set -/

/-- **The least set that has the initial states and that no transition leaves.** -/
structure IsLeastClosed (m : TransitionSystem S A P) (X : S → Prop) : Prop where
  starts : ∀ s, s ∈ m.initial → X s
  closed : ∀ t, t ∈ m.transitions → X t.source → X t.target
  least : ∀ Y : S → Prop, (∀ s, s ∈ m.initial → Y s) →
    (∀ t, t ∈ m.transitions → Y t.source → Y t.target) → ∀ s, X s → Y s

theorem isLeastClosed_reachable (m : TransitionSystem S A P) : m.IsLeastClosed m.Reachable where
  starts _ := .start
  closed t ht hs := hs.step ⟨t.action, ht⟩
  least Y hstarts hclosed s := by
    rintro ⟨i, hi, his⟩
    induction his with
    | refl => exact hstarts i hi
    | tail _ hst ih =>
      obtain ⟨a, ha⟩ := hst
      exact hclosed _ ha ih

theorem Consistent.isLeastClosed_reach (h : m.Consistent) : m.IsLeastClosed (· ∈ m.reach) := by
  have e : (· ∈ m.reach) = m.Reachable := funext fun s => propext h.mem_reach
  rw [e]
  exact m.isLeastClosed_reachable

/-! ## 2. What pruning counts -/

/-- The states that are reached are as many as the set of them says. -/
theorem Consistent.length_reached (h : m.Consistent) :
    (m.states.toList.filter m.reach.contains).length = m.reach.size := by
  have hnd : m.reach.toList.Nodup := Std.HashSet.distinct_toList.imp fun hab => by simpa using hab
  rw [← Std.HashSet.length_toList]
  refine ((List.perm_ext_iff_of_nodup (h.states.nodup.filter _) hnd).mpr fun s => ?_).length_eq
  rw [List.mem_filter, h.reach_contains, Std.HashSet.mem_toList, h.mem_reach]
  exact ⟨fun hs => hs.2, fun hs => ⟨hs.declared h, hs⟩⟩

theorem Consistent.length_unreached (h : m.Consistent) :
    m.prune.2 = (m.states.toList.filter fun s => !m.reach.contains s).length := by
  have hsplit := List.length_eq_length_filter_add (l := m.states.toList) m.reach.contains
  rw [h.length_reached, Ordered.length_toList] at hsplit
  rcases m.prune_cases with ⟨hsize, e⟩ | e
  · rw [e]
    omega
  · rw [e]
    omega

/-! ## 3. How a pruned system answers -/

section Answers

variable [Display S]

/-- **How the part of a system that can be reached answers**, compared with the whole. -/
structure AnswersWithin (m p : TransitionSystem S A P) : Prop where
  name : p.name = m.name
  label? : ∀ s, p.label? s = if m.reach.contains s then m.label? s else none
  isInitial : ∀ s, p.initial.contains s = m.initial.contains s
  post : ∀ s, s ∈ m.reach → p.post s = m.post s
  successors : ∀ s, s ∈ m.reach → p.successors s = m.successors s
  pre : ∀ s, s ∈ m.reach → ∃ before left, m.pre s = .ok before ∧ p.pre s = .ok left ∧
    left.toList = before.toList.filter m.reach.contains

omit [Display S] in
/-- Nothing that leaves a state that is kept is lost. -/
theorem Pruned.outgoingOf_eq (hp : Pruned m p) (h : m.Consistent) (hc : p.Consistent) {s : S}
    (hs : m.Reachable s) : p.outgoingOf s = m.outgoingOf s := by
  rw [hc.outgoingOf_eq, h.outgoingOf_eq, hp.transitions, List.filter_filter]
  refine List.filter_congr fun t _ => ?_
  by_cases hts : t.source = s
  · simp [hts, h.reach_contains.mpr hs]
  · simp [hts]

omit [Display S] in
/-- What enters a state and comes from a state that is kept is not lost. -/
theorem Pruned.incomingOf_eq (hp : Pruned m p) (h : m.Consistent) (hc : p.Consistent) (s : S) :
    p.incomingOf s = (m.incomingOf s).filter (m.reach.contains ·.source) := by
  rw [hc.incomingOf_eq, h.incomingOf_eq, hp.transitions, List.filter_filter, List.filter_filter]
  refine List.filter_congr fun t _ => ?_
  rw [Bool.and_comm]

omit [Display S] in
theorem Consistent.label?_prune (h : m.Consistent) (s : S) :
    m.prune.1.label? s = if m.reach.contains s then m.label? s else none := by
  rcases m.prune_cases with ⟨hsize, e⟩ | e
  · rw [e]
    by_cases hs : s ∈ m.states
    · rw [if_pos (h.reach_contains.mpr (h.reachable_of_size_le hsize hs))]
    · have hnone : m.label? s = none := h.labels.unknown s hs
      rw [hnone, ite_self]
  · rw [e]
    show (m.labels.filter fun s _ => m.reach.contains s)[s]? = _
    rw [Std.HashMap.getElem?_filter']
    by_cases hs : m.reach.contains s = true
    · rw [if_pos hs]
      unfold label?
      cases m.labels[s]? <;> simp [Option.filter, hs]
    · rw [if_neg hs]
      cases m.labels[s]? <;> simp [Option.filter, hs]

theorem Consistent.answersWithin_prune (h : m.Consistent) : AnswersWithin m m.prune.1 := by
  have hp := h.prune_pruned
  have hc := h.prune
  have hneed : ∀ {s}, s ∈ m.reach → m.needState s = .ok () ∧ m.prune.1.needState s = .ok () :=
    fun hs => ⟨h.needState_eq_ok.mpr ((h.mem_reach.mp hs).declared h),
      hc.needState_eq_ok.mpr ((hp.mem_states h).mpr (h.mem_reach.mp hs))⟩
  have hout : ∀ {s}, s ∈ m.reach → m.prune.1.targetsOf s = m.targetsOf s := fun hs => by
    rw [targetsOf, hp.outgoingOf_eq h hc (h.mem_reach.mp hs), targetsOf]
  refine ⟨?_, h.label?_prune, fun s => by rw [hp.initial], fun s hs => ?_, fun s hs => ?_, fun s hs => ?_⟩
  · rcases m.prune_cases with ⟨-, e⟩ | e <;> rw [e]
    rfl
  · unfold post
    rw [(hneed hs).1, (hneed hs).2, hout hs]
  · unfold successors next
    rw [(hneed hs).1, (hneed hs).2, hout hs]
  · refine ⟨.ofList ((m.incomingOf s).map (·.source)),
      .ofList ((m.prune.1.incomingOf s).map (·.source)), ?_, ?_, ?_⟩
    · rw [pre, (hneed hs).1]
      rfl
    · rw [pre, (hneed hs).2]
      rfl
    · rw [hp.incomingOf_eq h hc, ← Ordered.toList_ofList_filter, List.filter_map]
      rfl

end Answers

/-! ## 4. Pruning again -/

/-- **A second pruning finds nothing to do.** -/
theorem Consistent.prune_prune (h : m.Consistent) : m.prune.1.prune = (m.prune.1, 0) := by
  have hp := h.prune_pruned
  refine h.prune.prune_eq_self fun s hs => ?_
  exact (hp.reachable_iff h).mpr ((hp.mem_states h).mp hs)

section Built

variable [Display S] [Display A] [Display P]

/-- **Reaching and pruning are exact**: what is reached is the least set that has the initial states and
    that no transition leaves; pruning returns the number of states outside of it and leaves what is
    inside, in the old order and with the old answers; a second pruning does nothing. -/
theorem reach_prune_exact (h : m.Built) :
    m.IsLeastClosed (· ∈ m.reach) ∧
      m.prune.2 = (m.states.toList.filter fun s => !m.reach.contains s).length ∧
      Pruned m m.prune.1 ∧ AnswersWithin m m.prune.1 ∧ m.prune.1.prune = (m.prune.1, 0) :=
  have hc := h.consistent
  ⟨hc.isLeastClosed_reach, hc.length_unreached, hc.prune_pruned, hc.answersWithin_prune, hc.prune_prune⟩

end Built

def backwaterParts : Parts Int Int Int where
  states := [0, 2, 1, 3, 4]
  starts := [0]
  actions := [0, 1, 2]
  props := [7]
  steps := [⟨0, 0, 1⟩, ⟨2, 0, 1⟩, ⟨1, 0, 0⟩, ⟨2, 0, 3⟩, ⟨3, 1, 2⟩]

/-- A system that goes to and fro between two states, with a backwater of two more: they lead there,
    but nothing leads back to them. Another state, an action and a proposition are not used. -/
def backwater : TransitionSystem Int Int Int := backwaterParts.system "backwater"

theorem backwater_closed : backwaterParts.Closed := ⟨by decide, by decide, by decide⟩

theorem backwater_built : backwater.Built := (backwater_closed.labeled _).2

theorem mem_initial_backwater {s : Int} : s ∈ backwater.initial ↔ s = 0 :=
  Parts.mem_initial_system.trans List.mem_singleton

theorem mem_transitions_backwater {t : Transition Int Int} :
    t ∈ backwater.transitions ↔ t ∈ backwaterParts.steps :=
  Parts.mem_transitions_system

theorem reachable_backwater {s : Int} : backwater.Reachable s ↔ s = 0 ∨ s = 1 := by
  constructor
  · refine backwater.isLeastClosed_reachable.least (fun s => s = 0 ∨ s = 1) (fun s hs => ?_)
      (fun t ht => ?_) s
    · exact Or.inl (mem_initial_backwater.mp hs)
    · rw [mem_transitions_backwater] at ht
      revert t
      decide
  · have hzero : backwater.Reachable 0 := .start (mem_initial_backwater.mpr rfl)
    rintro (rfl | rfl)
    · exact hzero
    · exact hzero.step ⟨0, mem_transitions_backwater.mpr (by decide)⟩

theorem reach_prune_exact_backwater :
    backwater.Built ∧ backwater.Reachable 1 ∧ ¬ backwater.Reachable 2 ∧
      backwater.IsLeastClosed (· ∈ backwater.reach) ∧
      backwater.prune.2 = (backwater.states.toList.filter fun s => !backwater.reach.contains s).length ∧
      Pruned backwater backwater.prune.1 ∧ AnswersWithin backwater backwater.prune.1 ∧
      backwater.prune.1.prune = (backwater.prune.1, 0) :=
  ⟨backwater_built, reachable_backwater.mpr (by decide), fun h => absurd (reachable_backwater.mp h) (by decide),
    reach_prune_exact backwater_built⟩

end TransitionSystem

end Lasso
