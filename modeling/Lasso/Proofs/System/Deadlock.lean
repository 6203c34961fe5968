import Mathlib.Logic.Function.Iterate
import Lasso.Proofs.System.Determinism
/-!
# Deadlocks are the ends of finite runs

Questions about infinite runs say nothing of a run that cannot go on. This file shows that the problems
of a system are exactly what stands against such questions.

* `EndsRun` -- a state in which a run from an initial state ends for good; these are the reachable
  states that no step leaves (`Consistent.endsRun_iff`);
* `exists_isPath_along` -- where every reachable state has a step, **every run from an initial state is
  the beginning of an infinite path**;
* `problems_are_finite_runs` -- a system has no problems exactly if it has an initial state and none of
  its runs ends, and its deadlocks are the states in which runs end.
-/

namespace Lasso.TransitionSystem

variable {S A P : Type} [DecidableEq S] [Hashable S] [DecidableEq A] [Hashable A]
  [DecidableEq P] [Hashable P] {m : TransitionSystem S A P} {s : S}

/-! ## 1. Runs that end -/

omit [DecidableEq S] [Hashable S] [DecidableEq A] [Hashable A] in
theorem getLast?_steps (s : S) (u : List (A × S)) : (s :: u.map (·.2)).getLast? = some (endOf s u) := by
  induction u generalizing s with
  | nil => rfl
  | cons x u ih => exact ih x.2

theorem Consistent.isEmpty_outgoingOf (h : m.Consistent) :
    (m.outgoingOf s).isEmpty = true ↔ ∀ t, ¬ m.Step s t := by
  rw [List.isEmpty_iff, List.eq_nil_iff_forall_not_mem]
  constructor
  · rintro hno t ⟨a, ha⟩
    exact hno ⟨s, a, t⟩ (h.mem_outgoingOf.mpr ⟨ha, rfl⟩)
  · intro hno t ht
    obtain ⟨hm, rfl⟩ := h.mem_outgoingOf.mp ht
    exact hno t.target ⟨t.action, hm⟩

section Asked

variable [Display S] [Display A]

/-- **A state in which a run from an initial state ends**, and nothing leaves it. -/
def EndsRun (m : TransitionSystem S A P) (s : S) : Prop :=
  ∃ r : Run S A, m.isExecution r = .ok true ∧ r.states.getLast? = some s

/-- An execution starts in an initial state, and no step leaves its last state. -/
theorem Consistent.isExecution_eq_ok_true (h : m.Consistent) {r : Run S A} :
    m.isExecution r = .ok true ↔
      m.isInitialFragment r = .ok true ∧ ∃ s, r.states.getLast? = some s ∧ ∀ t, ¬ m.Step s t := by
  cases e : m.isFragment r with
  | error c =>
    have hrefused := h.refused_together r c
    simp [hrefused.1.mpr e, hrefused.2.2.mpr e]
  | ok b =>
    cases b with
    | false => simp [isExecution, isInitialFragment, e, bind, Except.bind, pure, Except.pure]
    | true =>
      obtain ⟨s, hs⟩ := h.exists_answered e
      simp [hs.isInitial, hs.isExecution, hs.last, ← h.isEmpty_outgoingOf]

/-- **The states in which runs end are the reachable ones that no step leaves.** -/
theorem Consistent.endsRun_iff (h : m.Consistent) :
    m.EndsRun s ↔ m.Reachable s ∧ ∀ t, ¬ m.Step s t := by
  constructor
  · rintro ⟨r, hr, hlast⟩
    obtain ⟨hinitial, s', hlast', hends⟩ := h.isExecution_eq_ok_true.mp hr
    obtain rfl : s = s' := Option.some.inj (hlast.symm.trans hlast')
    obtain ⟨i, u, rfl⟩ := exists_steps_of_isInitialFragment hinitial
    obtain ⟨hi, hu⟩ := h.runs_iff.mp hinitial
    rw [getLast?_steps] at hlast
    exact ⟨reachable_iff_exists_follows.mpr ⟨i, u, hi, hu, Option.some.inj hlast⟩, hends⟩
  · rintro ⟨hs, hends⟩
    obtain ⟨i, u, hi, hu, rfl⟩ := reachable_iff_exists_follows.mp hs
    refine ⟨⟨i :: u.map (·.2), u.map (·.1)⟩, h.isExecution_eq_ok_true.mpr ⟨?_, _, ?_, hends⟩, ?_⟩
    · exact h.runs_iff.mpr ⟨hi, hu⟩
    · exact getLast?_steps i u
    · exact getLast?_steps i u

end Asked

/-! ## 2. Runs that go on -/

/-- Where every reachable state has a step, one can go on for ever. -/
theorem exists_endless (hstep : ∀ s, m.Reachable s → ∃ t, m.Step s t) (hs : m.Reachable s) :
    ∃ y : Nat → S, y 0 = s ∧ ∀ i, m.Step (y i) (y (i + 1)) := by
  -- the steps are chosen on reachable states only: these always have a next one, which is reachable too
  choose next hnext using fun x : {s // m.Reachable s} => hstep x.1 x.2
  let go : {s // m.Reachable s} → {s // m.Reachable s} := fun x => ⟨next x, x.2.step (hnext x)⟩
  refine ⟨fun i => (go^[i] ⟨s, hs⟩).1, rfl, fun i => ?_⟩
  simp only [Function.iterate_succ_apply']
  exact hnext _

/-- Steps may be put before a sequence that goes on where they end. -/
theorem exists_sequence_along {y : Nat → S} (hy : ∀ i, m.Step (y i) (y (i + 1))) {u : List (A × S)}
    (hu : m.Follows s u) (hend : y 0 = endOf s u) :
    ∃ x : Nat → S, x 0 = s ∧ (∀ i, m.Step (x i) (x (i + 1))) ∧
      ∀ i t, (s :: u.map (·.2))[i]? = some t → x i = t := by
  induction u generalizing s with
  | nil =>
    refine ⟨y, hend, hy, fun i t ht => ?_⟩
    cases i with
    | zero => exact hend.trans (Option.some.inj ht)
    | succ i => cases ht
  | cons z u ih =>
    obtain ⟨x, hx₀, hx, hpass⟩ := ih hu.2 hend
    refine ⟨Nat.rec (motive := fun _ => S) s fun i _ => x i, rfl, fun i => ?_, fun i t ht => ?_⟩
    · cases i with
      | zero =>
        show m.Step s (x 0)
        rw [hx₀]
        exact ⟨z.1, hu.1⟩
      | succ i => exact hx i
    · cases i with
      | zero => exact Option.some.inj ht
      | succ i => exact hpass i t ht

section Asked

variable [Display S] [Display A]

/-- **Every run from an initial state is the beginning of an infinite path** if every reachable state has
    a step. -/
theorem Consistent.exists_isPath_along (h : m.Consistent)
    (hstep : ∀ s, m.Reachable s → ∃ t, m.Step s t) {i : S} {u : List (A × S)} (hrun : m.Runs i u) :
    ∃ x, m.IsPath x ∧ ∀ k t, (i :: u.map (·.2))[k]? = some t → x k = t := by
  obtain ⟨hi, hu⟩ := h.runs_iff.mp hrun
  obtain ⟨y, hy₀, hy⟩ := exists_endless hstep (reachable_iff_exists_follows.mpr ⟨i, u, hi, hu, rfl⟩)
  obtain ⟨x, hx₀, hx, hpass⟩ := exists_sequence_along hy hu hy₀
  exact ⟨x, ⟨hx₀ ▸ hi, hx⟩, hpass⟩

theorem Consistent.exists_runs_append (h : m.Consistent)
    (hstep : ∀ s, m.Reachable s → ∃ t, m.Step s t) {i : S} {u : List (A × S)} (hrun : m.Runs i u) :
    ∃ a t, m.Runs i (u ++ [(a, t)]) := by
  obtain ⟨hi, hu⟩ := h.runs_iff.mp hrun
  obtain ⟨t, a, ha⟩ := hstep _ (reachable_iff_exists_follows.mpr ⟨i, u, hi, hu, rfl⟩)
  have happend : Along m.StepBy i (u ++ [(a, t)]) := (along_stepBy.mpr hu).append ha
  exact ⟨a, t, h.runs_iff.mpr ⟨hi, along_stepBy.mp happend⟩⟩

/-! ## 3. Problems -/

/-- The states that are reported as deadlocks, in their order. -/
def deadlocks (m : TransitionSystem S A P) : List S :=
  m.reachable.filter fun s => (m.outgoingOf s).isEmpty

theorem Consistent.mem_deadlocks (h : m.Consistent) : s ∈ m.deadlocks ↔ m.EndsRun s := by
  rw [deadlocks, List.mem_filter, h.mem_reachable, h.isEmpty_outgoingOf, h.endsRun_iff]

omit [Display S] [Display A] in
theorem sublist_deadlocks (m : TransitionSystem S A P) : m.deadlocks.Sublist m.states.toList :=
  List.filter_sublist.trans List.filter_sublist

omit [Display A] in
theorem problems_of_no_initial (hno : ∀ s, ¬ s ∈ m.initial) :
    m.problems = .noInitial m.name :: m.deadlocks.map fun s => .deadlock (Display.text s) := by
  have hempty : m.initial.isEmpty = true := by
    refine Array.isEmpty_iff.mpr (Array.eq_empty_iff_forall_not_mem.mpr fun s hs => ?_)
    exact hno s (Array.mem_toList_iff.mpr hs)
  rw [problems, hempty]
  rfl

omit [Display A] in
theorem problems_of_initial (hs : s ∈ m.initial) :
    m.problems = m.deadlocks.map fun s => .deadlock (Display.text s) := by
  have hempty : m.initial.isEmpty = false :=
    Array.isEmpty_eq_false_iff_exists_mem.mpr ⟨s, Array.mem_toList_iff.mp hs⟩
  rw [problems, hempty]
  rfl

omit [Display A] in
theorem exists_noInitial_iff :
    (∃ c ∈ m.problems, c.kind = .noInitial) ↔ ∀ s, ¬ s ∈ m.initial := by
  constructor
  · rintro ⟨c, hc, hkind⟩ s hs
    rw [problems_of_initial hs] at hc
    obtain ⟨t, -, rfl⟩ := List.mem_map.mp hc
    cases hkind
  · intro hno
    rw [problems_of_no_initial hno]
    exact ⟨_, List.mem_cons_self, rfl⟩

omit [Display A] in
/-- The problems that are deadlocks. -/
theorem filter_deadlock_problems (m : TransitionSystem S A P) :
    m.problems.filter (fun c => c.kind = .deadlock) =
      m.deadlocks.map fun s => .deadlock (Display.text s) := by
  have hall : ∀ c ∈ m.deadlocks.map fun s => SystemError.deadlock (Display.text s),
      decide (c.kind = .deadlock) = true := by
    intro c hc
    obtain ⟨s, -, rfl⟩ := List.mem_map.mp hc
    rfl
  by_cases hno : ∀ s, ¬ s ∈ m.initial
  · rw [problems_of_no_initial hno, List.filter_cons_of_neg (by simp [SystemError.kind]),
      List.filter_eq_self.mpr hall]
  · obtain ⟨s, hs⟩ := not_forall_not.mp hno
    rw [problems_of_initial hs, List.filter_eq_self.mpr hall]

/-- **There are no problems exactly if there is an initial state and no run ends.** -/
theorem Consistent.problems_eq_nil (h : m.Consistent) :
    m.problems = [] ↔ (∃ s, s ∈ m.initial) ∧ ∀ r : Run S A, m.isExecution r ≠ .ok true := by
  by_cases hno : ∀ s, ¬ s ∈ m.initial
  · rw [problems_of_no_initial hno]
    simp [hno]
  · obtain ⟨i, hi⟩ := not_forall_not.mp hno
    rw [problems_of_initial hi, List.map_eq_nil_iff, List.eq_nil_iff_forall_not_mem]
    simp only [h.mem_deadlocks]
    constructor
    · refine fun hends => ⟨⟨i, hi⟩, fun r hr => ?_⟩
      obtain ⟨-, s, hs, -⟩ := h.isExecution_eq_ok_true.mp hr
      exact hends s ⟨r, hr, hs⟩
    · rintro ⟨-, hruns⟩ s ⟨r, hr, -⟩
      exact hruns r hr

theorem Consistent.exists_step_of_problems (h : m.Consistent) (hnone : m.problems = [])
    (hs : m.Reachable s) : ∃ t, m.Step s t := by
  refine not_forall_not.mp fun hends => ?_
  obtain ⟨r, hr, -⟩ := h.endsRun_iff.mpr ⟨hs, hends⟩
  exact (h.problems_eq_nil.mp hnone).2 r hr

end Asked

section Built

variable [Display S] [Display A] [Display P]

/-- **The problems of a system are its finite runs.** It has none exactly if it has an initial state and
    no run ends; it is told that there is no initial state exactly if there is none; and its deadlocks
    are the states in which runs end, each once and in the order of the states. A run of a system
    without problems can be extended by a step, and is the beginning of an infinite path. -/
theorem problems_are_finite_runs (h : m.Built) :
    (m.problems = [] ↔ (∃ s, s ∈ m.initial) ∧ ∀ r : Run S A, m.isExecution r ≠ .ok true) ∧
      ((∃ c ∈ m.problems, c.kind = .noInitial) ↔ ∀ s, ¬ s ∈ m.initial) ∧
      (∃ ends : List S, ends.Sublist m.states.toList ∧ ends.Nodup ∧ (∀ s, s ∈ ends ↔ m.EndsRun s) ∧
        m.problems.filter (fun c => c.kind = .deadlock) =
          ends.map fun s => .deadlock (Display.text s)) ∧
      (m.problems = [] → ∀ r : Run S A, m.isInitialFragment r = .ok true →
        (∃ a t, m.isInitialFragment ⟨r.states ++ [t], r.actions ++ [a]⟩ = .ok true) ∧
          ∃ x, m.IsPath x ∧ ∀ k t, r.states[k]? = some t → x k = t) := by
  have hc := h.consistent
  refine ⟨hc.problems_eq_nil, exists_noInitial_iff, ?_, fun hnone r hr => ?_⟩
  · exact ⟨m.deadlocks, m.sublist_deadlocks, hc.states.nodup.sublist m.sublist_deadlocks,
      fun s => hc.mem_deadlocks, m.filter_deadlock_problems⟩
  · have hstep : ∀ s, m.Reachable s → ∃ t, m.Step s t := fun s => hc.exists_step_of_problems hnone
    obtain ⟨i, u, rfl⟩ := exists_steps_of_isInitialFragment hr
    obtain ⟨a, t, hat⟩ := hc.exists_runs_append hstep hr
    refine ⟨⟨a, t, ?_⟩, hc.exists_isPath_along hstep hr⟩
    simpa [Runs] using hat

end Built

/-- `backwater` with a way out of what is reached, to a state that nothing leaves. -/
def estuary : TransitionSystem Int Int Int := backwater.insertTransition ⟨1, 2, 4⟩

theorem estuary_built : estuary.Built := by
  refine backwater_built.insertTransition ((admits_iff backwater_built.consistent).mpr ?_)
  rw [mem_states_backwater, mem_states_backwater, mem_actions_backwater]
  decide

theorem mem_transitions_estuary {t : Transition Int Int} :
    t ∈ estuary.transitions ↔ t ∈ ⟨1, 2, 4⟩ :: backwaterParts.steps := by
  rw [estuary, transitions_insertTransition, backwater_built.consistent.transitions.mem_insert,
    mem_transitions_backwater, List.mem_cons, or_comm]

theorem endsRun_estuary {s : Int} : estuary.EndsRun s ↔ s = 4 := by
  rw [estuary_built.consistent.endsRun_iff]
  have hinitial : estuary.initial = backwater.initial := initial_insertTransition _ _
  constructor
  · rintro ⟨hs, hends⟩
    have hwithin := estuary.isLeastClosed_reachable.least (fun s => s = 0 ∨ s = 1 ∨ s = 4)
      (fun s hs => Or.inl (mem_initial_backwater.mp (hinitial ▸ hs))) (fun t ht => by
        rw [mem_transitions_estuary] at ht
        revert t
        decide) s hs
    rcases hwithin with rfl | rfl | rfl
    · exact absurd ⟨0, mem_transitions_estuary.mpr (by decide)⟩ (hends 1)
    · exact absurd ⟨0, mem_transitions_estuary.mpr (by decide)⟩ (hends 0)
    · rfl
  · rintro rfl
    have hzero : estuary.Reachable 0 := .start (hinitial ▸ mem_initial_backwater.mpr rfl)
    have hone : estuary.Reachable 1 := hzero.step ⟨0, mem_transitions_estuary.mpr (by decide)⟩
    refine ⟨hone.step ⟨2, mem_transitions_estuary.mpr (by decide)⟩, fun t ht => ?_⟩
    obtain ⟨a, ha⟩ := ht
    rw [mem_transitions_estuary] at ha
    have hnone : ∀ u ∈ (⟨1, 2, 4⟩ :: backwaterParts.steps : List (Transition Int Int)), u.source ≠ 4 := by decide
    exact hnone _ ha rfl

theorem problems_are_finite_runs_estuary :
    backwater.Built ∧ backwater.problems = [] ∧
      (∃ a t, backwater.isInitialFragment ⟨[0] ++ [t], [] ++ [a]⟩ = .ok true) ∧
      estuary.Built ∧ estuary.problems.filter (fun c => c.kind = .deadlock) = [.deadlock "4"] := by
  obtain ⟨hnil, -, -, hon⟩ := problems_are_finite_runs backwater_built
  obtain ⟨-, -, ⟨ends, -, hnodup, hends, hproblems⟩, -⟩ := problems_are_finite_runs estuary_built
  have hc := backwater_built.consistent
  have hruns : ∀ r : Run Int Int, backwater.isExecution r ≠ .ok true := fun r hr => by
    obtain ⟨-, s, hlast, -⟩ := hc.isExecution_eq_ok_true.mp hr
    obtain ⟨hs, hends⟩ := hc.endsRun_iff.mp ⟨r, hr, hlast⟩
    rcases reachable_backwater.mp hs with rfl | rfl
    · exact hends 1 ⟨0, mem_transitions_backwater.mpr (by decide)⟩
    · exact hends 0 ⟨0, mem_transitions_backwater.mpr (by decide)⟩
  have hnone : backwater.problems = [] := hnil.mpr ⟨⟨0, mem_initial_backwater.mpr rfl⟩, hruns⟩
  have hfour : ends = [4] := List.perm_singleton.mp
    ((List.perm_ext_iff_of_nodup hnodup (List.nodup_singleton 4)).mpr fun s => by
      rw [hends, endsRun_estuary, List.mem_singleton])
  have hrun : backwater.Runs 0 [] := hc.runs_iff.mpr ⟨mem_initial_backwater.mpr rfl, trivial⟩
  rw [hfour] at hproblems
  exact ⟨backwater_built, hnone, (hon hnone ⟨[0], []⟩ hrun).1, estuary_built, hproblems⟩

end Lasso.TransitionSystem
