import Lasso.Automaton.Basic
import Lasso.Proofs.Ordered
/-!
# What an automaton accepts

* `Automaton.Built` -- the automata that the operations lead to, and `Automaton.Consistent`, what
  all of them keep: marks and edges speak of declared states only;
* `Automaton.Reads` -- the states a way to read a word of labels goes through;
* `Automaton.Accepts` -- some way to read the word meets accepting states again and again.
-/

namespace Lasso.Automaton

variable {Q P : Type} [DecidableEq Q] [Hashable Q]

/-! ## 1. The automata that the operations lead to -/

/-- What every automaton keeps. -/
structure Consistent (a : Automaton Q P) : Prop where
  states : a.states.Valid
  initial : a.initial.Valid
  accepting : a.accepting.Valid
  starts : ∀ q, q ∈ a.initial → q ∈ a.states
  marked : ∀ q, q ∈ a.accepting → q ∈ a.states
  ends : ∀ e ∈ a.edges.toList, e.source ∈ a.states ∧ e.target ∈ a.states

/-- **An automaton that is built by the operations**; a refused change leaves it as it was. -/
inductive Built [Display Q] : Automaton Q P → Prop where
  | empty : Built .empty
  | addState (a : Automaton Q P) (q : Q) (h : Built a) : Built (a.addState q)
  | setInitial (a a' : Automaton Q P) (q : Q) (on : Bool) (h : Built a)
      (he : a.setInitial q on = .ok a') : Built a'
  | setAccepting (a a' : Automaton Q P) (q : Q) (on : Bool) (h : Built a)
      (he : a.setAccepting q on = .ok a') : Built a'
  | addEdge (a a' : Automaton Q P) (e : Edge Q P) (h : Built a) (he : a.addEdge e = .ok a') : Built a'

variable {a a' : Automaton Q P}

theorem consistent_empty : (empty : Automaton Q P).Consistent where
  states := Ordered.valid_empty
  initial := Ordered.valid_empty
  accepting := Ordered.valid_empty
  starts q hq := absurd hq (Ordered.not_mem_empty q)
  marked q hq := absurd hq (Ordered.not_mem_empty q)
  ends e he := by simp [empty] at he

theorem Consistent.addState (h : a.Consistent) (q : Q) : (a.addState q).Consistent := by
  have hsub : ∀ r, r ∈ a.states → r ∈ a.states.insert q :=
    fun r hr => h.states.mem_insert.mpr (Or.inl hr)
  exact { h with
    states := h.states.insert q
    starts := fun r hr => hsub r (h.starts r hr)
    marked := fun r hr => hsub r (h.marked r hr)
    ends := fun e he => ⟨hsub _ (h.ends e he).1, hsub _ (h.ends e he).2⟩ }

/-- Marking a declared state, or taking its mark away, keeps a set of declared states. -/
theorem mark_declared {states marked : Ordered Q} (hv : marked.Valid)
    (hm : ∀ r, r ∈ marked → r ∈ states) {q : Q} (hq : q ∈ states) (on : Bool) :
    (if on then marked.insert q else marked.erase q).Valid ∧
      ∀ r, r ∈ (if on then marked.insert q else marked.erase q) → r ∈ states := by
  cases on with
  | true =>
    refine ⟨hv.insert q, fun r hr => ?_⟩
    rcases hv.mem_insert.mp hr with hr | rfl
    · exact hm r hr
    · exact hq
  | false => exact ⟨hv.erase q, fun r hr => hm r (hv.mem_erase.mp hr).1⟩

section Checked

variable [Display Q]

theorem Consistent.needState_eq_ok (h : a.Consistent) {q : Q} :
    a.needState q = .ok () ↔ q ∈ a.states := by
  unfold needState
  rw [← h.states.contains_iff]
  by_cases hq : a.states.contains q = true <;> simp [hq]

theorem Consistent.setInitial_eq_ok (h : a.Consistent) {q : Q} {on : Bool} :
    a.setInitial q on = .ok a' ↔
      q ∈ a.states ∧ a' = { a with initial := if on then a.initial.insert q else a.initial.erase q } := by
  unfold setInitial
  rw [← h.needState_eq_ok]
  cases hn : a.needState q with
  | error c => simp [bind, Except.bind]
  | ok u => simp [bind, Except.bind, pure, Except.pure, eq_comm]

theorem Consistent.setAccepting_eq_ok (h : a.Consistent) {q : Q} {on : Bool} :
    a.setAccepting q on = .ok a' ↔ q ∈ a.states ∧
      a' = { a with accepting := if on then a.accepting.insert q else a.accepting.erase q } := by
  unfold setAccepting
  rw [← h.needState_eq_ok]
  cases hn : a.needState q with
  | error c => simp [bind, Except.bind]
  | ok u => simp [bind, Except.bind, pure, Except.pure, eq_comm]

theorem Consistent.addEdge_eq_ok (h : a.Consistent) {e : Edge Q P} :
    a.addEdge e = .ok a' ↔ (e.source ∈ a.states ∧ e.target ∈ a.states) ∧
      a' = { a with edges := a.edges.push e } := by
  unfold addEdge
  rw [← h.needState_eq_ok, ← h.needState_eq_ok]
  cases hs : a.needState e.source with
  | error c => simp [bind, Except.bind]
  | ok u =>
    cases ht : a.needState e.target with
    | error c => simp [bind, Except.bind]
    | ok u => simp [bind, Except.bind, pure, Except.pure, eq_comm]

theorem Consistent.setInitial (h : a.Consistent) {q : Q} {on : Bool}
    (he : a.setInitial q on = .ok a') : a'.Consistent := by
  obtain ⟨hq, rfl⟩ := h.setInitial_eq_ok.mp he
  obtain ⟨hv, hs⟩ := mark_declared h.initial h.starts hq on
  exact { h with initial := hv, starts := hs }

theorem Consistent.setAccepting (h : a.Consistent) {q : Q} {on : Bool}
    (he : a.setAccepting q on = .ok a') : a'.Consistent := by
  obtain ⟨hq, rfl⟩ := h.setAccepting_eq_ok.mp he
  obtain ⟨hv, hs⟩ := mark_declared h.accepting h.marked hq on
  exact { h with accepting := hv, marked := hs }

theorem Consistent.addEdge (h : a.Consistent) {e : Edge Q P} (he : a.addEdge e = .ok a') :
    a'.Consistent := by
  obtain ⟨hends, rfl⟩ := h.addEdge_eq_ok.mp he
  refine { h with ends := fun e' he' => ?_ }
  rw [Array.toList_push, List.mem_append, List.mem_singleton] at he'
  rcases he' with he' | rfl
  · exact h.ends e' he'
  · exact hends

/-- **Every automaton that is built is consistent.** -/
theorem Built.consistent (hb : a.Built) : a.Consistent := by
  induction hb with
  | empty => exact consistent_empty
  | addState a q _ ih => exact ih.addState q
  | setInitial a a' q on _ he ih => exact ih.setInitial he
  | setAccepting a a' q on _ he ih => exact ih.setAccepting he
  | addEdge a a' e _ he ih => exact ih.addEdge he

end Checked

/-! ## 2. Reading words -/

section Words

variable [DecidableEq P] [Hashable P]

theorem mem_next {q r : Q} {label : Ordered P} :
    r ∈ a.next q label ↔
      ∃ e ∈ a.edges.toList, e.source = q ∧ e.guard.accepts label = true ∧ e.target = r := by
  unfold next
  rw [Ordered.mem_toList_ofList, List.mem_map]
  simp only [List.mem_filter, Bool.and_eq_true, decide_eq_true_eq, and_assoc]

theorem Consistent.mem_states_of_next (h : a.Consistent) {q r : Q} {label : Ordered P}
    (hr : r ∈ a.next q label) : q ∈ a.states ∧ r ∈ a.states := by
  obtain ⟨e, he, rfl, -, rfl⟩ := mem_next.mp hr
  exact h.ends e he

/-- A way to read a word: it starts in an initial state, and each label leads one state on. -/
structure Reads (a : Automaton Q P) (w : Nat → Ordered P) (q : Nat → Q) : Prop where
  start : q 0 ∈ a.initial
  step : ∀ i, q (i + 1) ∈ a.next (q i) (w i)

/-- **A word is accepted** when some way to read it meets accepting states again and again. -/
def Accepts (a : Automaton Q P) (w : Nat → Ordered P) : Prop :=
  ∃ q, a.Reads w q ∧ ∀ n, ∃ i, n < i ∧ q i ∈ a.accepting

end Words

end Lasso.Automaton
