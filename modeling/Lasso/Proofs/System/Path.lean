import Mathlib.Data.Fintype.Card
import Mathlib.Data.List.Chain
import Mathlib.Data.Set.Finite.List
import Mathlib.Order.Interval.Finset.Nat
import Lasso.Proofs.System.Reach
import Lasso.Proofs.Yields
import Lasso.System.Run
/-!
# Infinite paths and lassos

* `IsPath` -- the infinite paths of a system from an initial state;
* `exists_cycle_of_often` -- **a path that meets a property again and again meets a state with it that
  lies on a cycle**, because there are finitely many states;
* `unroll` -- the infinite sequence that follows a stem and then a cycle for ever; its steps are
  those of the stem, of the cycle and the one that closes the cycle (`unroll_step`);
* `isInitialFragment_of_isChain` -- every list of states along steps is a run with some actions;
* `Runs` -- a run given by its first state and its steps; these are transitions, one behind the other
  (`Consistent.runs_iff`), and the reachable states are those in which a run ends
  (`reachable_iff_exists_follows`).
-/

namespace Lasso

/-! ## 1. Lassos -/

section Lasso

variable {S T : Type}

/-- The `i`th state of the sequence that follows a stem and then a cycle for ever. -/
def unroll (stem cycle : List S) (hc : cycle ≠ []) (i : Nat) : S :=
  if h : i < stem.length then stem[i]
  else cycle.get ⟨(i - stem.length) % cycle.length, Nat.mod_lt _ (List.length_pos_iff.mpr hc)⟩

variable {stem cycle : List S} (hc : cycle ≠ [])

theorem unroll_of_lt {i : Nat} (hi : i < stem.length) : unroll stem cycle hc i = stem[i] := by
  unfold unroll
  rw [dif_pos hi]

/-- Behind the stem the sequence goes round the cycle. -/
theorem unroll_add_length {i : Nat} (hi : stem.length ≤ i) :
    unroll stem cycle hc (i + cycle.length) = unroll stem cycle hc i := by
  unfold unroll
  rw [dif_neg (by omega), dif_neg (by omega)]
  congr 2
  have e : i + cycle.length - stem.length = i - stem.length + cycle.length := by omega
  rw [e, Nat.add_mod_right]

theorem unroll_turn (n : Nat) :
    unroll stem cycle hc (stem.length + cycle.length * n) = cycle.head hc := by
  unfold unroll
  have e : (stem.length + cycle.length * n - stem.length) % cycle.length = 0 := by
    rw [Nat.add_sub_cancel_left, Nat.mul_mod_right]
  rw [dif_neg (by omega), List.head_eq_getElem]
  simp only [List.get_eq_getElem, e]

/-- **One turn of the lasso, with the state that closes it.** -/
theorem getElem?_lasso {i : Nat} (hi : i ≤ stem.length + cycle.length) :
    (stem ++ cycle ++ [cycle.head hc])[i]? = some (unroll stem cycle hc i) := by
  have hpos : 0 < cycle.length := List.length_pos_iff.mpr hc
  rcases Nat.lt_or_ge i stem.length with h1 | h1
  · rw [List.append_assoc, List.getElem?_append_left h1, unroll_of_lt hc h1, List.getElem?_eq_getElem]
  · rcases Nat.lt_or_ge i (stem.length + cycle.length) with h2 | h2
    · rw [List.getElem?_append_left (by simpa using h2), List.getElem?_append_right h1]
      unfold unroll
      rw [dif_neg (by omega)]
      have hmod : (i - stem.length) % cycle.length = i - stem.length := Nat.mod_eq_of_lt (by omega)
      rw [List.getElem?_eq_getElem (by omega)]
      simp only [List.get_eq_getElem, hmod]
    · have e : i = stem.length + cycle.length * 1 := by omega
      rw [e, unroll_turn hc, List.getElem?_append_right (by simp)]
      simp

theorem unroll_zero : (stem ++ cycle).head? = some (unroll stem cycle hc 0) := by
  have hpos : 0 < cycle.length := List.length_pos_iff.mpr hc
  have h := getElem?_lasso hc (Nat.zero_le (stem.length + cycle.length))
  rw [List.getElem?_append_left (by rw [List.length_append]; omega)] at h
  rw [List.head?_eq_getElem?]
  exact h

/-- **The steps of the sequence are those of one turn.** -/
theorem unroll_step {R : S → S → Prop} (h : List.IsChain R (stem ++ cycle ++ [cycle.head hc]))
    (i : Nat) : R (unroll stem cycle hc i) (unroll stem cycle hc (i + 1)) := by
  have hpos : 0 < cycle.length := List.length_pos_iff.mpr hc
  induction i using Nat.strong_induction_on with
  | _ i ih =>
    rcases Nat.lt_or_ge i (stem.length + cycle.length) with hi | hi
    · obtain ⟨h1, e1⟩ := List.getElem?_eq_some_iff.mp (getElem?_lasso hc (Nat.le_of_lt hi))
      obtain ⟨h2, e2⟩ := List.getElem?_eq_some_iff.mp (getElem?_lasso hc hi)
      have := List.isChain_iff_getElem.mp h i h2
      rwa [e1, e2] at this
    · -- one turn earlier stand the same two states
      have hj := ih (i - cycle.length) (by omega)
      have e1 := unroll_add_length hc (show stem.length ≤ i - cycle.length by omega)
      have e2 := unroll_add_length hc (show stem.length ≤ i - cycle.length + 1 by omega)
      rw [← e1, ← e2] at hj
      have e3 : i - cycle.length + cycle.length = i := by omega
      have e4 : i - cycle.length + 1 + cycle.length = i + 1 := by omega
      rwa [e3, e4] at hj

/-- The sequence comes back to the head of the cycle. -/
theorem unroll_again (n : Nat) : ∃ i, n < i ∧ unroll stem cycle hc i = cycle.head hc := by
  have hpos : 0 < cycle.length := List.length_pos_iff.mpr hc
  refine ⟨stem.length + cycle.length * (n + 1), ?_, unroll_turn hc (n + 1)⟩
  have := Nat.le_mul_of_pos_left (n + 1) hpos
  omega

theorem unroll_map (f : S → T) (hf : cycle.map f ≠ []) (i : Nat) :
    unroll (stem.map f) (cycle.map f) hf i = f (unroll stem cycle hc i) := by
  unfold unroll
  by_cases hi : i < stem.length
  · rw [dif_pos (by simpa using hi), dif_pos hi, List.getElem_map]
  · rw [dif_neg (by simpa using hi), dif_neg hi]
    simp [List.get_eq_getElem]

/-- **Turns of the lasso are steps** as the one turn is, however many there are. -/
theorem isChain_turns {R : S → S → Prop} (h : List.IsChain R (stem ++ cycle ++ [cycle.head hc]))
    (n : Nat) : List.IsChain R (stem ++ (List.replicate n cycle).flatten ++ [cycle.head hc]) := by
  obtain ⟨c, rest, rfl⟩ := List.exists_cons_of_ne_nil hc
  have hturn : List.IsChain R ([c] ++ (rest ++ [c])) := by
    rw [List.append_assoc] at h
    exact List.IsChain.right_of_append h
  induction n with
  | zero =>
    have h' : List.IsChain R (stem ++ [c] ++ (rest ++ [c])) := by simpa using h
    simpa using List.IsChain.left_of_append h'
  | succ n ih =>
    have h' := List.IsChain.append_overlap ih hturn (by simp)
    rw [List.replicate_succ', List.flatten_append]
    simpa using h'

theorem head?_turns (n : Nat) :
    (stem ++ (List.replicate n cycle).flatten ++ [cycle.head hc]).head? = (stem ++ cycle).head? := by
  obtain ⟨c, rest, rfl⟩ := List.exists_cons_of_ne_nil hc
  cases stem with
  | nil => cases n <;> rfl
  | cons s stem => rfl

end Lasso

namespace TransitionSystem

variable {S A P : Type} [DecidableEq S] [Hashable S] [DecidableEq A] [Hashable A]
  [DecidableEq P] [Hashable P] {m : TransitionSystem S A P}

/-! ## 2. Infinite paths -/

/-- **An infinite path** from an initial state. -/
structure IsPath (m : TransitionSystem S A P) (x : Nat → S) : Prop where
  start : x 0 ∈ m.initial
  step : ∀ i, m.Step (x i) (x (i + 1))

/-- The way to and fro between two states. -/
theorem isPath_alternating {s t : S} (hs : s ∈ m.initial) (hthere : m.Step s t) (hback : m.Step t s) :
    m.IsPath fun i => if i % 2 = 0 then s else t where
  start := hs
  step i := by
    rcases Nat.mod_two_eq_zero_or_one i with hi | hi
    · rw [if_pos hi, if_neg (by omega)]
      exact hthere
    · rw [if_neg (by omega), if_pos (by omega)]
      exact hback

theorem IsPath.reachable {x : Nat → S} (hx : m.IsPath x) (i : Nat) : m.Reachable (x i) := by
  induction i with
  | zero => exact Reachable.start hx.start
  | succ i ih => exact ih.step (hx.step i)

theorem IsPath.transGen {x : Nat → S} (hx : m.IsPath x) {i j : Nat} (hij : i < j) :
    Relation.TransGen m.Step (x i) (x j) := by
  induction j with
  | zero => omega
  | succ j ih =>
    rcases Nat.lt_succ_iff_lt_or_eq.mp hij with h | rfl
    · exact (ih h).tail (hx.step j)
    · exact .single (hx.step i)

/-- **The pigeonhole principle on paths**: what a path meets again and again it meets in some state
    twice, since the states it goes through are declared. -/
theorem IsPath.exists_cycle_of_often (h : m.Consistent) {x : Nat → S} (hx : m.IsPath x)
    {C : S → Prop} (hC : ∀ n, ∃ i, n < i ∧ C (x i)) :
    ∃ i, C (x i) ∧ Relation.TransGen m.Step (x i) (x i) := by
  have hinf : {i | C (x i)}.Infinite := Set.infinite_iff_exists_gt.mpr fun n => by
    obtain ⟨i, hi, hCi⟩ := hC n
    exact ⟨i, hCi, hi⟩
  have hmaps : Set.MapsTo x {i | C (x i)} {s | s ∈ m.states.toList} :=
    fun i _ => (hx.reachable i).declared h
  obtain ⟨i, hi, j, hj, hne, e⟩ :=
    hinf.exists_ne_map_eq_of_mapsTo hmaps (List.finite_toSet m.states.toList)
  rcases Nat.lt_or_gt_of_ne hne with hij | hij
  · refine ⟨i, hi, ?_⟩
    have ht := hx.transGen hij
    rwa [← e] at ht
  · refine ⟨j, hj, ?_⟩
    have ht := hx.transGen hij
    rwa [e] at ht

theorem Pruned.isPath_iff {p : TransitionSystem S A P} (hp : Pruned m p) (h : m.Consistent)
    {x : Nat → S} : p.IsPath x ↔ m.IsPath x := by
  constructor
  · intro hx
    refine ⟨hp.initial ▸ hx.start, fun i => ?_⟩
    obtain ⟨a, ha⟩ := hx.step i
    exact ⟨a, ((hp.mem_transitions h).mp ha).1⟩
  · intro hx
    refine ⟨hp.initial.symm ▸ hx.start, fun i => ?_⟩
    obtain ⟨a, ha⟩ := hx.step i
    exact ⟨a, (hp.mem_transitions h).mpr ⟨ha, hx.reachable i⟩⟩

/-- A lasso along steps from an initial state is a path. -/
theorem isPath_unroll {stem cycle : List S} {hc : cycle ≠ []} {i : S}
    (hi : (stem ++ cycle).head? = some i) (hinit : i ∈ m.initial)
    (hchain : List.IsChain m.Step (stem ++ cycle ++ [cycle.head hc])) :
    m.IsPath (unroll stem cycle hc) where
  start := by
    rw [unroll_zero hc] at hi
    exact Option.some.inj hi ▸ hinit
  step := unroll_step hc hchain

/-! ## 3. Finite runs -/

section Runs

variable [Display S] [Display A]

omit [Display A] in
theorem Consistent.needState_eq_ok (h : m.Consistent) {s : S} :
    m.needState s = .ok () ↔ s ∈ m.states := by
  unfold needState
  rw [← h.states.contains_iff]
  by_cases hs : m.states.contains s = true <;> simp [hs]

omit [Display A] in
/-- A state with a transition is not terminal. -/
theorem Consistent.isTerminal_source (h : m.Consistent) {t : Transition S A} (ht : t ∈ m.transitions) :
    m.isTerminal t.source = .ok false := by
  have hout : (m.outgoingOf t.source).isEmpty = false :=
    List.isEmpty_eq_false_iff_exists_mem.mpr ⟨t, h.mem_outgoingOf.mpr ⟨ht, rfl⟩⟩
  rw [isTerminal, h.needState_eq_ok.mpr (h.ends t ht).1]
  exact congrArg Except.ok hout

omit [Display S] in
theorem Consistent.needAction_eq_ok (h : m.Consistent) {a : A} :
    m.needAction a = .ok () ↔ a ∈ m.actions := by
  unfold needAction
  rw [← h.actions.contains_iff]
  by_cases ha : m.actions.contains a = true <;> simp [ha]

/-- Along steps there are actions with which the states are a run. -/
theorem Consistent.exists_follows (h : m.Consistent) :
    ∀ {ss : List S}, ss ≠ [] → List.IsChain m.Step ss →
      ∃ as : List A, ss.length = as.length + 1 ∧ m.follows ss as = .ok true
  | [], hne, _ => absurd rfl hne
  | [s], _, _ => ⟨[], rfl, rfl⟩
  | s :: t :: rest, _, hchain => by
    obtain ⟨⟨a, ha⟩, hrest⟩ := List.isChain_cons_cons.mp hchain
    obtain ⟨as, hlen, has⟩ := h.exists_follows (by simp) hrest
    obtain ⟨h1, h2, h3⟩ := h.ends _ ha
    refine ⟨a :: as, by rw [List.length_cons, hlen, List.length_cons], ?_⟩
    unfold follows
    rw [h.needState_eq_ok.mpr h1, h.needAction_eq_ok.mpr h3, h.needState_eq_ok.mpr h2,
      h.transitions.contains_iff.mpr ha]
    exact has

/-- **States along steps from an initial state are an initial run with some actions.** -/
theorem Consistent.isInitialFragment_of_isChain (h : m.Consistent) {ss : List S} {i : S}
    (hi : ss.head? = some i) (hinit : i ∈ m.initial) (hchain : List.IsChain m.Step ss) :
    ∃ as, m.isInitialFragment ⟨ss, as⟩ = .ok true := by
  obtain ⟨s, rest, rfl⟩ : ∃ s rest, ss = s :: rest := by
    cases ss with
    | nil => cases hi
    | cons s rest => exact ⟨s, rest, rfl⟩
  obtain ⟨as, hlen, has⟩ := h.exists_follows (by simp) hchain
  have hs : s = i := Option.some.inj hi
  have hlen' : rest.length = as.length := by simpa using hlen
  have hneed : m.needState s = .ok () := h.needState_eq_ok.mpr (h.starts s (hs ▸ hinit))
  have hfrag : m.isFragment ⟨s :: rest, as⟩ = .ok true := by
    unfold isFragment
    simp only [hlen', ne_eq, not_true, if_false, hneed]
    split <;> exact has
  refine ⟨as, ?_⟩
  unfold isInitialFragment
  rw [hfrag]
  show Except.ok (m.initial.contains s) = _
  rw [h.initial.contains_iff.mpr (hs ▸ hinit)]

end Runs

/-! ## 4. Runs by their steps -/

/-- Each step, an action and the state it leads to, is a transition from the state before it. -/
def Follows (m : TransitionSystem S A P) : S → List (A × S) → Prop
  | _, [] => True
  | s, (a, t) :: u => ⟨s, a, t⟩ ∈ m.transitions ∧ m.Follows t u

/-- The state that steps from a state lead to. -/
def endOf (s : S) : List (A × S) → S
  | [] => s
  | (_, t) :: u => endOf t u

/-- **A state can be reached exactly if steps from an initial state end in it.** -/
theorem reachable_iff_exists_follows {s : S} :
    m.Reachable s ↔ ∃ i u, i ∈ m.initial ∧ m.Follows i u ∧ endOf i u = s := by
  constructor
  · rintro ⟨i, hi, his⟩
    have hsteps : ∃ u, m.Follows i u ∧ endOf i u = s := by
      clear hi
      induction his using Relation.ReflTransGen.head_induction_on with
      | refl => exact ⟨[], trivial, rfl⟩
      | head hst _ ih =>
        obtain ⟨a, ha⟩ := hst
        obtain ⟨u, hu, hend⟩ := ih
        exact ⟨(a, _) :: u, ⟨ha, hu⟩, hend⟩
    obtain ⟨u, hu, hend⟩ := hsteps
    exact ⟨i, u, hi, hu, hend⟩
  · rintro ⟨i, u, hi, hu, rfl⟩
    have hreach : m.Reachable i := .start hi
    clear hi
    induction u generalizing i with
    | nil => exact hreach
    | cons x u ih => exact ih x.2 hu.2 (hreach.step ⟨x.1, hu.1⟩)

section Along

variable [Display S] [Display A]

/-- **The run of a first state and steps is a run of the system from an initial state.** -/
def Runs (m : TransitionSystem S A P) (s : S) (u : List (A × S)) : Prop :=
  m.isInitialFragment ⟨s :: u.map (·.2), u.map (·.1)⟩ = .ok true

theorem Consistent.follows_eq_ok_true (h : m.Consistent) {s : S} {u : List (A × S)} :
    m.follows (s :: u.map (·.2)) (u.map (·.1)) = .ok true ↔ m.Follows s u := by
  induction u generalizing s with
  | nil => exact ⟨fun _ => trivial, fun _ => rfl⟩
  | cons x u ih =>
    obtain ⟨a, t⟩ := x
    rw [List.map_cons, List.map_cons, follows]
    constructor
    · intro e
      obtain ⟨-, -, e⟩ := bind_eq_ok.mp e
      obtain ⟨-, -, e⟩ := bind_eq_ok.mp e
      obtain ⟨-, -, e⟩ := bind_eq_ok.mp e
      split at e
      · rename_i ht
        exact ⟨h.transitions.contains_iff.mp ht, ih.mp e⟩
      · cases e
    · rintro ⟨ht, hu⟩
      obtain ⟨h1, h2, h3⟩ := h.ends _ ht
      rw [h.needState_eq_ok.mpr h1, h.needAction_eq_ok.mpr h3, h.needState_eq_ok.mpr h2,
        h.transitions.contains_iff.mpr ht]
      exact ih.mpr hu

/-- **A run starts in an initial state and follows transitions.** -/
theorem Consistent.runs_iff (h : m.Consistent) {s : S} {u : List (A × S)} :
    m.Runs s u ↔ s ∈ m.initial ∧ m.Follows s u := by
  rw [← h.initial.contains_iff, ← h.follows_eq_ok_true]
  unfold Runs isInitialFragment isFragment
  simp only [List.length_map, ne_eq, not_true, if_false]
  constructor
  · intro e
    obtain ⟨b, hb, e⟩ := bind_eq_ok.mp e
    cases b with
    | false => cases e
    | true =>
      refine ⟨Except.ok.inj e, ?_⟩
      split at hb
      · obtain ⟨-, -, hb⟩ := bind_eq_ok.mp hb
        exact hb
      · exact hb
  · rintro ⟨hi, hu⟩
    have hneed : m.needState s = .ok () :=
      h.needState_eq_ok.mpr (h.starts s (h.initial.contains_iff.mp hi))
    rw [hneed, hu]
    split <;> exact congrArg Except.ok hi

end Along

end TransitionSystem

end Lasso
