import Lasso.Proofs.Automaton.Shapes
import Lasso.Proofs.Product
import Lasso.Proofs.Search.Nested
import Lasso.Verify
/-!
# Verification finds an accepted run exactly when there is one

* `productLasso?` -- the lasso that both searches find in the product of a system and an automaton;
  what a check says is read off it (`verdict_of_verify`);
* `IsAcceptedLasso` -- what such a lasso shows: along it the system steps from an initial state
  (`isChain_first`), and the automaton accepts the run that goes round it (`accepts`);
* `verify_decides` -- **a check fails exactly when some path of the system is accepted**;
* `accepts_of_verify_eq_violated` -- what a failed check shows is such a path;
* `shapes_accept_behaviours` -- the automata of the common shapes accept the behaviours they are named
  after, so that checking for one behaviour shows that its opposite is everywhere.
-/

namespace Lasso.TransitionSystem

variable {S A P Q : Type} [DecidableEq S] [Hashable S] [DecidableEq A] [Hashable A]
  [DecidableEq P] [Hashable P] [DecidableEq Q] [Hashable Q]

/-! ## 1. What a check reads its verdict off -/

section Search

variable {p : TransitionSystem S A P}

theorem Consistent.leads_next (h : p.Consistent) : Leads p.next = p.Step := by
  funext s t
  exact propext h.mem_next

/-- The searches may enter every successor. -/
theorem Consistent.known_of_next (h : p.Consistent) (s t : S) (ht : t ∈ p.next s) :
    t ∈ p.states.index := by
  obtain ⟨a, ha⟩ := h.mem_next.mp ht
  exact h.states.mem_index.mpr (h.ends _ ha).2.1

end Search

/-- The lasso of the product that the two searches find. -/
def productLasso? (m : TransitionSystem S A P) (a : Automaton Q P) :
    Option (List (Pair S Q) × List (Pair S Q)) :=
  (sweep (m.product a).states.index (m.product a).next (fun x => a.accepting.contains x.second)
    (m.product a).initial.toList).lasso? (m.product a).states.index (m.product a).next

section Verify

variable [Display S] [Display Q] {m : TransitionSystem S A P} {a : Automaton Q P} {o : VerifyOptions}

/-- A check that is not canceled has a result. -/
theorem exists_verify_eq_ok (m : TransitionSystem S A P) (a : Automaton Q P)
    (hc : o.canceled = false) : ∃ r, m.verify o a = .ok r := by
  unfold verify checkEmptiness
  rw [hc]
  exact ⟨_, rfl⟩

theorem verdict_of_verify {r : Checked S Q} (e : m.verify o a = .ok r) :
    r.verdict = verdictOf (m.productLasso? a) := by
  unfold verify checkEmptiness at e
  cases hc : (o.canceled && !(m.product a).initial.isEmpty) with
  | true =>
    simp only [hc] at e
    cases e
  | false =>
    simp only [hc] at e
    cases e
    rfl

end Verify

/-! ## 2. Lassos and accepted paths -/

section Lasso

variable {m : TransitionSystem S A P} {a : Automaton Q P}

/-- A lasso of the product along its steps, from an initial state and through an accepting one. -/
structure IsAcceptedLasso (m : TransitionSystem S A P) (a : Automaton Q P)
    (stem cycle : List (Pair S Q)) (hc : cycle ≠ []) : Prop where
  accepted : (cycle.head hc).second ∈ a.accepting
  start : ∃ x, (stem ++ cycle).head? = some x ∧ x ∈ (m.product a).initial
  chain : List.IsChain (m.product a).Step (stem ++ cycle ++ [cycle.head hc])

theorem Consistent.productLasso?_eq_some (hm : m.Consistent) (ha : a.Consistent)
    {stem cycle : List (Pair S Q)} (e : m.productLasso? a = some (stem, cycle)) :
    ∃ hc, IsAcceptedLasso m a stem cycle hc := by
  obtain ⟨hc, hacc, ⟨x, hx, hhead⟩, hchain⟩ := lasso?_eq_some e
  rw [(consistent_product hm ha).leads_next] at hchain
  exact ⟨hc, ha.accepting.contains_iff.mp hacc, ⟨x, hhead, hx⟩, hchain⟩

/-- **Where no lasso is found, no path is accepted**: an accepted path would meet an accepting state of
    the product twice. -/
theorem Consistent.productLasso?_eq_none (hm : m.Consistent) (ha : a.Consistent)
    (e : m.productLasso? a = none) : ¬ ∃ s, m.IsPath s ∧ a.Accepts fun i => m.label (s i) := by
  intro hacc
  have hp := consistent_product hm ha
  obtain ⟨x, hx, hoften⟩ := (exists_accepted_iff hm ha).mp hacc
  obtain ⟨i, hi, hcycle⟩ := hx.exists_cycle_of_often (C := fun y => y.second ∈ a.accepting) hp hoften
  obtain ⟨r, hr, hreach⟩ := hx.reachable i
  rw [← hp.leads_next] at hcycle hreach
  exact lasso?_eq_none hp.known_of_next e hr hreach (ha.accepting.contains_iff.mpr hi) hcycle

namespace IsAcceptedLasso

variable {stem cycle : List (Pair S Q)} {hc : cycle ≠ []}

theorem isPath (h : IsAcceptedLasso m a stem cycle hc) : (m.product a).IsPath (unroll stem cycle hc) := by
  obtain ⟨x, hx, hinit⟩ := h.start
  exact isPath_unroll hx hinit h.chain

/-- **The run of a lasso is accepted**, for it comes back to the accepting state. -/
theorem accepts (hm : m.Consistent) (ha : a.Consistent) (h : IsAcceptedLasso m a stem cycle hc) :
    a.Accepts fun i => m.label (unroll stem cycle hc i).first := by
  obtain ⟨-, q, hq⟩ := (isPath_product hm ha).mp h.isPath
  refine ⟨_, hq, fun n => ?_⟩
  obtain ⟨i, hi, hhead⟩ : ∃ i, n < i ∧ unroll stem cycle hc i = cycle.head hc := unroll_again hc n
  refine ⟨i + 1, by omega, ?_⟩
  show (unroll stem cycle hc i).second ∈ a.accepting
  rw [hhead]
  exact h.accepted

theorem isPath_first (hm : m.Consistent) (ha : a.Consistent) (h : IsAcceptedLasso m a stem cycle hc) :
    m.IsPath fun i => (unroll stem cycle hc i).first :=
  ((isPath_product hm ha).mp h.isPath).1

theorem isChain_first (hm : m.Consistent) (ha : a.Consistent)
    (h : IsAcceptedLasso m a stem cycle hc) :
    List.IsChain m.Step
      (stem.map (·.first) ++ cycle.map (·.first) ++ [(cycle.head hc).first]) := by
  have hsteps := h.chain.imp fun _ _ hxy => step_of_product hm ha hxy
  have hmap := (List.isChain_map (fun x : Pair S Q => x.first)).mpr hsteps
  simpa using hmap

end IsAcceptedLasso

end Lasso

/-! ## 3. Verdicts -/

section Verdict

variable [Display S] [Display Q] {m : TransitionSystem S A P} {a : Automaton Q P} {o : VerifyOptions}
  {r : Checked S Q}

/-- A check succeeds exactly when no path is accepted. -/
theorem Consistent.verdict_eq_holds_iff (hm : m.Consistent) (ha : a.Consistent)
    (e : m.verify o a = .ok r) :
    r.verdict = .holds ↔ ¬ ∃ s, m.IsPath s ∧ a.Accepts fun i => m.label (s i) := by
  rw [verdict_of_verify e]
  cases hl : m.productLasso? a with
  | none => exact ⟨fun _ => hm.productLasso?_eq_none ha hl, fun _ => rfl⟩
  | some l =>
    obtain ⟨hc, h⟩ := hm.productLasso?_eq_some ha hl
    refine ⟨fun hv => absurd hv (by simp [verdictOf]), fun hno => absurd ?_ hno⟩
    exact ⟨_, h.isPath_first hm ha, h.accepts hm ha⟩

omit [DecidableEq S] [Hashable S] [Display S] in
theorem exists_violated_iff {v : Verdict S} :
    (∃ stem cycle, v = .violated stem cycle) ↔ v ≠ .holds := by
  cases v with
  | holds => simp
  | violated stem cycle => simp

/-- What a violation is read off. -/
theorem Consistent.exists_lasso_of_violated (hm : m.Consistent) (ha : a.Consistent)
    (e : m.verify o a = .ok r) {stem cycle : List S} (hv : r.verdict = .violated stem cycle) :
    ∃ stem' cycle' hc, IsAcceptedLasso m a stem' cycle' hc ∧
      stem = stem'.map (·.first) ∧ cycle = cycle'.map (·.first) := by
  rw [verdict_of_verify e] at hv
  cases hl : m.productLasso? a with
  | none =>
    rw [hl] at hv
    cases hv
  | some l =>
    rw [hl] at hv
    cases hv
    obtain ⟨hc, h⟩ := hm.productLasso?_eq_some ha hl
    exact ⟨l.1, l.2, hc, h, rfl, rfl⟩

/-- A check for a label finds none exactly when every path avoids it. -/
theorem Consistent.verdict_eventually_eq_holds_iff (hm : m.Consistent) {phi : Guard P}
    {r : Checked S String} (e : m.verify o (Automaton.eventually phi) = .ok r) :
    r.verdict = .holds ↔
      ∀ s, m.IsPath s → (Automaton.never phi).Accepts fun i => m.label (s i) := by
  rw [hm.verdict_eq_holds_iff (Automaton.built_eventually phi).consistent e]
  simp only [Automaton.accepts_eventually_iff, Automaton.accepts_never_iff]
  constructor
  · intro hno s hs i
    by_contra hi
    exact hno ⟨s, hs, i, Bool.eq_true_of_not_eq_false hi⟩
  · rintro hall ⟨s, hs, i, hi⟩
    rw [hall s hs i] at hi
    exact Bool.false_ne_true hi

end Verdict

/-! ## 4. Systems and automata that are built -/

section Built

variable [Display S] [Display A] [Display P] [Display Q] {m : TransitionSystem S A P}
  {a : Automaton Q P} {o : VerifyOptions}

/-- **Verification decides** whether the automaton accepts some path of the system: a check that is
    not canceled has a result, which says that there is no such path, or shows one. -/
theorem verify_decides (hm : m.Built) (ha : a.Built) (hc : o.canceled = false) :
    ∃ r, m.verify o a = .ok r ∧
      (r.verdict = .holds ↔ ¬ ∃ s, m.IsPath s ∧ a.Accepts fun i => m.label (s i)) ∧
      ((∃ stem cycle, r.verdict = .violated stem cycle) ↔
        ∃ s, m.IsPath s ∧ a.Accepts fun i => m.label (s i)) := by
  obtain ⟨r, e⟩ := exists_verify_eq_ok m a hc
  have hholds := hm.consistent.verdict_eq_holds_iff ha.consistent e
  refine ⟨r, e, hholds, ?_⟩
  rw [exists_violated_iff, ne_eq, hholds, Classical.not_not]

def blinkerParts : Parts Int Int Int where
  states := [0, 1]
  starts := [0]
  actions := [0]
  props := [1]
  steps := [⟨0, 0, 1⟩, ⟨1, 0, 0⟩]
  labels := [(1, 1)]

/-- A system that goes to and fro between two states, of which the second has a label. -/
def blinker : TransitionSystem Int Int Int := blinkerParts.system "blinker"

theorem blinker_closed : blinkerParts.Closed := ⟨by decide, by decide, by decide⟩

theorem blinker_built : blinker.Built := (blinker_closed.labeled _).2

theorem verify_decides_blinker :
    blinker.Built ∧ (Automaton.never (.all [2]) : Automaton String Int).Built ∧
      ∃ r, blinker.verify {} (Automaton.never (.all [2])) = .ok r ∧
        (r.verdict = .holds ↔ ¬ ∃ s, blinker.IsPath s ∧
          (Automaton.never (.all [2])).Accepts fun i => blinker.label (s i)) ∧
        ((∃ stem cycle, r.verdict = .violated stem cycle) ↔ ∃ s, blinker.IsPath s ∧
          (Automaton.never (.all [2])).Accepts fun i => blinker.label (s i)) :=
  ⟨blinker_built, Automaton.built_never _, verify_decides blinker_built (Automaton.built_never _) rfl⟩

/-- **What a check shows is an accepted path**: the stem and the cycle start in an initial state and go
    along transitions, they are runs however often one goes round the cycle, and the automaton accepts
    the run that goes round it for ever. -/
theorem accepts_of_verify_eq_violated (hm : m.Built) (ha : a.Built) {r : Checked S Q}
    (e : m.verify o a = .ok r) {stem cycle : List S} (hv : r.verdict = .violated stem cycle) :
    ∃ hc : cycle ≠ [],
      (∃ i, (stem ++ cycle).head? = some i ∧ i ∈ m.initial) ∧
      List.IsChain m.Step (stem ++ cycle ++ [cycle.head hc]) ∧
      (∀ n, ∃ as, m.isInitialFragment
        ⟨stem ++ (List.replicate n cycle).flatten ++ [cycle.head hc], as⟩ = .ok true) ∧
      a.Accepts (fun i => m.label (unroll stem cycle hc i)) ∧
      r.verdict.states = stem ++ cycle := by
  obtain ⟨stem', cycle', hc', h, rfl, rfl⟩ :=
    hm.consistent.exists_lasso_of_violated ha.consistent e hv
  have hc : cycle'.map (·.first) ≠ [] := by simpa using hc'
  have hchain := h.isChain_first hm.consistent ha.consistent
  rw [← List.head_map hc] at hchain
  have hpath := h.isPath_first hm.consistent ha.consistent
  have hstart : (stem'.map (·.first) ++ cycle'.map (·.first)).head? =
      some (unroll stem' cycle' hc' 0).first := by
    rw [unroll_zero hc, unroll_map hc']
  refine ⟨hc, ⟨_, hstart, hpath.start⟩, hchain, fun n => ?_, ?_, by rw [hv]; rfl⟩
  · refine hm.consistent.isInitialFragment_of_isChain ?_ hpath.start (isChain_turns hc hchain n)
    rw [head?_turns hc, hstart]
  · have hacc := h.accepts hm.consistent ha.consistent
    simpa only [unroll_map hc'] using hacc

theorem isPath_blinker : blinker.IsPath fun i => if i % 2 = 0 then 0 else 1 :=
  isPath_alternating (Parts.mem_initial_system.mpr (by decide))
    ⟨0, Parts.mem_transitions_system.mpr (by decide)⟩ ⟨0, Parts.mem_transitions_system.mpr (by decide)⟩

/-- No state of the blinker has a label beyond its only proposition. -/
theorem accepts_never_blinker (s : Nat → Int) :
    (Automaton.never (.all [2])).Accepts fun i => blinker.label (s i) := by
  refine Automaton.accepts_never_iff.mpr fun i => ?_
  have hvalid := (blinker_built.consistent.labeled (s i)).1
  have hno : ¬ (2 : Int) ∈ blinker.label (s i) := by
    rw [blinker, blinker_closed.mem_label_system]
    simp [blinkerParts]
  simpa [Guard.accepts, ← hvalid.contains_iff] using hno

theorem accepts_of_verify_eq_violated_blinker :
    ∃ r stem cycle, blinker.verify {} (Automaton.never (.all [2])) = .ok r ∧
      r.verdict = .violated stem cycle ∧
      ∃ hc : cycle ≠ [],
        (∃ i, (stem ++ cycle).head? = some i ∧ i ∈ blinker.initial) ∧
        List.IsChain blinker.Step (stem ++ cycle ++ [cycle.head hc]) ∧
        (∀ n, ∃ as, blinker.isInitialFragment
          ⟨stem ++ (List.replicate n cycle).flatten ++ [cycle.head hc], as⟩ = .ok true) ∧
        (Automaton.never (.all [2])).Accepts (fun i => blinker.label (unroll stem cycle hc i)) ∧
        r.verdict.states = stem ++ cycle := by
  have ha := Automaton.built_never (.all [2] : Guard Int)
  obtain ⟨r, e⟩ := exists_verify_eq_ok (o := {}) blinker (Automaton.never (.all [2])) rfl
  have hno : r.verdict ≠ .holds := fun h =>
    (blinker_built.consistent.verdict_eq_holds_iff ha.consistent e).mp h
      ⟨_, isPath_blinker, accepts_never_blinker _⟩
  obtain ⟨stem, cycle, hv⟩ := exists_violated_iff.mpr hno
  exact ⟨r, stem, cycle, e, hv, accepts_of_verify_eq_violated blinker_built ha e hv⟩

/-! ## 5. Checking for a behaviour -/

/-- **The automata of the common shapes accept the behaviours that they are named after**, and a system
    shows no accepted label exactly when all its paths are accepted by the opposite shape. -/
theorem shapes_accept_behaviours (phi psi : Guard P) (hm : m.Built) (hc : o.canceled = false) :
    (∀ w, (Automaton.eventually phi).Accepts w ↔ ∃ i, phi.accepts (w i) = true) ∧
    (∀ w, (Automaton.eventuallyThenAlways phi psi).Accepts w ↔
      ∃ i, phi.accepts (w i) = true ∧ ∀ j > i, psi.accepts (w j) = true) ∧
    (∀ w, (Automaton.infinitelyOften phi).Accepts w ↔ {i | phi.accepts (w i) = true}.Infinite) ∧
    (∀ w, (Automaton.never phi).Accepts w ↔ ¬ ∃ i, phi.accepts (w i) = true) ∧
    ∃ r, m.verify o (Automaton.eventually phi) = .ok r ∧
      (r.verdict = .holds ↔
        ∀ s, m.IsPath s → (Automaton.never phi).Accepts fun i => m.label (s i)) := by
  obtain ⟨r, e⟩ := exists_verify_eq_ok m (Automaton.eventually phi) hc
  refine ⟨fun w => Automaton.accepts_eventually_iff,
    fun w => Automaton.accepts_eventuallyThenAlways_iff, fun w => ?_, fun w => ?_,
    r, e, hm.consistent.verdict_eventually_eq_holds_iff e⟩
  · rw [Automaton.accepts_infinitelyOften_iff, Set.infinite_iff_exists_gt]
    exact forall_congr' fun n => exists_congr fun i => and_comm
  · rw [Automaton.accepts_never_iff, not_exists]
    exact forall_congr' fun i => by rw [Bool.not_eq_true]

/-- The blinker never shows a proposition that it does not have, though it blinks for ever. -/
theorem shapes_accept_behaviours_blinker :
    blinker.Built ∧ ({} : VerifyOptions).canceled = false ∧
      ∃ r, blinker.verify {} (Automaton.eventually (.all [2])) = .ok r ∧ r.verdict = .holds := by
  obtain ⟨-, -, -, -, r, e, hr⟩ :=
    shapes_accept_behaviours (o := {}) (.all [2]) .always blinker_built rfl
  exact ⟨blinker_built, rfl, r, e, hr.mpr fun s _ => accepts_never_blinker s⟩

end Built

end Lasso.TransitionSystem
