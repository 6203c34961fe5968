import Lasso.Proofs.Search.Discovery
import Lasso.Proofs.Verify
/-!
# What the check of a product finds

The check of `Lasso.Verify` takes any system whose states are pairs, and any states of the second
component as accepting.

* `IsSearchForest` -- what its search trees are: they hold **every reachable state once and no other**,
  they start in initial states and go along transitions, and their preorder is the order of discovery;
* `foundLasso?` -- the lasso of pairs that the verdict is read off (`checkEmptiness_eq_ok`);
* `checkEmptiness_is_nested_search` -- **a check that nothing stops has a result**, which says whether
  a reachable accepting state lies on a cycle, and shows the first one that does, without repetition.
-/

namespace Lasso.TransitionSystem

variable {S A P Q : Type} [DecidableEq S] [Hashable S] [DecidableEq A] [Hashable A]
  [DecidableEq P] [Hashable P] [DecidableEq Q] [Hashable Q]

/-! ## 1. The forest of the outer search -/

/-- **The trees of a search through the reachable states.** -/
structure IsSearchForest (m : TransitionSystem S A P) (f : Forest S) : Prop where
  once : f.discovered.Nodup
  reached : ∀ s, s ∈ f.discovered ↔ m.Reachable s
  trees : ∀ t ∈ f.trees, t.payload ∈ m.initial ∧ t.Along m.Step
  inOrder : Tree.preorderAll f.trees = f.discovered

theorem Consistent.isSearchForest_sweep {m : TransitionSystem S A P} (h : m.Consistent)
    (accepting : S → Bool) :
    m.IsSearchForest (sweep m.states.index m.next accepting m.initial.toList).forest := by
  have hswept : Swept m.states.index m.next accepting m.initial.toList
      (sweep m.states.index m.next accepting m.initial.toList) [] := swept_sweep
  refine ⟨hswept.once, fun s => ?_, ?_, Forest.preorderAll_trees nested_sweep⟩
  · have hfound : s ∈ (sweep m.states.index m.next accepting m.initial.toList).forest.discovered ↔
        s ∈ (sweep m.states.index m.next accepting m.initial.toList).visited := by
      rw [hswept.found, Forest.mem_discovered]
    rw [hfound, mem_visited_sweep h.known_of_next, h.leads_next]
    rfl
  · refine Forest.along_trees (fun n a hn => hswept.grows.root n a hn) fun n p a hn => ?_
    obtain ⟨hp, x, hx, ha⟩ := hswept.grows.child n p a hn
    refine ⟨Forest.lt_size_of_getElem? hx, fun y hy => ?_⟩
    rw [hx] at hy
    rw [← Option.some.inj hy]
    exact h.mem_next.mp ha

/-! ## 2. The lasso of pairs -/

variable {p : TransitionSystem (Pair S Q) A Q} {accepting : Q → Bool}

/-- The outer search of a check. -/
def outerSearch (p : TransitionSystem (Pair S Q) A Q) (accepting : Q → Bool) : Sweep (Pair S Q) :=
  sweep p.states.index p.next (fun x => accepting x.second) p.initial.toList

/-- The lasso of pairs that the two searches of a check find. -/
def foundLasso? (p : TransitionSystem (Pair S Q) A Q) (accepting : Q → Bool) :
    Option (List (Pair S Q) × List (Pair S Q)) :=
  (p.outerSearch accepting).lasso? p.states.index p.next

/-- A check that nothing stops gives the forest of the outer search, and the verdict is read off the
    lasso. -/
theorem checkEmptiness_eq_ok [Display S] [Display Q] {writers : List TreeWriter}
    (hw : ∀ w ∈ writers, ∀ line, w line = none) :
    p.checkEmptiness accepting writers false =
      .ok ⟨verdictOf (p.foundLasso? accepting), (p.outerSearch accepting).forest⟩ := by
  have hnone : ∀ lines, writeFailures writers lines = [] := by
    intro lines
    refine List.filterMap_eq_nil_iff.mpr fun w hmem => ?_
    exact List.findSome?_eq_none_iff.mpr fun line _ => hw w hmem line
  unfold checkEmptiness
  simp only [Bool.false_and, hnone]
  rfl

theorem Consistent.foundLasso?_eq_some (h : p.Consistent) {stem cycle : List (Pair S Q)}
    (e : p.foundLasso? accepting = some (stem, cycle)) :
    ∃ s, IsFirstLasso p.Step (fun x => accepting x.second) p.initial.toList
      (p.outerSearch accepting).forest.discovered stem cycle s := by
  obtain ⟨s, hs⟩ := lasso?_eq_first h.known_of_next e
  rw [h.leads_next] at hs
  exact ⟨s, hs⟩

/-- The search finds a lasso exactly when an accepting state that can be reached recurs. -/
theorem Consistent.foundLasso?_eq_none_iff (h : p.Consistent) :
    p.foundLasso? accepting = none ↔
      ¬ ∃ s, p.Reachable s ∧ Recurs p.Step (fun x => accepting x.second) s := by
  constructor
  · intro e hrecurs
    obtain ⟨s, ⟨i, hi, his⟩, hacc, hback⟩ := hrecurs
    rw [← h.leads_next] at his hback
    exact lasso?_eq_none h.known_of_next e hi his hacc hback
  · intro hno
    cases e : p.foundLasso? accepting with
    | none => rfl
    | some l =>
      obtain ⟨s, hs⟩ := h.foundLasso?_eq_some e
      obtain ⟨before, after, horder, -⟩ := hs.first
      have hmem : s ∈ (p.outerSearch accepting).forest.discovered := by
        rw [horder]
        exact List.mem_append_right _ List.mem_cons_self
      exact absurd ⟨s, ((h.isSearchForest_sweep _).reached s).mp hmem, hs.recurs⟩ hno

/-! ## 3. Checks of systems that are built -/

section Built

variable [Display S] [Display A] [Display Q]

/-- **The check of a product is a nested depth first search.** When it is not canceled and its search
    trees can be written, it has a result; its trees hold every reachable state once; it fails exactly
    when an accepting state that can be reached lies on a cycle; and then it shows the lasso of pairs
    that it found, which goes without repetition to and round the first such state. -/
theorem checkEmptiness_is_nested_search (hp : p.Built) (accepting : Q → Bool)
    (writers : List TreeWriter) (hw : ∀ w ∈ writers, ∀ line, w line = none) :
    ∃ r, p.checkEmptiness accepting writers false = .ok r ∧
      p.IsSearchForest r.trees ∧
      (r.verdict = .holds ↔
        ¬ ∃ s, p.Reachable s ∧ Recurs p.Step (fun x => accepting x.second) s) ∧
      ((∃ stem cycle, r.verdict = .violated stem cycle) ↔
        ∃ s, p.Reachable s ∧ Recurs p.Step (fun x => accepting x.second) s) ∧
      ∀ stem cycle, r.verdict = .violated stem cycle →
        ∃ stem' cycle' s, p.foundLasso? accepting = some (stem', cycle') ∧
          stem = stem'.map (·.first) ∧ cycle = cycle'.map (·.first) ∧
          IsFirstLasso p.Step (fun x => accepting x.second) p.initial.toList r.trees.discovered
            stem' cycle' s := by
  have h := hp.consistent
  have hholds : verdictOf (p.foundLasso? accepting) = .holds ↔
      ¬ ∃ s, p.Reachable s ∧ Recurs p.Step (fun x => accepting x.second) s := by
    rw [← h.foundLasso?_eq_none_iff]
    cases p.foundLasso? accepting <;> simp [verdictOf]
  refine ⟨_, checkEmptiness_eq_ok hw, h.isSearchForest_sweep _, hholds, ?_, fun stem cycle hv => ?_⟩
  · rw [exists_violated_iff, ne_eq, hholds, Classical.not_not]
  · cases e : p.foundLasso? accepting with
    | none =>
      simp only [e] at hv
      cases hv
    | some l =>
      simp only [e] at hv
      cases hv
      obtain ⟨s, hs⟩ := h.foundLasso?_eq_some e
      exact ⟨l.1, l.2, s, rfl, rfl, rfl, hs⟩

def switchyardParts : Parts (Pair Int Int) Int Int where
  states := [⟨0, 0⟩, ⟨1, 0⟩, ⟨2, 1⟩, ⟨3, 0⟩, ⟨4, 1⟩]
  starts := [⟨0, 0⟩, ⟨3, 0⟩]
  actions := [0]
  steps := [⟨⟨0, 0⟩, 0, ⟨1, 0⟩⟩, ⟨⟨1, 0⟩, 0, ⟨0, 0⟩⟩, ⟨⟨0, 0⟩, 0, ⟨2, 1⟩⟩, ⟨⟨3, 0⟩, 0, ⟨4, 1⟩⟩,
    ⟨⟨4, 1⟩, 0, ⟨3, 0⟩⟩]

/-- A system of pairs with two initial states. The first leads to a cycle without accepting states and to
    an accepting state without successors, the second to an accepting state that leads back to it. -/
def switchyard : TransitionSystem (Pair Int Int) Int Int := switchyardParts.system "switchyard"

theorem switchyard_built : switchyard.Built := by
  have hclosed : switchyardParts.Closed := ⟨by decide, by decide, by decide⟩
  exact (hclosed.labeled _).2

/-- The way to and fro between the second initial state and the accepting one. -/
theorem recurs_switchyard :
    switchyard.Reachable ⟨4, 1⟩ ∧ Recurs switchyard.Step (fun x => x.second == 1) ⟨4, 1⟩ := by
  have hstart : (⟨3, 0⟩ : Pair Int Int) ∈ switchyard.initial := Parts.mem_initial_system.mpr (by decide)
  have hthere : switchyard.Step ⟨3, 0⟩ ⟨4, 1⟩ := ⟨0, Parts.mem_transitions_system.mpr (by decide)⟩
  have hback : switchyard.Step ⟨4, 1⟩ ⟨3, 0⟩ := ⟨0, Parts.mem_transitions_system.mpr (by decide)⟩
  exact ⟨⟨_, hstart, .single hthere⟩, rfl, .tail (.single hback) hthere⟩

theorem checkEmptiness_is_nested_search_switchyard :
    switchyard.Built ∧
      ∃ r stem cycle, switchyard.checkEmptiness (· == 1) [fun _ => none] false = .ok r ∧
        r.verdict = .violated stem cycle ∧ switchyard.IsSearchForest r.trees ∧
        ∃ stem' cycle' s, switchyard.foundLasso? (· == 1) = some (stem', cycle') ∧
          stem = stem'.map (·.first) ∧ cycle = cycle'.map (·.first) ∧
          IsFirstLasso switchyard.Step (fun x => x.second == 1) switchyard.initial.toList
            r.trees.discovered stem' cycle' s := by
  obtain ⟨r, e, hforest, -, hviolated, hlasso⟩ :=
    checkEmptiness_is_nested_search switchyard_built (· == 1) [fun _ => none] (by simp)
  obtain ⟨stem, cycle, hv⟩ := hviolated.mpr ⟨_, recurs_switchyard⟩
  exact ⟨switchyard_built, r, stem, cycle, e, hv, hforest, hlasso stem cycle hv⟩

end Built

end Lasso.TransitionSystem
