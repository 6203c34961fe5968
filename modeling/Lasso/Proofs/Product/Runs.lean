import Mathlib.Data.Fin.Tuple.Basic
import Lasso.Proofs.Verify
/-!
# The product runs with the system and the automaton

* `IsRun` -- the runs of a length from an initial state, with their actions; a run only meets
  reachable states, and every reachable state ends a run (`Reachable.exists_isRun`);
* `checkedProduct` -- the product by changes that may be refused; none of them is
  (`checkedProduct_eq_ok`);
* `IsSynchronous` -- what a product of a system and an automaton has to be: **its runs are the runs of
  the system together with the ways to read their labels**, and nothing stands beside them;
* `product_synchronous` -- the product is that, for all systems and automata that are built.
-/

namespace Lasso

/-! ## 1. Finite runs -/

namespace TransitionSystem

section Runs

variable {S A P : Type} [DecidableEq S] [Hashable S] [DecidableEq A] [Hashable A]
  [DecidableEq P] [Hashable P] {m : TransitionSystem S A P}

/-- **A run** of `n` steps from an initial state: its states and, between them, its actions. -/
structure IsRun (m : TransitionSystem S A P) {n : Nat} (x : Fin (n + 1) → S) (b : Fin n → A) :
    Prop where
  start : x 0 ∈ m.initial
  step : ∀ i : Fin n, ⟨x i.castSucc, b i, x i.succ⟩ ∈ m.transitions

theorem IsRun.reachable {n : Nat} {x : Fin (n + 1) → S} {b : Fin n → A} (h : m.IsRun x b)
    (i : Fin (n + 1)) : m.Reachable (x i) := by
  induction i using Fin.induction with
  | zero => exact Reachable.start h.start
  | succ i ih => exact ih.step ⟨b i, h.step i⟩

theorem isRun_start {s : S} (hs : s ∈ m.initial) : m.IsRun (fun _ : Fin 1 => s) Fin.elim0 where
  start := hs
  step i := i.elim0

/-- A run goes on by each transition that leaves its last state. -/
theorem IsRun.snoc {n : Nat} {x : Fin (n + 1) → S} {b : Fin n → A} (h : m.IsRun x b) {a : A} {s : S}
    (hs : ⟨x (Fin.last n), a, s⟩ ∈ m.transitions) :
    m.IsRun (Fin.snoc x s : Fin (n + 2) → S) (Fin.snoc b a : Fin (n + 1) → A) where
  start := by
    have e : (Fin.snoc x s : Fin (n + 2) → S) 0 = x 0 := by simp [Fin.snoc]
    rw [e]
    exact h.start
  step i := by
    induction i using Fin.lastCases with
    | last =>
      rw [Fin.snoc_castSucc, Fin.snoc_last, Fin.succ_last, Fin.snoc_last]
      exact hs
    | cast i =>
      rw [Fin.snoc_castSucc, Fin.snoc_castSucc, Fin.succ_castSucc, Fin.snoc_castSucc]
      exact h.step i

/-- **Every reachable state ends a run.** -/
theorem Reachable.exists_isRun {s : S} (hs : m.Reachable s) :
    ∃ (n : Nat) (x : Fin (n + 1) → S) (b : Fin n → A), m.IsRun x b ∧ x (Fin.last n) = s := by
  obtain ⟨i, hi, his⟩ := hs
  induction his with
  | refl => exact ⟨0, _, _, isRun_start hi, rfl⟩
  | tail _ hst ih =>
    obtain ⟨n, x, b, hrun, hlast⟩ := ih
    obtain ⟨a, ha⟩ := hst
    exact ⟨n + 1, _, _, hrun.snoc (hlast.symm ▸ ha), Fin.snoc_last _ _⟩

/-- Pruning changes no run. -/
theorem Pruned.isRun_iff {p : TransitionSystem S A P} (hp : Pruned m p) (h : m.Consistent) {n : Nat}
    {x : Fin (n + 1) → S} {b : Fin n → A} : p.IsRun x b ↔ m.IsRun x b := by
  constructor
  · intro hx
    exact ⟨hp.initial ▸ hx.start, fun i => ((hp.mem_transitions h).mp (hx.step i)).1⟩
  · intro hx
    exact ⟨hp.initial.symm ▸ hx.start, fun i =>
      (hp.mem_transitions h).mpr ⟨hx.step i, hx.reachable i.castSucc⟩⟩

end Runs

end TransitionSystem

/-- The states that an automaton goes through when it reads a word, each behind its label: the first
    comes of an initial state. -/
structure Automaton.ReadsWord {Q P : Type} [DecidableEq Q] [Hashable Q] [DecidableEq P] [Hashable P]
    (a : Automaton Q P) {n : Nat} (w : Fin (n + 1) → Ordered P) (r : Fin (n + 1) → Q) : Prop where
  start : ∃ q, q ∈ a.initial ∧ r 0 ∈ a.next q (w 0)
  step : ∀ i : Fin n, r i.succ ∈ a.next (r i.castSucc) (w i.succ)

namespace TransitionSystem

variable {S A P Q : Type} [DecidableEq S] [Hashable S] [DecidableEq A] [Hashable A]
  [DecidableEq P] [Hashable P] [DecidableEq Q] [Hashable Q]

/-! ## 2. The product by checked changes -/

section Checked

variable [Display S] [Display A] [Display Q]

/-- The label of a declared state. -/
def needLabel (m : TransitionSystem S A P) (s : S) : Except SystemError (Ordered P) :=
  match m.label? s with
  | some l => .ok l
  | none => .error (.noState (Display.text s))

omit [Display A] in
/-- Enters the states of the product, each with its label. -/
def enterStates (m : TransitionSystem S A P) (a : Automaton Q P) (p : TransitionSystem (Pair S Q) A Q) :
    Except SystemError (TransitionSystem (Pair S Q) A Q) :=
  (pairs m.states.toList a.states.toList).foldlM
    (fun p x => (TransitionSystem.addState p x).addLabel x x.second) p

/-- Enters the transitions of the product. -/
def enterTransitions (m : TransitionSystem S A P) (a : Automaton Q P)
    (p : TransitionSystem (Pair S Q) A Q) : Except SystemError (TransitionSystem (Pair S Q) A Q) :=
  m.transitions.toList.foldlM (fun p t => do
    let l ← m.needLabel t.target
    (a.states.toList.flatMap fun q => (a.next q l).map fun r =>
      (⟨⟨t.source, q⟩, t.action, ⟨t.target, r⟩⟩ : Transition (Pair S Q) A)).foldlM
        TransitionSystem.addTransition p) p

omit [Display A] in
/-- Enters the initial states of the product. -/
def enterInitial (m : TransitionSystem S A P) (a : Automaton Q P) (p : TransitionSystem (Pair S Q) A Q) :
    Except SystemError (TransitionSystem (Pair S Q) A Q) :=
  m.initial.toList.foldlM (fun p s => do
    let l ← m.needLabel s
    (a.initial.toList.flatMap fun q => (a.next q l).map fun r => (⟨s, r⟩ : Pair S Q)).foldlM
      (fun p x => TransitionSystem.setInitial p x true) p) p

/-- **The product by changes that are checked.** It fails as soon as one of them is refused. -/
def checkedProduct (m : TransitionSystem S A P) (a : Automaton Q P) :
    Except SystemError (TransitionSystem (Pair S Q) A Q) := do
  let p ← m.enterStates a (((TransitionSystem.empty (m.name ++ "×automaton")).addActions
    m.actions.toList).addProps a.states.toList)
  let p ← m.enterTransitions a p
  let p ← m.enterInitial a p
  return p.prune.1.pruneProps.1

omit [Display A] in
theorem Consistent.needLabel_eq_ok {m : TransitionSystem S A P} (h : m.Consistent) {s : S}
    (hs : s ∈ m.states) : m.needLabel s = .ok (m.label s) := by
  obtain ⟨l, hl, -⟩ := h.labels.known s hs
  unfold needLabel label label?
  rw [hl]
  rfl

omit [Display A] in
/-- States with declared labels are entered without a refusal. -/
theorem Consistent.foldlM_productState {p : TransitionSystem (Pair S Q) A Q} (h : p.Consistent)
    {xs : List (Pair S Q)} (hxs : ∀ x ∈ xs, x.second ∈ p.props) :
    xs.foldlM (fun p x => (TransitionSystem.addState p x).addLabel x x.second) p =
      .ok (productStates p xs) := by
  induction xs generalizing p with
  | nil => rfl
  | cons x xs ih =>
    have hx : x.second ∈ (p.addState x).props := by
      rw [props_addState]
      exact hxs x List.mem_cons_self
    have hstate : x ∈ (p.addState x).states := by
      rw [states_addState]
      exact h.states.mem_insert.mpr (Or.inr rfl)
    rw [List.foldlM_cons, (h.addState x).addLabel_eq_ok.mpr ⟨hstate, hx, rfl⟩]
    refine ih ((h.addState x).insertLabel x hx) fun y hy => ?_
    rw [props_insertLabel, props_addState]
    exact hxs y (List.mem_cons_of_mem _ hy)

variable {m : TransitionSystem S A P} {a : Automaton Q P}

theorem enterTransitions_eq_ok (hm : m.Consistent) (ha : a.Consistent) :
    m.enterTransitions a (m.productFrame a) = .ok (m.productLinked a) := by
  unfold enterTransitions
  rw [foldlM_eq_foldlM_flatMap (f := m.productTransitions a) fun t ht p => ?_]
  · exact consistent_productFrame.foldlM_addTransition fun u hu => ends_productTransitions hm ha hu
  · rw [hm.needLabel_eq_ok (hm.ends t ht).2.1]
    rfl

omit [Display A] in
theorem enterInitial_eq_ok (hm : m.Consistent) (ha : a.Consistent) :
    m.enterInitial a (m.productLinked a) = .ok (m.productUnpruned a) := by
  unfold enterInitial
  rw [foldlM_eq_foldlM_flatMap (f := m.productInitial a) fun s hs p => ?_]
  · refine (consistent_productLinked hm ha).foldlM_setInitial fun x hx => ?_
    rw [states_productLinked]
    exact mem_states_of_productInitial hm ha hx
  · rw [hm.needLabel_eq_ok (hm.starts s hs)]
    rfl

/-- **No change that makes the product is refused.** -/
theorem checkedProduct_eq_ok (hm : m.Consistent) (ha : a.Consistent) :
    m.checkedProduct a = .ok (m.product a) := by
  have hstates : m.enterStates a (((TransitionSystem.empty (m.name ++ "×automaton")).addActions
      m.actions.toList).addProps a.states.toList) = .ok (m.productFrame a) := by
    refine (((consistent_empty _).addActions _).addProps _).foldlM_productState fun x hx => ?_
    rw [addProps_eq, addActions_eq]
    exact Ordered.mem_ofList.mpr (mem_pairs.mp hx).2
  simp only [checkedProduct, hstates, enterTransitions_eq_ok hm ha, enterInitial_eq_ok hm ha, bind,
    Except.bind]
  rfl

end Checked

/-! ## 3. The parts of the product -/

section Product

/-- **What a product of a system and an automaton has to be**: its runs are the runs of the system, by
    the same actions, together with the ways to read their labels; every state is on a run, and is
    labeled with the state of the automaton, which no other proposition stands beside. -/
structure IsSynchronous (m : TransitionSystem S A P) (a : Automaton Q P)
    (p : TransitionSystem (Pair S Q) A Q) : Prop where
  runs : ∀ (n : Nat) (x : Fin (n + 1) → Pair S Q) (b : Fin n → A),
    p.IsRun x b ↔ m.IsRun (fun i => (x i).first) b ∧
      a.ReadsWord (fun i => m.label (x i).first) fun i => (x i).second
  onRun : ∀ s, s ∈ p.states →
    ∃ (n : Nat) (x : Fin (n + 1) → Pair S Q) (b : Fin n → A) (i : Fin (n + 1)), p.IsRun x b ∧ x i = s
  label : ∀ s, s ∈ p.states → (p.label s).toList = [s.second]
  props : ∀ q, q ∈ p.props ↔ ∃ s, ⟨s, q⟩ ∈ p.states

variable {m : TransitionSystem S A P} {a : Automaton Q P}

theorem isRun_productUnpruned (ha : a.Consistent) {n : Nat} {x : Fin (n + 1) → Pair S Q}
    {b : Fin n → A} :
    (m.productUnpruned a).IsRun x b ↔ m.IsRun (fun i => (x i).first) b ∧
      a.ReadsWord (fun i => m.label (x i).first) fun i => (x i).second := by
  constructor
  · intro hx
    obtain ⟨hs, hq⟩ := mem_initial_productUnpruned.mp hx.start
    have hstep := fun i => (mem_transitions_productUnpruned ha).mp (hx.step i)
    exact ⟨⟨hs, fun i => (hstep i).1⟩, ⟨hq, fun i => (hstep i).2⟩⟩
  · rintro ⟨hs, hr⟩
    exact ⟨mem_initial_productUnpruned.mpr ⟨hs.start, hr.start⟩, fun i =>
      (mem_transitions_productUnpruned ha).mpr ⟨hs.step i, hr.step i⟩⟩

theorem isRun_product (hm : m.Consistent) (ha : a.Consistent) {n : Nat}
    {x : Fin (n + 1) → Pair S Q} {b : Fin n → A} :
    (m.product a).IsRun x b ↔ m.IsRun (fun i => (x i).first) b ∧
      a.ReadsWord (fun i => m.label (x i).first) fun i => (x i).second := by
  have hu := consistent_productUnpruned hm ha
  have e : (m.product a).IsRun x b ↔ (m.productUnpruned a).prune.1.IsRun x b :=
    ⟨fun h => ⟨h.start, h.step⟩, fun h => ⟨h.start, h.step⟩⟩
  rw [e, hu.prune_pruned.isRun_iff hu]
  exact isRun_productUnpruned ha

theorem mem_states_product (hm : m.Consistent) (ha : a.Consistent) {s : Pair S Q} :
    s ∈ (m.product a).states ↔ (m.productUnpruned a).Reachable s := by
  have hu := consistent_productUnpruned hm ha
  exact hu.prune_pruned.mem_states hu

/-- **Every state of the product ends a run of it.** -/
theorem exists_isRun_product (hm : m.Consistent) (ha : a.Consistent) {s : Pair S Q}
    (hs : s ∈ (m.product a).states) :
    ∃ (n : Nat) (x : Fin (n + 1) → Pair S Q) (b : Fin n → A),
      (m.product a).IsRun x b ∧ x (Fin.last n) = s := by
  obtain ⟨n, x, b, hrun, hlast⟩ := ((mem_states_product hm ha).mp hs).exists_isRun
  have hrun' := (isRun_product hm ha).mpr ((isRun_productUnpruned ha).mp hrun)
  exact ⟨n, x, b, hrun', hlast⟩

/-- A state that is entered has its own label, also when it was entered before. -/
theorem label_productState {p : TransitionSystem (Pair S Q) A Q} (h : p.Consistent)
    (hl : ∀ y, y ∈ p.states → (p.label y).toList = [y.second]) (x y : Pair S Q)
    (hy : y ∈ (productState p x).states) : ((productState p x).label y).toList = [y.second] := by
  have hx : x ∈ (p.addState x).states := by
    rw [states_addState]
    exact h.states.mem_insert.mpr (Or.inr rfl)
  have hy' : y ∈ p.states ∨ y = x := by
    have e : (productState p x).states = p.states.insert x := states_addState p x
    rw [e] at hy
    exact h.states.mem_insert.mp hy
  rw [productState, (h.addState x).label_insertLabel hx, h.label_addState]
  by_cases hyp : y ∈ p.states
  · split
    · rename_i exy
      rw [(h.labeled y).valid.toList_insert, hl y hyp, exy, if_pos List.mem_cons_self]
    · exact hl y hyp
  · have exy : x = y := (hy'.resolve_left hyp).symm
    rw [if_pos exy, (h.labeled y).valid.toList_insert, h.label_of_not_mem hyp, exy]
    rfl

theorem label_productStates {p : TransitionSystem (Pair S Q) A Q} (h : p.Consistent)
    {xs : List (Pair S Q)} (hxs : ∀ x ∈ xs, x.second ∈ p.props)
    (hl : ∀ y, y ∈ p.states → (p.label y).toList = [y.second]) (y : Pair S Q)
    (hy : y ∈ (productStates p xs).states) : ((productStates p xs).label y).toList = [y.second] := by
  induction xs generalizing p with
  | nil => exact hl y hy
  | cons x xs ih =>
    have hx : x.second ∈ p.props := hxs x List.mem_cons_self
    have hp : (productState p x).props = p.props := by
      rw [productState, props_insertLabel, props_addState]
    have hc : (productState p x).Consistent := by
      refine (h.addState x).insertLabel x ?_
      rw [props_addState]
      exact hx
    refine ih hc (fun z hz => ?_) (label_productState h hl x) hy
    rw [hp]
    exact hxs z (List.mem_cons_of_mem _ hz)

theorem label_productUnpruned {s : Pair S Q} (hs : s ∈ (m.productFrame a).states) :
    ((m.productUnpruned a).label s).toList = [s.second] := by
  have e : (m.productUnpruned a).label s = (m.productFrame a).label s := by
    rw [productUnpruned_eq,
      foldl_fixed (f := insertInitial) (g := (TransitionSystem.label · s)) fun _ _ => rfl,
      foldl_fixed (g := (TransitionSystem.label · s)) fun p t => label_insertTransition p t s]
  rw [e]
  refine label_productStates (((consistent_empty _).addActions _).addProps _) (fun x hx => ?_)
    (fun y hy => ?_) s hs
  · rw [addProps_eq, addActions_eq]
    exact Ordered.mem_ofList.mpr (mem_pairs.mp hx).2
  · rw [addProps_eq, addActions_eq] at hy
    exact absurd hy (Ordered.not_mem_empty y)

/-- **The label of a state of the product is its state of the automaton**, and nothing else. -/
theorem label_product (hm : m.Consistent) (ha : a.Consistent) {s : Pair S Q}
    (hs : s ∈ (m.product a).states) : ((m.product a).label s).toList = [s.second] := by
  have hu := consistent_productUnpruned hm ha
  have hreach := (mem_states_product hm ha).mp hs
  have e : (m.product a).label s = (m.productUnpruned a).label s :=
    hu.prune_pruned.label s hreach
  have estates : (m.productUnpruned a).states = (m.productFrame a).states := by
    rw [productUnpruned_eq, foldl_fixed (g := TransitionSystem.states) states_insertInitial]
    exact states_productLinked
  rw [e]
  refine label_productUnpruned ?_
  rw [← estates]
  exact hreach.declared hu

theorem mem_props_product (hm : m.Consistent) (ha : a.Consistent) {q : Q} :
    q ∈ (m.product a).props ↔ ∃ s, ⟨s, q⟩ ∈ (m.product a).states := by
  have hpruned := (consistent_productUnpruned hm ha).prune
  have hlabel : ∀ s, s ∈ (m.product a).states → (q ∈ (m.product a).label s ↔ q = s.second) := by
    intro s hs
    rw [← Ordered.mem_toList, label_product hm ha hs, List.mem_singleton]
  refine hpruned.mem_pruneProps.trans ⟨?_, ?_⟩
  · rintro ⟨s, hs, hq⟩
    have e : q = s.second := (hlabel s hs).mp hq
    exact ⟨s.first, e ▸ hs⟩
  · rintro ⟨s, hs⟩
    exact ⟨⟨s, q⟩, hs, (hlabel _ hs).mpr rfl⟩

theorem isSynchronous_product (hm : m.Consistent) (ha : a.Consistent) :
    IsSynchronous m a (m.product a) where
  runs _ _ _ := isRun_product hm ha
  onRun s hs := by
    obtain ⟨n, x, b, hrun, hlast⟩ := exists_isRun_product hm ha hs
    exact ⟨n, x, b, Fin.last n, hrun, hlast⟩
  label _ hs := label_product hm ha hs
  props _ := mem_props_product hm ha

end Product

/-! ## 4. Systems and automata that are built -/

section Built

variable [Display S] [Display A] [Display P] [Display Q] {m : TransitionSystem S A P}
  {a : Automaton Q P}

/-- **The product of a system and an automaton is synchronous**: no change that makes it is refused,
    and its runs of every length are those of the system together with the ways to read their
    labels. -/
theorem product_synchronous (hm : m.Built) (ha : a.Built) :
    m.checkedProduct a = .ok (m.product a) ∧ IsSynchronous m a (m.product a) :=
  ⟨checkedProduct_eq_ok hm.consistent ha.consistent,
    isSynchronous_product hm.consistent ha.consistent⟩

theorem product_synchronous_blinker :
    blinker.Built ∧ (Automaton.infinitelyOften (.all [1]) : Automaton String Int).Built ∧
      blinker.checkedProduct (Automaton.infinitelyOften (.all [1])) =
        .ok (blinker.product (Automaton.infinitelyOften (.all [1]))) ∧
      IsSynchronous blinker (Automaton.infinitelyOften (.all [1]))
        (blinker.product (Automaton.infinitelyOften (.all [1]))) :=
  ⟨blinker_built, Automaton.built_infinitelyOften _,
    product_synchronous blinker_built (Automaton.built_infinitelyOften _)⟩

end Built

end TransitionSystem

end Lasso
