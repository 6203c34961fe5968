import Mathlib.Logic.Relation
import Lasso.Proofs.System.Consistent
import Lasso.System.Query
/-!
# Steps, reachable states and pruning

* `explore` -- what a search along successors meets: nothing but what a closed property holds of,
  and everything that is known and can be met;
* `Step`, `Reachable` -- the steps of a system and the states they lead to from an initial one;
  `reach` is the set of the latter (`mem_reach`);
* `Pruned` -- what pruning leaves of a system (`prune_pruned`): the reachable states, the transitions
  that leave them, and all else as it was;
* `Consistent.addTransition_eq_ok` and the like -- when a checked change succeeds, and what it does then;
* `Built` -- the systems that the operations lead to, all of them consistent (`Built.consistent`).
-/

namespace Lasso

/-! ## 1. Exploring -/

section Explore

variable {S : Type} [DecidableEq S] [Hashable S] {known : Std.HashMap S Nat} {next : S → List S}

theorem mem_explore_of_reached {waiting : List S} {reached : Std.HashSet S} (hs : s ∈ reached) :
    s ∈ explore known next waiting reached := by
  fun_induction explore known next waiting reached with
  | case1 => exact hs
  | case2 _ _ _ _ ih => exact ih hs
  | case3 _ _ _ _ _ ih => exact ih (Std.HashSet.mem_insert.mpr (Or.inr hs))
  | case4 _ _ _ _ _ ih => exact ih hs

theorem mem_explore_of_waiting {waiting : List S} {reached : Std.HashSet S} (hs : s ∈ waiting)
    (hk : s ∈ known) : s ∈ explore known next waiting reached := by
  fun_induction explore known next waiting reached with
  | case1 => exact absurd hs List.not_mem_nil
  | case2 reached w rest hr ih =>
    rcases List.mem_cons.mp hs with rfl | hs
    · exact mem_explore_of_reached hr
    · exact ih hs
  | case3 reached w rest hr hw ih =>
    rcases List.mem_cons.mp hs with rfl | hs
    · exact mem_explore_of_reached Std.HashSet.mem_insert_self
    · exact ih (List.mem_append_right _ hs)
  | case4 reached w rest hr hw ih =>
    rcases List.mem_cons.mp hs with rfl | hs
    · exact absurd hk hw
    · exact ih hs

/-- **What an exploration reaches is closed**: the successors of a reached state are reached or
    still wait. -/
theorem explore_closed {waiting : List S} {reached : Std.HashSet S}
    (h : ∀ s, s ∈ reached → ∀ t ∈ next s, t ∈ known → t ∈ reached ∨ t ∈ waiting) {s t : S}
    (hs : s ∈ explore known next waiting reached) (ht : t ∈ next s) (hk : t ∈ known) :
    t ∈ explore known next waiting reached := by
  fun_induction explore known next waiting reached with
  | case1 => exact (h s hs t ht hk).resolve_right List.not_mem_nil
  | case2 reached w rest hr ih =>
    refine ih (fun x hx y hy hyk => ?_) hs
    rcases h x hx y hy hyk with hy' | hy'
    · exact Or.inl hy'
    · rcases List.mem_cons.mp hy' with rfl | hy'
      · exact Or.inl hr
      · exact Or.inr hy'
  | case3 reached w rest hr hw ih =>
    refine ih (fun x hx y hy hyk => ?_) hs
    rcases Std.HashSet.mem_insert.mp hx with e | hx
    · have e' : w = x := by simpa using e
      subst e'
      exact Or.inr (List.mem_append_left _ hy)
    · rcases h x hx y hy hyk with hy' | hy'
      · exact Or.inl (Std.HashSet.mem_insert.mpr (Or.inr hy'))
      · rcases List.mem_cons.mp hy' with rfl | hy'
        · exact Or.inl Std.HashSet.mem_insert_self
        · exact Or.inr (List.mem_append_right _ hy')
  | case4 reached w rest hr hw ih =>
    refine ih (fun x hx y hy hyk => ?_) hs
    rcases h x hx y hy hyk with hy' | hy'
    · exact Or.inl hy'
    · rcases List.mem_cons.mp hy' with rfl | hy'
      · exact absurd hyk hw
      · exact Or.inr hy'

/-- A property that successors inherit holds of all that is explored. -/
theorem explore_inherits {Q : S → Prop} (hnext : ∀ s t, Q s → t ∈ next s → Q t) {waiting : List S}
    {reached : Std.HashSet S} (hr : ∀ s, s ∈ reached → Q s) (hw : ∀ s ∈ waiting, Q s)
    (hs : s ∈ explore known next waiting reached) : Q s := by
  fun_induction explore known next waiting reached with
  | case1 => exact hr s hs
  | case2 reached w rest _ ih => exact ih hr (fun x hx => hw x (List.mem_cons_of_mem _ hx)) hs
  | case3 reached w rest _ _ ih =>
    have hQ : Q w := hw w List.mem_cons_self
    refine ih (fun x hx => ?_) (fun x hx => ?_) hs
    · rcases Std.HashSet.mem_insert.mp hx with e | hx
      · have e' : w = x := by simpa using e
        exact e' ▸ hQ
      · exact hr x hx
    · rcases List.mem_append.mp hx with hx | hx
      · exact hnext w x hQ hx
      · exact hw x (List.mem_cons_of_mem _ hx)
  | case4 reached w rest _ _ ih => exact ih hr (fun x hx => hw x (List.mem_cons_of_mem _ hx)) hs

end Explore

namespace TransitionSystem

variable {S A P : Type} [DecidableEq S] [Hashable S] [DecidableEq A] [Hashable A]
  [DecidableEq P] [Hashable P]

/-! ## 2. Reachability -/

/-- Some transition leads from one state to another. -/
def Step (m : TransitionSystem S A P) (s t : S) : Prop := ∃ a, ⟨s, a, t⟩ ∈ m.transitions

/-- A state that steps lead to from an initial state. -/
def Reachable (m : TransitionSystem S A P) (s : S) : Prop :=
  ∃ i, i ∈ m.initial ∧ Relation.ReflTransGen m.Step i s

variable {m m' : TransitionSystem S A P} {s : S} {p : P} {t : Transition S A} {on : Bool}

theorem Reachable.start (hs : s ∈ m.initial) : m.Reachable s := ⟨s, hs, .refl⟩

theorem Reachable.step {s t : S} (hs : m.Reachable s) (hst : m.Step s t) : m.Reachable t := by
  obtain ⟨i, hi, his⟩ := hs
  exact ⟨i, hi, his.tail hst⟩

/-- A larger system reaches what a smaller one does. -/
theorem Reachable.mono (hinitial : ∀ s, s ∈ m.initial → s ∈ m'.initial)
    (htransitions : ∀ t, t ∈ m.transitions → t ∈ m'.transitions) (h : m.Reachable s) :
    m'.Reachable s := by
  obtain ⟨i, hi, his⟩ := h
  refine ⟨i, hinitial i hi, Relation.ReflTransGen.mono ?_ i s his⟩
  rintro x y ⟨a, ha⟩
  exact ⟨a, htransitions _ ha⟩

theorem Reachable.declared (h : m.Consistent) (hs : m.Reachable s) : s ∈ m.states := by
  obtain ⟨i, hi, his⟩ := hs
  induction his with
  | refl => exact h.starts i hi
  | tail _ hst _ =>
    obtain ⟨a, ha⟩ := hst
    exact (h.ends _ ha).2.1

theorem Consistent.mem_targetsOf (h : m.Consistent) {s t : S} : t ∈ m.targetsOf s ↔ m.Step s t := by
  unfold targetsOf
  rw [List.mem_map]
  constructor
  · rintro ⟨u, hu, rfl⟩
    obtain ⟨hu', rfl⟩ := h.mem_outgoingOf.mp hu
    exact ⟨u.action, hu'⟩
  · rintro ⟨a, ha⟩
    exact ⟨⟨s, a, t⟩, h.mem_outgoingOf.mpr ⟨ha, rfl⟩, rfl⟩

theorem Consistent.mem_next (h : m.Consistent) {s t : S} : t ∈ m.next s ↔ m.Step s t := by
  rw [next, Ordered.mem_toList_ofList, h.mem_targetsOf]

/-- **`reach` is the set of the reachable states.** -/
theorem Consistent.mem_reach (h : m.Consistent) : s ∈ m.reach ↔ m.Reachable s := by
  have hknown : ∀ {t}, t ∈ m.states → t ∈ m.states.index := fun ht => h.states.mem_index.mpr ht
  constructor
  · intro hs
    refine explore_inherits (Q := m.Reachable) (fun x y hx hy => ?_) (fun x hx => ?_)
      (fun x hx => Reachable.start hx) hs
    · exact hx.step (h.mem_targetsOf.mp hy)
    · exact absurd hx Std.HashSet.not_mem_empty
  · rintro ⟨i, hi, his⟩
    induction his with
    | refl => exact mem_explore_of_waiting hi (hknown (h.starts i hi))
    | tail _ hst ih =>
      refine explore_closed (fun x hx => ?_) ih (h.mem_targetsOf.mpr hst) ?_
      · exact absurd hx Std.HashSet.not_mem_empty
      · obtain ⟨a, ha⟩ := hst
        exact hknown (h.ends _ ha).2.1

theorem Consistent.reach_contains (h : m.Consistent) :
    m.reach.contains s = true ↔ m.Reachable s := by
  rw [Std.HashSet.contains_iff_mem]
  exact h.mem_reach

/-! ## 3. Pruning -/

/-- What pruning leaves of a system. -/
structure Pruned (m p : TransitionSystem S A P) : Prop where
  states : p.states.toList = m.states.toList.filter m.reach.contains
  transitions : p.transitions.toList = m.transitions.toList.filter (m.reach.contains ·.source)
  initial : p.initial = m.initial
  actions : p.actions = m.actions
  props : p.props = m.props
  label : ∀ s, m.Reachable s → p.label s = m.label s

theorem Consistent.consistent_restrict_reach (h : m.Consistent) :
    (m.restrict m.reach.contains).Consistent := by
  refine h.restrict (fun s hs => h.reach_contains.mpr (Reachable.start hs)) fun t ht hk => ?_
  exact h.reach_contains.mpr ((h.reach_contains.mp hk).step ⟨t.action, ht⟩)

theorem Consistent.pruned_restrict_reach (h : m.Consistent) :
    Pruned m (m.restrict m.reach.contains) where
  states := Ordered.toList_retain _ _
  transitions := by
    show (m.transitions.retain _).toList = _
    rw [Ordered.toList_retain]
    refine List.filter_congr fun t ht => ?_
    cases hk : m.reach.contains t.source with
    | false => rfl
    | true => exact h.reach_contains.mpr ((h.reach_contains.mp hk).step ⟨t.action, ht⟩)
  initial := rfl
  actions := rfl
  props := rfl
  label s hs := by
    unfold TransitionSystem.label label? TransitionSystem.restrict
    rw [Std.HashMap.getElem?_filter']
    have hk := h.reach_contains.mpr hs
    cases m.labels[s]? <;> simp [Option.filter, hk]

/-- **If as many states are reached as there are, every state is reachable.** -/
theorem Consistent.reachable_of_size_le (h : m.Consistent) (hsize : m.states.size ≤ m.reach.size)
    (hs : s ∈ m.states) : m.Reachable s := by
  have hnd : m.reach.toList.Nodup := Std.HashSet.distinct_toList.imp fun hab => by simpa using hab
  have hsub : m.reach.toList ⊆ m.states.toList := fun t ht =>
    (h.mem_reach.mp (Std.HashSet.mem_toList.mp ht)).declared h
  have hlen : m.states.toList.length ≤ m.reach.toList.length := by
    rw [Ordered.length_toList, Std.HashSet.length_toList]
    exact hsize
  have hperm := (List.Nodup.subperm hnd hsub).perm_of_length_le hlen
  exact h.mem_reach.mp (Std.HashSet.mem_toList.mp (hperm.mem_iff.mpr hs))

/-- Where every state is reachable, pruning has nothing to do. -/
theorem Consistent.prune_eq_self (h : m.Consistent) (hall : ∀ s, s ∈ m.states → m.Reachable s) :
    m.prune = (m, 0) := by
  have hsub : m.states.toList ⊆ m.reach.toList := fun s hs =>
    Std.HashSet.mem_toList.mpr (h.mem_reach.mpr (hall s hs))
  have hlen := (List.Nodup.subperm h.states.nodup hsub).length_le
  rw [Ordered.length_toList, Std.HashSet.length_toList] at hlen
  unfold prune
  simp only [Nat.sub_eq_zero_of_le hlen, if_true]

theorem pruned_self (h : m.Consistent) (hall : ∀ s, s ∈ m.states → m.Reachable s) : Pruned m m where
  states := (List.filter_eq_self.mpr fun s hs => h.reach_contains.mpr (hall s hs)).symm
  transitions :=
    (List.filter_eq_self.mpr fun t ht => h.reach_contains.mpr (hall _ (h.ends t ht).1)).symm
  initial := rfl
  actions := rfl
  props := rfl
  label _ _ := rfl

/-- Pruning leaves the system alone where as many states are reached as there are. -/
theorem prune_cases (m : TransitionSystem S A P) :
    m.states.size ≤ m.reach.size ∧ m.prune = (m, 0) ∨
      m.prune = (m.restrict m.reach.contains, m.states.size - m.reach.size) := by
  unfold TransitionSystem.prune
  by_cases hz : m.states.size - m.reach.size = 0
  · exact Or.inl ⟨by omega, if_pos hz⟩
  · exact Or.inr (if_neg hz)

/-- **Pruning leaves the reachable part.** -/
theorem Consistent.prune_pruned (h : m.Consistent) : Pruned m m.prune.1 := by
  rcases m.prune_cases with ⟨hsize, e⟩ | e
  · rw [e]
    exact pruned_self h fun s hs => h.reachable_of_size_le hsize hs
  · rw [e]
    exact h.pruned_restrict_reach

theorem Consistent.prune (h : m.Consistent) : m.prune.1.Consistent := by
  rcases m.prune_cases with ⟨-, e⟩ | e
  · rw [e]
    exact h
  · rw [e]
    exact h.consistent_restrict_reach

theorem Pruned.mem_transitions {p : TransitionSystem S A P} (hp : Pruned m p) (h : m.Consistent) :
    t ∈ p.transitions ↔ t ∈ m.transitions ∧ m.Reachable t.source := by
  rw [← Ordered.mem_toList, hp.transitions, List.mem_filter, h.reach_contains]
  exact Iff.rfl

theorem Pruned.mem_states {p : TransitionSystem S A P} (hp : Pruned m p) (h : m.Consistent) :
    s ∈ p.states ↔ m.Reachable s := by
  rw [← Ordered.mem_toList, hp.states, List.mem_filter, h.reach_contains]
  exact ⟨fun hs => hs.2, fun hs => ⟨hs.declared h, hs⟩⟩

/-- Pruning takes nothing away that can be reached. -/
theorem Pruned.reachable_iff {p : TransitionSystem S A P} (hp : Pruned m p) (h : m.Consistent) :
    p.Reachable s ↔ m.Reachable s := by
  constructor
  · exact fun hs => hs.mono (fun i hi => hp.initial ▸ hi) fun t ht => ((hp.mem_transitions h).mp ht).1
  · rintro ⟨i, hi, his⟩
    induction his with
    | refl => exact .start (hp.initial.symm ▸ hi)
    | tail hib hbc ih =>
      obtain ⟨a, ha⟩ := hbc
      exact ih.step ⟨a, (hp.mem_transitions h).mpr ⟨ha, _, hi, hib⟩⟩

omit [DecidableEq S] [Hashable S] in
/-- The propositions that some entry of the table of labels has. -/
theorem mem_foldl_insertMany {ls : List (S × Ordered P)} {used : Std.HashSet P} :
    p ∈ ls.foldl (fun used x => used.insertMany x.2.toList) used ↔
      p ∈ used ∨ ∃ x ∈ ls, p ∈ x.2 := by
  induction ls generalizing used with
  | nil => simp
  | cons x ls ih =>
    rw [List.foldl_cons, ih, Std.HashSet.mem_insertMany_list]
    simp only [List.contains_iff_mem, List.mem_cons, exists_eq_or_imp, or_assoc]
    exact Iff.rfl

/-- **The propositions left are those that label a state.** -/
theorem Consistent.mem_pruneProps (h : m.Consistent) :
    p ∈ m.pruneProps.1.props ↔ ∃ s, s ∈ m.states ∧ p ∈ m.label s := by
  unfold pruneProps
  simp only [Ordered.mem_retain, Std.HashSet.contains_iff_mem, Std.HashMap.fold_eq_foldl_toList]
  rw [mem_foldl_insertMany]
  constructor
  · rintro ⟨-, hp | ⟨⟨s, l⟩, hx, hp⟩⟩
    · exact absurd hp Std.HashSet.not_mem_empty
    · have hl := Std.HashMap.mem_toList_iff_getElem?_eq_some.mp hx
      refine ⟨s, (h.labels.entry_of_getElem? hl).1, ?_⟩
      rw [label, label?, hl]
      exact hp
  · rintro ⟨s, hs, hp⟩
    obtain ⟨l, hl, hsl⟩ := h.labels.known s hs
    rw [label, label?, hl] at hp
    exact ⟨hsl.declared p hp,
      Or.inr ⟨(s, l), Std.HashMap.mem_toList_iff_getElem?_eq_some.mpr hl, hp⟩⟩

theorem Consistent.pruneProps (h : m.Consistent) : m.pruneProps.1.Consistent :=
  h.replaceProps (h.props.retain _) fun s _ hs hp => h.mem_pruneProps.mpr ⟨s, hs, hp⟩

/-! ## 4. The systems that the operations lead to -/

section Built

variable [Display S] [Display A] [Display P]

/-- **A system that is built by the operations**, from one that has nothing in it. A refused change
    leaves the system as it was; a refused relabeling leaves what it did up to there. -/
inductive Built : TransitionSystem S A P → Prop where
  | empty (name : String) : Built (.empty name)
  | addState (m : TransitionSystem S A P) (s : S) (h : Built m) : Built (m.addState s)
  | addAction (m : TransitionSystem S A P) (a : A) (h : Built m) : Built (m.addAction a)
  | addProp (m : TransitionSystem S A P) (p : P) (h : Built m) : Built (m.addProp p)
  | setInitial (m m' : TransitionSystem S A P) (s : S) (on : Bool) (h : Built m)
      (he : m.setInitial s on = .ok m') : Built m'
  | addTransition (m m' : TransitionSystem S A P) (t : Transition S A) (h : Built m)
      (he : m.addTransition t = .ok m') : Built m'
  | addLabel (m m' : TransitionSystem S A P) (s : S) (p : P) (h : Built m)
      (he : m.addLabel s p = .ok m') : Built m'
  | removeLabel (m m' : TransitionSystem S A P) (s : S) (p : P) (h : Built m)
      (he : m.removeLabel s p = .ok m') : Built m'
  | removeTransition (m : TransitionSystem S A P) (t : Transition S A) (h : Built m) :
      Built (m.removeTransition t).1
  | removeState (m m' : TransitionSystem S A P) (s : S) (h : Built m)
      (he : m.removeState s = .ok m') : Built m'
  | removeAction (m m' : TransitionSystem S A P) (a : A) (h : Built m)
      (he : m.removeAction a = .ok m') : Built m'
  | removeProp (m m' : TransitionSystem S A P) (p : P) (h : Built m)
      (he : m.removeProp p = .ok m') : Built m'
  | prune (m : TransitionSystem S A P) (h : Built m) : Built m.prune.1
  | pruneProps (m : TransitionSystem S A P) (h : Built m) : Built m.pruneProps.1
  | relabel (m : TransitionSystem S A P) (props : List P) (label : S → List P) (h : Built m) :
      Built (m.relabel props label).1

theorem Built.insertInitial (h : m.Built) (hs : m.states.contains s = true) :
    (m.insertInitial s).Built :=
  .setInitial m _ s true h (by simp [TransitionSystem.setInitial, TransitionSystem.insertInitial, hs])

theorem Built.insertTransition (h : m.Built) (ht : m.admits t = true) :
    (m.insertTransition t).Built :=
  .addTransition m _ t h (by simp [TransitionSystem.addTransition, ht])

/-! ### What a checked change asks for and does -/

omit [Display A] [Display P] in
theorem Consistent.setInitial_eq_ok (h : m.Consistent) :
    m.setInitial s on = .ok m' ↔ s ∈ m.states ∧
      m' = { m with initial := if on then m.initial.insert s else m.initial.erase s } := by
  unfold TransitionSystem.setInitial
  rw [← h.states.contains_iff]
  by_cases hs : m.states.contains s = true <;> simp [hs, eq_comm]

omit [Display S] [Display A] [Display P] in
theorem admits_iff (h : m.Consistent) :
    m.admits t = true ↔ t.source ∈ m.states ∧ t.target ∈ m.states ∧ t.action ∈ m.actions := by
  unfold admits
  rw [Bool.and_eq_true, Bool.and_eq_true, h.states.contains_iff, h.states.contains_iff,
    h.actions.contains_iff, and_assoc]

omit [Display P] in
theorem Consistent.addTransition_eq_ok (h : m.Consistent) :
    m.addTransition t = .ok m' ↔
      (t.source ∈ m.states ∧ t.target ∈ m.states ∧ t.action ∈ m.actions) ∧
        m' = m.insertTransition t := by
  unfold TransitionSystem.addTransition
  rw [← admits_iff h]
  by_cases ht : m.admits t = true <;> simp [ht, eq_comm]

omit [Display A] in
/-- A label that is added is an unchecked one between declared things. -/
theorem Consistent.addLabel_eq_ok (h : m.Consistent) :
    m.addLabel s p = .ok m' ↔ s ∈ m.states ∧ p ∈ m.props ∧ m' = m.insertLabel s p := by
  unfold addLabel
  rw [h.labels.contains_eq h.states]
  by_cases hs : m.states.contains s = true
  · by_cases hp : m.props.contains p = true
    · simp only [hs, hp, Bool.not_true, Bool.false_eq_true, if_false, Except.ok.injEq]
      exact ⟨fun e => ⟨h.states.contains_iff.mp hs, h.props.contains_iff.mp hp, e.symm⟩,
        fun e => e.2.2.symm⟩
    · have hp' : ¬ p ∈ m.props := fun h' => hp (h.props.contains_iff.mpr h')
      simp [hs, hp, hp']
  · have hs' : ¬ s ∈ m.states := fun h' => hs (h.states.contains_iff.mpr h')
    simp [hs, hs']

omit [Display A] [Display P] in
theorem Consistent.removeLabel_eq_ok (h : m.Consistent) :
    m.removeLabel s p = .ok m' ↔ s ∈ m.states ∧
      m' = { m with labels := m.labels.modify s (·.erase p) } := by
  unfold TransitionSystem.removeLabel
  rw [h.labels.contains_eq h.states, ← h.states.contains_iff]
  by_cases hs : m.states.contains s = true <;> simp [hs, eq_comm]

omit [Display S] [Display A] [Display P] in
/-- The two tables list no transition at a state exactly if there is none. -/
theorem Consistent.untouched_iff (h : m.Consistent) :
    (m.outgoingOf s).isEmpty = true ∧ (m.incomingOf s).isEmpty = true ↔
      ∀ t, t ∈ m.transitions → t.source ≠ s ∧ t.target ≠ s := by
  rw [h.outgoingOf_eq, h.incomingOf_eq, List.isEmpty_iff, List.isEmpty_iff, List.filter_eq_nil_iff,
    List.filter_eq_nil_iff]
  simp only [decide_eq_true_eq, ← forall_and]
  exact Iff.rfl

omit [Display A] [Display P] in
/-- **A state is taken away exactly if nothing speaks of it** any more. -/
theorem Consistent.removeState_eq_ok (h : m.Consistent) :
    m.removeState s = .ok m' ↔
      (s ∈ m.states ∧ ¬ s ∈ m.initial ∧ (∀ p, ¬ p ∈ m.label s) ∧
        ∀ t, t ∈ m.transitions → t.source ≠ s ∧ t.target ≠ s) ∧
      m' = { m with
        states := m.states.erase s
        labels := m.labels.erase s
        outgoing := m.outgoing.erase s
        incoming := m.incoming.erase s } := by
  have hlabel : (m.label s).isEmpty = true ↔ ∀ p, ¬ p ∈ m.label s := by
    rw [Ordered.isEmpty, Array.isEmpty_iff, ← Array.toList_eq_nil_iff]
    exact List.eq_nil_iff_forall_not_mem
  unfold TransitionSystem.removeState
  rw [← h.states.contains_iff, ← h.initial.contains_iff, ← hlabel, ← h.untouched_iff]
  cases m.states.contains s with
  | false => simp
  | true =>
    cases (m.outgoingOf s).isEmpty <;> cases (m.incomingOf s).isEmpty <;>
      cases (m.label s).isEmpty <;> cases m.initial.contains s <;> simp [eq_comm]

omit [Display P] in
/-- **An action is taken away exactly if no transition uses it.** -/
theorem Consistent.removeAction_eq_ok (h : m.Consistent) {a : A} :
    m.removeAction a = .ok m' ↔
      (a ∈ m.actions ∧ ∀ t, t ∈ m.transitions → t.action ≠ a) ∧
        m' = { m with actions := m.actions.erase a } := by
  have hunused : m.transitions.toList.find? (·.action = a) = none ↔
      ∀ t, t ∈ m.transitions → t.action ≠ a := by
    rw [List.find?_eq_none]
    simp only [decide_eq_true_eq]
    exact Iff.rfl
  unfold TransitionSystem.removeAction
  rw [← h.actions.contains_iff, ← hunused]
  cases m.actions.contains a with
  | false => simp
  | true => cases m.transitions.toList.find? (·.action = a) <;> simp [eq_comm]

omit [Display A] in
/-- **A proposition is taken away exactly if it labels no state.** -/
theorem Consistent.removeProp_eq_ok (h : m.Consistent) :
    m.removeProp p = .ok m' ↔
      (p ∈ m.props ∧ ∀ s, s ∈ m.states → ¬ p ∈ m.label s) ∧
        m' = { m with props := m.props.erase p } := by
  have hunused : (m.states.toList.find? fun s => (m.label s).contains p) = none ↔
      ∀ s, s ∈ m.states → ¬ p ∈ m.label s := by
    rw [List.find?_eq_none]
    exact forall_congr' fun s => imp_congr_right fun _ =>
      not_congr (h.labeled s).valid.contains_iff
  unfold TransitionSystem.removeProp
  rw [← h.props.contains_iff, ← hunused]
  cases m.props.contains p with
  | false => simp
  | true => cases m.states.toList.find? fun s => (m.label s).contains p <;> simp [eq_comm]

/-! ### Checked changes keep a system consistent -/

omit [Display A] [Display P] in
theorem Consistent.setInitial (h : m.Consistent) (he : m.setInitial s on = .ok m') :
    m'.Consistent := by
  obtain ⟨hs, rfl⟩ := h.setInitial_eq_ok.mp he
  cases on with
  | true => exact h.insertInitial hs
  | false => exact h.eraseInitial s

omit [Display P] in
theorem Consistent.addTransition (h : m.Consistent) (he : m.addTransition t = .ok m') :
    m'.Consistent := by
  obtain ⟨ht, rfl⟩ := h.addTransition_eq_ok.mp he
  exact h.insertTransition ht

omit [Display A] in
theorem Consistent.addLabel (h : m.Consistent) (he : m.addLabel s p = .ok m') : m'.Consistent := by
  obtain ⟨-, hp, rfl⟩ := h.addLabel_eq_ok.mp he
  exact h.insertLabel s hp

omit [Display A] [Display P] in
theorem Consistent.removeLabel (h : m.Consistent) (he : m.removeLabel s p = .ok m') :
    m'.Consistent := by
  obtain ⟨-, rfl⟩ := h.removeLabel_eq_ok.mp he
  exact h.eraseLabel s p

omit [Display A] [Display P] in
theorem Consistent.removeState (h : m.Consistent) (he : m.removeState s = .ok m') :
    m'.Consistent := by
  obtain ⟨⟨-, hi, -, ht⟩, rfl⟩ := h.removeState_eq_ok.mp he
  obtain ⟨ho, hn⟩ := h.untouched_iff.mpr ht
  exact h.eraseState hi (List.isEmpty_iff.mp ho) (List.isEmpty_iff.mp hn)

omit [Display P] in
theorem Consistent.removeAction (h : m.Consistent) {a : A} (he : m.removeAction a = .ok m') :
    m'.Consistent := by
  obtain ⟨⟨-, ht⟩, rfl⟩ := h.removeAction_eq_ok.mp he
  exact h.eraseAction ht

omit [Display A] in
theorem Consistent.removeProp (h : m.Consistent) (he : m.removeProp p = .ok m') :
    m'.Consistent := by
  obtain ⟨⟨-, hl⟩, rfl⟩ := h.removeProp_eq_ok.mp he
  refine h.replaceProps (h.props.erase p) fun s q hs hq => ?_
  exact h.props.mem_erase.mpr ⟨(h.labeled s).declared q hq, fun e => hl s hs (e ▸ hq)⟩

omit [Display A] in
theorem Consistent.relabel_go (h : m.Consistent) (xs : List (S × P)) :
    (relabel.go xs m).1.Consistent := by
  induction xs generalizing m with
  | nil => exact h
  | cons x xs ih =>
    obtain ⟨s, p⟩ := x
    unfold relabel.go
    split
    · rename_i he
      exact ih (h.addLabel he)
    · exact h

/-- **Every system that is built is consistent.** -/
theorem Built.consistent (hb : m.Built) : m.Consistent := by
  induction hb with
  | empty name => exact consistent_empty name
  | addState m s _ ih => exact ih.addState s
  | addAction m a _ ih => exact ih.addAction a
  | addProp m p _ ih => exact ih.addProp p
  | setInitial m m' s on _ he ih => exact ih.setInitial he
  | addTransition m m' t _ he ih => exact ih.addTransition he
  | addLabel m m' s p _ he ih => exact ih.addLabel he
  | removeLabel m m' s p _ he ih => exact ih.removeLabel he
  | removeTransition m t _ ih => exact ih.removeTransition t
  | removeState m m' s _ he ih => exact ih.removeState he
  | removeAction m m' a _ he ih => exact ih.removeAction he
  | removeProp m m' p _ he ih => exact ih.removeProp he
  | prune m _ ih => exact ih.prune
  | pruneProps m _ ih => exact ih.pruneProps
  | relabel m props label _ ih => exact (ih.clearLabels props).relabel_go _

end Built

end TransitionSystem

end Lasso
