import Lasso.Proofs.Ordered
import Lasso.System.Reach
/-!
# What every transition system keeps

A transition system says the same thing in several places: its transitions stand in one list and,
by source and by target, in two tables. This file fixes how the places belong together.

* `Table` -- a hash map that has an entry for every declared state and for no other; one lemma for
  each way a table changes;
* `Consistent` -- the representation invariant: declared ends and actions, labels over declared
  propositions, and tables that list for each state its own transitions in their order;
* one lemma for each change: what it does to a consistent system leaves it consistent.
-/

namespace Lasso

/-! ## 1. Tables over the states -/

section Table

variable {S V W : Type} [DecidableEq S] [Hashable S]

/-- A hash map with an entry for each declared state and for nothing else. `entry` says what the
    entry of a state is like. -/
structure Table (states : Ordered S) (map : Std.HashMap S V) (entry : S → V → Prop) : Prop where
  known : ∀ s, s ∈ states → ∃ v, map[s]? = some v ∧ entry s v
  unknown : ∀ s, ¬ s ∈ states → map[s]? = none

namespace Table

variable {states : Ordered S} {map : Std.HashMap S V} {entry : S → V → Prop}

theorem empty : Table (∅ : Ordered S) (∅ : Std.HashMap S V) entry where
  known s hs := absurd hs (Ordered.not_mem_empty s)
  unknown s _ := by simp

theorem imp (h : Table states map entry) {entry' : S → V → Prop}
    (he : ∀ s v, s ∈ states → entry s v → entry' s v) : Table states map entry' where
  known s hs := by
    obtain ⟨v, hv, hsv⟩ := h.known s hs
    exact ⟨v, hv, he s v hs hsv⟩
  unknown := h.unknown

theorem entry_of_getElem? (h : Table states map entry) {s : S} {v : V} (hv : map[s]? = some v) :
    s ∈ states ∧ entry s v := by
  by_cases hs : s ∈ states
  · obtain ⟨w, hw, hsw⟩ := h.known s hs
    rw [hv] at hw
    cases hw
    exact ⟨hs, hsw⟩
  · rw [h.unknown s hs] at hv
    cases hv

theorem mem_iff (h : Table states map entry) {s : S} : s ∈ map ↔ s ∈ states := by
  rw [Std.HashMap.mem_iff_isSome_getElem?]
  constructor
  · intro hs
    obtain ⟨v, hv⟩ := Option.isSome_iff_exists.mp hs
    exact (h.entry_of_getElem? hv).1
  · intro hs
    obtain ⟨v, hv, -⟩ := h.known s hs
    rw [hv]
    rfl

theorem contains_eq (h : Table states map entry) (hv : states.Valid) (s : S) :
    map.contains s = states.contains s := by
  rw [Bool.eq_iff_iff, Std.HashMap.contains_iff_mem, h.mem_iff, hv.contains_iff]

theorem insert (h : Table states map entry) (hv : states.Valid) {s : S} {v : V} (hs : entry s v) :
    Table (states.insert s) (map.insert s v) entry where
  known t ht := by
    rw [Std.HashMap.getElem?_insert]
    by_cases hst : s = t
    · subst hst
      exact ⟨v, by simp, hs⟩
    · have ht' : t ∈ states := (hv.mem_insert.mp ht).resolve_right (Ne.symm hst)
      simpa [hst] using h.known t ht'
  unknown t ht := by
    have ht' : ¬ t ∈ states ∧ t ≠ s := by
      rw [hv.mem_insert, not_or] at ht
      exact ht
    rw [Std.HashMap.getElem?_insert]
    simpa [Ne.symm ht'.2] using h.unknown t ht'.1

theorem modify (h : Table states map entry) {entry' : S → V → Prop} {s : S} {f : V → V}
    (hs : ∀ v, s ∈ states → entry s v → entry' s (f v))
    (ho : ∀ t v, t ≠ s → t ∈ states → entry t v → entry' t v) :
    Table states (map.modify s f) entry' where
  known t ht := by
    obtain ⟨v, hv, htv⟩ := h.known t ht
    rw [Std.HashMap.getElem?_modify]
    by_cases hst : s = t
    · subst hst
      exact ⟨f v, by simp [hv], hs v ht htv⟩
    · exact ⟨v, by simpa [hst] using hv, ho t v (Ne.symm hst) ht htv⟩
  unknown t ht := by
    rw [Std.HashMap.getElem?_modify]
    by_cases hst : s = t
    · subst hst
      simp [h.unknown s ht]
    · simpa [hst] using h.unknown t ht

theorem erase (h : Table states map entry) (hv : states.Valid) (s : S) :
    Table (states.erase s) (map.erase s) entry where
  known t ht := by
    obtain ⟨ht', hne⟩ := hv.mem_erase.mp ht
    rw [Std.HashMap.getElem?_erase]
    simpa [Ne.symm hne] using h.known t ht'
  unknown t ht := by
    rw [Std.HashMap.getElem?_erase]
    by_cases hst : s = t
    · simp [hst]
    · have ht' : ¬ t ∈ states := fun h' => ht (hv.mem_erase.mpr ⟨h', Ne.symm hst⟩)
      simpa [hst] using h.unknown t ht'

theorem filter (h : Table states map entry) (keep : S → Bool) :
    Table (states.retain keep) (map.filter fun s _ => keep s) entry where
  known t ht := by
    obtain ⟨ht', hk⟩ := Ordered.mem_retain.mp ht
    obtain ⟨v, hv, htv⟩ := h.known t ht'
    refine ⟨v, ?_, htv⟩
    rw [Std.HashMap.getElem?_filter', hv]
    simp [Option.filter, hk]
  unknown t ht := by
    rw [Std.HashMap.getElem?_filter']
    by_cases ht' : t ∈ states
    · have hk : keep t = false :=
        Bool.eq_false_iff.mpr fun hk => ht (Ordered.mem_retain.mpr ⟨ht', hk⟩)
      cases map[t]? <;> simp [Option.filter, hk]
    · rw [h.unknown t ht']
      rfl

theorem map_entries (h : Table states map entry) {entry' : S → W → Prop} {f : S → V → W}
    (he : ∀ s v, s ∈ states → entry s v → entry' s (f s v)) : Table states (map.map f) entry' where
  known s hs := by
    obtain ⟨v, hv, hsv⟩ := h.known s hs
    exact ⟨f s v, by simp [hv], he s v hs hsv⟩
  unknown s hs := by simp [h.unknown s hs]

end Table

end Table

namespace TransitionSystem

variable {S A P : Type} [DecidableEq S] [Hashable S] [DecidableEq A] [Hashable A]
  [DecidableEq P] [Hashable P] {m : TransitionSystem S A P} {key : Transition S A → S}
  {ts : List (Transition S A)} {t : Transition S A} {o : Ordered (Transition S A)}

/-! ## 2. The invariant -/

/-- The entry of a state in a table of transitions: those with the state as their key, in the order
    of all transitions. -/
structure Lists (key : Transition S A → S) (ts : List (Transition S A)) (s : S)
    (o : Ordered (Transition S A)) : Prop where
  valid : o.Valid
  listed : o.toList = ts.filter (key · = s)

/-- The entry of a state in the table of labels: declared propositions. -/
structure Labeled (props : Ordered P) (l : Ordered P) : Prop where
  valid : l.Valid
  declared : ∀ p, p ∈ l → p ∈ props

/-- **The representation invariant of a transition system.** -/
structure Consistent (m : TransitionSystem S A P) : Prop where
  states : m.states.Valid
  initial : m.initial.Valid
  actions : m.actions.Valid
  props : m.props.Valid
  transitions : m.transitions.Valid
  starts : ∀ s, s ∈ m.initial → s ∈ m.states
  ends : ∀ t, t ∈ m.transitions → t.source ∈ m.states ∧ t.target ∈ m.states ∧ t.action ∈ m.actions
  labels : Table m.states m.labels fun _ => Labeled m.props
  outgoing : Table m.states m.outgoing (Lists (·.source) m.transitions.toList)
  incoming : Table m.states m.incoming (Lists (·.target) m.transitions.toList)

theorem consistent_empty (name : String) : (empty name : TransitionSystem S A P).Consistent where
  states := Ordered.valid_empty
  initial := Ordered.valid_empty
  actions := Ordered.valid_empty
  props := Ordered.valid_empty
  transitions := Ordered.valid_empty
  starts s hs := absurd hs (Ordered.not_mem_empty s)
  ends t ht := absurd ht (Ordered.not_mem_empty t)
  labels := Table.empty
  outgoing := Table.empty
  incoming := Table.empty

/-! ## 3. Reading the tables -/

/-- **The table of transitions answers what the list of transitions says**, also for a state that is
    not declared. -/
theorem toList_getD_of_lists {states : Ordered S} {map : Std.HashMap S (Ordered (Transition S A))}
    (h : Table states map (Lists key ts)) (hends : ∀ t ∈ ts, key t ∈ states) (s : S) :
    (map.getD s ∅).toList = ts.filter (key · = s) := by
  rw [Std.HashMap.getD_eq_getD_getElem?]
  by_cases hs : s ∈ states
  · obtain ⟨o, ho, hl⟩ := h.known s hs
    rw [ho]
    exact hl.listed
  · rw [h.unknown s hs]
    refine (List.filter_eq_nil_iff.mpr fun t ht => ?_).symm
    intro e
    exact hs (of_decide_eq_true e ▸ hends t ht)

theorem Consistent.outgoingOf_eq (h : m.Consistent) (s : S) :
    m.outgoingOf s = m.transitions.toList.filter (·.source = s) :=
  toList_getD_of_lists h.outgoing (fun t ht => (h.ends t ht).1) s

theorem Consistent.incomingOf_eq (h : m.Consistent) (s : S) :
    m.incomingOf s = m.transitions.toList.filter (·.target = s) :=
  toList_getD_of_lists h.incoming (fun t ht => (h.ends t ht).2.1) s

theorem Consistent.mem_outgoingOf (h : m.Consistent) {s : S} :
    t ∈ m.outgoingOf s ↔ t ∈ m.transitions ∧ t.source = s := by
  rw [h.outgoingOf_eq, List.mem_filter, decide_eq_true_iff]
  exact Iff.rfl

theorem Consistent.labeled (h : m.Consistent) (s : S) : Labeled m.props (m.label s) := by
  unfold label label?
  by_cases hs : s ∈ m.states
  · obtain ⟨l, hl, hsl⟩ := h.labels.known s hs
    rw [hl]
    exact hsl
  · rw [h.labels.unknown s hs]
    exact ⟨Ordered.valid_empty, fun p hp => absurd hp (Ordered.not_mem_empty p)⟩

/-! ## 4. Entries after a change of the transitions -/

theorem Lists.append_same (h : Lists key ts (key t) o) (ht : t ∉ ts) :
    Lists key (ts ++ [t]) (key t) (o.insert t) where
  valid := h.valid.insert t
  listed := by
    have ht' : t ∉ o.toList := by
      rw [h.listed]
      exact fun hm => ht (List.mem_of_mem_filter hm)
    rw [h.valid.toList_insert, if_neg ht', h.listed, List.filter_append]
    simp

theorem Lists.append_other {s : S} (h : Lists key ts s o) (hs : s ≠ key t) :
    Lists key (ts ++ [t]) s o where
  valid := h.valid
  listed := by
    rw [h.listed, List.filter_append]
    simp [Ne.symm hs]

theorem Lists.erase_same {s : S} (h : Lists key ts s o) (t : Transition S A) :
    Lists key (ts.filter (· ≠ t)) s (o.erase t) where
  valid := h.valid.erase t
  listed := by
    rw [h.valid.toList_erase, h.listed, List.filter_filter, List.filter_filter]
    congr 1
    funext u
    rw [Bool.and_comm]

theorem Lists.erase_other {s : S} (h : Lists key ts s o) (hs : s ≠ key t) :
    Lists key (ts.filter (· ≠ t)) s o where
  valid := h.valid
  listed := by
    rw [h.listed, List.filter_filter]
    refine List.filter_congr fun u _ => ?_
    by_cases hu : u = t
    · subst hu
      simp [Ne.symm hs]
    · simp [hu]

theorem Lists.retain {s : S} (h : Lists key ts s o) (keep : Transition S A → Bool) :
    Lists key (ts.filter keep) s (o.retain keep) where
  valid := h.valid.retain keep
  listed := by
    rw [Ordered.toList_retain, h.listed, List.filter_filter, List.filter_filter]
    congr 1
    funext u
    rw [Bool.and_comm]

theorem Lists.congr {ts us : List (Transition S A)} {s : S} (h : Lists key ts s o)
    (e : ts.filter (key · = s) = us.filter (key · = s)) : Lists key us s o :=
  ⟨h.valid, h.listed.trans e⟩

theorem Labeled.mono {props props' l : Ordered P} (h : Labeled props l)
    (hsub : ∀ p, p ∈ props → p ∈ props') : Labeled props' l :=
  ⟨h.valid, fun p hp => hsub p (h.declared p hp)⟩

theorem Labeled.insert {props l : Ordered P} (h : Labeled props l) {p : P} (hp : p ∈ props) :
    Labeled props (l.insert p) :=
  ⟨h.valid.insert p, fun q hq => (h.valid.mem_insert.mp hq).elim (h.declared q) fun e => e ▸ hp⟩

theorem Labeled.erase {props l : Ordered P} (h : Labeled props l) (p : P) :
    Labeled props (l.erase p) :=
  ⟨h.valid.erase p, fun q hq => h.declared q (h.valid.mem_erase.mp hq).1⟩

/-! ## 5. Additions -/

/-- A new state has no transitions yet. -/
theorem lists_new {states : Ordered S} {s : S} (hs : ¬ s ∈ states)
    (hkey : ∀ t ∈ ts, key t ∈ states) : Lists key ts s (∅ : Ordered (Transition S A)) where
  valid := Ordered.valid_empty
  listed := by
    refine (List.filter_eq_nil_iff.mpr fun t ht => ?_).symm
    intro e
    exact hs (of_decide_eq_true e ▸ hkey t ht)

theorem Consistent.addState (h : m.Consistent) (s : S) : (m.addState s).Consistent := by
  unfold TransitionSystem.addState
  rw [h.states.contains_eq]
  by_cases hs : s ∈ m.states.toList
  · simpa [hs] using h
  · simp only [hs, decide_false, Bool.false_eq_true, if_false]
    have hsub : ∀ t, t ∈ m.states → t ∈ m.states.insert s :=
      fun t ht => h.states.mem_insert.mpr (Or.inl ht)
    exact {
      states := h.states.insert s
      initial := h.initial
      actions := h.actions
      props := h.props
      transitions := h.transitions
      starts := fun t ht => hsub t (h.starts t ht)
      ends := fun t ht => ⟨hsub _ (h.ends t ht).1, hsub _ (h.ends t ht).2.1, (h.ends t ht).2.2⟩
      labels := h.labels.insert h.states
        ⟨Ordered.valid_empty, fun p hp => absurd hp (Ordered.not_mem_empty p)⟩
      outgoing := h.outgoing.insert h.states (lists_new hs fun t ht => (h.ends t ht).1)
      incoming := h.incoming.insert h.states (lists_new hs fun t ht => (h.ends t ht).2.1) }

theorem Consistent.addAction (h : m.Consistent) (a : A) : (m.addAction a).Consistent :=
  { h with
    actions := h.actions.insert a
    ends := fun t ht => ⟨(h.ends t ht).1, (h.ends t ht).2.1,
      h.actions.mem_insert.mpr (Or.inl (h.ends t ht).2.2)⟩ }

theorem Consistent.addProp (h : m.Consistent) (p : P) : (m.addProp p).Consistent :=
  { h with
    props := h.props.insert p
    labels := h.labels.imp fun _ _ _ hl =>
      hl.mono fun _ hq => h.props.mem_insert.mpr (Or.inl hq) }

theorem Consistent.insertInitial (h : m.Consistent) {s : S} (hs : s ∈ m.states) :
    (m.insertInitial s).Consistent :=
  { h with
    initial := h.initial.insert s
    starts := fun t ht => (h.initial.mem_insert.mp ht).elim (h.starts t) fun e => e ▸ hs }

theorem Consistent.insertLabel (h : m.Consistent) (s : S) {p : P} (hp : p ∈ m.props) :
    (m.insertLabel s p).Consistent :=
  { h with
    labels := h.labels.modify (fun _ _ hl => hl.insert hp) fun _ _ _ _ hl => hl }

theorem Consistent.insertTransition (h : m.Consistent)
    (ht : t.source ∈ m.states ∧ t.target ∈ m.states ∧ t.action ∈ m.actions) :
    (m.insertTransition t).Consistent := by
  unfold TransitionSystem.insertTransition
  rw [h.transitions.contains_eq]
  by_cases hm : t ∈ m.transitions.toList
  · simpa [hm] using h
  · simp only [hm, decide_false, Bool.false_eq_true, if_false]
    have e : (m.transitions.insert t).toList = m.transitions.toList ++ [t] := by
      rw [h.transitions.toList_insert, if_neg hm]
    refine { h with
      transitions := h.transitions.insert t
      ends := fun u hu => (h.transitions.mem_insert.mp hu).elim (h.ends u) fun e => e ▸ ht
      outgoing := ?_
      incoming := ?_ }
    · show Table _ _ (Lists _ (m.transitions.insert t).toList)
      rw [e]
      exact h.outgoing.modify (fun _ _ hl => hl.append_same hm)
        fun _ _ hne _ hl => hl.append_other hne
    · show Table _ _ (Lists _ (m.transitions.insert t).toList)
      rw [e]
      exact h.incoming.modify (fun _ _ hl => hl.append_same hm)
        fun _ _ hne _ hl => hl.append_other hne

/-! ## 6. Removals -/

theorem Consistent.eraseInitial (h : m.Consistent) (s : S) :
    ({ m with initial := m.initial.erase s } : TransitionSystem S A P).Consistent :=
  { h with
    initial := h.initial.erase s
    starts := fun t ht => h.starts t (h.initial.mem_erase.mp ht).1 }

theorem Consistent.removeTransition (h : m.Consistent) (t : Transition S A) :
    (m.removeTransition t).1.Consistent := by
  unfold TransitionSystem.removeTransition
  by_cases hm : m.transitions.contains t = true
  · simp only [hm, Bool.not_true, Bool.false_eq_true, if_false]
    have e := h.transitions.toList_erase t
    refine { h with
      transitions := h.transitions.erase t
      ends := fun u hu => h.ends u (h.transitions.mem_erase.mp hu).1
      outgoing := ?_
      incoming := ?_ }
    · show Table _ _ (Lists _ (m.transitions.erase t).toList)
      rw [e]
      exact h.outgoing.modify (fun _ _ hl => hl.erase_same t)
        fun _ _ hne _ hl => hl.erase_other hne
    · show Table _ _ (Lists _ (m.transitions.erase t).toList)
      rw [e]
      exact h.incoming.modify (fun _ _ hl => hl.erase_same t)
        fun _ _ hne _ hl => hl.erase_other hne
  · simpa [hm] using h

theorem Consistent.eraseLabel (h : m.Consistent) (s : S) (p : P) :
    ({ m with labels := m.labels.modify s (·.erase p) } : TransitionSystem S A P).Consistent :=
  { h with
    labels := h.labels.modify (fun _ _ hl => hl.erase p) fun _ _ _ _ hl => hl }

/-- A state may go when it is not initial and no transition starts or ends in it. -/
theorem Consistent.eraseState (h : m.Consistent) {s : S} (hi : ¬ s ∈ m.initial)
    (ho : m.outgoingOf s = []) (hn : m.incomingOf s = []) :
    ({ m with
      states := m.states.erase s
      labels := m.labels.erase s
      outgoing := m.outgoing.erase s
      incoming := m.incoming.erase s } : TransitionSystem S A P).Consistent := by
  rw [h.outgoingOf_eq] at ho
  rw [h.incomingOf_eq] at hn
  exact { h with
    states := h.states.erase s
    starts := fun t ht => h.states.mem_erase.mpr
      ⟨h.starts t ht, fun e => hi (e ▸ ht)⟩
    ends := fun t ht => by
      obtain ⟨h1, h2, h3⟩ := h.ends t ht
      refine ⟨h.states.mem_erase.mpr ⟨h1, fun e => ?_⟩, h.states.mem_erase.mpr ⟨h2, fun e => ?_⟩, h3⟩
      · exact List.filter_eq_nil_iff.mp ho t ht (decide_eq_true e)
      · exact List.filter_eq_nil_iff.mp hn t ht (decide_eq_true e)
    labels := h.labels.erase h.states s
    outgoing := h.outgoing.erase h.states s
    incoming := h.incoming.erase h.states s }

theorem Consistent.eraseAction (h : m.Consistent) {a : A}
    (ha : ∀ t, t ∈ m.transitions → t.action ≠ a) :
    ({ m with actions := m.actions.erase a } : TransitionSystem S A P).Consistent :=
  { h with
    actions := h.actions.erase a
    ends := fun t ht => ⟨(h.ends t ht).1, (h.ends t ht).2.1,
      h.actions.mem_erase.mpr ⟨(h.ends t ht).2.2, ha t ht⟩⟩ }

/-- The propositions may be replaced by any that contain what labels a state. -/
theorem Consistent.replaceProps (h : m.Consistent) {props : Ordered P} (hv : props.Valid)
    (hp : ∀ s p, s ∈ m.states → p ∈ m.label s → p ∈ props) :
    ({ m with props := props } : TransitionSystem S A P).Consistent := by
  refine { h with
    props := hv
    labels := ⟨fun s hs => ?_, h.labels.unknown⟩ }
  obtain ⟨l, hl, hsl⟩ := h.labels.known s hs
  refine ⟨l, hl, hsl.valid, fun p hpl => hp s p hs ?_⟩
  rw [label, label?, hl]
  exact hpl

theorem Consistent.clearLabels (h : m.Consistent) (props : List P) :
    (m.clearLabels props).Consistent :=
  { h with
    props := Ordered.valid_ofList props
    labels := h.labels.map_entries fun _ _ _ _ =>
      ⟨Ordered.valid_empty, fun p hp => absurd hp (Ordered.not_mem_empty p)⟩ }

/-- **A system may be restricted to states that hold the initial ones and that no transition
    leaves.** -/
theorem Consistent.restrict (h : m.Consistent) {keep : S → Bool}
    (hi : ∀ s, s ∈ m.initial → keep s = true)
    (hc : ∀ t, t ∈ m.transitions → keep t.source = true → keep t.target = true) :
    (m.restrict keep).Consistent where
  states := h.states.retain keep
  initial := h.initial
  actions := h.actions
  props := h.props
  transitions := h.transitions.retain _
  starts s hs := Ordered.mem_retain.mpr ⟨h.starts s hs, hi s hs⟩
  ends t ht := by
    obtain ⟨ht', hk⟩ := Ordered.mem_retain.mp ht
    obtain ⟨hk1, hk2⟩ := Bool.and_eq_true_iff.mp hk
    obtain ⟨h1, h2, h3⟩ := h.ends t ht'
    exact ⟨Ordered.mem_retain.mpr ⟨h1, hk1⟩, Ordered.mem_retain.mpr ⟨h2, hk2⟩, h3⟩
  labels := h.labels.filter keep
  outgoing := by
    refine (h.outgoing.filter keep).imp fun s o hs hl => hl.congr ?_
    show _ = List.filter _ (m.transitions.retain _).toList
    rw [Ordered.toList_retain, List.filter_filter]
    refine List.filter_congr fun t ht => ?_
    by_cases hts : t.source = s
    · have hk : keep t.source = true := hts ▸ (Ordered.mem_retain.mp hs).2
      simp [hts ▸ hk, hc t ht hk, hts]
    · simp [hts]
  incoming := by
    refine (h.incoming.filter keep).map_entries fun s o hs hl =>
      (hl.retain fun t => keep t.source).congr ?_
    show _ = List.filter _ (m.transitions.retain _).toList
    rw [Ordered.toList_retain, List.filter_filter, List.filter_filter]
    refine List.filter_congr fun t _ => ?_
    by_cases hts : t.target = s
    · have hk : keep t.target = true := hts ▸ (Ordered.mem_retain.mp hs).2
      simp [hts ▸ hk, hts]
    · simp [hts]

end TransitionSystem

end Lasso
