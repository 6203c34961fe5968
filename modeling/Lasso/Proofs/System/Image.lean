import Lasso.Proofs.System.Changes
import Lasso.Proofs.System.Fragment
/-!
# Successors and predecessors of sets

What is behind a set of states is read off one table of a system, what is before it off another, and
single transitions off the list of all. This file shows that the answers agree, however the system came
about.

* `Told` -- an answer that is given for declared states only, with its members;
* `Told.unionOver` -- **the union over a set** is told as its members are;
* `Images` -- how the questions about successors and predecessors belong together: forward and backward
  are adjoint;
* `images_after` -- **they belong together after any changes**.
-/

namespace Lasso.TransitionSystem

variable {S A P : Type} [DecidableEq S] [Hashable S] [DecidableEq A] [Hashable A]
  [DecidableEq P] [Hashable P] {m : TransitionSystem S A P} {s : S} {a : A}

/-! ## 1. Answers for declared states -/

/-- **A set is told where all that is asked about is declared**; otherwise a state is refused. -/
structure Told (declared : Prop) (X : S → Prop) (r : Except SystemError (Ordered S)) : Prop where
  given : declared → ∃ o, r = .ok o ∧ ∀ t, t ∈ o ↔ X t
  refused : ¬ declared → ∃ c, r = .error c ∧ c.kind = .noState

theorem Told.refused_iff {declared : Prop} {X : S → Prop} {r : Except SystemError (Ordered S)}
    (h : Told declared X r) : (∃ c, r = .error c ∧ c.kind = .noState) ↔ ¬ declared := by
  refine ⟨?_, h.refused⟩
  rintro ⟨c, hc, -⟩ hd
  obtain ⟨o, ho, -⟩ := h.given hd
  cases hc.symm.trans ho

theorem not_forall_mem {C D : Ordered S} : (¬ ∀ s, s ∈ C → s ∈ D) ↔ ∃ s, s ∈ C ∧ ¬ s ∈ D := by
  simp

section Union

variable {ask : S → Except SystemError (Ordered S)} {declared : S → Prop} {R : S → S → Prop}

theorem exists_foldlM_union (h : ∀ s, Told (declared s) (R s) (ask s)) {l : List S}
    (hl : ∀ s ∈ l, declared s) {o : Ordered S} (ho : o.Valid) :
    ∃ o', l.foldlM (fun o s => do return o.union (← ask s)) o = .ok o' ∧
      ∀ t, t ∈ o' ↔ t ∈ o ∨ ∃ s ∈ l, R s t := by
  induction l generalizing o with
  | nil => exact ⟨o, rfl, fun t => by simp⟩
  | cons s l ih =>
    obtain ⟨hs, hl⟩ := List.forall_mem_cons.mp hl
    obtain ⟨p, hp, hmem⟩ := (h s).given hs
    obtain ⟨o', ho', hmem'⟩ := ih hl (ho.insertMany p.toList)
    refine ⟨o', ?_, fun t => ?_⟩
    · rw [List.foldlM_cons, hp]
      exact ho'
    · rw [hmem', ho.mem_insertMany, Ordered.mem_toList, hmem]
      simp [or_assoc]

theorem exists_foldlM_refused (h : ∀ s, Told (declared s) (R s) (ask s)) {l : List S}
    (hl : ¬ ∀ s ∈ l, declared s) (o : Ordered S) :
    ∃ c, l.foldlM (fun o s => do return o.union (← ask s)) o = .error c ∧ c.kind = .noState := by
  induction l generalizing o with
  | nil => exact absurd (fun s hs => absurd hs List.not_mem_nil) hl
  | cons s l ih =>
    by_cases hs : declared s
    · obtain ⟨p, hp, -⟩ := (h s).given hs
      rw [List.foldlM_cons, hp]
      exact ih (fun hall => hl (List.forall_mem_cons.mpr ⟨hs, hall⟩)) _
    · obtain ⟨c, hc, hkind⟩ := (h s).refused hs
      refine ⟨c, ?_, hkind⟩
      rw [List.foldlM_cons, hc]
      rfl

/-- **The union over a set** is told if what is asked of each of its members is. -/
theorem Told.unionOver (h : ∀ s, Told (declared s) (R s) (ask s)) (C : Ordered S) :
    Told (∀ s, s ∈ C → declared s) (fun t => ∃ s, s ∈ C ∧ R s t) (unionOver ask C) where
  given hC := by
    obtain ⟨o, ho, hmem⟩ := exists_foldlM_union h hC Ordered.valid_empty
    exact ⟨o, ho, fun t => (hmem t).trans (or_iff_right (Ordered.not_mem_empty t))⟩
  refused hC := exists_foldlM_refused h hC ∅

end Union

/-! ## 2. Successors and predecessors -/

theorem Consistent.mem_incomingOf (h : m.Consistent) {t : Transition S A} :
    t ∈ m.incomingOf s ↔ t ∈ m.transitions ∧ t.target = s := by
  rw [h.incomingOf_eq, List.mem_filter, decide_eq_true_iff]
  exact Iff.rfl

section Asked

variable [Display S] [Display A]

omit [Display A] in
theorem Consistent.told_ofList (h : m.Consistent) {l : List S} {X : S → Prop} (hl : ∀ t, t ∈ l ↔ X t) :
    Told (s ∈ m.states) X (do m.needState s; return .ofList l) where
  given hs := by
    rw [h.needState_eq_ok.mpr hs]
    exact ⟨.ofList l, rfl, fun t => Ordered.mem_ofList.trans (hl t)⟩
  refused hs := by
    rw [h.needState_eq_error hs]
    exact ⟨_, rfl, rfl⟩

omit [Display A] in
theorem Consistent.told_post (h : m.Consistent) (s : S) : Told (s ∈ m.states) (m.Step s) (m.post s) :=
  h.told_ofList fun _ => h.mem_targetsOf

theorem Consistent.told_postBy (h : m.Consistent) (ha : a ∈ m.actions) (s : S) :
    Told (s ∈ m.states) (fun t => ⟨s, a, t⟩ ∈ m.transitions) (m.postBy s a) := by
  unfold postBy
  rw [h.needAction_eq_ok.mpr ha]
  refine h.told_ofList fun t => ?_
  simp only [List.mem_map, List.mem_filter, h.mem_outgoingOf, decide_eq_true_eq]
  constructor
  · rintro ⟨t, ⟨⟨ht, rfl⟩, rfl⟩, rfl⟩
    exact ht
  · exact fun ht => ⟨_, ⟨⟨ht, rfl⟩, rfl⟩, rfl⟩

omit [Display A] in
theorem Consistent.told_pre (h : m.Consistent) (s : S) :
    Told (s ∈ m.states) (fun t => m.Step t s) (m.pre s) := by
  refine h.told_ofList fun t => ?_
  simp only [List.mem_map, h.mem_incomingOf]
  constructor
  · rintro ⟨t, ⟨ht, rfl⟩, rfl⟩
    exact ⟨t.action, ht⟩
  · exact fun ⟨a, ha⟩ => ⟨_, ⟨ha, rfl⟩, rfl⟩

theorem Consistent.told_preBy (h : m.Consistent) (ha : a ∈ m.actions) (s : S) :
    Told (s ∈ m.states) (fun t => ⟨t, a, s⟩ ∈ m.transitions) (m.preBy s a) := by
  unfold preBy
  rw [h.needAction_eq_ok.mpr ha]
  refine h.told_ofList fun t => ?_
  simp only [List.mem_map, List.mem_filter, h.mem_incomingOf, decide_eq_true_eq]
  constructor
  · rintro ⟨t, ⟨⟨ht, rfl⟩, rfl⟩, rfl⟩
    exact ht
  · exact fun ht => ⟨_, ⟨⟨ht, rfl⟩, rfl⟩, rfl⟩

/-! ## 3. Successors and predecessors of sets -/

omit [Display A] in
theorem Consistent.told_postAll (h : m.Consistent) (C : Ordered S) :
    Told (∀ s, s ∈ C → s ∈ m.states) (fun t => ∃ s, s ∈ C ∧ m.Step s t) (m.postAll C) :=
  .unionOver h.told_post C

theorem Consistent.told_postAllBy (h : m.Consistent) (ha : a ∈ m.actions) (C : Ordered S) :
    Told (∀ s, s ∈ C → s ∈ m.states) (fun t => ∃ s, s ∈ C ∧ ⟨s, a, t⟩ ∈ m.transitions)
      (m.postAllBy C a) := by
  unfold postAllBy
  rw [h.needAction_eq_ok.mpr ha]
  exact .unionOver (h.told_postBy ha) C

omit [Display A] in
theorem Consistent.told_preAll (h : m.Consistent) (C : Ordered S) :
    Told (∀ s, s ∈ C → s ∈ m.states) (fun t => ∃ s, s ∈ C ∧ m.Step t s) (m.preAll C) :=
  .unionOver h.told_pre C

theorem Consistent.told_preAllBy (h : m.Consistent) (ha : a ∈ m.actions) (C : Ordered S) :
    Told (∀ s, s ∈ C → s ∈ m.states) (fun t => ∃ s, s ∈ C ∧ ⟨t, a, s⟩ ∈ m.transitions)
      (m.preAllBy C a) := by
  unfold preAllBy
  rw [h.needAction_eq_ok.mpr ha]
  exact .unionOver (h.told_preBy ha) C

omit [Display S] [Display A] in
/-- What steps by any action lead to is told by each action. -/
theorem mem_iff_of_told {C : Ordered S} {R : S → A → S → Prop} (hR : ∀ {s a t}, R s a t → a ∈ m.actions)
    {r : A → Except SystemError (Ordered S)} {declared : Prop} (hC : declared)
    (hr : ∀ {a}, a ∈ m.actions → Told declared (fun t => ∃ s, s ∈ C ∧ R s a t) (r a)) {t : S} :
    (∃ s, s ∈ C ∧ ∃ a, R s a t) ↔ ∃ a Y, a ∈ m.actions ∧ r a = .ok Y ∧ t ∈ Y := by
  constructor
  · rintro ⟨s, hs, a, hst⟩
    obtain ⟨Y, hY, hmem⟩ := (hr (hR hst)).given hC
    exact ⟨a, Y, hR hst, hY, (hmem t).mpr ⟨s, hs, hst⟩⟩
  · rintro ⟨a, Y, ha, hY, ht⟩
    obtain ⟨Y', hY', hmem⟩ := (hr ha).given hC
    obtain rfl : Y = Y' := Except.ok.inj (hY.symm.trans hY')
    obtain ⟨s, hs, hst⟩ := (hmem t).mp ht
    exact ⟨s, hs, a, hst⟩

omit [Display S] in
/-- What is asked with an action is refused for the action first. -/
theorem Consistent.refused_by_iff (h : m.Consistent) {declared : Prop} {X : S → Prop}
    {r : Except SystemError (Ordered S)} (hr : a ∈ m.actions → Told declared X r) :
    (∃ c, (do m.needAction a; r) = .error c ∧ c.kind = .noState) ↔ a ∈ m.actions ∧ ¬ declared := by
  by_cases ha : a ∈ m.actions
  · rw [h.needAction_eq_ok.mpr ha, and_iff_right ha]
    exact (hr ha).refused_iff
  · rw [h.needAction_eq_error ha]
    refine ⟨?_, fun ha' => absurd ha'.1 ha⟩
    rintro ⟨c, hc, hkind⟩
    cases hc
    cases hkind

/-- **How the questions about successors and predecessors belong together.** -/
structure Images (m : TransitionSystem S A P) : Prop where
  /-- One comes from a set into another exactly if one could have come into the other from the one. -/
  adjoint : ∀ (C D : Ordered S) (a : A), (∀ s, s ∈ C → s ∈ m.states) → (∀ s, s ∈ D → s ∈ m.states) →
    a ∈ m.actions → ∃ X Y, m.postAllBy C a = .ok X ∧ m.preAllBy D a = .ok Y ∧
      ((∃ t, t ∈ X ∧ t ∈ D) ↔ ∃ s, s ∈ Y ∧ s ∈ C)
  /-- The successors are those by all actions. -/
  postAll : ∀ C : Ordered S, (∀ s, s ∈ C → s ∈ m.states) → ∃ X, m.postAll C = .ok X ∧
    ∀ t, t ∈ X ↔ ∃ a Y, a ∈ m.actions ∧ m.postAllBy C a = .ok Y ∧ t ∈ Y
  /-- The predecessors are those by all actions. -/
  preAll : ∀ C : Ordered S, (∀ s, s ∈ C → s ∈ m.states) → ∃ X, m.preAll C = .ok X ∧
    ∀ t, t ∈ X ↔ ∃ a Y, a ∈ m.actions ∧ m.preAllBy C a = .ok Y ∧ t ∈ Y
  /-- The successors by an action are the targets of transitions. -/
  postBy : ∀ s a, s ∈ m.states → a ∈ m.actions → ∃ X, m.postBy s a = .ok X ∧
    ∀ t, t ∈ X ↔ m.transitions.contains ⟨s, a, t⟩ = true
  /-- The successors are listed once each. -/
  successors : ∀ s, s ∈ m.states → ∃ l X, m.successors s = .ok l ∧ m.post s = .ok X ∧ l.Nodup ∧
    ∀ t, t ∈ l ↔ t ∈ X
  postAll_refused : ∀ C : Ordered S, (∃ c, m.postAll C = .error c ∧ c.kind = .noState) ↔
    ∃ s, s ∈ C ∧ ¬ s ∈ m.states
  preAll_refused : ∀ C : Ordered S, (∃ c, m.preAll C = .error c ∧ c.kind = .noState) ↔
    ∃ s, s ∈ C ∧ ¬ s ∈ m.states
  postAllBy_refused : ∀ (C : Ordered S) (a : A), (∃ c, m.postAllBy C a = .error c ∧ c.kind = .noState) ↔
    a ∈ m.actions ∧ ∃ s, s ∈ C ∧ ¬ s ∈ m.states
  preAllBy_refused : ∀ (C : Ordered S) (a : A), (∃ c, m.preAllBy C a = .error c ∧ c.kind = .noState) ↔
    a ∈ m.actions ∧ ∃ s, s ∈ C ∧ ¬ s ∈ m.states

theorem Consistent.images (h : m.Consistent) : m.Images where
  adjoint C D a hC hD ha := by
    obtain ⟨X, hX, hmemX⟩ := (h.told_postAllBy ha C).given hC
    obtain ⟨Y, hY, hmemY⟩ := (h.told_preAllBy ha D).given hD
    refine ⟨X, Y, hX, hY, ?_⟩
    simp only [hmemX, hmemY]
    constructor
    · rintro ⟨t, ⟨s, hs, hst⟩, ht⟩
      exact ⟨s, ⟨t, ht, hst⟩, hs⟩
    · rintro ⟨s, ⟨t, ht, hst⟩, hs⟩
      exact ⟨t, ⟨s, hs, hst⟩, ht⟩
  postAll C hC := by
    obtain ⟨X, hX, hmemX⟩ := (h.told_postAll C).given hC
    refine ⟨X, hX, fun t => (hmemX t).trans (mem_iff_of_told ?_ hC fun ha => h.told_postAllBy ha C)⟩
    exact fun hst => (h.ends _ hst).2.2
  preAll C hC := by
    obtain ⟨X, hX, hmemX⟩ := (h.told_preAll C).given hC
    refine ⟨X, hX, fun t => (hmemX t).trans (mem_iff_of_told ?_ hC fun ha => h.told_preAllBy ha C)⟩
    exact fun hst => (h.ends _ hst).2.2
  postBy s a hs ha := by
    obtain ⟨X, hX, hmemX⟩ := (h.told_postBy ha s).given hs
    exact ⟨X, hX, fun t => (hmemX t).trans h.transitions.contains_iff.symm⟩
  successors s hs := by
    obtain ⟨X, hX, hmemX⟩ := (h.told_post s).given hs
    refine ⟨m.next s, X, ?_, hX, (Ordered.valid_ofList _).nodup, fun t => h.mem_next.trans (hmemX t).symm⟩
    rw [TransitionSystem.successors, h.needState_eq_ok.mpr hs]
    rfl
  postAll_refused C := (h.told_postAll C).refused_iff.trans not_forall_mem
  preAll_refused C := (h.told_preAll C).refused_iff.trans not_forall_mem
  postAllBy_refused C a :=
    (h.refused_by_iff fun ha => .unionOver (h.told_postBy ha) C).trans (and_congr_right' not_forall_mem)
  preAllBy_refused C a :=
    (h.refused_by_iff fun ha => .unionOver (h.told_preBy ha) C).trans (and_congr_right' not_forall_mem)

end Asked

/-- **Successors and predecessors belong together after any changes** to a system that was empty. -/
theorem images_after [Display S] [Display A] [Display P] (name : String) (cs : List (Change S A P)) :
    ((empty name : TransitionSystem S A P).after cs).Images :=
  ((Built.empty name).after cs).consistent.images

end Lasso.TransitionSystem
