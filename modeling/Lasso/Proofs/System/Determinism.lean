import Lasso.Proofs.System.Fragment
/-!
# Determinism is uniqueness of runs

A system is checked for determinism state by state: no reachable state has two successors that look the
same, by their actions or by their labels. This file shows what the check says of whole runs.

* `Along`, `Tells` -- steps that are seen through some observation, and a state whose steps the
  observation tells apart;
* `unique_iff_tells` -- **observations determine the runs from a state exactly if they tell apart the
  steps** of every state that can be reached from it;
* `determinism_iff_unique` -- the two questions of a system, for actions and for labels.
-/

namespace Lasso

/-! ## 1. Runs that are observed -/

section Observed

variable {S O : Type} {R : S → O → S → Prop} {i s : S} {u v : List (O × S)}

/-- Each step, what is seen of it and the state it leads to, leads on from the state before it. -/
def Along (R : S → O → S → Prop) : S → List (O × S) → Prop
  | _, [] => True
  | s, (o, t) :: u => R s o t ∧ Along R t u

/-- What is seen tells the steps of a state apart. -/
def Tells (R : S → O → S → Prop) (s : S) : Prop := ∀ o t t', R s o t → R s o t' → t = t'

/-- A step, whatever is seen of it. -/
def Unseen (R : S → O → S → Prop) (s t : S) : Prop := ∃ o, R s o t

theorem Along.append (hu : Along R i u) {o : O} {t : S} (ht : R (TransitionSystem.endOf i u) o t) :
    Along R i (u ++ [(o, t)]) := by
  induction u generalizing i with
  | nil => exact ⟨ht, trivial⟩
  | cons x u ih => exact ⟨hu.1, ih hu.2 ht⟩

theorem endOf_append (i : S) (u : List (O × S)) (o : O) (t : S) :
    TransitionSystem.endOf i (u ++ [(o, t)]) = t := by
  induction u generalizing i with
  | nil => rfl
  | cons x u ih => exact ih x.2

/-- Steps lead wherever one can come. -/
theorem exists_along (h : Relation.ReflTransGen (Unseen R) i s) :
    ∃ u, Along R i u ∧ TransitionSystem.endOf i u = s := by
  induction h with
  | refl => exact ⟨[], trivial, rfl⟩
  | tail _ hst ih =>
    obtain ⟨o, ho⟩ := hst
    obtain ⟨u, hu, rfl⟩ := ih
    exact ⟨u ++ [(o, _)], hu.append ho, endOf_append i u o _⟩

theorem Along.eq_of_tells (htells : ∀ s, Relation.ReflTransGen (Unseen R) i s → Tells R s)
    (hu : Along R i u) (hv : Along R i v) (e : u.map (·.1) = v.map (·.1)) : u = v := by
  induction u generalizing i v with
  | nil => exact (List.map_eq_nil_iff.mp e.symm).symm
  | cons x u ih =>
    obtain ⟨y, v, rfl⟩ := List.exists_cons_of_ne_nil (l := v) (by rintro rfl; cases e)
    obtain ⟨o, t⟩ := x
    obtain ⟨o', t'⟩ := y
    obtain ⟨rfl, e'⟩ := List.cons.inj e
    obtain rfl : t = t' := htells i .refl o t t' hu.1 hv.1
    rw [ih (fun s hs => htells s (.head ⟨o, hu.1⟩ hs)) hu.2 hv.2 e']

/-- **Observations determine the runs from a state exactly if they tell apart the steps** of all states
    to which runs lead: two steps that look the same make two runs of what leads there. -/
theorem unique_iff_tells :
    (∀ u v, Along R i u → Along R i v → u.map (·.1) = v.map (·.1) → u = v) ↔
      ∀ s, Relation.ReflTransGen (Unseen R) i s → Tells R s := by
  constructor
  · intro hunique s hs o t t' ht ht'
    obtain ⟨u, hu, rfl⟩ := exists_along hs
    have e := hunique _ _ (hu.append ht) (hu.append ht') (by simp)
    exact (Prod.mk.inj (List.cons.inj (List.append_cancel_left e)).1).2
  · exact fun htells u v hu hv e => hu.eq_of_tells htells hv e

/-- Steps are known by what is seen of them and by where they lead. -/
theorem eq_of_map_eq (hfst : u.map (·.1) = v.map (·.1)) (hsnd : u.map (·.2) = v.map (·.2)) : u = v := by
  rw [← List.zip_unzip u, ← List.zip_unzip v, List.unzip_eq_map, List.unzip_eq_map, hfst, hsnd]

end Observed

/-- A set without two different members. -/
theorem Ordered.Valid.size_le_one_iff {α : Type} [DecidableEq α] [Hashable α] {o : Ordered α}
    (h : o.Valid) : o.size ≤ 1 ↔ ∀ a b, a ∈ o → b ∈ o → a = b := by
  rw [← length_toList]
  constructor
  · intro hlen a b ha hb
    have ha' : a ∈ o.toList := ha
    have hb' : b ∈ o.toList := hb
    generalize o.toList = l at *
    match l, hlen with
    | [c], _ => exact (List.mem_singleton.mp ha').trans (List.mem_singleton.mp hb').symm
  · intro hone
    refine Nat.le_of_not_lt fun hlen => ?_
    have hmem : ∀ k : Fin o.toList.length, o.toList.get k ∈ o := fun k => List.get_mem _ k
    have hsame := hone _ _ (hmem ⟨0, by omega⟩) (hmem ⟨1, hlen⟩)
    have hzero := congrArg Fin.val (List.nodup_iff_injective_get.mp h.nodup hsame)
    cases hzero

namespace TransitionSystem

variable {S A P : Type} [DecidableEq S] [Hashable S] [DecidableEq A] [Hashable A]
  [DecidableEq P] [Hashable P] {m : TransitionSystem S A P}

/-! ## 2. What the checks say of steps -/

/-- A step with its action. -/
def StepBy (m : TransitionSystem S A P) (s : S) (a : A) (t : S) : Prop := ⟨s, a, t⟩ ∈ m.transitions

/-- The set of propositions that label a state. -/
def labelSet (m : TransitionSystem S A P) (s : S) : Set P := {p | p ∈ m.label s}

/-- A step with the label of the state it leads to. -/
def StepTo (m : TransitionSystem S A P) (s : S) (l : Set P) (t : S) : Prop :=
  m.Step s t ∧ m.labelSet t = l

theorem unseen_stepTo : Unseen m.StepTo = m.Step := by
  funext s t
  exact propext ⟨fun ⟨_, h⟩ => h.1, fun h => ⟨_, h, rfl⟩⟩

theorem Consistent.mem_reachable (h : m.Consistent) {s : S} : s ∈ m.reachable ↔ m.Reachable s := by
  unfold reachable
  rw [List.mem_filter, h.reach_contains]
  exact ⟨fun hs => hs.2, fun hs => ⟨hs.declared h, hs⟩⟩

omit [Hashable S] in
/-- The loop that keeps the last target of each action: transitions by one action lead to one state, and
    to the one that is kept already, if there is one. -/
theorem repeatsTargets_eq_true {ts : List (Transition S A)} {last : Std.HashMap A S} :
    repeatsTargets ts last = true ↔ (∀ t ∈ ts, ∀ s, last[t.action]? = some s → s = t.target) ∧
      ts.Pairwise fun t u => t.action = u.action → t.target = u.target := by
  induction ts generalizing last with
  | nil => simp [repeatsTargets]
  | cons t ts ih =>
    have hcons : repeatsTargets (t :: ts) last = true ↔
        (∀ s, last[t.action]? = some s → s = t.target) ∧
          repeatsTargets ts (last.insert t.action t.target) = true := by
      rw [repeatsTargets]
      cases last[t.action]? <;> simp
    rw [hcons, ih, List.forall_mem_cons, List.pairwise_cons, and_assoc, ← and_assoc (b := ∀ u ∈ ts, _ → _),
      ← forall₂_and]
    refine and_congr_right fun hhead => and_congr_left fun _ => forall₂_congr fun u _ => ?_
    rw [Std.HashMap.getElem?_insert]
    by_cases hsame : t.action = u.action
    · rw [← hsame, if_pos BEq.rfl]
      constructor
      · intro hkept
        have htarget : t.target = u.target := hkept _ rfl
        exact ⟨fun s hs => (hhead s hs).trans htarget, fun _ => htarget⟩
      · rintro ⟨-, htarget⟩ s hs
        rw [← Option.some.inj hs, htarget rfl]
    · simp [hsame]

omit [Hashable S] in
/-- **The loop compares every two transitions**: none by one action lead to different states. -/
theorem repeatsTargets_iff {ts : List (Transition S A)} : repeatsTargets ts ∅ = true ↔
    ∀ t ∈ ts, ∀ u ∈ ts, t.action = u.action → t.target = u.target := by
  have hsymm : Std.Symm fun t u : Transition S A => t.action = u.action → t.target = u.target :=
    ⟨fun t u h e => (h e.symm).symm⟩
  rw [repeatsTargets_eq_true]
  constructor
  · rintro ⟨-, hpairs⟩ t ht u hu
    exact hpairs.forall_of_forall (fun _ _ _ => rfl) ht hu
  · intro hall
    exact ⟨fun t _ s hs => by simp at hs, List.pairwise_of_forall_mem_list hall⟩

theorem Consistent.isActionDeterministic_iff (h : m.Consistent) :
    m.isActionDeterministic = true ↔
      m.initial.size ≤ 1 ∧ ∀ s, m.Reachable s → Tells m.StepBy s := by
  unfold isActionDeterministic
  rw [Bool.and_eq_true, decide_eq_true_eq, List.all_eq_true]
  refine and_congr_right fun _ => forall_congr' fun s => ?_
  rw [h.mem_reachable, repeatsTargets_iff]
  refine imp_congr_right fun _ => ?_
  simp only [h.mem_outgoingOf]
  constructor
  · intro hall a t t' ht ht'
    exact hall ⟨s, a, t⟩ ⟨ht, rfl⟩ ⟨s, a, t'⟩ ⟨ht', rfl⟩ rfl
  · rintro htells ⟨_, a, t⟩ ⟨ht, rfl⟩ ⟨_, b, t'⟩ ⟨ht', rfl⟩ hab
    obtain rfl : a = b := hab
    exact htells a t t' ht ht'

theorem Consistent.sameMembers_label_iff (h : m.Consistent) {s t : S} :
    (m.label s).sameMembers (m.label t) = true ↔ m.labelSet s = m.labelSet t := by
  rw [(h.labeled s).valid.sameMembers_iff (h.labeled t).valid]
  exact Set.ext_iff.symm

theorem Consistent.labelsApart_eq_true (h : m.Consistent) {ss : List S} :
    m.labelsApart ss = true ↔ ss.Pairwise fun s t => m.labelSet s ≠ m.labelSet t := by
  induction ss with
  | nil => simp [labelsApart]
  | cons s ss ih =>
    rw [labelsApart, Bool.and_eq_true, ih, List.pairwise_cons, List.all_eq_true]
    simp only [Bool.not_eq_true', Bool.eq_false_iff, ne_eq, h.sameMembers_label_iff]

/-- **The loop compares every two states**, since none of them stands twice. -/
theorem Consistent.labelsApart_iff (h : m.Consistent) {ss : List S} (hss : ss.Nodup) :
    m.labelsApart ss = true ↔ ∀ s ∈ ss, ∀ t ∈ ss, m.labelSet s = m.labelSet t → s = t := by
  have hsymm : Std.Symm fun s t : S => m.labelSet s ≠ m.labelSet t := ⟨fun _ _ => Ne.symm⟩
  rw [h.labelsApart_eq_true]
  constructor
  · intro hpairs s hs t ht hl
    exact Classical.byContradiction fun hne => hpairs.forall hs ht hne hl
  · intro hall
    exact hss.pairwise_of_forall_ne fun s hs t ht hne hl => hne (hall s hs t ht hl)

theorem Consistent.isLabelDeterministic_iff (h : m.Consistent) :
    m.isLabelDeterministic = true ↔
      m.initial.size ≤ 1 ∧ ∀ s, m.Reachable s → Tells m.StepTo s := by
  unfold isLabelDeterministic
  rw [Bool.and_eq_true, decide_eq_true_eq, List.all_eq_true]
  refine and_congr_right fun _ => forall_congr' fun s => ?_
  have hnext : (m.next s).Nodup := (Ordered.valid_ofList _).nodup
  rw [h.mem_reachable, h.labelsApart_iff hnext]
  refine imp_congr_right fun _ => ?_
  simp only [h.mem_next]
  constructor
  · rintro hall l t t' ⟨ht, rfl⟩ ⟨ht', hl⟩
    exact hall t ht t' ht' hl.symm
  · intro htells t ht t' ht' hl
    exact htells _ t t' ⟨ht, hl⟩ ⟨ht', rfl⟩

/-! ## 3. Runs by their actions -/

theorem along_stepBy {s : S} {u : List (A × S)} : Along m.StepBy s u ↔ m.Follows s u := by
  induction u generalizing s with
  | nil => exact Iff.rfl
  | cons x u ih => exact and_congr_right fun _ => ih

section Runs

variable [Display S] [Display A]

/-- A run of the system has one state more than actions. -/
theorem exists_steps_of_isInitialFragment {r : Run S A} (e : m.isInitialFragment r = .ok true) :
    ∃ (s : S) (u : List (A × S)), r = ⟨s :: u.map (·.2), u.map (·.1)⟩ := by
  obtain ⟨b, hb, -⟩ := bind_eq_ok.mp e
  have hr : r.Formed := Classical.byContradiction fun hr => by
    cases (isFragment_of_not_formed hr).symm.trans hb
  exact hr.exists_steps

/-- **The actions determine the runs exactly if the check for actions succeeds.** -/
theorem Consistent.isActionDeterministic_iff_unique (h : m.Consistent) :
    m.isActionDeterministic = true ↔
      ∀ (as : List A) (r r' : Run S A), r.actions = as → r'.actions = as →
        m.isInitialFragment r = .ok true → m.isInitialFragment r' = .ok true → r = r' := by
  rw [h.isActionDeterministic_iff, h.initial.size_le_one_iff]
  constructor
  · rintro ⟨hone, htells⟩ as r r' rfl has hr hr'
    obtain ⟨s, u, rfl⟩ := exists_steps_of_isInitialFragment hr
    obtain ⟨t, v, rfl⟩ := exists_steps_of_isInitialFragment hr'
    obtain ⟨hs, hu⟩ := h.runs_iff.mp hr
    obtain ⟨ht, hv⟩ := h.runs_iff.mp hr'
    obtain rfl := hone s t hs ht
    have hfrom : ∀ x, Relation.ReflTransGen (Unseen m.StepBy) s x → Tells m.StepBy x :=
      fun x hx => htells x ⟨s, hs, hx⟩
    rw [unique_iff_tells.mpr hfrom u v (along_stepBy.mpr hu) (along_stepBy.mpr hv) has.symm]
  · intro hunique
    have hrun : ∀ {s u}, s ∈ m.initial → Along m.StepBy s u → m.Runs s u :=
      fun hs hu => h.runs_iff.mpr ⟨hs, along_stepBy.mp hu⟩
    refine ⟨fun i j hi hj => ?_, ?_⟩
    · have e := hunique [] _ _ rfl rfl (hrun hi (u := []) trivial) (hrun hj (u := []) trivial)
      exact (List.cons.inj (Run.mk.inj e).1).1
    · rintro s ⟨i, hi, his⟩
      refine unique_iff_tells.mp (fun u v hu hv e => ?_) s his
      have e' := hunique _ _ _ rfl e.symm (hrun hi hu) (hrun hi hv)
      exact eq_of_map_eq e (List.cons.inj (Run.mk.inj e').1).2

end Runs

/-! ## 4. Paths by their labels -/

/-- **A finite path** from an initial state whose states have the given labels. -/
structure Carries (m : TransitionSystem S A P) (ls : List (Set P)) (ss : List S) : Prop where
  start : ∃ i, ss.head? = some i ∧ i ∈ m.initial
  steps : List.IsChain m.Step ss
  labels : ss.map m.labelSet = ls

theorem along_stepTo {s : S} {u : List (Set P × S)} :
    Along m.StepTo s u ↔
      List.IsChain m.Step (s :: u.map (·.2)) ∧ u.map (·.1) = (u.map (·.2)).map m.labelSet := by
  induction u generalizing s with
  | nil => simp [Along]
  | cons x u ih =>
    simp only [Along, StepTo, List.map_cons, List.isChain_cons_cons, ih, List.cons.injEq]
    constructor
    · rintro ⟨⟨h1, h2⟩, h3, h4⟩
      exact ⟨⟨h1, h3⟩, h2.symm, h4⟩
    · rintro ⟨⟨h1, h3⟩, h2, h4⟩
      exact ⟨⟨h1, h2.symm⟩, h3, h4⟩

/-- A path from a state, with the labels that are seen along it. -/
theorem Carries.exists_along {ls : List (Set P)} {ss : List S} (h : m.Carries ls ss) :
    ∃ i u, i ∈ m.initial ∧ Along m.StepTo i u ∧ ss = i :: u.map (·.2) ∧
      ls = m.labelSet i :: u.map (·.1) := by
  obtain ⟨⟨i, hhead, hi⟩, hsteps, rfl⟩ := h
  obtain ⟨ts, rfl⟩ := List.head?_eq_some_iff.mp hhead
  have hsnd : (ts.map fun t => (m.labelSet t, t)).map (·.2) = ts :=
    List.map_map.trans (List.map_id ts)
  refine ⟨i, ts.map fun t => (m.labelSet t, t), hi, along_stepTo.mpr ?_, by rw [hsnd], by simp⟩
  rw [hsnd]
  exact ⟨hsteps, by simp⟩

theorem carries_of_along {i : S} (hi : i ∈ m.initial) {u : List (Set P × S)} (hu : Along m.StepTo i u) :
    m.Carries (m.labelSet i :: u.map (·.1)) (i :: u.map (·.2)) where
  start := ⟨i, rfl, hi⟩
  steps := (along_stepTo.mp hu).1
  labels := by rw [List.map_cons, (along_stepTo.mp hu).2]

/-- **The labels determine the paths from the one initial state exactly if the check for labels
    succeeds.** -/
theorem Consistent.isLabelDeterministic_iff_unique (h : m.Consistent) (hone : m.initial.size ≤ 1) :
    m.isLabelDeterministic = true ↔
      ∀ (ls : List (Set P)) (ss ss' : List S), m.Carries ls ss → m.Carries ls ss' → ss = ss' := by
  rw [h.isLabelDeterministic_iff, and_iff_right hone]
  have hreach : ∀ {i s}, Relation.ReflTransGen (Unseen m.StepTo) i s ↔
      Relation.ReflTransGen m.Step i s := by
    intro i s
    rw [unseen_stepTo]
  constructor
  · intro htells ls ss ss' hss hss'
    obtain ⟨i, u, hi, hu, rfl, rfl⟩ := hss.exists_along
    obtain ⟨j, v, hj, hv, rfl, e⟩ := hss'.exists_along
    obtain rfl := h.initial.size_le_one_iff.mp hone i j hi hj
    have hfrom : ∀ x, Relation.ReflTransGen (Unseen m.StepTo) i x → Tells m.StepTo x :=
      fun x hx => htells x ⟨i, hi, hreach.mp hx⟩
    rw [unique_iff_tells.mpr hfrom u v hu hv (List.cons.inj e).2]
  · rintro hunique s ⟨i, hi, his⟩
    refine unique_iff_tells.mp (fun u v hu hv e => ?_) s (hreach.mpr his)
    have e' := hunique _ _ _ (carries_of_along hi hu) (e ▸ carries_of_along hi hv)
    exact eq_of_map_eq e (List.cons.inj e').2

section Built

variable [Display S] [Display A] [Display P]

/-- **Determinism is uniqueness of runs**: a system passes the check for actions exactly if no two runs
    from initial states have the same actions; it passes the check for labels exactly if it has at most
    one initial state and no two paths from there have the same labels. -/
theorem determinism_iff_unique (h : m.Built) :
    (m.isActionDeterministic = true ↔
      ∀ (as : List A) (r r' : Run S A), r.actions = as → r'.actions = as →
        m.isInitialFragment r = .ok true → m.isInitialFragment r' = .ok true → r = r') ∧
    (m.initial.size ≤ 1 → (m.isLabelDeterministic = true ↔
      ∀ (ls : List (Set P)) (ss ss' : List S), m.Carries ls ss → m.Carries ls ss' → ss = ss')) ∧
    (1 < m.initial.size → m.isLabelDeterministic = false) := by
  have hc := h.consistent
  refine ⟨hc.isActionDeterministic_iff_unique, hc.isLabelDeterministic_iff_unique, fun hmany => ?_⟩
  refine Bool.eq_false_iff.mpr fun hdet => ?_
  exact absurd (hc.isLabelDeterministic_iff.mp hdet).1 (Nat.not_le_of_lt hmany)

end Built

/-- From a state that can be reached `backwater` only goes to the other one. -/
theorem step_backwater {s t : Int} (hs : backwater.Reachable s) (ht : backwater.Step s t) : t = 1 - s := by
  obtain ⟨a, ha⟩ := ht
  rw [mem_transitions_backwater] at ha
  have honly : ∀ u ∈ backwaterParts.steps, u.source = 0 ∨ u.source = 1 → u.target = 1 - u.source := by decide
  exact honly ⟨s, a, t⟩ ha (reachable_backwater.mp hs)

/-- The steps that cannot be told apart are in the backwater. -/
theorem determinism_iff_unique_backwater :
    backwater.Built ∧ ¬ Tells backwater.StepBy 2 ∧ backwater.initial.size ≤ 1 ∧
      (∀ (as : List Int) (r r' : Run Int Int), r.actions = as → r'.actions = as →
        backwater.isInitialFragment r = .ok true → backwater.isInitialFragment r' = .ok true → r = r') ∧
      ∀ (ls : List (Set Int)) (ss ss' : List Int), backwater.Carries ls ss → backwater.Carries ls ss' →
        ss = ss' := by
  have hc := backwater_built.consistent
  have hone : backwater.initial.size ≤ 1 := hc.initial.size_le_one_iff.mpr fun i j hi hj =>
    (mem_initial_backwater.mp hi).trans (mem_initial_backwater.mp hj).symm
  have htells : ¬ Tells backwater.StepBy 2 := fun htells => by
    have e := htells 0 1 3 (mem_transitions_backwater.mpr (by decide))
      (mem_transitions_backwater.mpr (by decide))
    cases e
  have hactions : backwater.isActionDeterministic = true := hc.isActionDeterministic_iff.mpr
    ⟨hone, fun s hs a t t' ht ht' =>
      (step_backwater hs ⟨a, ht⟩).trans (step_backwater hs ⟨a, ht'⟩).symm⟩
  have hlabels : backwater.isLabelDeterministic = true := hc.isLabelDeterministic_iff.mpr
    ⟨hone, fun s hs l t t' ht ht' => (step_backwater hs ht.1).trans (step_backwater hs ht'.1).symm⟩
  obtain ⟨hbyActions, hbyLabels, -⟩ := determinism_iff_unique backwater_built
  exact ⟨backwater_built, htells, hone, hbyActions.mp hactions, (hbyLabels hone).mp hlabels⟩

end TransitionSystem

end Lasso
