import Lasso.Proofs.System.Prune
/-!
# What is asked of a run

Whatever states and actions may be given as a run. The questions about it look at its steps one after
the other and stop at the first one that is no transition.

* `Run.Formed`, `Run.steps` -- a run with one state more than actions, and its steps;
* `Declares`, `gap?` -- a system that has all states and actions of a run, and the first step of a run
  that is no transition;
* `Consistent.isFragment_cases` -- **the first such step decides**: what is undeclared in it is
  refused, else the answer is no, whatever stands behind it;
* `isFragment_decides` -- so something undeclared is refused unless it is hidden (`Hides`).
-/

namespace Lasso

/-! ## 1. Runs and their steps -/

section Steps

variable {S A : Type} {r : Run S A} {t : Transition S A} {u : List (A × S)}

/-- One state more than actions. -/
def Run.Formed (r : Run S A) : Prop := r.states.length = r.actions.length + 1

/-- The steps along states, each with its action. -/
def stepsAlong : List S → List A → List (Transition S A)
  | s :: t :: rest, a :: as => ⟨s, a, t⟩ :: stepsAlong (t :: rest) as
  | _, _ => []

/-- The steps of a run: each action with the states before and behind it. -/
def Run.steps (r : Run S A) : List (Transition S A) := stepsAlong r.states r.actions

/-- A run with one state more than actions is a first state and steps. -/
theorem Run.Formed.exists_steps (hr : r.Formed) :
    ∃ (s : S) (u : List (A × S)), r = ⟨s :: u.map (·.2), u.map (·.1)⟩ := by
  obtain ⟨ss, as⟩ := r
  cases ss with
  | nil => cases hr
  | cons s ss =>
    have hlen : ss.length = as.length := Nat.succ.inj hr
    refine ⟨s, as.zip ss, ?_⟩
    rw [List.map_snd_zip (by omega), List.map_fst_zip (by omega)]

/-- The steps of a run go through its states and actions. -/
theorem mem_of_mem_stepsAlong {ss : List S} {as : List A} (ht : t ∈ stepsAlong ss as) :
    t.source ∈ ss ∧ t.action ∈ as ∧ t.target ∈ ss := by
  induction ss, as using stepsAlong.induct with
  | case1 s s' rest a as ih =>
    rcases List.mem_cons.mp ht with rfl | ht
    · simp
    · obtain ⟨h1, h2, h3⟩ := ih ht
      exact ⟨List.mem_cons_of_mem _ h1, List.mem_cons_of_mem _ h2, List.mem_cons_of_mem _ h3⟩
  | case2 ss as hno =>
    rw [stepsAlong] at ht
    · exact absurd ht List.not_mem_nil
    · exact hno

/-- All that a run goes through is in its steps, if there are any. -/
theorem forall_of_steps {s : S} (hu : u ≠ []) {Q : S → Prop} {R : A → Prop}
    (h : ∀ t ∈ stepsAlong (s :: u.map (·.2)) (u.map (·.1)), Q t.source ∧ R t.action ∧ Q t.target) :
    (∀ x ∈ s :: u.map (·.2), Q x) ∧ ∀ a ∈ u.map (·.1), R a := by
  induction u generalizing s with
  | nil => exact absurd rfl hu
  | cons x u ih =>
    obtain ⟨a, t⟩ := x
    obtain ⟨⟨hs, ha, ht⟩, hrest⟩ := List.forall_mem_cons.mp h
    cases u with
    | nil => simp [hs, ha, ht]
    | cons y u =>
      obtain ⟨hstates, hactions⟩ := ih (by simp) hrest
      exact ⟨List.forall_mem_cons.mpr ⟨hs, hstates⟩, List.forall_mem_cons.mpr ⟨ha, hactions⟩⟩

end Steps

namespace TransitionSystem

variable {S A P : Type} [DecidableEq S] [Hashable S] [DecidableEq A] [Hashable A]
  [DecidableEq P] [Hashable P] {m : TransitionSystem S A P} {r : Run S A} {t : Transition S A}
  {u : List (A × S)}

/-! ## 2. Declared runs and gaps -/

/-- All states and actions of a run are declared. -/
def Declares (m : TransitionSystem S A P) (r : Run S A) : Prop :=
  (∀ s ∈ r.states, s ∈ m.states) ∧ ∀ a ∈ r.actions, a ∈ m.actions

/-- The first step of a run that is no transition. -/
def gap? (m : TransitionSystem S A P) (r : Run S A) : Option (Transition S A) :=
  r.steps.find? fun t => !m.transitions.contains t

/-- **A run hides something undeclared** behind a step between declared states, by a declared action,
    that is no transition. -/
def Hides (m : TransitionSystem S A P) (r : Run S A) : Prop :=
  r.Formed ∧ ¬ m.Declares r ∧ ∃ t, m.gap? r = some t ∧ m.admits t = true

theorem Consistent.gap?_eq_none (h : m.Consistent) :
    m.gap? r = none ↔ ∀ t ∈ r.steps, t ∈ m.transitions := by
  unfold gap?
  rw [List.find?_eq_none]
  refine forall₂_congr fun t _ => ?_
  rw [← h.transitions.contains_iff]
  cases m.transitions.contains t <;> simp

theorem Consistent.not_mem_of_gap? (h : m.Consistent) (ht : m.gap? r = some t) :
    t ∈ r.steps ∧ ¬ t ∈ m.transitions := by
  refine ⟨List.mem_of_find?_eq_some ht, fun hm => ?_⟩
  have hmiss := List.find?_some ht
  rw [h.transitions.contains_iff.mpr hm] at hmiss
  cases hmiss

section Asked

variable [Display S] [Display A]

/-- **A cause names something undeclared of a run.** -/
def Blames (m : TransitionSystem S A P) (r : Run S A) (c : SystemError) : Prop :=
  (∃ s ∈ r.states, ¬ s ∈ m.states ∧ c = .noState (Display.text s)) ∨
    ∃ a ∈ r.actions, ¬ a ∈ m.actions ∧ c = .noAction (Display.text a)

theorem Blames.not_declares {c : SystemError} (hc : m.Blames r c) : ¬ m.Declares r := by
  rintro ⟨hstates, hactions⟩
  rcases hc with ⟨s, hs, hno, -⟩ | ⟨a, ha, hno, -⟩
  · exact hno (hstates s hs)
  · exact hno (hactions a ha)

omit [Display A] in
theorem Consistent.needState_eq_error (h : m.Consistent) {s : S} (hs : ¬ s ∈ m.states) :
    m.needState s = .error (.noState (Display.text s)) := by
  rw [← h.states.contains_iff] at hs
  rw [needState, if_neg hs]

omit [Display S] in
theorem Consistent.needAction_eq_error (h : m.Consistent) {a : A} (ha : ¬ a ∈ m.actions) :
    m.needAction a = .error (.noAction (Display.text a)) := by
  rw [← h.actions.contains_iff] at ha
  rw [needAction, if_neg ha]

/-- What is asked of a step before it is looked up. -/
def needStep (m : TransitionSystem S A P) (t : Transition S A) : Except SystemError Unit := do
  m.needState t.source
  m.needAction t.action
  m.needState t.target

theorem Consistent.needStep_of_admits (h : m.Consistent) (ht : m.admits t = true) :
    m.needStep t = .ok () := by
  obtain ⟨h1, h2, h3⟩ := (admits_iff h).mp ht
  rw [needStep, h.needState_eq_ok.mpr h1, h.needAction_eq_ok.mpr h3, h.needState_eq_ok.mpr h2]
  rfl

theorem Consistent.needStep_of_not_admits (h : m.Consistent) (hr : t ∈ r.steps)
    (ht : ¬ m.admits t = true) : ∃ c, m.needStep t = .error c ∧ m.Blames r c := by
  obtain ⟨hsource, haction, htarget⟩ := mem_of_mem_stepsAlong hr
  rw [admits_iff h] at ht
  by_cases h1 : t.source ∈ m.states
  · by_cases h3 : t.action ∈ m.actions
    · have h2 : ¬ t.target ∈ m.states := fun h2 => ht ⟨h1, h2, h3⟩
      refine ⟨_, ?_, Or.inl ⟨_, htarget, h2, rfl⟩⟩
      rw [needStep, h.needState_eq_ok.mpr h1, h.needAction_eq_ok.mpr h3, h.needState_eq_error h2]
      rfl
    · refine ⟨_, ?_, Or.inr ⟨_, haction, h3, rfl⟩⟩
      rw [needStep, h.needState_eq_ok.mpr h1, h.needAction_eq_error h3]
      rfl
  · refine ⟨_, ?_, Or.inl ⟨_, hsource, h1, rfl⟩⟩
    rw [needStep, h.needState_eq_error h1]
    rfl

/-! ## 3. The first gap decides -/

theorem follows_cons (s t : S) (rest : List S) (a : A) (as : List A) :
    m.follows (s :: t :: rest) (a :: as) = (m.needStep ⟨s, a, t⟩ >>= fun _ =>
      if m.transitions.contains ⟨s, a, t⟩ then m.follows (t :: rest) as else .ok false) := by
  rw [follows, needStep]
  simp only [bind_assoc]
  rfl

/-- **The first step that is no transition** is looked at, and nothing behind it. -/
theorem Consistent.follows_of_gap (h : m.Consistent) {s : S}
    (ht : (stepsAlong (s :: u.map (·.2)) (u.map (·.1))).find? (fun t => !m.transitions.contains t) = some t) :
    m.follows (s :: u.map (·.2)) (u.map (·.1)) = (m.needStep t).map fun _ => false := by
  induction u generalizing s with
  | nil => cases ht
  | cons x u ih =>
    obtain ⟨a, s'⟩ := x
    rw [List.map_cons, List.map_cons, stepsAlong, List.find?_cons] at ht
    rw [List.map_cons, List.map_cons, follows_cons]
    cases hm : m.transitions.contains ⟨s, a, s'⟩ with
    | true =>
      rw [hm] at ht
      have hends := h.ends _ (h.transitions.contains_iff.mp hm)
      rw [h.needStep_of_admits ((admits_iff h).mpr hends)]
      exact ih ht
    | false =>
      rw [hm] at ht
      cases ht
      cases m.needStep ⟨s, a, s'⟩ <;> rfl

omit [Display S] [Display A] in
theorem follows_iff_steps {s : S} :
    m.Follows s u ↔ ∀ t ∈ stepsAlong (s :: u.map (·.2)) (u.map (·.1)), t ∈ m.transitions := by
  induction u generalizing s with
  | nil => simp [Follows, stepsAlong]
  | cons x u ih =>
    rw [List.map_cons, List.map_cons, stepsAlong, List.forall_mem_cons, Follows, ih]

theorem isFragment_of_not_formed (hr : ¬ r.Formed) :
    m.isFragment r = .error (.malformedRun r.states.length r.actions.length) := by
  obtain ⟨ss, as⟩ := r
  cases ss with
  | nil => rfl
  | cons s ss =>
    have hlen : ss.length ≠ as.length := fun e => hr (congrArg Nat.succ e)
    simp only [isFragment, ne_eq, hlen, not_false_eq_true, if_true]
    rfl

/-- A run without actions is asked for its one state only. -/
theorem isFragment_single (s : S) : m.isFragment ⟨[s], []⟩ = (m.needState s).map fun _ => true := by
  simp only [isFragment, follows]
  cases m.needState s <;> rfl

theorem isFragment_of_ne_nil {s : S} (hu : u ≠ []) :
    m.isFragment ⟨s :: u.map (·.2), u.map (·.1)⟩ = m.follows (s :: u.map (·.2)) (u.map (·.1)) := by
  have hempty : (u.map (·.1)).isEmpty = false := by simpa using hu
  simp only [isFragment, List.length_map, ne_eq, not_true, if_false, hempty, Bool.false_eq_true]

/-- **What is answered about a run**, case by case: it has a wrong number of states; all its steps are
    transitions; the first one that is none goes between declared states by a declared action; or
    something undeclared is found before such a step. -/
theorem Consistent.isFragment_cases (h : m.Consistent) (r : Run S A) :
    (¬ r.Formed ∧ m.isFragment r = .error (.malformedRun r.states.length r.actions.length)) ∨
      (r.Formed ∧ m.Declares r ∧ m.gap? r = none ∧ m.isFragment r = .ok true) ∨
      (r.Formed ∧ (∃ t, m.gap? r = some t ∧ m.admits t = true) ∧ m.isFragment r = .ok false) ∨
      (r.Formed ∧ (∀ t, m.gap? r = some t → ¬ m.admits t = true) ∧
        ∃ c, m.isFragment r = .error c ∧ m.Blames r c) := by
  by_cases hr : r.Formed
  · obtain ⟨s, u, rfl⟩ := hr.exists_steps
    refine Or.inr ?_
    -- a run without actions has no steps, so its one state is asked for apart
    rcases eq_or_ne u [] with rfl | hu
    · by_cases hs : s ∈ m.states
      · refine Or.inl ⟨hr, ⟨by simpa using hs, by simp⟩, rfl, ?_⟩
        rw [List.map_nil, List.map_nil, isFragment_single, h.needState_eq_ok.mpr hs]
        rfl
      · refine Or.inr (Or.inr ⟨hr, nofun, _, ?_, Or.inl ⟨s, by simp, hs, rfl⟩⟩)
        rw [List.map_nil, List.map_nil, isFragment_single, h.needState_eq_error hs]
        rfl
    · rw [isFragment_of_ne_nil hu]
      cases hgap : m.gap? ⟨s :: u.map (·.2), u.map (·.1)⟩ with
      | none =>
        have hsteps := h.gap?_eq_none.mp hgap
        have hdeclares : m.Declares ⟨s :: u.map (·.2), u.map (·.1)⟩ :=
          forall_of_steps hu fun t ht =>
            have hends := h.ends t (hsteps t ht)
            ⟨hends.1, hends.2.2, hends.2.1⟩
        exact Or.inl ⟨hr, hdeclares, rfl, h.follows_eq_ok_true.mpr (follows_iff_steps.mpr hsteps)⟩
      | some t =>
        rw [h.follows_of_gap hgap]
        by_cases ht : m.admits t = true
        · refine Or.inr (Or.inl ⟨hr, ⟨t, rfl, ht⟩, ?_⟩)
          rw [h.needStep_of_admits ht]
          rfl
        · obtain ⟨c, hc, hblames⟩ := h.needStep_of_not_admits (h.not_mem_of_gap? hgap).1 ht
          refine Or.inr (Or.inr ⟨hr, fun t' ht' => Option.some.inj ht' ▸ ht, c, ?_, hblames⟩)
          rw [hc]
          rfl
  · exact Or.inl ⟨hr, isFragment_of_not_formed hr⟩

theorem Consistent.isFragment_eq_ok_true (h : m.Consistent) :
    m.isFragment r = .ok true ↔ r.Formed ∧ m.Declares r ∧ ∀ t ∈ r.steps, t ∈ m.transitions := by
  rw [← h.gap?_eq_none]
  rcases h.isFragment_cases r with ⟨hr, e⟩ | ⟨hr, hd, hg, e⟩ | ⟨hr, ⟨t, hg, -⟩, e⟩ | ⟨hr, -, c, e, hc⟩
  · simp [e, hr]
  · simp [e, hr, hd, hg]
  · simp [e, hg]
  · simp [e, hc.not_declares]

/-- **A run is refused** for a wrong number of states, or for something undeclared that is not hidden. -/
theorem Consistent.isFragment_eq_error (h : m.Consistent) :
    (∃ c, m.isFragment r = .error c) ↔ (¬ r.Formed ∨ ¬ m.Declares r) ∧ ¬ m.Hides r := by
  rcases h.isFragment_cases r with ⟨hr, e⟩ | ⟨hr, hd, -, e⟩ | ⟨hr, ⟨t, hg, ht⟩, e⟩ | ⟨hr, hg, c, e, hc⟩
  · simp [e, hr, Hides]
  · simp [e, hr, hd]
  · simp [e, hr, Hides, hg, ht]
  · simpa [e, hr, Hides, hc.not_declares] using hg

/-- The cause for which a run is refused that has the right number of states. -/
theorem Consistent.blames_of_error (h : m.Consistent) (hr : r.Formed) {c : SystemError}
    (e : m.isFragment r = .error c) : m.Blames r c := by
  rcases h.isFragment_cases r with ⟨hr', -⟩ | ⟨-, -, -, e'⟩ | ⟨-, -, e'⟩ | ⟨-, -, c', e', hc⟩
  · exact absurd hr hr'
  · exact absurd (e.symm.trans e') nofun
  · exact absurd (e.symm.trans e') nofun
  · exact Except.error.inj (e'.symm.trans e) ▸ hc

/-- **What is hidden is not found**: the answer is no. -/
theorem Consistent.isFragment_of_hides (h : m.Consistent) (hh : m.Hides r) : m.isFragment r = .ok false := by
  obtain ⟨hr, hd, t, hg, ht⟩ := hh
  rcases h.isFragment_cases r with ⟨hr', -⟩ | ⟨-, hd', -⟩ | ⟨-, -, e⟩ | ⟨-, hg', -⟩
  · exact absurd hr hr'
  · exact absurd hd' hd
  · exact e
  · exact absurd ht (hg' t hg)

theorem Consistent.exists_answer (h : m.Consistent) (hr : r.Formed) (hd : m.Declares r) :
    ∃ b, m.isFragment r = .ok b ∧ (b = true ↔ ∀ t ∈ r.steps, t ∈ m.transitions) := by
  have hnone := h.isFragment_eq_ok_true (r := r)
  cases e : m.isFragment r with
  | error c => exact absurd hd (h.blames_of_error hr e).not_declares
  | ok b => exact ⟨b, rfl, by simpa [e, hr, hd] using hnone⟩

/-! ## 4. The other questions -/

/-- **The answers about a run whose steps are transitions**: whether it starts in an initial state, and
    whether no step leaves its last state `s`. -/
structure Answered (m : TransitionSystem S A P) (r : Run S A) (s : S) : Prop where
  last : r.states.getLast? = some s
  isInitial : m.isInitialFragment r = .ok (r.states.head?.any m.initial.contains)
  isMaximal : m.isMaximalFragment r = .ok (m.outgoingOf s).isEmpty
  isExecution :
    m.isExecution r = .ok (r.states.head?.any m.initial.contains && (m.outgoingOf s).isEmpty)

theorem Consistent.exists_answered (h : m.Consistent) (e : m.isFragment r = .ok true) :
    ∃ s, m.Answered r s := by
  obtain ⟨hr, hd, -⟩ := h.isFragment_eq_ok_true.mp e
  have hne : r.states ≠ [] := fun hnil => by simp [Run.Formed, hnil] at hr
  have hlast := List.getLast?_eq_some_getLast hne
  have hinitial : m.isInitialFragment r = .ok (r.states.head?.any m.initial.contains) := by
    rw [isInitialFragment, e]
    rfl
  have hterminal : m.isTerminal (r.states.getLast hne) =
      .ok (m.outgoingOf (r.states.getLast hne)).isEmpty := by
    rw [isTerminal, h.needState_eq_ok.mpr (hd.1 _ (List.getLast_mem hne))]
    rfl
  have hmaximal : m.isMaximalFragment r = .ok (m.outgoingOf (r.states.getLast hne)).isEmpty := by
    rw [isMaximalFragment, e, hlast]
    exact hterminal
  refine ⟨r.states.getLast hne, hlast, hinitial, hmaximal, ?_⟩
  rw [isExecution, hinitial, hmaximal]
  cases r.states.head?.any m.initial.contains <;> rfl

/-- **The questions about a run are refused together**, for the same cause. -/
theorem Consistent.refused_together (h : m.Consistent) (r : Run S A) (c : SystemError) :
    (m.isInitialFragment r = .error c ↔ m.isFragment r = .error c) ∧
      (m.isMaximalFragment r = .error c ↔ m.isFragment r = .error c) ∧
      (m.isExecution r = .error c ↔ m.isFragment r = .error c) := by
  cases e : m.isFragment r with
  | error c' => simp [isInitialFragment, isMaximalFragment, isExecution, e, bind, Except.bind]
  | ok b =>
    cases b with
    | false =>
      simp [isInitialFragment, isMaximalFragment, isExecution, e, bind, Except.bind, pure, Except.pure]
    | true =>
      obtain ⟨s, hs⟩ := h.exists_answered e
      simp [hs.isInitial, hs.isMaximal, hs.isExecution]

end Asked

section Built

variable [Display S] [Display A] [Display P]

/-- **Runs with something undeclared are refused unless it is hidden.** A run is refused exactly if it has
    a wrong number of states or something undeclared that is not hidden, and the cause names it; with
    something hidden the answer is no; of any other run it is yes exactly if all steps are transitions.
    The other questions are refused for the same runs. -/
theorem isFragment_decides (h : m.Built) (r : Run S A) :
    ((∃ c, m.isFragment r = .error c) ↔ (¬ r.Formed ∨ ¬ m.Declares r) ∧ ¬ m.Hides r) ∧
      (r.Formed → ∀ c, m.isFragment r = .error c → m.Blames r c) ∧
      (m.Hides r → m.isFragment r = .ok false) ∧
      (r.Formed → m.Declares r → ∃ b, m.isFragment r = .ok b ∧
        (b = true ↔ ∀ t ∈ r.steps, t ∈ m.transitions)) ∧
      ∀ c, (m.isInitialFragment r = .error c ↔ m.isFragment r = .error c) ∧
        (m.isMaximalFragment r = .error c ↔ m.isFragment r = .error c) ∧
        (m.isExecution r = .error c ↔ m.isFragment r = .error c) := by
  have hc := h.consistent
  exact ⟨hc.isFragment_eq_error, fun hr c => hc.blames_of_error hr, hc.isFragment_of_hides,
    hc.exists_answer, hc.refused_together r⟩

end Built

theorem contains_backwater (t : Transition Int Int) :
    backwater.transitions.contains t = decide (t ∈ backwaterParts.steps) := by
  rw [Bool.eq_iff_iff, decide_eq_true_iff, ← mem_transitions_backwater]
  exact backwater_built.consistent.transitions.contains_iff

theorem mem_states_backwater {s : Int} : s ∈ backwater.states ↔ s ∈ backwaterParts.states :=
  Parts.mem_states_system

theorem mem_actions_backwater {a : Int} : a ∈ backwater.actions ↔ a ∈ backwaterParts.actions :=
  Parts.mem_actions_system

/-- A run of `backwater` up to a state that is not declared. -/
def outward : Run Int Int := ⟨[0, 1, 9], [0, 0]⟩

/-- The same but for its first step, which is no transition. -/
def astray : Run Int Int := ⟨[0, 2, 9], [0, 0]⟩

theorem not_declares_of_nine {r : Run Int Int} (h : 9 ∈ r.states) : ¬ backwater.Declares r := fun hd =>
  absurd (mem_states_backwater.mp (hd.1 9 h)) (by decide)

theorem not_declares_outward : ¬ backwater.Declares outward := not_declares_of_nine (by decide)

theorem not_declares_astray : ¬ backwater.Declares astray := not_declares_of_nine (by decide)

theorem not_hides_outward : ¬ backwater.Hides outward := by
  have hgap : backwater.gap? outward = some ⟨1, 0, 9⟩ := by
    simp only [gap?, contains_backwater]
    decide
  rintro ⟨-, -, t, ht, hadmits⟩
  rw [hgap] at ht
  cases ht
  exact absurd (mem_states_backwater.mp ((admits_iff backwater_built.consistent).mp hadmits).2.1)
    (by decide)

theorem isFragment_decides_outward :
    backwater.Built ∧ outward.Formed ∧ ¬ backwater.Declares outward ∧
      backwater.isFragment outward = .error (.noState "9") ∧
      backwater.isExecution outward = .error (.noState "9") := by
  obtain ⟨hrefused, hcause, -, -, hothers⟩ := isFragment_decides backwater_built outward
  obtain ⟨c, hc⟩ := hrefused.mpr ⟨Or.inr not_declares_outward, not_hides_outward⟩
  have hnine : c = .noState "9" := by
    have hstates : ∀ s ∈ outward.states, ¬ s ∈ ([0, 2, 1, 3, 4] : List Int) → s = 9 := by decide
    have hactions : ∀ a ∈ outward.actions, a ∈ ([0, 1, 2] : List Int) := by decide
    rcases hcause rfl c hc with ⟨s, hs, hno, rfl⟩ | ⟨a, ha, hno, -⟩
    · rw [hstates s hs (mt mem_states_backwater.mpr hno)]
      rfl
    · exact absurd (mem_actions_backwater.mpr (hactions a ha)) hno
  subst hnine
  exact ⟨backwater_built, rfl, not_declares_outward, hc, (hothers _).2.2.mpr hc⟩

/-- **Something undeclared goes unnoticed** behind a step that is no transition. -/
theorem undeclared_behind_gap :
    backwater.Built ∧ astray.Formed ∧ ¬ backwater.Declares astray ∧
      backwater.isFragment astray = .ok false := by
  have hgap : backwater.gap? astray = some ⟨0, 0, 2⟩ := by
    simp only [gap?, contains_backwater]
    decide
  have hadmits : backwater.admits ⟨0, 0, 2⟩ = true := by
    rw [admits_iff backwater_built.consistent, mem_states_backwater, mem_states_backwater,
      mem_actions_backwater]
    decide
  exact ⟨backwater_built, rfl, not_declares_astray,
    backwater_built.consistent.isFragment_of_hides ⟨rfl, not_declares_astray, _, hgap, hadmits⟩⟩

end TransitionSystem

end Lasso
