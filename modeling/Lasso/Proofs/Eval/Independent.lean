import Lasso.Proofs.Eval.Action
/-!
# Independent actions

An action sees an environment through the names that occur in it and changes the names that it writes.
So two actions of which neither writes a name of the other do not notice each other.

* `Env.setAll_comm` -- updates of different names can be exchanged;
* `Env.Outcome` -- two effects end in the same way: in the same failure, both blocked, or both with the
  same values for given names;
* `Action.Independent` -- no name that one action writes occurs in the other;
* `Evaluators.actions_act_through_names` -- **what an action changes, what it depends on, and that
  independent actions commute**.
-/

namespace Lasso

variable {e e₁ e₂ : Env} {us vs : Updates}

/-! ## 1. Updates of different names -/

namespace Env

/-- Updates leave the names that they do not write. -/
theorem Canonical.find?_setAll_of_unwritten (h : e.Canonical) {n : Bytes}
    (hn : ∀ u ∈ us, n ≠ .ofString u.1) : (e.setAll us).find? n = e.find? n := by
  induction us generalizing e with
  | nil => rfl
  | cons u us ih =>
    have hrest : ((e.set u.1 u.2).setAll us).find? n = (e.set u.1 u.2).find? n :=
      ih (h.set u.1 u.2) fun w hw => hn w (List.mem_cons_of_mem _ hw)
    have hput := h.find?_put (.ofString u.1) u.2 n
    rw [if_neg (hn u List.mem_cons_self)] at hput
    exact hrest.trans hput

/-- What updates write does not depend on what was there before. -/
theorem Canonical.find?_setAll_of_written (h₁ : e₁.Canonical) (h₂ : e₂.Canonical) {n : Bytes}
    (hn : ∃ u ∈ us, n = .ofString u.1) : (e₁.setAll us).find? n = (e₂.setAll us).find? n := by
  induction us generalizing e₁ e₂ with
  | nil =>
    obtain ⟨u, hu, -⟩ := hn
    exact absurd hu List.not_mem_nil
  | cons u us ih =>
    by_cases hlater : ∃ w ∈ us, n = .ofString w.1
    · exact ih (h₁.set u.1 u.2) (h₂.set u.1 u.2) hlater
    · -- the first update is the last one of this name
      have hunwritten : ∀ w ∈ us, n ≠ .ofString w.1 := fun w hw hnw => hlater ⟨w, hw, hnw⟩
      obtain ⟨w, hw, rfl⟩ := hn
      obtain rfl : w = u := (List.mem_cons.mp hw).resolve_right fun hw => hunwritten w hw rfl
      have hput₁ := h₁.find?_put (.ofString w.1) w.2 (.ofString w.1)
      have hput₂ := h₂.find?_put (.ofString w.1) w.2 (.ofString w.1)
      rw [if_pos rfl] at hput₁ hput₂
      calc ((e₁.set w.1 w.2).setAll us).find? (.ofString w.1)
          = (e₁.set w.1 w.2).find? (.ofString w.1) :=
            (h₁.set w.1 w.2).find?_setAll_of_unwritten hunwritten
        _ = (e₂.set w.1 w.2).find? (.ofString w.1) := hput₁.trans hput₂.symm
        _ = ((e₂.set w.1 w.2).setAll us).find? (.ofString w.1) :=
            ((h₂.set w.1 w.2).find?_setAll_of_unwritten hunwritten).symm

/-- **Updates of different names can be exchanged.** -/
theorem setAll_comm (h : e.Canonical) (hne : ∀ u ∈ us, ∀ v ∈ vs, u.1 ≠ v.1) :
    (e.setAll us).setAll vs = (e.setAll vs).setAll us := by
  refine ((h.setAll us).setAll vs).ext ((h.setAll vs).setAll us) fun n => ?_
  by_cases hus : ∃ u ∈ us, n = .ofString u.1
  · have hvs : ∀ v ∈ vs, n ≠ .ofString v.1 := by
      obtain ⟨u, hu, rfl⟩ := hus
      exact fun v hv hname => hne u hu v hv (Bytes.ofString_injective hname)
    rw [(h.setAll us).find?_setAll_of_unwritten hvs]
    exact h.find?_setAll_of_written (h.setAll vs) hus
  · have hus : ∀ u ∈ us, n ≠ .ofString u.1 := fun u hu hname => hus ⟨u, hu, hname⟩
    rw [(h.setAll vs).find?_setAll_of_unwritten hus]
    by_cases hvs : ∃ v ∈ vs, n = .ofString v.1
    · exact (h.setAll us).find?_setAll_of_written h hvs
    · have hvs : ∀ v ∈ vs, n ≠ .ofString v.1 := fun v hv hname => hvs ⟨v, hv, hname⟩
      rw [(h.setAll us).find?_setAll_of_unwritten hvs, h.find?_setAll_of_unwritten hvs,
        h.find?_setAll_of_unwritten hus]

/-! ## 2. Effects that end in the same way -/

/-- Two effects fail for the same cause, are both blocked, or lead to environments that agree on the
    names. -/
inductive Outcome (ns : List String) :
    Except EvalError (Option Env) → Except EvalError (Option Env) → Prop where
  | failing (c : EvalError) : Outcome ns (.error c) (.error c)
  | blocked : Outcome ns (.ok none) (.ok none)
  | enabled (r₁ r₂ : Env) (h : Agree ns r₁ r₂) : Outcome ns (.ok (some r₁)) (.ok (some r₂))

/-- The environment `r` differs from `e` in the given names only. -/
def ChangesOnly (ns : List String) (e r : Env) : Prop :=
  ∀ n : Bytes, (∀ x ∈ ns, n ≠ .ofString x) → r.find? n = e.find? n

theorem ChangesOnly.agree {ns ns' : List String} {r : Env} (h : ChangesOnly ns e r)
    (hns : ∀ x ∈ ns, x ∉ ns') : Agree ns' r e := by
  intro n hn
  refine h _ fun x hx hname => hns x hx ?_
  rwa [← Bytes.ofString_injective hname]

end Env

/-! ## 3. Independent actions -/

namespace Action

/-- No name that one of the actions writes occurs in the other. -/
def Independent (a b : Action) : Prop := (∀ n ∈ a.writes, n ∉ b.names) ∧ ∀ n ∈ b.writes, n ∉ a.names

instance (a b : Action) : Decidable (Independent a b) :=
  inferInstanceAs (Decidable ((∀ n ∈ a.writes, n ∉ b.names) ∧ ∀ n ∈ b.writes, n ∉ a.names))

end Action

namespace Evaluators

variable {capacity : Int} {text a b : String} {r : Env}

/-- An action that is enabled has updates of the names that it writes. -/
theorem exists_updates (h : (standard capacity).effect e text = .ok (some r)) :
    ∃ us, (Action.ofText text).updates capacity e = .ok (some us) ∧ r = e.setAll us ∧
      ∀ u ∈ us, u.1 ∈ (Action.ofText text).writes := by
  rw [effect_standard] at h
  obtain ⟨o, ho, hr⟩ := map_eq_ok.mp h
  have hupdates := mapError_eq_ok.mp ho
  cases o with
  | none => cases hr
  | some us => exact ⟨us, hupdates, (Option.some.inj hr).symm, Action.mem_writes_of_updates hupdates⟩

/-- **An action changes the names that it writes, and no others.** -/
theorem changesOnly_effect (he : e.Canonical) (h : (standard capacity).effect e text = .ok (some r)) :
    r.Canonical ∧ e.ChangesOnly (Action.ofText text).writes r := by
  obtain ⟨us, -, rfl, hwrites⟩ := exists_updates h
  exact ⟨he.setAll us, fun n hn => he.find?_setAll_of_unwritten fun u hu => hn u.1 (hwrites u hu)⟩

/-- **An action ends in the same way in environments that agree on its names.** -/
theorem outcome_effect (h₁ : e₁.Canonical) (h₂ : e₂.Canonical)
    (hagree : Env.Agree (Action.ofText text).names e₁ e₂) :
    Env.Outcome (Action.ofText text).names ((standard capacity).effect e₁ text)
      ((standard capacity).effect e₂ text) := by
  rw [effect_standard, effect_standard, Action.updates_congr h₁ h₂ hagree]
  cases (Action.ofText text).updates capacity e₂ with
  | error c => exact .failing _
  | ok o =>
    cases o with
    | none => exact .blocked
    | some us => exact .enabled _ _ (hagree.setAll h₁ h₂ us)

/-- **An action does not notice an independent one before it.** -/
theorem outcome_after (he : e.Canonical)
    (hab : Action.Independent (.ofText a) (.ofText b))
    (ha : (standard capacity).effect e a = .ok (some r)) :
    Env.Outcome (Action.ofText b).names ((standard capacity).effect r b)
      ((standard capacity).effect e b) := by
  obtain ⟨hr, hchanges⟩ := changesOnly_effect he ha
  exact outcome_effect hr he (hchanges.agree hab.1)

/-- **Independent actions commute**: their updates are the same in either order, and of different names. -/
theorem effect_comm (he : e.Canonical) (hab : Action.Independent (.ofText a) (.ofText b))
    (ha : (standard capacity).effect e a = .ok (some e₁))
    (hb : (standard capacity).effect e b = .ok (some e₂)) :
    ∃ r, (standard capacity).effect e₁ b = .ok (some r) ∧
      (standard capacity).effect e₂ a = .ok (some r) := by
  obtain ⟨hc₁, hchanges₁⟩ := changesOnly_effect he ha
  obtain ⟨hc₂, hchanges₂⟩ := changesOnly_effect he hb
  obtain ⟨us, hus, rfl, hwrites⟩ := exists_updates ha
  obtain ⟨vs, hvs, rfl, hwrites'⟩ := exists_updates hb
  have hvs' : (Action.ofText b).updates capacity (e.setAll us) = .ok (some vs) :=
    (Action.updates_congr hc₁ he (hchanges₁.agree hab.1)).trans hvs
  have hus' : (Action.ofText a).updates capacity (e.setAll vs) = .ok (some us) :=
    (Action.updates_congr hc₂ he (hchanges₂.agree hab.2)).trans hus
  have hne : ∀ u ∈ us, ∀ v ∈ vs, u.1 ≠ v.1 := fun u hu v hv hname =>
    hab.1 u.1 (hwrites u hu) (hname ▸ (Action.ofText b).writes_subset_names (hwrites' v hv))
  refine ⟨(e.setAll us).setAll vs, ?_, ?_⟩
  · rw [effect_standard, hvs']
    rfl
  · rw [effect_standard, hus', Env.setAll_comm he hne]
    rfl

/-- **Actions act through their names.** An action changes the names that it writes, and it is enabled,
    blocked or failing alike, with the same values, where the names in it have the same values; the same
    holds of what a condition says. So an action ends after an independent one as it ends without it, and
    two independent actions that are enabled lead to the same environment in either order. -/
theorem actions_act_through_names (capacity : Int) {e : Env} (he : e.Canonical) :
    (∀ a r, (standard capacity).effect e a = .ok (some r) →
      r.Canonical ∧ e.ChangesOnly (Action.ofText a).writes r) ∧
    (∀ a e', e'.Canonical → Env.Agree (Action.ofText a).names e e' →
      Env.Outcome (Action.ofText a).names ((standard capacity).effect e a)
        ((standard capacity).effect e' a)) ∧
    (∀ cond e', Env.Agree (textNames cond) e e' →
      (standard capacity).holds e cond = (standard capacity).holds e' cond) ∧
    ∀ a b, Action.Independent (.ofText a) (.ofText b) →
      ∀ e₁, (standard capacity).effect e a = .ok (some e₁) →
        Env.Outcome (Action.ofText b).names ((standard capacity).effect e₁ b)
          ((standard capacity).effect e b) ∧
        ∀ e₂, (standard capacity).effect e b = .ok (some e₂) →
          ∃ r, (standard capacity).effect e₁ b = .ok (some r) ∧
            (standard capacity).effect e₂ a = .ok (some r) :=
  ⟨fun _ _ => changesOnly_effect he, fun _ _ => outcome_effect he, fun _ _ => holds_congr,
    fun _ _ hab _ ha => ⟨outcome_after he hab ha, fun _ hb => effect_comm he hab ha hb⟩⟩

/-- Counting on and receiving from a queue do not notice each other, and a further variable matters to
    neither of them. -/
theorem actions_act_through_names_counting :
    Env.counting.Canonical ∧
      Action.Independent (.ofText "count++; total := count * 2") (.ofText "queue?head") ∧
      (standard 0).holds Env.counting "len(queue) > 1 && count < 4" =
        (standard 0).holds (Env.counting.set "spare" (.bool true)) "len(queue) > 1 && count < 4" ∧
      ∃ e₁ e₂ r,
        (standard 0).effect Env.counting "count++; total := count * 2" = .ok (some e₁) ∧
        (standard 0).effect Env.counting "queue?head" = .ok (some e₂) ∧
        Env.counting.ChangesOnly (Action.ofText "queue?head").writes e₂ ∧
        (standard 0).effect e₁ "queue?head" = .ok (some r) ∧
        (standard 0).effect e₂ "count++; total := count * 2" = .ok (some r) := by
  have he : Env.counting.Canonical := Env.counting_built.canonical.1
  obtain ⟨hchanges, -, hholds, hcomm⟩ := actions_act_through_names 0 he
  have hab : Action.Independent (.ofText "count++; total := count * 2") (.ofText "queue?head") := by
    decide +kernel
  have hnames : Env.Agree (textNames "len(queue) > 1 && count < 4") Env.counting
      (Env.counting.set "spare" (.bool true)) := by
    unfold Env.Agree
    decide +kernel
  have ha : (standard 0).effect Env.counting "count++; total := count * 2" =
      .ok (some ((Env.counting.set "count" (.int 4)).set "total" (.int 8))) := by decide +kernel
  have hb : (standard 0).effect Env.counting "queue?head" =
      .ok (some ((Env.counting.set "queue" (.ofList [.ofList []])).set "head" (.int (-1)))) := by
    decide +kernel
  obtain ⟨r, hr, hr'⟩ := (hcomm _ _ hab _ ha).2 _ hb
  exact ⟨he, hab, hholds _ _ hnames, _, _, r, ha, hb, (hchanges _ _ hb).2, hr, hr'⟩

end Evaluators

end Lasso
