import Lasso.Proofs.Eval.Frame
import Lasso.Proofs.Unfold.Semantics
/-!
# What programs read and write

* `actionTexts`, `writes`, `names` -- the actions of a program, the names it may give a value, and the
  names that occur in it;
* `Reached.keeps` -- **what every action keeps holds wherever the program comes to**;
* `Reached.over` -- so environments stay canonical, and give values only to names that the program
  writes.
-/

namespace Lasso.ProgramGraph

variable {L : Type} [DecidableEq L] [Hashable L] {g : ProgramGraph L}

/-! ## 1. The names of a program -/

/-- The texts of a program's actions: those of its steps, and those of its initializations. -/
def actionTexts (g : ProgramGraph L) : List String :=
  g.steps.toList.map (·.action) ++ g.initializations.toList.flatten

/-- The names that a program may give a value. -/
def writes (g : ProgramGraph L) : List String :=
  g.actionTexts.flatMap fun a => (Action.ofText a).writes

/-- The names that occur in a program, in its actions and in its conditions. -/
def names (g : ProgramGraph L) : List String :=
  g.actionTexts.flatMap (fun a => (Action.ofText a).names) ++
    g.steps.toList.flatMap fun t => textNames t.condition

theorem action_mem_actionTexts {t : ProgramStep L} (ht : t ∈ g.steps) : t.action ∈ g.actionTexts :=
  List.mem_append_left _ (List.mem_map.mpr ⟨t, ht, rfl⟩)

theorem mem_actionTexts_of_mem {stmts : List String} (h : stmts ∈ g.initializations) {a : String}
    (ha : a ∈ stmts) : a ∈ g.actionTexts :=
  List.mem_append_right _ (List.mem_flatten.mpr ⟨stmts, h, ha⟩)

theorem writes_subset_of_mem {a : String} (ha : a ∈ g.actionTexts) :
    (Action.ofText a).writes ⊆ g.writes :=
  fun _ hn => List.mem_flatMap.mpr ⟨a, ha, hn⟩

theorem names_subset_of_mem {a : String} (ha : a ∈ g.actionTexts) :
    (Action.ofText a).names ⊆ g.names :=
  fun _ hn => List.mem_append_left _ (List.mem_flatMap.mpr ⟨a, ha, hn⟩)

theorem textNames_subset_of_mem {t : ProgramStep L} (ht : t ∈ g.steps) :
    textNames t.condition ⊆ g.names :=
  fun _ hn => List.mem_append_right _ (List.mem_flatMap.mpr ⟨t, ht, hn⟩)

theorem writes_subset_names (g : ProgramGraph L) : g.writes ⊆ g.names := by
  intro n hn
  obtain ⟨a, ha, hn⟩ := List.mem_flatMap.mp hn
  exact names_subset_of_mem ha ((Action.ofText a).writes_subset_names hn)

/-! ## 2. What is kept -/

section Keeps

variable {capacity : Int} {I : Env → Prop}

/-- What each statement of an initialization keeps, the initialization does. -/
theorem keeps_of_foldlM_initStep {stmts : List String}
    (hstep : ∀ a ∈ stmts, ∀ e us, I e → (Action.ofText a).updates capacity e = .ok (some us) →
      I (e.setAll us)) {e e' : Env} (he : I e)
    (h : stmts.foldlM (Evaluators.standard capacity).initStep e = .ok e') : I e' := by
  induction stmts generalizing e with
  | nil =>
    cases h
    exact he
  | cons a stmts ih =>
    rw [List.foldlM_cons] at h
    obtain ⟨e₁, h₁, h⟩ := bind_eq_ok.mp h
    refine ih (fun b hb => hstep b (List.mem_cons_of_mem _ hb)) ?_ h
    rw [Evaluators.initStep_standard] at h₁
    split at h₁
    · cases h₁
    · cases h₁
    · rename_i us hus
      cases h₁
      exact hstep a List.mem_cons_self e us he hus

/-- What every action of the program keeps. -/
def Keeps (g : ProgramGraph L) (capacity : Int) (I : Env → Prop) : Prop :=
  ∀ a ∈ g.actionTexts, ∀ e us, I e → (Action.ofText a).updates capacity e = .ok (some us) → I (e.setAll us)

theorem StartsWith.keeps {e : Env} (h : g.StartsWith (.standard capacity) e) (hempty : I ∅)
    (hkeeps : g.Keeps capacity I) : I e := by
  rcases h with ⟨-, rfl⟩ | ⟨stmts, hstmts, hinit⟩
  · exact hempty
  · exact keeps_of_foldlM_initStep (fun a ha => hkeeps a (mem_actionTexts_of_mem hstmts ha)) hempty hinit

theorem Moves.keeps {s s' : State L} {a : String} (h : g.Moves (.standard capacity) s a s')
    (hs : I s.second) (hkeeps : g.Keeps capacity I) : I s'.second := by
  obtain ⟨cond, hmem, -, heffect⟩ := h
  rw [Evaluators.effect_standard] at heffect
  cases hus : (Action.ofText a).updates capacity s.second with
  | error c => rw [hus] at heffect; cases heffect
  | ok r =>
    rw [hus] at heffect
    cases r with
    | none => cases heffect
    | some us =>
      have he : s.second.setAll us = s'.second := Option.some.inj (Except.ok.inj heffect)
      exact he ▸ hkeeps a (action_mem_actionTexts hmem) s.second us hs hus

/-- **What every action keeps holds wherever the program comes to.** -/
theorem Reached.keeps {s : State L} (h : g.Reached (.standard capacity) s) (hempty : I ∅)
    (hkeeps : g.Keeps capacity I) : I s.second := by
  induction h with
  | start s hs => exact hs.2.keeps hempty hkeeps
  | step s a s' _ hmove ih => exact hmove.keeps ih hkeeps

theorem keeps_over (g : ProgramGraph L) (capacity : Int) : g.Keeps capacity (Env.Over g.writes) := by
  intro a ha e us he hus
  exact he.setAll fun u hu => writes_subset_of_mem ha (Action.mem_writes_of_updates hus u hu)

theorem StartsWith.over {e : Env} (h : g.StartsWith (.standard capacity) e) : e.Over g.writes :=
  h.keeps (Env.over_empty _) (keeps_over g capacity)

theorem Moves.over {s s' : State L} {a : String} (h : g.Moves (.standard capacity) s a s')
    (hs : s.second.Over g.writes) : s'.second.Over g.writes := h.keeps hs (keeps_over g capacity)

/-- **A program gives values to the names that it writes, and to no others.** -/
theorem Reached.over {s : State L} (h : g.Reached (.standard capacity) s) : s.second.Over g.writes :=
  h.keeps (Env.over_empty _) (keeps_over g capacity)

end Keeps

end Lasso.ProgramGraph
