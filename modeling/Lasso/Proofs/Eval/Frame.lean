import Lasso.Proofs.Env.Merge
import Lasso.Proofs.Eval.Action
/-!
# Actions beside other variables

Variables that an action does not mention are a frame: they do not matter to it, and it leaves them as
they are. A frame `f` is put around an environment by `Env.merge`.

* `Env.Avoids` -- an environment that gives no value to certain names;
* `Evaluators.holds_merge`, `Evaluators.effect_merge` -- **conditions and actions are the same inside a
  frame that avoids their names**, and the frame is still there afterwards;
* `Evaluators.foldlM_initStep_merge` -- so are initializations.
-/

namespace Lasso

variable {e f : Env} {ns ns' : List String} {capacity : Int}

/-! ## 1. Frames -/

/-- The environment gives these names no value. -/
def Env.Avoids (ns : List String) (f : Env) : Prop := ∀ n ∈ ns, f.get? n = none

theorem Env.Avoids.mono (h : f.Avoids ns) (hsub : ns' ⊆ ns) : f.Avoids ns' := fun n hn => h n (hsub hn)

theorem Env.Over.avoids (h : f.Over ns) (hns : ∀ n ∈ ns, n ∉ ns') : f.Avoids ns' :=
  fun _ hn => h.get?_eq_none fun hn' => hns _ hn' hn

theorem Env.Over.setAll {us : Updates} (h : e.Over ns) (hus : ∀ u ∈ us, u.1 ∈ ns) :
    (e.setAll us).Over ns := by
  induction us generalizing e with
  | nil => exact h
  | cons u us ih =>
    exact ih (h.set (hus u List.mem_cons_self) u.2) fun w hw => hus w (List.mem_cons_of_mem _ hw)

/-- Inside a frame the names that it avoids have the values they had. -/
theorem Env.Avoids.agree (h : f.Avoids ns) (he : e.Canonical) (hf : f.Canonical) :
    Env.Agree ns (e.merge f) e := by
  intro n hn
  have hnone : f.find? (.ofString n) = none := h n hn
  show (e.merge f).find? _ = e.find? _
  rw [Env.find?_merge he hf, hnone, Option.none_or]

/-- Updates of names that a frame avoids are made inside of it. -/
theorem Env.setAll_merge {us : Updates} (he : e.Canonical) (hf : f.Canonical)
    (h : ∀ u ∈ us, f.get? u.1 = none) : (e.merge f).setAll us = (e.setAll us).merge f := by
  induction us generalizing e with
  | nil => rfl
  | cons u us ih =>
    have hput : (e.merge f).set u.1 u.2 = (e.set u.1 u.2).merge f :=
      (Env.merge_put he hf (h u List.mem_cons_self) u.2).symm
    show ((e.merge f).set u.1 u.2).setAll us = ((e.set u.1 u.2).setAll us).merge f
    rw [hput]
    exact ih (he.put _ u.2) fun w hw => h w (List.mem_cons_of_mem _ hw)

/-! ## 2. Conditions and actions -/

namespace Evaluators

/-- **A condition is the same inside a frame.** -/
theorem holds_merge {cond : String} (he : e.Canonical) (hf : f.Canonical)
    (h : f.Avoids (textNames cond)) :
    (standard capacity).holds (e.merge f) cond = (standard capacity).holds e cond :=
  holds_congr (h.agree he hf)

/-- The updates of an action are the same inside a frame, and the frame avoids them. -/
theorem updates_merge {a : Action} (capacity : Int) (he : e.Canonical) (hf : f.Canonical) (h : f.Avoids a.names) :
    a.updates capacity (e.merge f) = a.updates capacity e ∧
      ∀ us, a.updates capacity e = .ok (some us) →
        (e.merge f).setAll us = (e.setAll us).merge f := by
  refine ⟨Action.updates_congr (he.merge f) he (h.agree he hf), fun us hus => ?_⟩
  refine Env.setAll_merge he hf fun u hu => h u.1 (a.writes_subset_names ?_)
  exact Action.mem_writes_of_updates hus u hu

/-- **An action is the same inside a frame**, which is still there afterwards. -/
theorem effect_merge {text : String} (he : e.Canonical) (hf : f.Canonical)
    (h : f.Avoids (Action.ofText text).names) :
    (standard capacity).effect (e.merge f) text =
      ((standard capacity).effect e text).map (Option.map (·.merge f)) := by
  obtain ⟨hupdates, hset⟩ := updates_merge capacity he hf h
  rw [effect_standard, effect_standard, hupdates]
  cases hus : (Action.ofText text).updates capacity e with
  | error c => rfl
  | ok r =>
    cases r with
    | none => rfl
    | some us => exact congrArg (fun x => Except.ok (some x)) (hset us hus)

theorem initStep_merge {text : String} (he : e.Canonical) (hf : f.Canonical)
    (h : f.Avoids (Action.ofText text).names) :
    (standard capacity).initStep (e.merge f) text =
      ((standard capacity).initStep e text).map (·.merge f) := by
  obtain ⟨hupdates, hset⟩ := updates_merge capacity he hf h
  rw [initStep_standard, initStep_standard, hupdates]
  cases hus : (Action.ofText text).updates capacity e with
  | error c => rfl
  | ok r =>
    cases r with
    | none => rfl
    | some us => exact congrArg Except.ok (hset us hus)

/-- **An initialization is the same inside a frame.** -/
theorem foldlM_initStep_merge {stmts : List String} (capacity : Int) (he : e.Canonical) (hf : f.Canonical)
    (h : ∀ a ∈ stmts, f.Avoids (Action.ofText a).names) :
    stmts.foldlM (standard capacity).initStep (e.merge f) =
      (stmts.foldlM (standard capacity).initStep e).map (·.merge f) := by
  induction stmts generalizing e with
  | nil => rfl
  | cons a stmts ih =>
    rw [List.foldlM_cons, List.foldlM_cons, initStep_merge he hf (h a List.mem_cons_self)]
    cases hr : (standard capacity).initStep e a with
    | error c => rfl
    | ok e' =>
      have he' : e'.Canonical := by
        rw [initStep_standard] at hr
        split at hr
        · cases hr
        · cases hr
        · rename_i us _
          exact Except.ok.inj hr ▸ he.setAll us
      exact ih he' fun b hb => h b (List.mem_cons_of_mem _ hb)

end Evaluators

end Lasso
