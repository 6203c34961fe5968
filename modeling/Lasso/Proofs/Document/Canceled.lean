import Lasso.Document.Verify
import Lasso.Proofs.Yields
/-!
# Canceled verifications

A verification may be canceled before it is done. Then it fails, or it did not notice because there was
nothing left to look at; it never has another outcome.

* `Persists` -- one computation succeeds wherever another one does, with the same value;
* `persists_verify` -- **what a verification returns, it returns when nothing cancels it.**
-/

namespace Lasso

/-! ## 1. Computations that persist -/

/-- `r'` succeeds wherever `r` does, with the same value. -/
def Persists {ε α : Type} (r r' : Except ε α) : Prop := ∀ a, r = .ok a → r' = .ok a

namespace Persists

variable {ε ε' α β : Type} {r r' : Except ε α}

theorem refl (r : Except ε α) : Persists r r := fun _ e => e

theorem bind {f f' : α → Except ε β} (h : Persists r r') (hf : ∀ a, Persists (f a) (f' a)) :
    Persists (r >>= f) (r' >>= f') := by
  intro b e
  obtain ⟨a, ea, eb⟩ := bind_eq_ok.mp e
  exact bind_eq_ok.mpr ⟨a, h a ea, hf a b eb⟩

theorem mapError (h : Persists r r') (f : ε → ε') : Persists (r.mapError f) (r'.mapError f) := by
  intro a e
  exact mapError_eq_ok.mpr (h a (mapError_eq_ok.mp e))

theorem mapM {f f' : α → Except ε β} (hf : ∀ a, Persists (f a) (f' a)) (l : List α) :
    Persists (l.mapM f) (l.mapM f') := by
  induction l with
  | nil => exact refl _
  | cons a l ih =>
    rw [List.mapM_cons, List.mapM_cons]
    exact (hf a).bind fun b => ih.bind fun bs => refl _

end Persists

/-! ## 2. Unfolding and checking -/

/-- The same options, where nothing cancels. -/
def UnfoldOptions.uncanceled (o : UnfoldOptions) : UnfoldOptions := { o with canceled := false }

/-- The same options, where nothing cancels. -/
def VerifyOptions.uncanceled (o : VerifyOptions) : VerifyOptions := { o with canceled := false }

section Unfold

variable {L : Type} [DecidableEq L] [Hashable L] [Display L]

/-- A search that is canceled succeeds only if no state waits. -/
theorem followAll?_uncanceled {o : UnfoldOptions} {g : ProgramGraph L} {u : ProgramGraph.Unfolding L}
    {m : TransitionSystem (ProgramGraph.State L) String String}
    (e : g.followAll? o u = some (.ok m)) : g.followAll? o.uncanceled u = some (.ok m) := by
  cases hc : o.canceled with
  | false =>
    have ho : o.uncanceled = o := by rw [UnfoldOptions.uncanceled, ← hc]
    rw [ho]
    exact e
  | true =>
    rw [ProgramGraph.followAll?] at e ⊢
    cases hw : u.waiting with
    | nil =>
      simp only [hw] at e ⊢
      exact e
    | cons s rest =>
      simp only [hw, hc, if_true, Option.some.injEq] at e
      cases e

theorem persists_unfold (o : UnfoldOptions) (g : ProgramGraph L) :
    Persists (g.unfold o) (g.unfold o.uncanceled) := by
  unfold ProgramGraph.unfold
  refine (Persists.refl _).bind fun es => (Persists.refl _).bind fun u => ?_
  refine Persists.bind (fun m e => ?_) fun m => Persists.refl _
  cases hf : g.followAll? o u with
  | none =>
    rw [hf] at e
    cases e
  | some r =>
    rw [hf, Option.getD_some] at e
    rw [followAll?_uncanceled (hf.trans (congrArg some e)), Option.getD_some]

theorem persists_unfoldSystem (o : VerifyOptions) (gs : List (ProgramGraph String)) :
    Persists (unfoldSystem o gs) (unfoldSystem o.uncanceled gs) := by
  unfold unfoldSystem
  split
  · exact Persists.refl _
  · exact (persists_unfold o.toUnfoldOptions _).mapError _

end Unfold

namespace TransitionSystem

variable {S A P Q : Type} [DecidableEq S] [Hashable S] [Display S] [DecidableEq A] [Hashable A]
  [DecidableEq P] [Hashable P] [DecidableEq Q] [Hashable Q] [Display Q]

theorem persists_checkEmptiness (p : TransitionSystem (Pair S Q) A Q) (accepting : Q → Bool)
    (writers : List TreeWriter) (canceled : Bool) :
    Persists (p.checkEmptiness accepting writers canceled)
      (p.checkEmptiness accepting writers false) := by
  intro r e
  unfold checkEmptiness at e ⊢
  cases hc : canceled && !p.initial.isEmpty with
  | true =>
    rw [hc] at e
    cases e
  | false =>
    rw [hc] at e
    exact e

theorem persists_verifyAll (o : VerifyOptions) (m : TransitionSystem S A P)
    (as : List (Automaton Q P)) : Persists (m.verifyAll o as) (m.verifyAll o.uncanceled as) := by
  unfold verifyAll
  refine (Persists.mapM (fun a => ?_) as).bind fun rs => Persists.refl _
  exact (persists_checkEmptiness _ _ _ _).mapError _

end TransitionSystem

/-! ## 3. Documents -/

namespace Document

variable {S : Type} [DecidableEq S] [Hashable S] [Display S]

theorem persists_check (o : VerifyOptions) (d : Document) (as : List (Lasso.Automaton String String))
    (m : TransitionSystem S String String) : Persists (d.check o as m) (d.check o.uncanceled as m) := by
  unfold check
  dsimp only
  split
  all_goals
    refine (Persists.refl _).bind fun m => ?_
    exact ((TransitionSystem.persists_verifyAll o m as).mapError _).bind fun r => Persists.refl _

/-- **What a verification returns, it returns when nothing cancels it.** -/
theorem persists_verify (o : VerifyOptions) (evaluators? : Option Evaluators) (d : Document) :
    Persists (d.verify o evaluators?) (d.verify o.uncanceled evaluators?) := by
  unfold verify
  refine (Persists.refl _).bind fun _ => (Persists.refl _).bind fun as => ?_
  cases d.system? with
  | some s => exact (Persists.refl _).bind fun m => persists_check _ d as m
  | none =>
    refine (Persists.refl _).bind fun gs => Persists.bind ?_ fun m => persists_check _ d as m
    exact (persists_unfoldSystem _ gs).mapError _

end Document

end Lasso
