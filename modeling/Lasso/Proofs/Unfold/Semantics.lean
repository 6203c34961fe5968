import Lasso.Proofs.Yields
import Lasso.Proofs.System.Contents
import Lasso.Unfold.Program
/-!
# How programs run

* `Starts`, `Moves`, `Reached` -- **the operational semantics**: where a program starts, what its steps
  do, and the states it comes to;
* `Fails`, `Justifies` -- what a program does wrong, and what a failure says of it;
* `LeadsTo` -- what becomes of a step that is tried, with `yields_takeStep`.
-/

namespace Lasso.ProgramGraph

variable {L : Type} [DecidableEq L] [Hashable L]

/-! ## 1. How a program runs -/

/-- An environment that a program may start with: one that some initialization leads to, or the empty
    one if there is no initialization. -/
def StartsWith (g : ProgramGraph L) (ev : Evaluators) (e : Env) : Prop :=
  (g.initializations.toList = [] ∧ e = ∅) ∨
    ∃ stmts, stmts ∈ g.initializations ∧ ev.initial stmts = .ok e

/-- A state in which a program may start. -/
def Starts (g : ProgramGraph L) (ev : Evaluators) (s : State L) : Prop :=
  s.first ∈ g.initial ∧ g.StartsWith ev s.second

/-- **A step of a program**: the condition holds and the action, which is not blocked, leads to the
    environment. -/
def Moves (g : ProgramGraph L) (ev : Evaluators) (s : State L) (a : String) (s' : State L) : Prop :=
  ∃ cond, ⟨s.first, cond, a, s'.first⟩ ∈ g.steps ∧ ev.holds s.second cond = .ok true ∧
    ev.effect s.second a = .ok (some s'.second)

/-- The states that a program comes to. -/
inductive Reached (g : ProgramGraph L) (ev : Evaluators) : State L → Prop where
  | start (s : State L) (h : g.Starts ev s) : Reached g ev s
  | step (s : State L) (a : String) (s' : State L) (hs : Reached g ev s) (h : g.Moves ev s a s') :
      Reached g ev s'

/-- The condition of a step fails in a state, or it holds and the action fails. -/
def StepFails (ev : Evaluators) (s : State L) (t : ProgramStep L) (c : EvalError) : Prop :=
  ev.holds s.second t.condition = .error c ∨
    ev.holds s.second t.condition = .ok true ∧ ev.effect s.second t.action = .error c

/-- Some step that leaves the location of a state fails there. -/
def Fails (g : ProgramGraph L) (ev : Evaluators) (s : State L) (c : EvalError) : Prop :=
  ∃ t, t ∈ g.steps ∧ t.source = s.first ∧ StepFails ev s t c

/-- What a failure of the evaluators says of the program: some initialization fails, or some state that
    the program comes to does. -/
def Justifies [Display L] (g : ProgramGraph L) (ev : Evaluators) : UnfoldError → Prop
  | .initialization p c => p = g.name ∧ ∃ stmts, stmts ∈ g.initializations ∧ ev.initial stmts = .error c
  | .step p text c => p = g.name ∧ ∃ s, g.Reached ev s ∧ Display.text s = text ∧ g.Fails ev s c
  | .canceled _ => True
  | .limit _ _ => True
  | .endless _ => True

theorem mem_outgoing {g : ProgramGraph L} {l : L} {t : ProgramStep L} :
    t ∈ g.outgoing l ↔ t ∈ g.steps ∧ t.source = l := by
  unfold outgoing
  rw [List.mem_filter, decide_eq_true_eq]
  exact Iff.rfl

/-! ## 2. One step -/

section Step

variable {ev : Evaluators} {s : State L} {t : ProgramStep L}

/-- A step cannot be taken: its condition does not hold, or its action is blocked. -/
def Blocked (ev : Evaluators) (s : State L) (t : ProgramStep L) : Prop :=
  ev.holds s.second t.condition = .ok false ∨
    ev.holds s.second t.condition = .ok true ∧ ev.effect s.second t.action = .ok none

/-- A step leads to a state, or to none. -/
def LeadsTo (ev : Evaluators) (s : State L) (t : ProgramStep L) : Option (State L) → Prop
  | none => Blocked ev s t
  | some s' => s'.first = t.target ∧ ev.holds s.second t.condition = .ok true ∧
      ev.effect s.second t.action = .ok (some s'.second)

omit [DecidableEq L] [Hashable L] in
/-- **What becomes of a step**: it is blocked, it leads to a state, or it fails. -/
theorem yields_takeStep [Display L] (ev : Evaluators) (name : String) (s : State L)
    (t : ProgramStep L) :
    Yields (LeadsTo ev s t) (fun x => ∃ c, x = .step name (Display.text s) c ∧ StepFails ev s t c)
      (takeStep ev name s t) := by
  unfold takeStep
  cases hholds : ev.holds s.second t.condition with
  | error c => exact ⟨c, rfl, Or.inl hholds⟩
  | ok enabled =>
    cases enabled with
    | false => exact Or.inl hholds
    | true =>
      cases heffect : ev.effect s.second t.action with
      | error c => exact ⟨c, rfl, Or.inr ⟨hholds, heffect⟩⟩
      | ok r =>
        cases r with
        | none => exact Or.inr ⟨hholds, heffect⟩
        | some e => exact ⟨rfl, hholds, heffect⟩

/-- A step is done with in a system: it is blocked, or the system has the transition. -/
def Handled (ev : Evaluators) (m : TransitionSystem (State L) String String) (s : State L)
    (t : ProgramStep L) : Prop :=
  ∃ r, LeadsTo ev s t r ∧ ∀ s' ∈ r, ⟨s, t.action, s'⟩ ∈ m.transitions

theorem Handled.mono {m m' : TransitionSystem (State L) String String}
    (hsub : ∀ u, u ∈ m.transitions → u ∈ m'.transitions) (h : Handled ev m s t) :
    Handled ev m' s t := by
  obtain ⟨r, hr, hmem⟩ := h
  exact ⟨r, hr, fun s' hs' => hsub _ (hmem s' hs')⟩

omit [DecidableEq L] [Hashable L] in
theorem LeadsTo.not_fails {r : Option (State L)} (h : LeadsTo ev s t r) (c : EvalError) :
    ¬ StepFails ev s t c := by
  rintro (hf | ⟨h1, hf⟩)
  · cases r with
    | none =>
      rcases h with h | ⟨h, -⟩
      · rw [h] at hf
        cases hf
      · rw [h] at hf
        cases hf
    | some s' =>
      rw [h.2.1] at hf
      cases hf
  · cases r with
    | none =>
      rcases h with h | ⟨-, h⟩
      · rw [h] at h1
        cases h1
      · rw [h] at hf
        cases hf
    | some s' =>
      rw [h.2.2] at hf
      cases hf

omit [DecidableEq L] [Hashable L] in
/-- A step leads to one state only. -/
theorem LeadsTo.eq_some {r : Option (State L)} {s' : State L} (h : LeadsTo ev s t r)
    (hs' : LeadsTo ev s t (some s')) : r = some s' := by
  obtain ⟨htarget, hholds, heffect⟩ := hs'
  cases r with
  | none =>
    rcases h with h | ⟨-, h⟩
    · rw [hholds] at h
      cases h
    · rw [heffect] at h
      cases h
  | some s'' =>
    obtain ⟨htarget', -, heffect'⟩ := h
    rw [heffect] at heffect'
    obtain ⟨l, e⟩ := s'
    obtain ⟨l', e'⟩ := s''
    cases heffect'
    cases htarget
    cases htarget'
    rfl

end Step

end Lasso.ProgramGraph
