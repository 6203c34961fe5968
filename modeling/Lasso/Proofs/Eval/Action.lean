import Lasso.Eval.Evaluators
import Lasso.Proofs.Env
import Lasso.Proofs.Yields
/-!
# What actions read and write

With the families of a document (`Evaluators.standard`) an action is one of a few kinds, and all it does
is to give names new values:

* `Action.ofText` -- what kind of action a text is;
* `Action.updates` -- the names an action writes, with their values, and `effect_standard`,
  `initStep_standard`: **an effect is the environment with the updates put in**;
* `Action.names`, `Action.writes` -- the names that occur in an action, and those that it may write;
* `updates_congr`, `holds_congr` -- **actions and conditions see an environment through the names that
  occur in them**, `mem_writes_of_updates` -- and actions change the names they write, no others.
-/

namespace Lasso

open Lang (Expr)

/-- Names with their new values, in the order in which they are written. -/
abbrev Updates := List (String × Value)

/-- The environment with the updates put in. -/
def Env.setAll (e : Env) (us : Updates) : Env := us.foldl (fun e u => e.set u.1 u.2) e

theorem Env.setAll_append (e : Env) (us vs : Updates) :
    e.setAll (us ++ vs) = (e.setAll us).setAll vs := List.foldl_append

/-- The evaluators of a document, with channels of the given capacity. -/
def Evaluators.standard (capacity : Int) : Evaluators where
  actions := [.handshake, .channels capacity, .assignments]

theorem Evaluators.standard_zero : Evaluators.standard 0 = {} := rfl

/-! ## 1. Updates -/

namespace Assignment

/-- The update of a variable that is counted up or down. -/
def counted (e : Env) (name : String) (op : Lang.Op) (by_ : Int64) : Except EvalError Updates :=
  match e.get? name with
  | none => .error (.unbound name)
  | some (.int n) => .ok [(name, .int (n + by_))]
  | some _ => .error (.notCounter name op)

/-- The updates of one assignment. -/
def updates (e : Env) : Assignment → Except EvalError Updates
  | .set targets values => do return targets.zip (← values.mapM (·.eval e))
  | .increment n => counted e n .inc 1
  | .decrement n => counted e n .dec (-1)

/-- The updates of assignments that see what those before them did. -/
def updatesAll (e : Env) : List Assignment → Except EvalError Updates
  | [] => .ok []
  | s :: ss => do
    let us ← s.updates e
    return us ++ (← updatesAll (e.setAll us) ss)

theorem count_eq (e : Env) (name : String) (op : Lang.Op) (by_ : Int64) :
    count e name op by_ = (counted e name op by_).map e.setAll := by
  unfold count counted
  cases e.get? name with
  | none => rfl
  | some v => cases v <;> rfl

theorem run_eq (e : Env) (s : Assignment) : s.run e = (s.updates e).map e.setAll := by
  cases s with
  | set targets values =>
    rw [run, updates]
    cases values.mapM (·.eval e) <;> rfl
  | increment n => exact count_eq e n _ _
  | decrement n => exact count_eq e n _ _

theorem foldlM_run_eq (ss : List Assignment) (e : Env) :
    ss.foldlM run e = (updatesAll e ss).map e.setAll := by
  induction ss generalizing e with
  | nil => rfl
  | cons s ss ih =>
    rw [List.foldlM_cons, run_eq, updatesAll]
    cases s.updates e with
    | error c => rfl
    | ok us =>
      show ss.foldlM run (e.setAll us) = ((updatesAll (e.setAll us) ss).map (us ++ ·)).map e.setAll
      rw [ih (e.setAll us)]
      cases updatesAll (e.setAll us) ss with
      | error c => rfl
      | ok vs => exact congrArg Except.ok (e.setAll_append us vs).symm

end Assignment

/-- The updates of a channel action; nothing when it is blocked. -/
def ChannelAction.updates (capacity : Int) (e : Env) :
    ChannelAction → Except EvalError (Option Updates)
  | .receive c x => do
    match Value.decode? (← buffer e c) with
    | none => return none
    | some (v, rest) => return some [(c, .tuple rest), (x, v)]
  | .send c payload => do
    let p ← buffer e c
    if isFull capacity p then return none
    return some [(c, .tuple (p ++ (← evalText e payload).encode))]

theorem ChannelAction.run_eq (capacity : Int) (e : Env) (a : ChannelAction) :
    a.run capacity e = (a.updates capacity e).map (Option.map e.setAll) := by
  cases a with
  | receive c x =>
    rw [run, updates]
    cases buffer e c with
    | error _ => rfl
    | ok p =>
      simp only [bind, Except.bind]
      cases Value.decode? p <;> rfl
  | send c payload =>
    rw [run, updates]
    cases buffer e c with
    | error _ => rfl
    | ok p =>
      simp only [bind, Except.bind]
      cases isFull capacity p with
      | true => rfl
      | false => cases evalText e payload <;> rfl

/-- The kinds of actions. -/
inductive Action where
  /-- Both ends of a rendezvous: what is sent, and the variable that receives it. -/
  | rendezvous (payload target : String)
  /-- One end of a rendezvous, which waits for the other. -/
  | waiting
  | channel (a : ChannelAction)
  | assign (ss : List Assignment)
  /-- An action of no family, which has no effect. -/
  | idle

namespace Action

/-- The kind of action that a text is. -/
def ofText (text : String) : Action :=
  if Handshake.isOneSided text then .waiting
  else
    match Handshake.split? text with
    | some (payload, target) => .rendezvous payload target
    | none =>
      match ChannelAction.read? text with
      | some a => .channel a
      | none =>
        match Assignment.readAll text with
        | .ok ss => .assign ss
        | .error _ => .idle

/-- The updates of an action; nothing when it is blocked. -/
def updates (capacity : Int) (e : Env) : Action → Except EvalError (Option Updates)
  | .rendezvous payload target => do return some [(target, ← evalText e payload)]
  | .waiting => .ok none
  | .channel a => a.updates capacity e
  | .assign ss => (Assignment.updatesAll e ss).map some
  | .idle => .ok (some [])

end Action

namespace Evaluators

/-- The family that takes an action does what the action's kind says. -/
theorem family?_standard (capacity : Int) (e : Env) (text : String) :
    ((standard capacity).family? text = none ∧ Action.ofText text = .idle) ∨
      ∃ f, (standard capacity).family? text = some f ∧
        f.effect e text = ((Action.ofText text).updates capacity e).map (Option.map e.setAll) := by
  unfold family? standard Action.ofText
  simp only [List.find?_cons, List.find?_nil, ActionFamily.matches?, Handshake.matches?,
    ChannelAction.matches?, Assignment.matches?]
  cases hone : Handshake.isOneSided text with
  | true =>
    refine Or.inr ⟨_, rfl, ?_⟩
    rw [ActionFamily.effect, Handshake.effect, hone]
    rfl
  | false =>
    cases hsplit : Handshake.split? text with
    | some r =>
      obtain ⟨payload, target⟩ := r
      refine Or.inr ⟨_, rfl, ?_⟩
      rw [ActionFamily.effect, Handshake.effect, hone, hsplit]
      simp only [Bool.false_eq_true, if_false, Action.updates]
      cases evalText e payload <;> rfl
    | none =>
      cases hread : ChannelAction.read? text with
      | some a =>
        refine Or.inr ⟨_, rfl, ?_⟩
        rw [ActionFamily.effect, ChannelAction.effect, hread]
        exact a.run_eq capacity e
      | none =>
        cases hall : Assignment.readAll text with
        | ok ss =>
          refine Or.inr ⟨_, rfl, ?_⟩
          rw [ActionFamily.effect, Assignment.effect, hall]
          simp only [bind, Except.bind, Bool.false_eq_true, if_false, Action.updates,
            Assignment.foldlM_run_eq]
          cases Assignment.updatesAll e ss <;> rfl
        | error c => exact Or.inl ⟨rfl, rfl⟩

/-- **The effect of an action** is the environment with its updates put in. -/
theorem effect_standard (capacity : Int) (e : Env) (text : String) :
    (standard capacity).effect e text =
      (((Action.ofText text).updates capacity e).mapError (.inAction text)).map
        (Option.map e.setAll) := by
  unfold effect
  rcases family?_standard capacity e text with ⟨hnone, hidle⟩ | ⟨f, hsome, heffect⟩
  · rw [hnone, hidle]
    rfl
  · rw [hsome]
    simp only [heffect]
    cases (Action.ofText text).updates capacity e <;> rfl

/-- A statement of an initialization has the effect of an action, and must not be blocked. -/
theorem initStep_standard (capacity : Int) (e : Env) (text : String) :
    (standard capacity).initStep e text =
      match (Action.ofText text).updates capacity e with
      | .error c => .error (.inInitialization text c)
      | .ok none => .error (.blocked text)
      | .ok (some us) => .ok (e.setAll us) := by
  unfold initStep
  rcases family?_standard capacity e text with ⟨hnone, hidle⟩ | ⟨f, hsome, heffect⟩
  · rw [hnone, hidle]
    rfl
  · rw [hsome]
    simp only [heffect]
    cases (Action.ofText text).updates capacity e with
    | error c => rfl
    | ok r => cases r <;> rfl

end Evaluators

/-! ## 2. Names -/

/-- The names that occur in an expression; the name of a function is none of them. -/
def Lang.Expr.names : Expr → List String
  | .name n => [n]
  | .paren x | .unary _ x | .call _ x _ => x.names
  | .binary _ l r => l.names ++ r.names
  | .int _ | .str _ | .callMany _ | .other _ => []

/-- The names that occur in the expression that a text spells. -/
def textNames (text : String) : List String :=
  match readExpr text with
  | .ok x => x.names
  | .error _ => []

namespace Assignment

/-- The names that an assignment gives a value. -/
def writes : Assignment → List String
  | .set targets _ => targets
  | .increment n | .decrement n => [n]

/-- The names that occur in an assignment. -/
def names : Assignment → List String
  | .set targets values => targets ++ values.flatMap Expr.names
  | .increment n | .decrement n => [n]

theorem writes_subset_names (s : Assignment) : s.writes ⊆ s.names := by
  cases s with
  | set targets values => exact List.subset_append_left _ _
  | increment n => exact List.Subset.refl _
  | decrement n => exact List.Subset.refl _

end Assignment

namespace ChannelAction

/-- The channel, and the variable that receives. -/
def writes : ChannelAction → List String
  | .send c _ => [c]
  | .receive c x => [c, x]

/-- The names that occur in a channel action. -/
def names : ChannelAction → List String
  | .send c payload => c :: textNames payload
  | .receive c x => [c, x]

end ChannelAction

namespace Action

/-- The names that an action may give a value. -/
def writes : Action → List String
  | .rendezvous _ target => [target]
  | .channel a => a.writes
  | .assign ss => ss.flatMap Assignment.writes
  | .waiting | .idle => []

/-- The names that occur in an action. -/
def names : Action → List String
  | .rendezvous payload target => target :: textNames payload
  | .channel a => a.names
  | .assign ss => ss.flatMap Assignment.names
  | .waiting | .idle => []

theorem writes_subset_names (a : Action) : a.writes ⊆ a.names := by
  cases a with
  | rendezvous payload target => exact List.cons_subset_cons _ (List.nil_subset _)
  | waiting => exact List.Subset.refl _
  | channel a =>
    cases a with
    | send c payload => exact List.cons_subset_cons _ (List.nil_subset _)
    | receive c x => exact List.Subset.refl _
  | assign ss =>
    intro n hn
    obtain ⟨s, hs, hn⟩ := List.mem_flatMap.mp hn
    exact List.mem_flatMap.mpr ⟨s, hs, s.writes_subset_names hn⟩
  | idle => exact List.Subset.refl _

end Action

/-! ## 3. Agreement -/

/-- Two environments give the names the same values. -/
def Env.Agree (ns : List String) (e e' : Env) : Prop := ∀ n ∈ ns, e.get? n = e'.get? n

section Agreement

variable {e e' : Env} {ns ns' : List String}

theorem Env.Agree.mono (h : Env.Agree ns e e') (hsub : ns' ⊆ ns) : Env.Agree ns' e e' :=
  fun n hn => h n (hsub hn)

theorem Env.Canonical.setAll (h : e.Canonical) (us : Updates) : (e.setAll us).Canonical := by
  induction us generalizing e with
  | nil => exact h
  | cons u us ih => exact ih (h.put _ u.2)

/-- Updates keep environments agreed. -/
theorem Env.Agree.setAll (h : Env.Agree ns e e') (hc : e.Canonical) (hc' : e'.Canonical)
    (us : Updates) : Env.Agree ns (e.setAll us) (e'.setAll us) := by
  induction us generalizing e e' with
  | nil => exact h
  | cons u us ih =>
    refine ih (fun n hn => ?_) (hc.put _ u.2) (hc'.put _ u.2)
    have hput := hc.find?_put (.ofString u.1) u.2 (.ofString n)
    have hput' := hc'.find?_put (.ofString u.1) u.2 (.ofString n)
    have hn' : e.find? (.ofString n) = e'.find? (.ofString n) := h n hn
    show (e.put _ _).find? _ = (e'.put _ _).find? _
    rw [hput, hput', hn']

/-- **The value of an expression depends on the names in it.** -/
theorem Lang.Expr.eval_congr {x : Expr} (h : Env.Agree x.names e e') : x.eval e = x.eval e' := by
  induction x with
  | name n =>
    have hn := h n List.mem_cons_self
    simp only [eval, evalName, hn]
  | int ds => rfl
  | str b => rfl
  | paren x ih => exact ih h
  | unary op x ih => rw [eval, eval, ih h]
  | binary op l r ihl ihr =>
    have hl := ihl (h.mono (List.subset_append_left _ _))
    have hr := ihr (h.mono (List.subset_append_right _ _))
    rw [eval, eval, hl, hr]
  | call f x spread _ ih =>
    have hunbound : x.isUnbound e = x.isUnbound e' := by
      cases x with
      | name n => exact congrArg Option.isNone (h n List.mem_cons_self)
      | _ => rfl
    have hx := ih h
    unfold eval
    rw [hunbound, hx]
  | callMany f => rfl
  | other f => rfl

theorem evalText_congr {text : String} (h : Env.Agree (textNames text) e e') :
    evalText e text = evalText e' text := by
  unfold evalText
  unfold textNames at h
  cases hread : readExpr text with
  | error c => rfl
  | ok x =>
    rw [hread] at h
    exact Lang.Expr.eval_congr h

theorem Assignment.updates_congr {s : Assignment} (h : Env.Agree s.names e e') :
    s.updates e = s.updates e' := by
  cases s with
  | set targets values =>
    have hvalues : ∀ xs ⊆ values, xs.mapM (·.eval e) = xs.mapM (·.eval e') := by
      intro xs
      induction xs with
      | nil => exact fun _ => rfl
      | cons x xs ih =>
        intro hsub
        have hx : x.eval e = x.eval e' := Lang.Expr.eval_congr fun n hn => h n
          (List.mem_append_right _ (List.mem_flatMap.mpr ⟨x, hsub List.mem_cons_self, hn⟩))
        rw [List.mapM_cons, List.mapM_cons, hx, ih fun y hy => hsub (List.mem_cons_of_mem _ hy)]
    rw [updates, updates, hvalues values (List.Subset.refl _)]
  | increment n => simp only [updates, counted, h n List.mem_cons_self]
  | decrement n => simp only [updates, counted, h n List.mem_cons_self]

/-- A sequence of assignments depends on the names in it: each of them leaves the environments
    agreed. -/
theorem Assignment.updatesAll_congr {ss : List Assignment} (hc : e.Canonical) (hc' : e'.Canonical)
    (h : Env.Agree (ss.flatMap names) e e') : updatesAll e ss = updatesAll e' ss := by
  induction ss generalizing e e' with
  | nil => rfl
  | cons s ss ih =>
    rw [List.flatMap_cons] at h
    have hs : s.updates e = s.updates e' := updates_congr (h.mono (List.subset_append_left _ _))
    rw [updatesAll, updatesAll, hs]
    refine bind_congr fun us => ?_
    rw [ih (hc.setAll us) (hc'.setAll us) ((h.mono (List.subset_append_right _ _)).setAll hc hc' us)]

theorem ChannelAction.updates_congr {capacity : Int} {a : ChannelAction} (h : Env.Agree a.names e e') :
    a.updates capacity e = a.updates capacity e' := by
  have hbuffer : ∀ c ∈ a.names, buffer e c = buffer e' c := fun c hc => by
    unfold buffer
    rw [h c hc]
  cases a with
  | receive c x => rw [updates, updates, hbuffer c List.mem_cons_self]
  | send c payload =>
    have heval : evalText e payload = evalText e' payload :=
      evalText_congr (h.mono (List.subset_cons_self _ _))
    rw [updates, updates, hbuffer c List.mem_cons_self, heval]

/-- **The updates of an action depend on the names in it.** -/
theorem Action.updates_congr {capacity : Int} {a : Action} (hc : e.Canonical) (hc' : e'.Canonical)
    (h : Env.Agree a.names e e') : a.updates capacity e = a.updates capacity e' := by
  cases a with
  | rendezvous payload target =>
    rw [updates, updates, evalText_congr (h.mono (List.subset_cons_self _ _))]
  | waiting => rfl
  | channel a => exact ChannelAction.updates_congr h
  | assign ss => rw [updates, updates, Assignment.updatesAll_congr hc hc' h]
  | idle => rfl

/-- **Whether a condition holds depends on the names in it.** -/
theorem Evaluators.holds_congr {capacity : Int} {cond : String} (h : Env.Agree (textNames cond) e e') :
    (standard capacity).holds e cond = (standard capacity).holds e' cond := by
  unfold holds
  simp only [standard, holds.go, ConditionFamily.holds, evalText_congr h]

end Agreement

/-! ## 4. What is written -/

section Writes

variable {e : Env} {us : Updates}

theorem Assignment.mem_writes_of_counted {name : String} {op : Lang.Op} {by_ : Int64}
    (h : counted e name op by_ = .ok us) : ∀ u ∈ us, u.1 = name := by
  unfold counted at h
  split at h
  · cases h
  · cases h
    rintro u hu
    rw [List.mem_singleton.mp hu]
  · cases h

theorem Assignment.mem_writes_of_updates {s : Assignment} (h : s.updates e = .ok us) :
    ∀ u ∈ us, u.1 ∈ s.writes := by
  cases s with
  | set targets values =>
    obtain ⟨vs, -, hus⟩ := bind_eq_ok.mp h
    cases hus
    exact fun u hu => (List.of_mem_zip hu).1
  | increment n => exact fun u hu => List.mem_singleton.mpr (mem_writes_of_counted h u hu)
  | decrement n => exact fun u hu => List.mem_singleton.mpr (mem_writes_of_counted h u hu)

theorem Assignment.mem_writes_of_updatesAll {ss : List Assignment} (h : updatesAll e ss = .ok us) :
    ∀ u ∈ us, u.1 ∈ ss.flatMap writes := by
  induction ss generalizing e us with
  | nil =>
    cases h
    exact fun u hu => absurd hu List.not_mem_nil
  | cons s ss ih =>
    obtain ⟨us₁, h₁, h⟩ := bind_eq_ok.mp h
    obtain ⟨us₂, h₂, h⟩ := bind_eq_ok.mp h
    cases h
    intro u hu
    rw [List.flatMap_cons]
    rcases List.mem_append.mp hu with hu | hu
    · exact List.mem_append_left _ (mem_writes_of_updates h₁ u hu)
    · exact List.mem_append_right _ (ih h₂ u hu)

theorem ChannelAction.mem_writes_of_updates {capacity : Int} {a : ChannelAction}
    (h : a.updates capacity e = .ok (some us)) : ∀ u ∈ us, u.1 ∈ a.writes := by
  cases a with
  | receive c x =>
    obtain ⟨p, -, h⟩ := bind_eq_ok.mp h
    split at h
    · cases h
    · cases h
      intro u hu
      simp only [List.mem_cons, List.not_mem_nil, or_false] at hu
      rcases hu with rfl | rfl
      · exact List.mem_cons_self
      · exact List.mem_cons_of_mem _ List.mem_cons_self
  | send c payload =>
    obtain ⟨p, -, h⟩ := bind_eq_ok.mp h
    split at h
    · cases h
    · obtain ⟨v, -, h⟩ := bind_eq_ok.mp h
      cases h
      intro u hu
      rw [List.mem_singleton.mp hu]
      exact List.mem_cons_self

/-- **An action gives values to names that it writes, and to no others.** -/
theorem Action.mem_writes_of_updates {capacity : Int} {a : Action}
    (h : a.updates capacity e = .ok (some us)) : ∀ u ∈ us, u.1 ∈ a.writes := by
  cases a with
  | rendezvous payload target =>
    obtain ⟨v, -, h⟩ := bind_eq_ok.mp h
    cases h
    intro u hu
    rw [List.mem_singleton.mp hu]
    exact List.mem_cons_self
  | waiting => cases h
  | channel a => exact ChannelAction.mem_writes_of_updates h
  | assign ss =>
    rw [updates] at h
    cases hss : Assignment.updatesAll e ss with
    | error c => rw [hss] at h; cases h
    | ok vs =>
      rw [hss] at h
      cases h
      exact Assignment.mem_writes_of_updatesAll hss
  | idle =>
    cases h
    exact fun u hu => absurd hu List.not_mem_nil

end Writes

end Lasso
