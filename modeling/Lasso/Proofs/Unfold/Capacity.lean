import Lasso.Document.Build
import Lasso.Proofs.Unfold.Finite
import Lasso.Proofs.Unfold.Names
/-!
# Channels keep to their capacity

The elements of a tuple may be tuples themselves: a channel can be copied, sent through another one or
into itself, and received back. So the bound is stated of values all the way down:

* `Value.Within` -- a value in which no tuple holds more than a number of elements;
* `Env.Bounded` -- an environment of such values; expressions, actions and initializations keep to it
  (`Env.Bounded.eval`, `Action.updates_within`);
* `tuples_within_capacity` -- **no tuple in an unfolded program holds more than the capacity**.
-/

namespace Lasso

open Lang (Expr)

/-! ## 1. Bounded values -/

/-- **No tuple in the value holds more than `n` elements**, neither the value nor any element; a number that
    is not positive is no bound. -/
inductive Value.Within (n : Int) : Value → Prop where
  | int (k : Int64) : Within n (.int k)
  | bool (b : Bool) : Within n (.bool b)
  | str (s : Bytes) : Within n (.str s)
  | tuple (vs : List Value) (hlen : 0 < n → (vs.length : Int) ≤ n) (h : ∀ v ∈ vs, Within n v) :
      Within n (.tuple (pack vs))

namespace Value

variable {n : Int} {p : Bytes} {v : Value}

theorem within_tuple_iff : Within n (.tuple p) ↔
    ∃ vs, p = pack vs ∧ (0 < n → (vs.length : Int) ≤ n) ∧ ∀ v ∈ vs, Within n v := by
  constructor
  · rintro ⟨⟩
    rename_i vs hlen h
    exact ⟨vs, rfl, hlen, h⟩
  · rintro ⟨vs, rfl, hlen, h⟩
    exact .tuple vs hlen h

theorem within_empty : Within n (.tuple []) := .tuple [] Int.le_of_lt fun _ hv => absurd hv List.not_mem_nil

/-- A value within a bound is one that can be built. -/
theorem Within.formed (h : Within n v) : v.Formed := by
  induction h with
  | int k => exact .int k
  | bool b => exact .bool b
  | str s => exact .str s
  | tuple vs _ _ ih => exact .tuple vs ih

/-- A channel that is not full has room for one more value. -/
theorem Within.append (hp : Within n (.tuple p)) (hv : Within n v)
    (hroom : ChannelAction.isFull n p = false) : Within n (.tuple (p ++ v.encode)) := by
  obtain ⟨vs, rfl, -, h⟩ := within_tuple_iff.mp hp
  refine within_tuple_iff.mpr ⟨vs ++ [v], (pack_concat vs v).symm, fun hn => ?_, fun w hw => ?_⟩
  · have hlen : (vs.length : Int) < n := by
      simpa [ChannelAction.isFull, hn] using hroom
    rw [List.length_append, List.length_singleton]
    omega
  · rcases List.mem_append.mp hw with hw | hw
    · exact h w hw
    · exact List.mem_singleton.mp hw ▸ hv

/-- What is taken from a channel, and what is left in it. -/
theorem Within.uncons {rest : Bytes} (hp : Within n (.tuple p)) (h : decode? p = some (v, rest)) :
    Within n v ∧ Within n (.tuple rest) := by
  obtain ⟨vs, rfl, hlen, hvs⟩ := within_tuple_iff.mp hp
  cases vs with
  | nil => cases h
  | cons w ws =>
    rw [decode?_pack_cons] at h
    obtain ⟨rfl, rfl⟩ := Prod.mk.inj (Option.some.inj h)
    rw [List.length_cons] at hlen
    exact ⟨hvs _ List.mem_cons_self,
      .tuple ws (by omega) fun x hx => hvs x (List.mem_cons_of_mem _ hx)⟩

end Value

/-! ## 2. Bounded environments -/

/-- All values of an environment are within the bound. -/
structure Env.Bounded (n : Int) (e : Env) : Prop where
  canonical : e.Canonical
  within : ∀ name v, e.find? name = some v → v.Within n

namespace Env.Bounded

variable {n : Int} {e : Env}

theorem empty : Bounded n ∅ where
  canonical := canonical_empty
  within name v h := by
    rw [find?_empty] at h
    cases h

theorem set (h : e.Bounded n) (name : String) {v : Value} (hv : v.Within n) :
    (e.set name v).Bounded n where
  canonical := h.canonical.put _ v
  within m w hw := by
    have hput := h.canonical.find?_put (.ofString name) v m
    rw [Env.set, hput] at hw
    split at hw
    · exact Option.some.inj hw ▸ hv
    · exact h.within m w hw

theorem setAll {us : Updates} (h : e.Bounded n) (hus : ∀ u ∈ us, u.2.Within n) :
    (e.setAll us).Bounded n := by
  induction us generalizing e with
  | nil => exact h
  | cons u us ih =>
    exact ih (h.set u.1 (hus u List.mem_cons_self)) fun w hw => hus w (List.mem_cons_of_mem _ hw)

end Env.Bounded

/-! ## 3. What is kept -/

section Kept

variable {n : Int} {e : Env}

theorem Lang.within_evalUnary (op : Lang.Op) (v : Value) :
    Yields (Value.Within n) (fun _ => True) (Lang.evalUnary op v) := by
  unfold Lang.evalUnary
  split
  · exact .bool _
  · exact .int _
  · exact .int _
  · trivial

/-- Operators give no tuples. -/
theorem Lang.within_evalBinary (op : Lang.Op) (l r : Value) :
    Yields (Value.Within n) (fun _ => True) (Lang.evalBinary op l r) := by
  have hints : ∀ a b c, Yields (Value.Within n) (fun _ => True)
      ((Lang.evalInts? op a b).getD (.error c)) := by
    intro a b c
    cases op <;> first | exact .int _ | exact .bool _ | trivial | skip
    all_goals
      simp only [Lang.evalInts?, Option.getD_some]
      split
      · trivial
      · exact .int _
  have hstrings : ∀ a b v, Lang.evalStrings? op a b = some v → v.Within n := by
    intro a b v hv
    cases op <;> cases hv
    · exact .str _
    · exact .bool _
    · exact .bool _
  unfold Lang.evalBinary
  split
  · exact .bool _
  · exact .bool _
  · split
    · exact hints _ _ _
    · split
      · rename_i v hv
        exact hstrings _ _ v hv
      · trivial
    · trivial

theorem Lang.within_evalLength (v : Value) :
    Yields (Value.Within n) (fun _ => True) (Lang.evalLength v) := by
  cases v with
  | tuple p => exact .int _
  | str s => exact .int _
  | int k => trivial
  | bool b => trivial

/-- **The value of an expression is within the bound**: only names have tuples for their values. -/
theorem Env.Bounded.eval (h : e.Bounded n) (x : Expr) :
    Yields (Value.Within n) (fun _ => True) (x.eval e) := by
  induction x with
  | name m =>
    rw [Expr.eval, Lang.evalName]
    split
    · exact .bool _
    · split
      · exact .bool _
      · split
        · rename_i v hv
          exact h.within _ v hv
        · trivial
  | int ds =>
    rw [Expr.eval]
    split
    · exact .int _
    · trivial
  | str b => exact .str b
  | paren x ih => exact ih
  | unary op x ih => exact ih.bind fun v _ => Lang.within_evalUnary op v
  | binary op l r ihl ihr =>
    rw [Expr.eval]
    refine ihl.bind fun a ha => ?_
    split
    · split
      · split
        · exact ha
        · refine ihr.bind fun c hc => ?_
          split
          · exact hc
          · trivial
      · trivial
    · exact ihr.bind fun b _ => Lang.within_evalBinary op a b
  | call f x spread _ ih =>
    unfold Expr.eval
    split
    · split
      · exact .int _
      · exact ih.bind fun v _ => Lang.within_evalLength v
    · trivial
  | callMany f => trivial
  | other f => trivial

theorem Env.Bounded.evalText (h : e.Bounded n) (text : String) :
    Yields (Value.Within n) (fun _ => True) (evalText e text) := by
  unfold Lasso.evalText
  cases readExpr text with
  | error c => trivial
  | ok x => exact h.eval x

/-- The updates give values within the bound. -/
abbrev Updates.Within (n : Int) (us : Updates) : Prop := ∀ u ∈ us, u.2.Within n

theorem Assignment.updates_within (h : e.Bounded n) (s : Assignment) :
    Yields (Updates.Within n) (fun _ => True) (s.updates e) := by
  have hcounted : ∀ name op by_, Yields (Updates.Within n) (fun _ => True) (counted e name op by_) := by
    intro name op by_
    unfold counted
    split
    · trivial
    · intro u hu
      rw [List.mem_singleton.mp hu]
      exact .int _
    · trivial
  cases s with
  | set targets values =>
    rw [updates]
    refine (Yields.forall_mapM fun x _ => h.eval x).bind fun vs hvs => ?_
    exact fun u hu => hvs u.2 (List.of_mem_zip hu).2
  | increment m => exact hcounted m _ _
  | decrement m => exact hcounted m _ _

theorem Assignment.updatesAll_within (h : e.Bounded n) (ss : List Assignment) :
    Yields (Updates.Within n) (fun _ => True) (updatesAll e ss) := by
  induction ss generalizing e with
  | nil => exact fun u hu => absurd hu List.not_mem_nil
  | cons s ss ih =>
    rw [updatesAll]
    refine (s.updates_within h).bind fun us hus => ?_
    refine (ih (h.setAll hus)).bind fun vs hvs => ?_
    exact List.forall_mem_append.mpr ⟨hus, hvs⟩

/-- What a channel holds is within the bound; one without a value is empty. -/
theorem ChannelAction.buffer_within (h : e.Bounded n) (c : String) :
    Yields (fun p => (Value.tuple p).Within n) (fun _ => True) (buffer e c) := by
  unfold buffer
  split
  · exact Value.within_empty
  · rename_i p hp
    exact h.within _ _ hp
  · trivial

/-- The updates, if there are any, give values within the bound. -/
def Updates.WithinAny (n : Int) (r : Option Updates) : Prop := ∀ us ∈ r, Updates.Within n us

/-- **A channel of the capacity keeps to it**: what is sent goes into a channel that is not full. -/
theorem ChannelAction.updates_within (h : e.Bounded n) (a : ChannelAction) :
    Yields (Updates.WithinAny n) (fun _ => True) (a.updates n e) := by
  cases a with
  | receive c x =>
    rw [updates]
    refine (buffer_within h c).bind fun p hp => ?_
    split
    · rintro us ⟨⟩
    · rename_i v rest hdecode
      obtain ⟨hv, hrest⟩ := hp.uncons hdecode
      rintro us ⟨⟩
      exact List.forall_mem_cons.mpr ⟨hrest, List.forall_mem_singleton.mpr hv⟩
  | send c payload =>
    rw [updates]
    refine (buffer_within h c).bind fun p hp => ?_
    split
    · rintro us ⟨⟩
    · rename_i hroom
      refine (h.evalText payload).bind fun v hv => ?_
      rintro us ⟨⟩
      exact List.forall_mem_singleton.mpr (hp.append hv (Bool.not_eq_true _ ▸ hroom))

/-- **Every action keeps to the capacity.** -/
theorem Action.updates_within (h : e.Bounded n) (a : Action) :
    Yields (Updates.WithinAny n) (fun _ => True) (a.updates n e) := by
  cases a with
  | rendezvous payload target =>
    refine (h.evalText payload).bind fun v hv => ?_
    rintro us ⟨⟩
    exact List.forall_mem_singleton.mpr hv
  | waiting => rintro us ⟨⟩
  | channel a => exact a.updates_within h
  | assign ss =>
    have hss := Assignment.updatesAll_within h ss
    rw [updates]
    cases hr : Assignment.updatesAll e ss with
    | error c => trivial
    | ok vs =>
      rintro us ⟨⟩
      exact hss.of_ok hr
  | idle =>
    rintro us ⟨⟩
    exact fun u hu => absurd hu List.not_mem_nil

end Kept

/-! ## 4. Unfolded programs -/

namespace ProgramGraph

variable {L : Type} [DecidableEq L] [Hashable L] {g : ProgramGraph L}

/-- Wherever a program comes to, no tuple holds more than the capacity. -/
theorem Reached.bounded {n : Int} {s : State L} (h : g.Reached (.standard n) s) : s.second.Bounded n :=
  h.keeps .empty fun a _ _ us he hus =>
    he.setAll ((((Action.ofText a).updates_within he).of_ok hus) us rfl)

variable [Display L]

/-- **Bounded channels do not overflow.** Where a program is unfolded with the evaluators of a document
    whose channels have a capacity, every variable that holds a tuple holds at most as many elements, in
    every state. -/
theorem tuples_within_capacity (d : Document) (hd : 0 < d.channelCapacity) (o : UnfoldOptions)
    (ho : o.evaluators = d.evaluators) (m : TransitionSystem (State L) String String)
    (hm : g.unfold o = .ok m) :
    ∀ s ∈ m.states, ∀ name p, s.second.find? name = some (.tuple p) →
      ∃ vs, Value.unpack? p = some vs ∧ (vs.length : Int) ≤ d.channelCapacity := by
  intro s hs name p hp
  have hreached : g.Reached (.standard d.channelCapacity) s := by
    have hs' := ((unfolded_of_unfold hm).states s).mp hs
    rw [ho] at hs'
    exact hs'
  obtain ⟨vs, rfl, hlen, -⟩ := Value.within_tuple_iff.mp (hreached.bounded.within name _ hp)
  exact ⟨vs, Value.unpack?_pack vs, hlen hd⟩

/-- A channel of one place that is full, and then sent into another one. -/
def relay : ProgramGraph Int where
  name := "relay"
  locations := .ofList [0, 1, 2]
  initial := .ofList [0]
  steps := .ofList [⟨0, "", "c!1", 1⟩, ⟨1, "", "c!2", 1⟩, ⟨1, "", "d!c", 2⟩]

/-- The channel `c` holds one value. -/
def relayFull : Env := (∅ : Env).set "c" (.ofList [.int 1])

/-- The channel `d` holds the channel `c`. -/
def relaySent : Env := relayFull.set "d" (.ofList [.ofList [.int 1]])

theorem exists_unfold_relay :
    ∃ m, relay.unfold { evaluators := ({ channelCapacity := 1 } : Document).evaluators } = .ok m := by
  have hsteps : relay.steps.toList =
      [⟨0, "", "c!1", 1⟩, ⟨1, "", "c!2", 1⟩, ⟨1, "", "d!c", 2⟩] :=
    Ordered.toList_ofList_of_nodup (by decide)
  refine exists_unfold_of_leadsWithin [⟨0, ∅⟩, ⟨1, relayFull⟩, ⟨2, relaySent⟩] rfl (Int.le_refl 0)
    (fun stmts h => absurd h (Ordered.not_mem_empty stmts)) (fun s hs => ?_) ?_ ?_
  · obtain ⟨hl, ⟨-, he⟩ | ⟨stmts, hstmts, -⟩⟩ := hs
    · have hl : s.first = 0 := List.mem_singleton.mp (Ordered.mem_ofList.mp hl)
      have hs : s = ⟨0, ∅⟩ := by rw [← hl, ← he]
      exact hs ▸ List.mem_cons_self
    · exact absurd hstmts (Ordered.not_mem_empty stmts)
  · rw [hsteps]
    decide +kernel
  · rw [hsteps]
    decide +kernel

theorem tuples_within_capacity_relay :
    ∃ m, relay.unfold { evaluators := ({ channelCapacity := 1 } : Document).evaluators } = .ok m ∧
      ∀ s ∈ m.states, ∀ name p, s.second.find? name = some (.tuple p) →
        ∃ vs, Value.unpack? p = some vs ∧ (vs.length : Int) ≤ 1 := by
  obtain ⟨m, hm⟩ := exists_unfold_relay
  exact ⟨m, hm, tuples_within_capacity { channelCapacity := 1 } (by decide)
    { evaluators := ({ channelCapacity := 1 } : Document).evaluators } rfl m hm⟩

end ProgramGraph

end Lasso
