import Mathlib.Data.List.Basic
import Lasso.Proofs.Eval.Action
/-!
# Channels are queues

What is sent into a channel is received from it in the same order, nothing is lost and nothing comes
twice. Channels are kept as bytes in the environment that the payloads are evaluated in, beside all
other variables, so this is a statement about runs of actions on any number of channels:

* `Env.channel?` -- the values in a channel, the oldest first;
* `transfers` -- what a run of actions moves, as its environments show it: a value that was sent is the
  value of its payload, a value that was received stands in the variable that received it;
* `Done` -- **what an action that is done does**, read off its effect (`effect_eq_ok_some_iff`);
* `Queues.after` -- one action keeps the account of a channel, `Queues.afterAll` -- so does a run;
* `channels_first_in_first_out` -- **the values received and those still there are the values that were
  there and those sent, in this order**, and actions are blocked exactly by empty and full channels.
-/

namespace Lasso

/-! ## 1. What a channel holds -/

namespace Env

/-- The values in a channel, the oldest first; a name without a value is an empty channel. Nothing if
    the name has a value that is no tuple, and so is no channel. -/
def channel? (e : Env) (c : String) : Option (List Value) :=
  match e.get? c with
  | none => some []
  | some (.tuple p) => some (Value.unpack p)
  | some _ => none

/-- The values in a channel; a name that is no channel holds none. -/
def contents (e : Env) (c : String) : List Value := (e.channel? c).getD []

end Env

namespace ChannelAction

variable {capacity : Int} {e e' : Env} {text c d x : String} {p rest : Bytes} {v : Value}

theorem channel?_of_buffer (h : buffer e c = .ok p) : e.channel? c = some (Value.unpack p) := by
  unfold buffer at h
  unfold Env.channel?
  generalize e.get? c = held at h ⊢
  rcases held with _ | w
  · cases h
    simp [Value.unpack, Value.unpack?, readAll?]
  · cases w with
    | tuple q =>
      cases h
      rfl
    | _ => cases h

theorem channel?_of_buffer_error {c' : EvalError} (h : buffer e c = .error c') :
    e.channel? c = none := by
  unfold buffer at h
  unfold Env.channel?
  generalize e.get? c = held at h ⊢
  rcases held with _ | w
  · cases h
  · cases w with
    | tuple q => cases h
    | _ => rfl

/-- The bytes of a channel are all that is read of it. -/
theorem buffer_congr (h : e.get? c = e'.get? c) : buffer e c = buffer e' c := by
  unfold buffer
  rw [h]

theorem channel?_congr (h : e.get? c = e'.get? c) : e.channel? c = e'.channel? c := by
  unfold Env.channel?
  rw [h]

theorem buffer_of_tuple (h : e.get? c = some (.tuple p)) : buffer e c = .ok p := by
  unfold buffer
  rw [h]

/-! ## 2. What an action moves -/

/-- A value that goes into a channel or comes out of it. -/
inductive Transfer where
  | sent (channel : String) (v : Value)
  | received (channel : String) (v : Value)
  deriving DecidableEq

/-- The values sent to a channel, in order. -/
def Transfer.sentTo (c : String) (ts : List Transfer) : List Value :=
  ts.filterMap fun
    | .sent d v => if d = c then some v else none
    | .received _ _ => none

/-- The values received from a channel, in order. -/
def Transfer.receivedFrom (c : String) (ts : List Transfer) : List Value :=
  ts.filterMap fun
    | .received d v => if d = c then some v else none
    | .sent _ _ => none

theorem Transfer.sentTo_append (c : String) (ts us : List Transfer) :
    sentTo c (ts ++ us) = sentTo c ts ++ sentTo c us := List.filterMap_append

theorem Transfer.receivedFrom_append (c : String) (ts us : List Transfer) :
    receivedFrom c (ts ++ us) = receivedFrom c ts ++ receivedFrom c us := List.filterMap_append

/-- What an action moves, unless it is blocked or fails: the value of what is sent, or the value that
    the receiving variable has afterwards. -/
def transfer? (capacity : Int) (e : Env) (text : String) : Option Transfer :=
  match read? text, effect capacity e text with
  | some (.send c payload), .ok (some _) => (evalText e payload).toOption.map (.sent c)
  | some (.receive c x), .ok (some e') => (e'.get? x).map (.received c)
  | _, _ => none

/-- The environment after an action; one that is blocked or fails leaves it as it was. -/
def settle (capacity : Int) (e : Env) (text : String) : Env :=
  match effect capacity e text with
  | .ok (some e') => e'
  | _ => e

/-- The environment after actions in turn. -/
def settleAll (capacity : Int) (e : Env) (texts : List String) : Env :=
  texts.foldl (settle capacity) e

/-- What actions in turn move. -/
def transfers (capacity : Int) : Env → List String → List Transfer
  | _, [] => []
  | e, text :: texts =>
    (transfer? capacity e text).toList ++ transfers capacity (settle capacity e text) texts

/-- **An action that is done**: what it moves, and the environment it leads to. -/
inductive Done (capacity : Int) (e : Env) (text : String) : Transfer → Env → Prop where
  | sent (c payload : String) (p : Bytes) (v : Value) (hread : read? text = some (.send c payload))
      (hbuffer : buffer e c = .ok p) (hroom : isFull capacity p = false)
      (hv : evalText e payload = .ok v) :
      Done capacity e text (.sent c v) (e.set c (.tuple (p ++ v.encode)))
  | received (c x : String) (p rest : Bytes) (v : Value) (hread : read? text = some (.receive c x))
      (hbuffer : buffer e c = .ok p) (hv : Value.decode? p = some (v, rest)) :
      Done capacity e text (.received c v) ((e.set c (.tuple rest)).set x v)

theorem effect_of_read? {a : ChannelAction} (h : read? text = some a) :
    effect capacity e text = a.run capacity e := by
  rw [effect, h]

/-- **What the effect of an action says**: it is done in one of two ways. -/
theorem effect_eq_ok_some_iff :
    effect capacity e text = .ok (some e') ↔ ∃ t, Done capacity e text t e' := by
  constructor
  · intro h
    cases hread : read? text with
    | none =>
      rw [effect, hread] at h
      cases h
    | some a =>
      rw [effect_of_read? hread] at h
      cases a with
      | send c payload =>
        obtain ⟨p, hbuffer, h⟩ := bind_eq_ok.mp h
        split at h
        · cases h
        · rename_i hroom
          obtain ⟨v, hv, h⟩ := bind_eq_ok.mp h
          cases h
          exact ⟨_, .sent c payload p v hread hbuffer (Bool.not_eq_true _ ▸ hroom) hv⟩
      | receive c x =>
        obtain ⟨p, hbuffer, h⟩ := bind_eq_ok.mp h
        split at h
        · cases h
        · rename_i v rest hv
          cases h
          exact ⟨_, .received c x p rest v hread hbuffer hv⟩
  · intro h
    obtain ⟨t, h⟩ := h
    cases h with
    | sent c payload p v hread hbuffer hroom hv =>
      simp only [effect_of_read? hread, run, hbuffer, hroom, hv, bind, Except.bind]
      rfl
    | received c x p rest v hread hbuffer hv =>
      simp only [effect_of_read? hread, run, hbuffer, hv, bind, Except.bind]
      rfl

/-- An action is done, or it leaves the environment as it was and moves nothing. -/
theorem done_or_idle (capacity : Int) (e : Env) (text : String) :
    (∃ t, Done capacity e text t (settle capacity e text)) ∨
      (settle capacity e text = e ∧ transfer? capacity e text = none) := by
  unfold settle transfer?
  cases heffect : effect capacity e text with
  | error c => exact Or.inr ⟨rfl, by split <;> simp_all⟩
  | ok r =>
    cases r with
    | none => exact Or.inr ⟨rfl, by split <;> simp_all⟩
    | some e' => exact Or.inl (effect_eq_ok_some_iff.mp heffect)

/-- The environments before and after an action show what it moved. -/
theorem Done.transfer?_eq {t : Transfer} (h : Done capacity e text t e') (he : e.Canonical) :
    transfer? capacity e text = some t := by
  have heffect : effect capacity e text = .ok (some e') := effect_eq_ok_some_iff.mpr ⟨t, h⟩
  cases h with
  | sent c payload p v hread hbuffer hroom hv =>
    simp [transfer?, hread, heffect, hv, Except.toOption]
  | received c x p rest v hread hbuffer hv =>
    have hx : ((e.set c (.tuple rest)).set x v).get? x = some v := by
      rw [(he.set c (.tuple rest)).get?_set, if_pos rfl]
    simp [transfer?, hread, heffect, hx]

/-! ## 3. The account of a channel -/

/-- **A name whose channel holds packed values**, if it is a channel, in a canonical environment. -/
structure Queues (e : Env) (c : String) : Prop where
  canonical : e.Canonical
  packed : ∀ p, buffer e c = .ok p → ∃ vs, p = Value.pack vs

theorem queues_of_built (h : e.Built) (c : String) : Queues e c where
  canonical := h.canonical.1
  packed p hp := by
    unfold buffer at hp
    split at hp
    · cases hp
      exact ⟨[], rfl⟩
    · rename_i hget
      cases hp
      have hmem := h.canonical.1.sorted.lookup_eq_some_iff.mp hget
      have hformed : (Value.tuple p).Formed := h.canonical.2 _ hmem
      cases hformed with
      | tuple vs _ => exact ⟨vs, rfl⟩
    · cases hp

/-- A channel after the values in it were replaced. -/
theorem queues_of_get? {vs : List Value} (he : e.Canonical)
    (hget : e.get? c = some (.tuple (Value.pack vs))) : Queues e c ∧ e.contents c = vs := by
  have hbuffer := buffer_of_tuple hget
  refine ⟨⟨he, fun p hp => ?_⟩, ?_⟩
  · rw [hbuffer] at hp
    exact ⟨vs, (Except.ok.inj hp).symm⟩
  · rw [Env.contents, channel?_of_buffer hbuffer]
    simp

namespace Queues

/-- What does not touch a channel leaves its account as it is. -/
theorem congr (h : Queues e c) (he : e'.Canonical) (hget : e'.get? c = e.get? c) :
    Queues e' c ∧ e'.contents c = e.contents c := by
  refine ⟨⟨he, fun p hp => h.packed p ?_⟩, ?_⟩
  · rw [← buffer_congr hget]
    exact hp
  · rw [Env.contents, channel?_congr hget]
    rfl

theorem contents_eq {vs : List Value} (hbuffer : buffer e c = .ok (Value.pack vs)) :
    e.contents c = vs := by
  rw [Env.contents, channel?_of_buffer hbuffer]
  simp

/-- The account of a channel balances over what an action moves. -/
def Balances (c : String) (e e' : Env) (ts : List Transfer) : Prop :=
  Transfer.receivedFrom c ts ++ e'.contents c = e.contents c ++ Transfer.sentTo c ts

/-- Sending into a channel puts the value behind those that are there. -/
theorem sent (h : Queues e c) (hbuffer : buffer e d = .ok p) (v : Value) :
    Queues (e.set d (.tuple (p ++ v.encode))) c ∧
      Balances c e (e.set d (.tuple (p ++ v.encode))) [.sent d v] := by
  have he := h.canonical.set d (.tuple (p ++ v.encode))
  have hset := h.canonical.get?_set d (.tuple (p ++ v.encode)) c
  by_cases hd : d = c
  · subst hd
    obtain ⟨vs, rfl⟩ := h.packed p hbuffer
    rw [← Value.pack_concat] at he hset ⊢
    rw [if_pos rfl] at hset
    obtain ⟨hqueues, hcontents⟩ := queues_of_get? he hset
    refine ⟨hqueues, ?_⟩
    simp [Balances, hcontents, contents_eq hbuffer, Transfer.receivedFrom, Transfer.sentTo]
  · rw [if_neg (Ne.symm hd)] at hset
    obtain ⟨hqueues, hcontents⟩ := h.congr he hset
    refine ⟨hqueues, ?_⟩
    simp [Balances, hcontents, Transfer.receivedFrom, Transfer.sentTo, hd]

/-- Receiving from a channel takes the first of the values that are there. -/
theorem received (h : Queues e c) (hbuffer : buffer e d = .ok p)
    (hv : Value.decode? p = some (v, rest)) (hx : c ≠ x) :
    Queues ((e.set d (.tuple rest)).set x v) c ∧
      Balances c e ((e.set d (.tuple rest)).set x v) [.received d v] := by
  have hd := h.canonical.set d (.tuple rest)
  have he := hd.set x v
  have hset : ((e.set d (.tuple rest)).set x v).get? c =
      if c = d then some (.tuple rest) else e.get? c := by
    rw [hd.get?_set, if_neg hx, h.canonical.get?_set]
  by_cases hdc : d = c
  · subst hdc
    obtain ⟨vs, rfl⟩ := h.packed p hbuffer
    cases vs with
    | nil => cases hv
    | cons w ws =>
      rw [Value.decode?_pack_cons] at hv
      cases hv
      rw [if_pos rfl] at hset
      obtain ⟨hqueues, hcontents⟩ := queues_of_get? he hset
      refine ⟨hqueues, ?_⟩
      simp [Balances, hcontents, contents_eq hbuffer, Transfer.receivedFrom, Transfer.sentTo]
  · rw [if_neg (Ne.symm hdc)] at hset
    obtain ⟨hqueues, hcontents⟩ := h.congr he hset
    refine ⟨hqueues, ?_⟩
    simp [Balances, hcontents, Transfer.receivedFrom, Transfer.sentTo, hdc]

/-- **An action that is done keeps the account of a channel** that it does not receive into. -/
theorem done (h : Queues e c) {t : Transfer} (hdone : Done capacity e text t e')
    (hx : ∀ d, read? text ≠ some (.receive d c)) : Queues e' c ∧ Balances c e e' [t] := by
  cases hdone with
  | sent d payload p v hread hbuffer hroom hv => exact h.sent hbuffer v
  | received d x p rest v hread hbuffer hv =>
    refine h.received hbuffer hv fun hc => ?_
    exact hx d (hc ▸ hread)

/-- **One action keeps the account of a channel**, whether it is done, blocked or fails. -/
theorem after (h : Queues e c) (capacity : Int) (hx : ∀ d, read? text ≠ some (.receive d c)) :
    Queues (settle capacity e text) c ∧
      Balances c e (settle capacity e text) (transfer? capacity e text).toList := by
  rcases done_or_idle capacity e text with ⟨t, hdone⟩ | ⟨hsettle, hnone⟩
  · rw [hdone.transfer?_eq h.canonical]
    exact h.done hdone hx
  · rw [hsettle, hnone]
    refine ⟨h, ?_⟩
    simp [Balances, Transfer.receivedFrom, Transfer.sentTo]

/-- **A run keeps the account of a channel**, by what its actions do one after the other. -/
theorem afterAll (h : Queues e c) (capacity : Int) {texts : List String}
    (hx : ∀ text ∈ texts, ∀ d, read? text ≠ some (.receive d c)) :
    Queues (settleAll capacity e texts) c ∧
      Balances c e (settleAll capacity e texts) (transfers capacity e texts) := by
  induction texts generalizing e with
  | nil =>
    refine ⟨h, ?_⟩
    simp [Balances, Transfer.receivedFrom, Transfer.sentTo, transfers, settleAll]
  | cons text texts ih =>
    obtain ⟨hfirst, hbalance⟩ := h.after capacity (hx text List.mem_cons_self)
    obtain ⟨hrest, hbalances⟩ := ih hfirst fun t ht => hx t (List.mem_cons_of_mem _ ht)
    refine ⟨hrest, ?_⟩
    unfold Balances at hbalance hbalances ⊢
    have hlast : settleAll capacity (settle capacity e text) texts =
      settleAll capacity e (text :: texts) := rfl
    rw [hlast] at hbalances
    -- what the rest receives was there after the first action, or was sent later
    rw [transfers, Transfer.receivedFrom_append, Transfer.sentTo_append, List.append_assoc, hbalances,
      ← List.append_assoc, hbalance, List.append_assoc]

end Queues

/-! ## 4. Blocked actions -/

/-- **Receiving is blocked by an empty channel**, and by nothing else. -/
theorem Queues.receive_blocked_iff (h : Queues e c) (hread : read? text = some (.receive c x)) :
    effect capacity e text = .ok none ↔ e.channel? c = some [] := by
  rw [effect_of_read? hread, run]
  cases hbuffer : buffer e c with
  | error c' =>
    rw [channel?_of_buffer_error hbuffer]
    simp [bind, Except.bind]
  | ok p =>
    obtain ⟨vs, rfl⟩ := h.packed p hbuffer
    rw [channel?_of_buffer hbuffer, Value.unpack_pack]
    cases vs with
    | nil => simp [bind, Except.bind, pure, Except.pure, Value.pack, Value.decode?, readVarint?]
    | cons w ws =>
      simp [bind, Except.bind, Value.decode?_pack_cons, pure, Except.pure]

/-- **Sending is blocked by a channel that holds as many values as its capacity**, and by nothing
    else. -/
theorem send_blocked_iff {payload : String} (hread : read? text = some (.send c payload)) :
    effect capacity e text = .ok none ↔
      ∃ vs, e.channel? c = some vs ∧ 0 < capacity ∧ capacity ≤ vs.length := by
  rw [effect_of_read? hread, run]
  cases hbuffer : buffer e c with
  | error c' =>
    rw [channel?_of_buffer_error hbuffer]
    simp [bind, Except.bind]
  | ok p =>
    rw [channel?_of_buffer hbuffer]
    cases hfull : isFull capacity p with
    | true =>
      have hfull' : 0 < capacity ∧ capacity ≤ (Value.unpack p).length := by simpa [isFull] using hfull
      simp [bind, Except.bind, hfull, pure, Except.pure, hfull']
    | false =>
      have hroom : ¬ (0 < capacity ∧ capacity ≤ (Value.unpack p).length) := by
        simpa [isFull] using hfull
      cases evalText e payload with
      | error c' => simp [bind, Except.bind, hfull, hroom]
      | ok v => simp [bind, Except.bind, hfull, pure, Except.pure, hroom]

/-! ## 5. Runs -/

/-- The channel that an action is about. -/
def channel : ChannelAction → String
  | .send c _ => c
  | .receive c _ => c

/-- The variable that receives. -/
def target? : ChannelAction → Option String
  | .send _ _ => none
  | .receive _ x => some x

/-- The channels that the actions of a sequence are about. -/
def channels (texts : List String) : List String :=
  texts.filterMap fun text => (read? text).map channel

/-- The variables that receive in a sequence of actions. -/
def receivers (texts : List String) : List String :=
  texts.filterMap fun text => (read? text).bind target?

section Runs

variable {texts done : List String}

theorem mem_channels {a : ChannelAction} (htext : text ∈ texts) (hread : read? text = some a) :
    a.channel ∈ channels texts := by
  refine List.mem_filterMap.mpr ⟨text, htext, ?_⟩
  rw [hread, Option.map_some]

theorem mem_receivers (htext : text ∈ texts) (hread : read? text = some (.receive c x)) :
    x ∈ receivers texts := by
  refine List.mem_filterMap.mpr ⟨text, htext, ?_⟩
  rw [hread]
  rfl

/-- A channel of a sequence in which none is received into keeps its account at every point. -/
theorem queues_at (he : e.Built) (hapart : ∀ x ∈ receivers texts, x ∉ channels texts)
    (hdone : done <+: texts) (hc : c ∈ channels texts) :
    Queues (settleAll capacity e done) c ∧
      Queues.Balances c e (settleAll capacity e done) (transfers capacity e done) := by
  refine (queues_of_built he c).afterAll capacity fun text htext d hread => ?_
  exact hapart c (mem_receivers (hdone.subset htext) hread) hc

/-- **Channels are first in, first out.** In a sequence of actions that receives into none of its
    channels, at every point: the values received from a channel and those still in it are the values
    that were in it and those sent to it, in this order. Receiving is blocked exactly by an empty
    channel, and sending exactly by a channel that holds as many values as a positive capacity. -/
theorem channels_first_in_first_out (capacity : Int) (he : e.Built)
    (hapart : ∀ x ∈ receivers texts, x ∉ channels texts) :
    (∀ done, done <+: texts → ∀ c ∈ channels texts,
      Transfer.receivedFrom c (transfers capacity e done) ++ (settleAll capacity e done).contents c =
        e.contents c ++ Transfer.sentTo c (transfers capacity e done)) ∧
    ∀ done text, done ++ [text] <+: texts →
      (∀ c x, read? text = some (.receive c x) →
        (effect capacity (settleAll capacity e done) text = .ok none ↔
          (settleAll capacity e done).channel? c = some [])) ∧
      ∀ c payload, read? text = some (.send c payload) →
        (effect capacity (settleAll capacity e done) text = .ok none ↔
          ∃ vs, (settleAll capacity e done).channel? c = some vs ∧
            0 < capacity ∧ capacity ≤ vs.length) := by
  constructor
  · intro done hdone c hc
    exact (queues_at he hapart hdone hc).2
  · intro done text hnext
    have htext : text ∈ texts := hnext.subset (List.mem_append_right _ List.mem_cons_self)
    have hdone : done <+: texts := (List.prefix_append done [text]).trans hnext
    constructor
    · intro c x hread
      have hc : c ∈ channels texts := mem_channels htext hread
      exact (queues_at he hapart hdone hc).1.receive_blocked_iff hread
    · intro c payload hread
      exact send_blocked_iff hread

end Runs

/-- A variable, and a channel that holds a queue. -/
def stocked : Env := (Env.empty.set "c" (.ofList [.ofList [.int 7]])).set "x" (.int 1)

theorem stocked_built : stocked.Built := by
  have hqueue : (Value.ofList [.ofList [.int 7]]).Formed := by
    refine .tuple _ fun v hv => ?_
    rw [List.mem_singleton.mp hv]
    refine .tuple _ fun w hw => ?_
    rw [List.mem_singleton.mp hw]
    exact .int 7
  exact .put _ _ _ (.put _ _ _ Env.built_empty hqueue) (.int 1)

/-- Actions on two channels of two places. The third finds its channel full, the last one finds it
    empty, and `x` is no channel. -/
def relaying : List String := ["c!x+1", "d!c", "c!9", "x!3", "c?y", "d?z", "c?y", "c?y"]

theorem channels_first_in_first_out_relaying :
    stocked.Built ∧ (∀ x ∈ receivers relaying, x ∉ channels relaying) ∧
      transfers 2 stocked relaying =
        [.sent "c" (.int 2), .sent "d" (.ofList [.ofList [.int 7], .int 2]),
          .received "c" (.ofList [.int 7]), .received "d" (.ofList [.ofList [.int 7], .int 2]),
          .received "c" (.int 2)] ∧
      Transfer.receivedFrom "c" (transfers 2 stocked relaying) ++
          (settleAll 2 stocked relaying).contents "c" =
        stocked.contents "c" ++ Transfer.sentTo "c" (transfers 2 stocked relaying) := by
  have hapart : ∀ x ∈ receivers relaying, x ∉ channels relaying := by decide +kernel
  have hc : "c" ∈ channels relaying := by decide +kernel
  have hrun := (channels_first_in_first_out 2 stocked_built hapart).1
  exact ⟨stocked_built, hapart, by decide +kernel, hrun relaying (List.prefix_refl _) "c" hc⟩

end ChannelAction

end Lasso
