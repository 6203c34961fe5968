import Lasso.Proofs.Document.Canceled
import Lasso.Service
/-!
# Calls that overlap

The service answers many calls at a time. A call to verify a document goes through steps: it accepts
the request, looks into the store, computes, writes to the store, and replies; between its steps any
other calls may go on.

* `Call`, `Call.move` -- a call with how far it has come, and its next step. It may fail at any time
  before it writes. `verify_alone`: a call without company does what `Service.verify` does;
* `Traffic`, `Event` -- the service with all calls, and what happens to it one after the other. Any order
  of events is a run (`Traffic.run`);
* `AgreeBut` -- **a call that fails might as well not have gone on** (`agreeBut_of_refused`).
-/

namespace Lasso

/-! ## 1. The store is a map -/

theorem lookup_entry {α : Type} (name k : String) (a : α) (es : List (String × α)) :
    ((k, a) :: es).lookup name = if name = k then some a else es.lookup name := by
  by_cases h : name = k
  · simp [h]
  · have hne : (name == k) = false := beq_false_of_ne h
    rw [List.lookup_cons, hne, if_neg h]

theorem lookup_putSorted {α : Type} {name k : String} {a : α} {es : List (String × α)} :
    (putSorted k a es).lookup name = if name = k then some a else es.lookup name := by
  induction es with
  | nil => exact lookup_entry name k a []
  | cons e rest ih =>
    obtain ⟨n, b⟩ := e
    rw [putSorted]
    by_cases hn : n = k
    · rw [if_pos hn, lookup_entry, lookup_entry, hn]
      by_cases h : name = k <;> simp [h]
    · rw [if_neg hn]
      by_cases hlt : nameLt k n = true
      · rw [if_pos hlt, lookup_entry]
      · rw [if_neg hlt, lookup_entry, lookup_entry, ih]
        by_cases h : name = k
        · have hne : ¬ name = n := fun h' => hn (h'.symm.trans h)
          rw [if_neg hne, if_pos h, if_pos h]
        · rw [if_neg h, if_neg h]

theorem Store.find?_insert {s : Store} {fp fp' : String} {m : Message} :
    (s.insert fp m).find? fp' = if fp' = fp then some m else s.find? fp' := lookup_putSorted

namespace Service

/-! ## 2. Calls -/

/-- The same service with another store. -/
def withStore (s : Service) (st : Store) : Service := { s with store? := some st }

/-- What a client asks for. -/
inductive Request where
  | verify (message : Message)
  | reports (message : Message)

/-- How far a call has come. -/
inductive Phase where
  | arrived
  /-- The request carries this document. -/
  | accepted (d : Document)
  /-- Nothing is kept for the document. -/
  | missed (d : Document)
  | computed (d : Document) (rs : List Report)
  /-- The reports were found, or computed and kept. -/
  | replying (rs : List Report)
  | answered (answer : Except Status Message)

/-- A call of a client. -/
structure Call where
  request : Request
  phase : Phase := .arrived

/-- What a call does next: it goes on, perhaps when its client has canceled it already, or it fails. -/
inductive Move where
  | go (canceled : Bool)
  | abort (e : Status)

/-- A refusal ends a call. -/
def phaseOf {α : Type} (r : Except Status α) (next : α → Phase) : Phase :=
  match r with
  | .error e => .answered (.error e)
  | .ok a => next a

/-- The next step of a call. -/
def Call.go (s : Service) (canceled : Bool) (c : Call) : Service × Phase :=
  match c.request, c.phase with
  | .reports m, .arrived => (s, .answered (s.reports m))
  | .verify m, .arrived => (s, phaseOf (accept m) .accepted)
  | _, .accepted d => (s, phaseOf (s.stored? d) fun rs? => rs?.elim (.missed d) .replying)
  | _, .missed d => (s, phaseOf (s.compute canceled d) (.computed d))
  | _, .computed d rs => (s.keep d rs, .replying rs)
  | _, .replying rs => (s, .answered (reply rs))
  | _, .answered r => (s, .answered r)

/-- A call to verify that has not been served yet may fail. -/
def Call.abort (e : Status) (c : Call) : Phase :=
  match c.request, c.phase with
  | .reports _, p => p
  | .verify _, .replying rs => .replying rs
  | .verify _, .answered r => .answered r
  | .verify _, _ => .answered (.error e)

/-- What a move does to the service and to the call. -/
def Call.move (s : Service) (c : Call) : Move → Service × Call
  | .go canceled => ((c.go s canceled).1, ⟨c.request, (c.go s canceled).2⟩)
  | .abort e => (s, ⟨c.request, c.abort e⟩)

section Go

variable (s : Service) (canceled : Bool) (r : Request) (d : Document) (rs : List Report)

@[simp] theorem Call.go_accepted : Call.go s canceled ⟨r, .accepted d⟩ =
    (s, phaseOf (s.stored? d) fun rs? => rs?.elim (.missed d) .replying) := by cases r <;> rfl

@[simp] theorem Call.go_missed : Call.go s canceled ⟨r, .missed d⟩ =
    (s, phaseOf (s.compute canceled d) (.computed d)) := by cases r <;> rfl

@[simp] theorem Call.go_computed :
    Call.go s canceled ⟨r, .computed d rs⟩ = (s.keep d rs, .replying rs) := by cases r <;> rfl

@[simp] theorem Call.go_replying :
    Call.go s canceled ⟨r, .replying rs⟩ = (s, .answered (reply rs)) := by cases r <;> rfl

@[simp] theorem Call.go_answered (a : Except Status Message) :
    Call.go s canceled ⟨r, .answered a⟩ = (s, .answered a) := by cases r <;> rfl

end Go

theorem Call.request_move {s : Service} {c : Call} {v : Move} : (c.move s v).2.request = c.request := by
  cases v <;> rfl

/-! ## 3. Traffic -/

/-- The service with all calls that have arrived, in the order of their arrival. -/
structure Traffic where
  service : Service
  calls : List Call := []

/-- What may happen: a call arrives, or the call of a number moves. -/
inductive Event where
  | arrive (r : Request)
  | move (call : Nat) (v : Move)

/-- Whether an event moves the call of a number. -/
def Event.moves (i : Nat) : Event → Bool
  | .arrive _ => false
  | .move j _ => j = i

theorem Event.moves_iff {i : Nat} {e : Event} : e.moves i = true ↔ ∃ v, e = .move i v := by
  cases e with
  | arrive r => simp [Event.moves]
  | move j v => simp [Event.moves]

/-- The events but for the moves of a call. -/
def without (i : Nat) (es : List Event) : List Event := es.filter fun e => !e.moves i

namespace Traffic

def step (t : Traffic) : Event → Traffic
  | .arrive r => { t with calls := t.calls ++ [⟨r, .arrived⟩] }
  | .move i v =>
    match t.calls[i]? with
    | none => t
    | some c => ⟨(c.move t.service v).1, t.calls.set i (c.move t.service v).2⟩

/-- **A run**: events in any order. -/
def run (t : Traffic) (es : List Event) : Traffic := es.foldl step t

/-- A service before the first call, with nothing in its store. -/
def start (s : Service) : Traffic := ⟨s.withStore {}, []⟩

variable {t t' : Traffic} {i : Nat} {v : Move} {c : Call}

theorem run_append (es es' : List Event) : t.run (es ++ es') = (t.run es).run es' := List.foldl_append

theorem step_move (h : t.calls[i]? = some c) :
    t.step (.move i v) = ⟨(c.move t.service v).1, t.calls.set i (c.move t.service v).2⟩ := by
  simp only [step, h]

theorem step_move_of_none (h : t.calls[i]? = none) : t.step (.move i v) = t := by
  simp only [step, h]

end Traffic

/-- **A call without company** leads where `Service.verify` leads. -/
theorem verify_alone (s : Service) (canceled : Bool) (m : Message) :
    (⟨s, [⟨.verify m, .arrived⟩]⟩ : Traffic).run (List.replicate 5 (.move 0 (.go canceled))) =
      ⟨(s.verify canceled m).2, [⟨.verify m, .answered (s.verify canceled m).1⟩]⟩ := by
  unfold verify
  cases ha : accept m with
  | error e => simp [Traffic.run, Traffic.step, Call.move, Call.go, phaseOf, ha]
  | ok d =>
    cases hs : s.stored? d with
    | error e => simp [Traffic.run, Traffic.step, Call.move, Call.go, phaseOf, ha, hs]
    | ok rs? =>
      cases rs? with
      | some rs => simp [Traffic.run, Traffic.step, Call.move, Call.go, phaseOf, ha, hs]
      | none =>
        cases hc : s.compute canceled d with
        | error e => simp [Traffic.run, Traffic.step, Call.move, Call.go, phaseOf, ha, hs, hc]
        | ok rs => simp [Traffic.run, Traffic.step, Call.move, Call.go, phaseOf, ha, hs, hc]

/-! ## 4. Calls that fail -/

theorem reply_of_send? {rs : List Report} {m : Message} (h : Report.send? rs = some m) :
    reply rs = .ok m := by
  unfold reply
  generalize Report.send? rs = sent at h
  subst h
  rfl

theorem reply_of_send?_eq_none {rs : List Report} (h : Report.send? rs = none) :
    reply rs = .error ⟨.internal, "yaml"⟩ := by
  unfold reply
  generalize Report.send? rs = sent at h
  subst h
  rfl

/-- Whether a call has got so far that it succeeds. -/
def Phase.settled : Phase → Bool
  | .replying rs => (Report.send? rs).isSome
  | .answered (.ok _) => true
  | _ => false

/-- A call that has got so far stays there. -/
theorem Call.settled_move {c : Call} (h : c.phase.settled = true) (s : Service) (v : Move) :
    (c.move s v).2.phase.settled = true := by
  obtain ⟨r, p⟩ := c
  cases p with
  | replying rs =>
    simp only [Phase.settled] at h
    obtain ⟨m, hm⟩ := Option.isSome_iff_exists.mp h
    cases v with
    | go canceled => simp only [Call.move, Call.go_replying, reply_of_send? hm, Phase.settled]
    | abort e =>
      have habort : Call.abort e ⟨r, .replying rs⟩ = .replying rs := by cases r <;> rfl
      simp [Call.move, habort, Phase.settled, hm]
  | answered a =>
    cases v with
    | go canceled => cases r <;> exact h
    | abort e => cases r <;> exact h
  | _ => simp only [Phase.settled, Bool.false_eq_true] at h

theorem keep_of_send? {s : Service} {d : Document} {rs : List Report} (h : Report.send? rs = none) :
    s.keep d rs = s := by
  obtain ⟨o, evaluators?, store?⟩ := s
  cases store? with
  | none => rfl
  | some store => simp [keep, Store.put?, h]

/-- **A call writes only where it succeeds from then on.** -/
theorem Call.service_move {c : Call} {s : Service} {v : Move}
    (h : (c.move s v).2.phase.settled = false) : (c.move s v).1 = s := by
  obtain ⟨r, p⟩ := c
  cases v with
  | abort e => rfl
  | go canceled =>
    cases p with
    | computed d rs =>
      have hnone : Report.send? rs = none := by
        simpa [Call.move, Phase.settled] using h
      simp [Call.move, keep_of_send? hnone]
    | _ => cases r <;> rfl

namespace Traffic

variable {t t' : Traffic} {i : Nat}

/-- The call of a number has got so far that it succeeds. -/
def Settles (t : Traffic) (i : Nat) : Prop := ∃ c, t.calls[i]? = some c ∧ c.phase.settled = true

theorem Settles.step (h : t.Settles i) (e : Event) : (t.step e).Settles i := by
  obtain ⟨c, hc, hs⟩ := h
  have hi : i < t.calls.length := (List.getElem?_eq_some_iff.mp hc).1
  cases e with
  | arrive r => exact ⟨c, by simpa [Traffic.step, List.getElem?_append_left hi] using hc, hs⟩
  | move j v =>
    cases hj : t.calls[j]? with
    | none => exact ⟨c, by rw [step_move_of_none hj, hc], hs⟩
    | some b =>
      rw [step_move hj]
      by_cases hij : j = i
      · subst hij
        rw [hc] at hj
        cases hj
        exact ⟨_, List.getElem?_set_self hi, Call.settled_move hs _ _⟩
      · exact ⟨c, by simpa [List.getElem?_set_ne hij] using hc, hs⟩

theorem Settles.run (h : t.Settles i) (es : List Event) : (t.run es).Settles i :=
  List.foldlRecOn (motive := fun t => t.Settles i) es Traffic.step h fun _ ht e _ => ht.step e

/-- **Two states of the traffic agree but for one call**: in the service and in all other calls. -/
structure AgreeBut (i : Nat) (t t' : Traffic) : Prop where
  service : t.service = t'.service
  length : t.calls.length = t'.calls.length
  calls : ∀ j, j ≠ i → t.calls[j]? = t'.calls[j]?

theorem AgreeBut.refl (i : Nat) (t : Traffic) : AgreeBut i t t := ⟨rfl, rfl, fun _ _ => rfl⟩

/-- Events that do not move the call keep the agreement. -/
theorem AgreeBut.step (h : AgreeBut i t t') {e : Event} (he : ∀ v, e ≠ .move i v) :
    AgreeBut i (t.step e) (t'.step e) := by
  cases e with
  | arrive r =>
    refine ⟨h.service, by simp [Traffic.step, h.length], fun j hj => ?_⟩
    simp only [Traffic.step, List.getElem?_append, h.length, h.calls j hj]
  | move j v =>
    have hj : j ≠ i := fun hji => he v (by rw [hji])
    have hcalls := h.calls j hj
    cases hc : t.calls[j]? with
    | none =>
      rw [step_move_of_none hc, step_move_of_none (hcalls ▸ hc)]
      exact h
    | some c =>
      rw [step_move hc, step_move (hcalls ▸ hc), h.service]
      refine ⟨rfl, by simp [h.length], fun k hk => ?_⟩
      simp only [List.getElem?_set, h.length, h.calls k hk]

/-- A move of the call itself keeps the agreement with what was before, unless the call succeeds. -/
theorem AgreeBut.moved (h : AgreeBut i t t') {v : Move} (hs : ¬ (t.step (.move i v)).Settles i) :
    AgreeBut i (t.step (.move i v)) t' := by
  cases hc : t.calls[i]? with
  | none =>
    rw [step_move_of_none hc]
    exact h
  | some c =>
    have hi : i < t.calls.length := (List.getElem?_eq_some_iff.mp hc).1
    rw [step_move hc] at hs ⊢
    have hunsettled : (c.move t.service v).2.phase.settled = false := by
      refine Bool.eq_false_iff.mpr fun hsettled => hs ⟨_, List.getElem?_set_self hi, hsettled⟩
    refine ⟨(Call.service_move hunsettled).trans h.service, by simp [h.length], fun j hj => ?_⟩
    rw [← h.calls j hj]
    exact List.getElem?_set_ne (Ne.symm hj)

/-- **A call that does not succeed might as well not have moved**: without its moves, a run leads to
    the same service and to the same other calls. -/
theorem AgreeBut.run (h : AgreeBut i t t') {es : List Event} (hs : ¬ (t.run es).Settles i) :
    AgreeBut i (t.run es) (t'.run (without i es)) := by
  induction es generalizing t t' with
  | nil => exact h
  | cons e es ih =>
    cases he : e.moves i with
    | true =>
      obtain ⟨v, rfl⟩ := Event.moves_iff.mp he
      have hstep : ¬ (t.step (.move i v)).Settles i := fun h' => hs (h'.run es)
      rw [without, List.filter_cons_of_neg (by simp [he])]
      exact ih (h.moved hstep) hs
    | false =>
      have hother : ∀ v, e ≠ .move i v := fun v h' =>
        Bool.false_ne_true (he.symm.trans (Event.moves_iff.mpr ⟨v, h'⟩))
      rw [without, List.filter_cons_of_pos (by simp [he])]
      exact ih (h.step hother) hs

/-- **A call that is refused might as well not have moved**, at any time of the run. -/
theorem agreeBut_of_refused {r : Request} {a : Status} {es es' : List Event}
    (h : (t.run (es ++ es')).calls[i]? = some ⟨r, .answered (.error a)⟩) :
    AgreeBut i (t.run es) (t.run (without i es)) := by
  refine (AgreeBut.refl i t).run fun hs => ?_
  rw [run_append] at h
  obtain ⟨c, hc, hsettled⟩ := hs.run es'
  rw [h] at hc
  cases hc
  exact Bool.false_ne_true hsettled

end Traffic

end Service

end Lasso
