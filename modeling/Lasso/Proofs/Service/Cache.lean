import Lasso.Proofs.Document.Verify
import Lasso.Proofs.Transport
/-!
# The store of reports is a transparent cache

What clients are answered does not show that there is a store, as long as documents that differ have
different fingerprints and reports are not changed on the way.

* `Faithful` -- these two assumptions, on the documents that are requested in a run;
* `Carries` -- a message carries the reports on the document of a fingerprint;
* `Call.Sound`, `Traffic.Sound` -- **the invariant**: what is kept, and what a call holds at each stage,
  are the reports on the very document. Step by step it is kept by `Call.Sound.move` and
  `Traffic.Sound.step`, and along every run by `Traffic.sound_run`;
* `store_is_transparent` -- **every order of steps leads to the same answers.**
-/

namespace Lasso

theorem Document.fingerprint_ne_empty (d : Document) : d.fingerprint ≠ "" := by
  intro h
  have hchars := congrArg String.toList h
  have hlength : 16 ≤ d.fingerprint.toList.length := by
    simp only [Document.fingerprint, String.toList_ofList, Text.hex, List.length_append,
      List.length_replicate]
    omega
  rw [hchars] at hlength
  exact absurd hlength (by decide)

namespace Service

/-! ## 1. What is assumed -/

/-- The reports on a document, where nothing cancels its verification. -/
def Verified (s : Service) (d : Document) (rs : List Report) : Prop :=
  ∃ out, d.verify { s.options with canceled := false } s.evaluators? = .ok out ∧ out.reports = rs

/-- Some call asks for the verification of a document. -/
def Requested (es : List Event) (d : Document) : Prop :=
  ∃ m, .arrive (.verify m) ∈ es ∧ accept m = .ok d

/-- **The assumptions on the documents that are requested**: those that differ have different
    fingerprints, and what is sent of their reports can be read back. -/
structure Faithful (s : Service) (es : List Event) : Prop where
  distinct : ∀ d d', Requested es d → Requested es d' → d.fingerprint = d'.fingerprint → d = d'
  lossless : ∀ d rs m, Requested es d → Verified s d rs → Report.send? rs = some m →
    Report.receive m = .ok rs

/-- A message carries the reports on a requested document of a fingerprint. -/
def Carries (s : Service) (es : List Event) (fp : String) (m : Message) : Prop :=
  ∃ d rs, Requested es d ∧ d.fingerprint = fp ∧ Verified s d rs ∧ Report.send? rs = some m

section Carries

variable {s : Service} {es : List Event} {d : Document} {rs rs' : List Report} {fp : String}
  {m m' : Message}

theorem Verified.unique (h : Verified s d rs) (h' : Verified s d rs') : rs = rs' := by
  obtain ⟨out, e, rfl⟩ := h
  obtain ⟨out', e', rfl⟩ := h'
  rw [e] at e'
  rw [Except.ok.inj e']

/-- A fingerprint has one message. -/
theorem Carries.unique (hf : Faithful s es) (h : Carries s es fp m) (h' : Carries s es fp m') :
    m = m' := by
  obtain ⟨d, rs, hd, hfp, hv, hm⟩ := h
  obtain ⟨d', rs', hd', hfp', hv', hm'⟩ := h'
  have hsame : d = d' := hf.distinct d d' hd hd' (hfp.trans hfp'.symm)
  subst hsame
  rw [hv.unique hv', hm'] at hm
  exact (Option.some.inj hm).symm

/-- Computing gives the reports on the document, whether it is canceled or not. -/
theorem verified_of_compute {canceled : Bool} (e : compute s canceled d = .ok rs) : Verified s d rs := by
  obtain ⟨out, eout, hout⟩ := map_eq_ok.mp (mapError_eq_ok.mp e)
  exact ⟨out, d.persists_verify { s.options with canceled := canceled } s.evaluators? out eout, hout⟩

end Carries

/-! ## 2. Reading and writing the store -/

section Store

variable {s : Service} {st : Store} {d : Document} {rs : List Report} {fp : String} {m : Message}

theorem keep_of_send {rs : List Report} (h : Report.send? rs = some m) :
    keep (s.withStore st) d rs = s.withStore (st.insert d.fingerprint m) := by
  simp only [keep, withStore, Store.put?, h, Option.map_some, Option.getD_some]

theorem get_of_find? (h : st.find? fp = some m) :
    st.get fp = (Report.receive m).mapError .unreadable := by
  simp only [Store.get, h]

theorem get_of_find?_eq_none (h : st.find? fp = none) : st.get fp = .error (.notFound fp) := by
  simp only [Store.get, h]

/-- What is looked up was found under the fingerprint of the document, and could be read. -/
theorem find?_of_stored? (e : stored? (s.withStore st) d = .ok (some rs)) :
    ∃ m, st.find? d.fingerprint = some m ∧ Report.receive m = .ok rs := by
  simp only [stored?, withStore] at e
  cases hfind : st.find? d.fingerprint with
  | none =>
    rw [get_of_find?_eq_none hfind] at e
    cases e
  | some m =>
    rw [get_of_find? hfind] at e
    generalize hr : Report.receive m = r at e
    cases r with
    | error c => cases e
    | ok rs' =>
      cases e
      exact ⟨m, rfl, hr⟩

/-- A call for reports is answered by what is kept under its fingerprint. -/
theorem reports_of_find? {request : Message} (hne : fingerprintOf request ≠ "")
    (hfind : st.find? (fingerprintOf request) = some m) (hread : Report.receive m = .ok rs)
    (hsend : Report.send? rs = some m) : reports (s.withStore st) request = .ok m := by
  have hget : st.get (fingerprintOf request) = .ok rs := by
    rw [get_of_find? hfind, hread]
    rfl
  have hempty : (fingerprintOf request).isEmpty = false := by simpa using hne
  simp only [reports, withStore, hempty, hget, Except.mapError, bind, Except.bind, Bool.false_eq_true, if_false]
  exact reply_of_send? hsend

theorem reports_of_find?_eq_none {request : Message} (hne : fingerprintOf request ≠ "")
    (hfind : st.find? (fingerprintOf request) = none) : reports (s.withStore st) request =
      .error ⟨.notFound, "store: no reports for fingerprint: " ++ fingerprintOf request⟩ := by
  have hempty : (fingerprintOf request).isEmpty = false := by simpa using hne
  simp only [reports, withStore, hempty, get_of_find?_eq_none hfind]
  rfl

theorem reports_of_empty {request : Message} (he : fingerprintOf request = "") :
    reports (s.withStore st) request = .error ⟨.invalidArgument, "missing fingerprint"⟩ := by
  simp only [reports, withStore, he]
  rfl

end Store

/-! ## 3. The invariant -/

/-- **How a call for the reports under a fingerprint is answered**: there are none, or it gets those of
    the document of this fingerprint. No document has the empty one. -/
inductive Answers (s : Service) (es : List Event) (fp : String) :
    Except Status Message → Prop where
  | unnamed (h : fp = "") : Answers s es fp (.error ⟨.invalidArgument, "missing fingerprint"⟩)
  | notFound (h : fp ≠ "") :
      Answers s es fp (.error ⟨.notFound, "store: no reports for fingerprint: " ++ fp⟩)
  | found (d : Document) (rs : List Report) (m : Message) (hd : Requested es d)
      (hfp : d.fingerprint = fp) (hv : Verified s d rs) (hm : Report.send? rs = some m)
      (hr : Report.receive m = .ok rs) : Answers s es fp (.ok m)

/-- **What a call holds at each stage.** From the reply on, its reports are in the store. -/
inductive Call.Sound (s : Service) (es : List Event) (st : Store) : Call → Prop where
  | arrived (r : Request) : Call.Sound s es st ⟨r, .arrived⟩
  | accepted (m : Message) (d : Document) (hd : accept m = .ok d) :
      Call.Sound s es st ⟨.verify m, .accepted d⟩
  | missed (m : Message) (d : Document) (hd : accept m = .ok d) :
      Call.Sound s es st ⟨.verify m, .missed d⟩
  | computed (m : Message) (d : Document) (rs : List Report) (hd : accept m = .ok d)
      (hv : Verified s d rs) : Call.Sound s es st ⟨.verify m, .computed d rs⟩
  | replying (m : Message) (d : Document) (rs : List Report) (hd : accept m = .ok d)
      (hv : Verified s d rs)
      (hkept : ∀ msg, Report.send? rs = some msg → st.find? d.fingerprint = some msg) :
      Call.Sound s es st ⟨.verify m, .replying rs⟩
  | replied (m : Message) (d : Document) (rs : List Report) (msg : Message) (hd : accept m = .ok d)
      (hv : Verified s d rs) (hm : Report.send? rs = some msg)
      (hkept : st.find? d.fingerprint = some msg) :
      Call.Sound s es st ⟨.verify m, .answered (.ok msg)⟩
  | refused (m : Message) (a : Status) : Call.Sound s es st ⟨.verify m, .answered (.error a)⟩
  | answered (m : Message) (r : Except Status Message) (h : Answers s es (fingerprintOf m) r) :
      Call.Sound s es st ⟨.reports m, .answered r⟩

/-- Everything in a store is what its fingerprint says. -/
def Kept (s : Service) (es : List Event) (st : Store) : Prop :=
  ∀ fp m, st.find? fp = some m → Carries s es fp m

/-- A store grows by the message of a requested document, or not at all. -/
inductive Extends (s : Service) (es : List Event) (st : Store) : Store → Prop where
  | same : Extends s es st st
  | insert (fp : String) (m : Message) (h : Carries s es fp m) : Extends s es st (st.insert fp m)

section Invariant

variable {s : Service} {es : List Event} {st st' : Store} {c : Call}

theorem Kept.extends (h : Kept s es st) (hst : Extends s es st st') : Kept s es st' := by
  cases hst with
  | same => exact h
  | insert fp m hm =>
    intro fp' m' e
    rw [Store.find?_insert] at e
    by_cases hfp : fp' = fp
    · rw [if_pos hfp] at e
      cases e
      rw [hfp]
      exact hm
    · rw [if_neg hfp] at e
      exact h fp' m' e

/-- What is in the store for a requested document stays there: a second message for it is the same. -/
theorem Extends.find? (hf : Faithful s es) (hst : Extends s es st st') {fp : String} {m : Message}
    (hm : Carries s es fp m) (e : st.find? fp = some m) : st'.find? fp = some m := by
  cases hst with
  | same => exact e
  | insert fp' m' hm' =>
    rw [Store.find?_insert]
    by_cases hfp : fp = fp'
    · subst hfp
      rw [if_pos rfl, hm'.unique hf hm]
    · rw [if_neg hfp]
      exact e

/-- **A call is not disturbed** by what others write. -/
theorem Call.Sound.extends (hf : Faithful s es) (harrived : .arrive c.request ∈ es)
    (h : c.Sound s es st) (hst : Extends s es st st') : c.Sound s es st' := by
  cases h with
  | arrived r => exact .arrived r
  | accepted m d hd => exact .accepted m d hd
  | missed m d hd => exact .missed m d hd
  | computed m d rs hd hv => exact .computed m d rs hd hv
  | replying m d rs hd hv hkept =>
    refine .replying m d rs hd hv fun msg hm => ?_
    exact hst.find? hf ⟨d, rs, ⟨m, harrived, hd⟩, rfl, hv, hm⟩ (hkept msg hm)
  | replied m d rs msg hd hv hm hkept =>
    refine .replied m d rs msg hd hv hm ?_
    exact hst.find? hf ⟨d, rs, ⟨m, harrived, hd⟩, rfl, hv, hm⟩ hkept
  | refused m a => exact .refused m a
  | answered m r h => exact .answered m r h

/-- A call for reports is answered by the reports on the very document, if they are there. -/
theorem Kept.answers (hf : Faithful s es) (h : Kept s es st) (request : Message) :
    Answers s es (fingerprintOf request) (reports (s.withStore st) request) := by
  by_cases hne : fingerprintOf request = ""
  · rw [reports_of_empty hne]
    exact .unnamed hne
  · cases hfind : st.find? (fingerprintOf request) with
    | none =>
      rw [reports_of_find?_eq_none hne hfind]
      exact .notFound hne
    | some m =>
      obtain ⟨d, rs, hd, hfp, hv, hm⟩ := h _ m hfind
      have hread := hf.lossless d rs m hd hv hm
      rw [reports_of_find? hne hfind hread hm]
      exact .found d rs m hd hfp hv hm hread

/-- What a call finds in the store are the reports on its document. -/
theorem Kept.replying (hf : Faithful s es) (h : Kept s es st) {m : Message} {d : Document}
    (harrived : .arrive (.verify m) ∈ es) (hd : accept m = .ok d) {rs : List Report}
    (e : stored? (s.withStore st) d = .ok (some rs)) :
    Call.Sound s es st ⟨.verify m, .replying rs⟩ := by
  obtain ⟨msg, hfind, hread⟩ := find?_of_stored? e
  obtain ⟨d', rs', hd', hfp, hv, hm⟩ := h _ msg hfind
  have hsame : d' = d := hf.distinct d' d hd' ⟨m, harrived, hd⟩ hfp
  subst hsame
  have hrs : rs' = rs := Except.ok.inj ((hf.lossless d' rs' msg hd' hv hm).symm.trans hread)
  subst hrs
  refine .replying m d' rs' hd hv fun msg' hm' => ?_
  rw [hfind, ← hm, hm']

/-- **One move of a call** keeps the invariant: the store grows by what belongs there, if at all. -/
theorem Call.Sound.move (hf : Faithful s es) (hkept : Kept s es st)
    (harrived : .arrive c.request ∈ es) (h : c.Sound s es st) (v : Move) :
    ∃ st', Extends s es st st' ∧ (c.move (s.withStore st) v).1 = s.withStore st' ∧
      (c.move (s.withStore st) v).2.Sound s es st' := by
  cases v with
  | abort a =>
    refine ⟨st, .same, rfl, ?_⟩
    cases h with
    | arrived r =>
      cases r with
      | verify m => exact .refused m a
      | reports m => exact .arrived _
    | accepted m d hd => exact .refused m a
    | missed m d hd => exact .refused m a
    | computed m d rs hd hv => exact .refused m a
    | replying m d rs hd hv hkept => exact .replying m d rs hd hv hkept
    | replied m d rs msg hd hv hm hkept => exact .replied m d rs msg hd hv hm hkept
    | refused m b => exact .refused m b
    | answered m r h => exact .answered m r h
  | go canceled =>
    cases h with
    | arrived r =>
      cases r with
      | reports m => exact ⟨st, .same, rfl, .answered m _ (hkept.answers hf m)⟩
      | verify m =>
        refine ⟨st, .same, rfl, ?_⟩
        simp only [Call.move, Call.go, phaseOf]
        cases hd : accept m with
        | error a => exact .refused m a
        | ok d => exact .accepted m d hd
    | accepted m d hd =>
      refine ⟨st, .same, rfl, ?_⟩
      simp only [Call.move, Call.go_accepted, phaseOf]
      cases e : stored? (s.withStore st) d with
      | error a => exact .refused m a
      | ok rs? =>
        cases rs? with
        | none => exact .missed m d hd
        | some rs => exact hkept.replying hf harrived hd e
    | missed m d hd =>
      refine ⟨st, .same, rfl, ?_⟩
      simp only [Call.move, Call.go_missed, phaseOf]
      cases e : compute (s.withStore st) canceled d with
      | error a => exact .refused m a
      | ok rs => exact .computed m d rs hd (verified_of_compute e)
    | computed m d rs hd hv =>
      simp only [Call.move, Call.go_computed]
      cases hm : Report.send? rs with
      | none =>
        refine ⟨st, .same, keep_of_send? hm, .replying m d rs hd hv fun msg hm' => ?_⟩
        rw [hm] at hm'
        cases hm'
      | some msg =>
        have hcarries : Carries s es d.fingerprint msg := ⟨d, rs, ⟨m, harrived, hd⟩, rfl, hv, hm⟩
        refine ⟨_, .insert d.fingerprint msg hcarries, keep_of_send hm,
          .replying m d rs hd hv fun msg' hm' => ?_⟩
        rw [Store.find?_insert, if_pos rfl, ← hm, hm']
    | replying m d rs hd hv hsent =>
      refine ⟨st, .same, rfl, ?_⟩
      simp only [Call.move, Call.go_replying]
      cases hm : Report.send? rs with
      | none =>
        rw [reply_of_send?_eq_none hm]
        exact .refused m _
      | some msg =>
        rw [reply_of_send? hm]
        exact .replied m d rs msg hd hv hm (hsent msg hm)
    | replied m d rs msg hd hv hm hsent => exact ⟨st, .same, rfl, .replied m d rs msg hd hv hm hsent⟩
    | refused m a => exact ⟨st, .same, rfl, .refused m a⟩
    | answered m r h => exact ⟨st, .same, rfl, .answered m r h⟩

/-- **The invariant of the traffic.** -/
structure Traffic.Sound (s : Service) (es : List Event) (t : Traffic) (st : Store) : Prop where
  service : t.service = s.withStore st
  kept : Kept s es st
  arrived : ∀ c ∈ t.calls, .arrive c.request ∈ es
  calls : ∀ c ∈ t.calls, c.Sound s es st

theorem Traffic.Sound.step (hf : Faithful s es) {t : Traffic} (h : t.Sound s es st) {e : Event}
    (he : e ∈ es) : ∃ st', (t.step e).Sound s es st' := by
  cases e with
  | arrive r =>
    refine ⟨st, h.service, h.kept, fun c hc => ?_, fun c hc => ?_⟩
    · rcases List.mem_append.mp hc with hc | hc
      · exact h.arrived c hc
      · rw [List.mem_singleton.mp hc]
        exact he
    · rcases List.mem_append.mp hc with hc | hc
      · exact h.calls c hc
      · rw [List.mem_singleton.mp hc]
        exact .arrived r
  | move i v =>
    cases hi : t.calls[i]? with
    | none =>
      rw [Traffic.step_move_of_none hi]
      exact ⟨st, h⟩
    | some c =>
      have hmem : c ∈ t.calls := List.mem_of_getElem? hi
      obtain ⟨st', hst, hservice, hsound⟩ := (h.calls c hmem).move hf h.kept (h.arrived c hmem) v
      rw [Traffic.step_move hi, h.service]
      refine ⟨st', hservice, h.kept.extends hst, fun b hb => ?_, fun b hb => ?_⟩
      · rcases List.mem_or_eq_of_mem_set hb with hb | rfl
        · exact h.arrived b hb
        · rw [Call.request_move]
          exact h.arrived c hmem
      · rcases List.mem_or_eq_of_mem_set hb with hb | rfl
        · exact (h.calls b hb).extends hf (h.arrived b hb) hst
        · exact hsound

/-- **Every run keeps the invariant.** -/
theorem Traffic.sound_run (hf : Faithful s es) : ∃ st, ((Traffic.start s).run es).Sound s es st := by
  have hempty : Kept s es {} := fun fp m e => by cases e
  have hstart : (Traffic.start s).Sound s es {} :=
    ⟨rfl, hempty, fun c hc => absurd hc List.not_mem_nil, fun c hc => absurd hc List.not_mem_nil⟩
  exact List.foldlRecOn (motive := fun t => ∃ st, Traffic.Sound s es t st) es Traffic.step ⟨_, hstart⟩
    fun t ht e he => ht.elim fun st h => h.step hf he

end Invariant

/-! ## 4. Transparency -/

/-- The traffic of a service that starts with an empty store, after some events. -/
def after (s : Service) (es : List Event) : Traffic := (Traffic.start s).run es

/-- **What clients see of a run.** -/
structure Transparent (s : Service) (es : List Event) : Prop where
  /-- A call that succeeds is answered by the reports on the very document. -/
  verified : ∀ m msg, ⟨.verify m, .answered (.ok msg)⟩ ∈ (after s es).calls →
    ∃ d rs, accept m = .ok d ∧ Verified s d rs ∧ Report.send? rs = some msg ∧
      Report.receive msg = .ok rs
  /-- A call that fails leaves no trace: at any time, the service and all other calls are as if it had
  not gone on. -/
  refused : ∀ i m a, (after s es).calls[i]? = some ⟨.verify m, .answered (.error a)⟩ →
    ∀ es₁ es₂, es = es₁ ++ es₂ → Traffic.AgreeBut i (after s es₁) (after s (without i es₁))
  /-- Calls for reports were answered by those of the document, or there were none. -/
  answered : ∀ m r, ⟨.reports m, .answered r⟩ ∈ (after s es).calls → Answers s es (fingerprintOf m) r
  /-- So would be a call that is answered now. -/
  answers : ∀ m, Answers s es (fingerprintOf m) ((after s es).service.reports m)
  /-- After a call that succeeded, the reports on its document are there. -/
  remembered : ∀ m d msg request, ⟨.verify m, .answered (.ok msg)⟩ ∈ (after s es).calls →
    accept m = .ok d → fingerprintOf request = d.fingerprint →
    (after s es).service.reports request = .ok msg

/-- **The store is transparent** in every run, whatever the order of the steps of its calls. -/
theorem store_is_transparent (s : Service) (es : List Event) (hf : Faithful s es) :
    Transparent s es := by
  obtain ⟨st, h⟩ := Traffic.sound_run hf
  refine ⟨fun m msg hc => ?_, fun i m a hi es₁ es₂ e => ?_, fun m r hc => ?_, fun m => ?_,
    fun m d msg request hc hd hfp => ?_⟩
  · have harrived := h.arrived _ hc
    cases h.calls _ hc with
    | replied m d rs msg hd hv hm hkept =>
      exact ⟨d, rs, hd, hv, hm, hf.lossless d rs msg ⟨m, harrived, hd⟩ hv hm⟩
  · subst e
    exact Traffic.agreeBut_of_refused hi
  · cases h.calls _ hc with
    | answered m r h => exact h
  · rw [after, h.service]
    exact h.kept.answers hf m
  · have harrived := h.arrived _ hc
    cases h.calls _ hc with
    | replied m d' rs msg hd' hv hm hkept =>
      have hsame : d' = d := Except.ok.inj (hd'.symm.trans hd)
      subst hsame
      have hread := hf.lossless d' rs msg ⟨m, harrived, hd⟩ hv hm
      rw [after, h.service]
      refine reports_of_find? ?_ (hfp ▸ hkept) hread hm
      rw [hfp]
      exact d'.fingerprint_ne_empty

/-! ### A document that several clients ask for -/

/-- A system that is stuck in its only state, and so has no infinite path. -/
def stuck : Document where
  name := "a"
  system? := some { states := ["s"], initial := ["s"] }
  properties := [{ name := "p", never := ["q"] }]

/-- The document as it is sent. -/
def stuckRequest : Message := stuck.content.message

def stuckReport : Report :=
  ⟨"a", "52cafe13a7a50149", "p", true, "Verification succeeded", [], []⟩

def stuckReply : Message := (Report.contents [stuckReport]).message

def stuckLookup : Message := .fields [("fingerprint", .text "52cafe13a7a50149")]

theorem fingerprint_stuck : stuck.fingerprint = "52cafe13a7a50149" := by decide +kernel

theorem validate_stuck : stuck.validate = .ok () := Document.validate_eq_ok.mpr (by decide +kernel)

theorem accept_stuck : accept stuckRequest = .ok stuck := by
  have hlabels : ∀ s ∈ stuck.system?, s.Sorted := by
    intro s hs
    obtain rfl := Option.some.inj hs
    exact List.Pairwise.nil
  have hparse : Document.receive stuckRequest = .ok stuck :=
    (Document.receive_message_eq_iff hlabels rfl).mpr (by decide +kernel)
  rw [accept, hparse]
  simp only [Except.mapError, bind, Except.bind, validate_stuck]
  rfl

theorem send?_stuckReport : Report.send? [stuckReport] = some stuckReply := by decide +kernel

theorem receive_stuckReply : Report.receive stuckReply = .ok [stuckReport] :=
  (Report.receive_message_eq_iff [stuckReport]).mpr (by decide +kernel)

/-- Without a path, every property holds. -/
theorem verified_stuck : Verified {} stuck [stuckReport] := by
  obtain ⟨as, eas, has⟩ := Document.exists_automata validate_stuck
  obtain ⟨m, em, hm⟩ :=
    ((Document.formed_of_validate validate_stuck).1 _ rfl).assemble stuck.name
  have hcheck : stuck.verify {} none = Document.check (stuck.programOptions {} none) stuck as m :=
    Document.verify_of_system validate_stuck eas rfl (mapError_eq_ok.mpr em)
  obtain ⟨out, eout, hout⟩ :=
    Document.exists_check_eq_ok (o := stuck.programOptions {} none) hm.consistent rfl has
  obtain ⟨vs, hvs⟩ := Document.exists_verdicts hm.consistent eout
  refine ⟨out, hcheck.trans eout, ?_⟩
  have hpath : ∀ x, ¬ m.IsPath x := by
    intro x hx
    obtain ⟨a, ha⟩ := hx.step 0
    exact absurd ((hm.transitions _).mp ha) List.not_mem_nil
  rw [hvs] at hout ⊢
  cases vs with
  | nil => cases hout
  | cons v vs =>
    cases hout with
    | cons hdecides _ =>
      have hholds := hdecides.holds.mpr fun ⟨x, hx, _⟩ => hpath x hx
      have hreport := Document.reportOf_of_holds hholds
      rw [fingerprint_stuck] at hreport
      simp only [stuck, List.zipWith_cons_cons, List.zipWith_nil_left]
      exact congrArg (fun r => [r]) hreport

theorem compute_stuck {st : Store} : compute (withStore {} st) false stuck = .ok [stuckReport] := by
  obtain ⟨out, e, hout⟩ := verified_stuck
  have hout' : ({} : Service).compute false stuck = .ok [stuckReport] := by
    rw [compute, e, ← hout]
    rfl
  exact hout'

/-- Two clients ask for the same document at the same time, so that both find nothing in the store and
    both write to it. A third one goes away. A fourth one asks for the reports too early, and a fifth one
    in time. A sixth one asks for the document again, and is answered from the store. -/
def crowd : List Event :=
  [.arrive (.verify stuckRequest), .arrive (.verify stuckRequest), .arrive (.verify stuckRequest),
    .move 0 (.go false), .move 1 (.go false), .move 0 (.go false), .move 1 (.go false),
    .move 2 (.go false), .move 2 (.abort ⟨.canceled, "gone"⟩),
    .move 0 (.go false), .move 1 (.go false),
    .arrive (.reports stuckLookup), .move 3 (.go false),
    .move 1 (.go false), .move 0 (.go false), .move 1 (.go false), .move 0 (.go false),
    .arrive (.reports stuckLookup), .move 4 (.go false),
    .arrive (.verify stuckRequest), .move 5 (.go false), .move 5 (.go false), .move 5 (.go false)]

theorem faithful_crowd : Faithful {} crowd := by
  have honly : ∀ d, Requested crowd d → d = stuck := by
    intro d hd
    obtain ⟨m, hm, ha⟩ := hd
    have hrequest : m = stuckRequest := by simpa [crowd] using hm
    rw [hrequest, accept_stuck] at ha
    exact (Except.ok.inj ha).symm
  constructor
  · intro d d' hd hd' _
    rw [honly d hd, honly d' hd']
  · intro d rs m hd hv hm
    rw [honly d hd] at hv
    rw [hv.unique verified_stuck] at hm ⊢
    rw [send?_stuckReport] at hm
    rw [← Option.some.inj hm, receive_stuckReply]

/-- The store after both clients have written to it. -/
def crowdStore : Store := (({} : Store).insert stuck.fingerprint stuckReply).insert stuck.fingerprint stuckReply

theorem find?_crowdStore : crowdStore.find? "52cafe13a7a50149" = some stuckReply := by
  rw [crowdStore, Store.find?_insert, if_pos fingerprint_stuck.symm]

/-- What is kept answers the last client, who has nothing computed. -/
theorem stored?_crowdStore : stored? (withStore {} crowdStore) stuck = .ok (some [stuckReport]) := by
  simp only [stored?, withStore, fingerprint_stuck, get_of_find? find?_crowdStore, receive_stuckReply]
  rfl

theorem after_crowd : after {} crowd = ⟨withStore {} crowdStore,
    [⟨.verify stuckRequest, .answered (.ok stuckReply)⟩,
      ⟨.verify stuckRequest, .answered (.ok stuckReply)⟩,
      ⟨.verify stuckRequest, .answered (.error ⟨.canceled, "gone"⟩)⟩,
      ⟨.reports stuckLookup, .answered
        (.error ⟨.notFound, "store: no reports for fingerprint: 52cafe13a7a50149"⟩)⟩,
      ⟨.reports stuckLookup, .answered (.ok stuckReply)⟩,
      ⟨.verify stuckRequest, .answered (.ok stuckReply)⟩]⟩ := by
  have hmiss : ∀ d, stored? (withStore {} {}) d = .ok none := fun d => rfl
  have hearly : reports (withStore {} {}) stuckLookup =
      .error ⟨.notFound, "store: no reports for fingerprint: 52cafe13a7a50149"⟩ :=
    reports_of_find?_eq_none (by decide) rfl
  have hlate : reports (withStore {} crowdStore) stuckLookup = .ok stuckReply :=
    reports_of_find? (by decide) find?_crowdStore receive_stuckReply send?_stuckReport
  have hkept : (({} : Store).insert stuck.fingerprint stuckReply).insert stuck.fingerprint stuckReply =
      crowdStore := rfl
  simp only [after, crowd, Traffic.run, Traffic.start, Traffic.step, Call.move, Call.go, Call.abort,
    phaseOf, Option.elim, List.foldl_cons, List.foldl_nil, List.nil_append, List.cons_append,
    List.getElem?_cons_zero, List.getElem?_cons_succ, List.set_cons_zero, List.set_cons_succ,
    accept_stuck, hmiss, compute_stuck, hearly, hlate, stored?_crowdStore, hkept,
    keep_of_send send?_stuckReport, reply_of_send? send?_stuckReport]

theorem store_is_transparent_crowd :
    Faithful {} crowd ∧ Transparent {} crowd ∧ (after {} crowd).calls.map (·.phase) =
      [.answered (.ok stuckReply), .answered (.ok stuckReply),
        .answered (.error ⟨.canceled, "gone"⟩),
        .answered (.error ⟨.notFound, "store: no reports for fingerprint: 52cafe13a7a50149"⟩),
        .answered (.ok stuckReply), .answered (.ok stuckReply)] ∧
      (after {} crowd).service.stored? stuck = .ok (some [stuckReport]) := by
  refine ⟨faithful_crowd, store_is_transparent {} crowd faithful_crowd, ?_, ?_⟩
  · rw [after_crowd]
    rfl
  · rw [after_crowd]
    exact stored?_crowdStore

end Service

end Lasso
