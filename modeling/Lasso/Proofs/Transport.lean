import Lasso.Proofs.Document.Mapped
import Lasso.Proofs.Message
import Lasso.Proofs.Service.Traffic
import Lasso.Proofs.Yaml.Number
/-!
# What is received of what is sent

A document or a list of reports is sent as a message, and the message is understood through its text. Its numbers are
rounded on the way, and its texts stand between quotes with little escaped.

* `Document.receive_message`, `Report.receive_message` -- **what is received**: the texts as they are carried, and the
  number as it is read;
* `Document.isKept` -- the numbers that are read as they were, which all small ones are (`isKept_of_lt`);
* `Document.receive_message_eq_iff`, `Report.receive_message_eq_iff` -- when that is what was sent;
* `received_as_sent_iff` -- **the documents, reports and entries of a store that come back as they were**;
* `not_received_as_sent` -- some do not.
-/

namespace Lasso

open Yaml (Content carriedText)
open Yaml.Reader (Reads Fills Independent reads_text reads_bool reads_list)

theorem elim_eq_ok_iff {ε α : Type} {e : ε} {a? : Option α} {a : α} :
    a?.elim (.error e) Except.ok = .ok a ↔ a? = some a := by
  cases a? with
  | none => exact ⟨nofun, nofun⟩
  | some b => simp

/-! ## 1. Documents -/

namespace Document

/-- **Whether a number is received as it was sent**: the rounded number has its text. The least number is received, too,
    because what is too small is read as that one. -/
def isKept (n : Int) : Bool := (Double.ofInt n).text = toString n || n = Word64.least

theorem isKept_iff {n : Int} : isKept n = true ↔ (Double.ofInt n).text = toString n ∨ n = Word64.least := by
  rw [isKept, Bool.or_eq_true, decide_eq_true_eq, decide_eq_true_eq]

/-- Doubles have 53 digits of two. -/
theorem isKept_of_lt {n : Int} (h : n.natAbs < 2 ^ 53) : isKept n = true :=
  isKept_iff.mpr (.inl (Double.text_ofInt_of_lt h))

theorem readCapacity_eq_self_iff {n : Int} (hfits : Word64.fits n = true) : readCapacity n = some n ↔ isKept n = true := by
  rw [readCapacity]
  by_cases hn : n = 0
  · subst hn
    exact iff_of_true rfl (isKept_of_lt (by decide))
  · rw [if_neg hn, isKept_iff, ← Yaml.int_numberNode_iff hn hfits, Option.map_eq_some_iff]
    constructor
    · rintro ⟨n?, hread, hget⟩
      cases n? with
      | none => exact absurd hget.symm hn
      | some k =>
        obtain rfl : k = n := hget
        exact hread
    · exact fun hread => ⟨some n, hread, rfl⟩

/-- What is received of a document if its message can be read. -/
def received? (d : Document) : Option Document :=
  (readCapacity d.channelCapacity).map fun n => { d.mapTexts carriedText with channelCapacity := n }

variable {d : Document} (hlabels : ∀ s ∈ d.system?, s.Sorted)

include hlabels

theorem document_carried :
    document (d.content.mapTexts carriedText).ordered.node = d.received?.map some := by
  have hmapped : ∀ s ∈ (d.mapTexts carriedText).system?, s.Sorted := by
    intro s' hs'
    obtain ⟨s, hs, rfl⟩ := Option.map_eq_some_iff.mp hs'
    exact (hlabels s hs).mapTexts carriedText
  rw [← content_mapTexts Yaml.isEmpty_carriedText, document_content _ hmapped, received?, Option.map_map]
  rfl

/-- **What is received of a document.** -/
theorem receive_message :
    receive d.content.message =
      (if d.content.isLegible then d.received? else none).elim (.error .malformed) .ok := by
  obtain ⟨entries, hentries⟩ : ∃ entries, d.content = .record entries := ⟨_, rfl⟩
  rw [receive, parse, hentries, Yaml.ofText_json, ← hentries]
  by_cases hlegible : d.content.isLegible = true
  · rw [if_pos hlegible, if_pos hlegible]
    dsimp only
    rw [document_carried hlabels]
    cases d.received? <;> rfl
  · rw [if_neg hlegible, if_neg hlegible]
    rfl

/-- **A document is received as it was sent exactly if its texts are steady and its number is kept.** -/
theorem receive_message_eq_iff (hfits : Word64.fits d.channelCapacity = true) :
    receive d.content.message = .ok d ↔ d.content.isSteady = true ∧ isKept d.channelCapacity = true := by
  rw [receive_message hlabels, elim_eq_ok_iff, Option.ite_none_right_eq_some, Content.isSteady_iff, and_assoc,
    ← readCapacity_eq_self_iff hfits]
  refine and_congr_right fun _ => ⟨fun hreceived => ?_, fun ⟨htexts, hcapacity⟩ => ?_⟩
  · obtain ⟨n, hn, hd⟩ := Option.map_eq_some_iff.mp hreceived
    obtain rfl : n = d.channelCapacity := congrArg channelCapacity hd
    have hmapped : d.mapTexts carriedText = d := hd
    refine ⟨?_, hn⟩
    rw [← content_mapTexts Yaml.isEmpty_carriedText, hmapped]
  · -- the same content is read, so the document is the same
    have hread := document_carried hlabels
    rw [htexts, document_content d hlabels, hcapacity] at hread
    cases hreceived : d.received? with
    | none => rw [hreceived] at hread; cases hread
    | some d' => rw [hreceived] at hread; exact (Option.some.inj hread).symm

end Document

/-! ## 2. Reports -/

namespace Report

open Document (textsField fills_texts mapTexts_record mapEntries_append mapEntries_cons mapEntries_nil
  mapEntries_textsField mapTexts_list)

theorem content_eq (r : Report) : r.content = .record
    ([("document", .text r.document), ("fingerprint", .text r.fingerprint), ("property", .text r.property),
      ("holds", .bool r.holds), ("description", .text r.description)] ++ textsField "prefix" r.stem ++
      textsField "cycle" r.cycle) := rfl

/-- The report with other texts. -/
def mapTexts (f : String → String) (r : Report) : Report where
  document := f r.document
  fingerprint := f r.fingerprint
  property := f r.property
  holds := r.holds
  description := f r.description
  stem := r.stem.map f
  cycle := r.cycle.map f

theorem content_mapTexts (f : String → String) (r : Report) : (r.mapTexts f).content = r.content.mapTexts f := by
  simp only [content_eq, mapTexts, mapTexts_record, mapEntries_append, mapEntries_cons, mapEntries_nil,
    Content.mapTexts_text, Content.mapTexts_bool, mapEntries_textsField]

theorem reads_report (r : Report) : Reads report r.content r := by
  rw [report, content_eq]
  exact Fills.reads (.append (.append
    (.cons rfl (reads_text _) (.cons rfl (reads_text _) (.cons rfl (reads_text _) (.cons rfl (reads_bool _)
      (.cons rfl (reads_text _) .nil)))))
    (fills_texts rfl _ rfl)) (fills_texts rfl _ rfl)) (by simp [Independent]) (by decide) rfl

/-- What is written of reports. -/
def contents (rs : List Report) : Content := .record [("reports", .list (rs.map content))]

theorem reads_reports (rs : List Report) : Reads reports (contents rs) rs := by
  rw [reports, contents]
  exact Fills.reads (.cons rfl (reads_list fun r _ => reads_report r) .nil) (by simp [Independent]) (by decide) rfl

theorem contents_mapTexts (f : String → String) (rs : List Report) :
    contents (rs.map (mapTexts f)) = (contents rs).mapTexts f := by
  rw [contents, contents, mapTexts_record, mapEntries_cons, mapEntries_nil, mapTexts_list (content_mapTexts f)]

/-- **What is received of reports.** -/
theorem receive_message (rs : List Report) :
    receive (contents rs).message =
      if (contents rs).isLegible then .ok (rs.map (mapTexts carriedText)) else .error .malformed := by
  rw [receive, contents, Yaml.ofText_json, ← contents]
  by_cases hlegible : (contents rs).isLegible = true
  · have hread : reports ((contents rs).mapTexts carriedText).ordered.node =
        some (some (rs.map (mapTexts carriedText))) := by
      rw [← contents_mapTexts]
      exact reads_reports _
    rw [if_pos hlegible, if_pos hlegible]
    dsimp only
    rw [hread]
    rfl
  · rw [if_neg hlegible, if_neg hlegible]

/-- **Reports are received as they were sent exactly if their texts are steady.** -/
theorem receive_message_eq_iff (rs : List Report) :
    receive (contents rs).message = .ok rs ↔ (contents rs).isSteady = true := by
  rw [receive_message, Content.isSteady_iff]
  by_cases hlegible : (contents rs).isLegible = true
  · rw [if_pos hlegible, and_iff_right hlegible, Except.ok.injEq, ← contents_mapTexts]
    refine ⟨fun h => by rw [h], fun h => ?_⟩
    have hread := reads_reports (rs.map (mapTexts carriedText))
    rw [h, Reads, reads_reports rs] at hread
    exact (Option.some.inj (Option.some.inj hread)).symm
  · rw [if_neg hlegible]
    exact iff_of_false (fun h => by cases h) fun h => hlegible h.1

end Report

/-! ## 3. Stores -/

/-- The reports that were put are what is received of them. -/
theorem Store.get_insert (s : Store) (fp : String) (m : Message) :
    (s.insert fp m).get fp = (Report.receive m).mapError .unreadable := by
  rw [Store.get, Store.find?_insert, if_pos rfl]

/-- **What comes back as it was sent.** Texts that are written are taken to be read back as they are. Then a document
    and reports can be sent. The document is received as it was, and so has its fingerprint, exactly if its texts are
    steady and its number is kept; the reports are received as they were, and found in a store, exactly if their texts
    are steady. -/
theorem received_as_sent_iff (d : Document) (rs : List Report) (s : Store) (fp : String)
    (hlabels : ∀ s ∈ d.system?, s.Sorted) (hfits : Word64.fits d.channelCapacity = true) (hd : d.content.Restored)
    (hrs : (Report.contents rs).Restored) :
    (∃ m, d.send? = some m ∧
      (Document.receive m = .ok d ↔ d.content.isSteady = true ∧ Document.isKept d.channelCapacity = true) ∧
      (d.content.isSteady = true → Document.isKept d.channelCapacity = true →
        (Document.receive m).map Document.fingerprint = .ok d.fingerprint)) ∧
    (∃ m, Report.send? rs = some m ∧ (Report.receive m = .ok rs ↔ (Report.contents rs).isSteady = true)) ∧
    ∃ s', s.put? fp rs = some s' ∧ (s'.get fp = .ok rs ↔ (Report.contents rs).isSteady = true) := by
  have hdocument := Document.receive_message_eq_iff hlabels hfits
  have hreports := Report.receive_message_eq_iff rs
  have hsend : Report.send? rs = some (Report.contents rs).message := hrs
  refine ⟨⟨_, hd, hdocument, fun hsteady hkept => ?_⟩, ⟨_, hsend, hreports⟩, s.insert fp (Report.contents rs).message, ?_, ?_⟩
  · rw [hdocument.mpr ⟨hsteady, hkept⟩]
    rfl
  · rw [Store.put?, hsend, Option.map_some]
  · rw [Store.get_insert, mapError_eq_ok, hreports]

/-- A document whose texts look like numbers and truth values, with a separator of lines, and with a number beyond the
    53 digits of two. -/
def Document.demanding : Document where
  name := "a\u2028b"
  system? := some { labels := [("yes", ["1e3"])] }
  channelCapacity := 9007199254740994

def Report.demanding : Report where
  document := "a\u2028b"
  fingerprint := "01"
  property := "~"
  cycle := ["yes"]

theorem received_as_sent_iff_demanding :
    ((∀ s ∈ Document.demanding.system?, s.Sorted) ∧ Word64.fits Document.demanding.channelCapacity = true ∧
      Document.demanding.content.Restored ∧ (Report.contents [Report.demanding]).Restored) ∧
    ∃ m s', Document.demanding.send? = some m ∧ Document.receive m = .ok Document.demanding ∧
      ({} : Store).put? "0" [Report.demanding] = some s' ∧ s'.get "0" = .ok [Report.demanding] := by
  have hlabels : ∀ s ∈ Document.demanding.system?, s.Sorted := by
    intro s hs
    obtain rfl := Option.some.inj hs
    exact List.pairwise_singleton _ _
  have hfits : Word64.fits Document.demanding.channelCapacity = true := by decide
  have hd : Document.demanding.content.Restored := by
    unfold Content.Restored
    decide +kernel
  have hrs : (Report.contents [Report.demanding]).Restored := by
    unfold Content.Restored
    decide +kernel
  refine ⟨⟨hlabels, hfits, hd, hrs⟩, ?_⟩
  obtain ⟨⟨m, hm, hdocument, -⟩, -, s', hs', hreports⟩ :=
    received_as_sent_iff Document.demanding [Report.demanding] {} "0" hlabels hfits hd hrs
  exact ⟨m, s', hm, hdocument.mpr (by decide +kernel), hs', hreports.mpr (by decide +kernel)⟩

/-- A document with the first whole number that no double is. -/
def Document.wide : Document where
  name := "d"
  channelCapacity := 9007199254740993

/-- A report with a control character that is not escaped. -/
def Report.unprintable : Report where
  document := "\x7f"
  fingerprint := "f"
  property := "p"
  holds := true

/-- **Not everything comes back as it was sent**, although all texts that are written are read back. -/
theorem not_received_as_sent :
    (Document.wide.content.Restored ∧ ∃ m, Document.wide.send? = some m ∧
      Document.receive m = .ok { Document.wide with channelCapacity := 9007199254740992 } ∧
      (Document.receive m).map Document.fingerprint ≠ .ok Document.wide.fingerprint) ∧
    (Report.contents [Report.unprintable]).Restored ∧
    (∃ m, Report.send? [Report.unprintable] = some m ∧ Report.receive m = .error .malformed) ∧
    ∃ s', ({} : Store).put? "f" [Report.unprintable] = some s' ∧ s'.get "f" = .error (.unreadable .malformed) := by
  have hd : Document.wide.content.Restored := by
    unfold Content.Restored
    decide +kernel
  have hrs : (Report.contents [Report.unprintable]).Restored := by
    unfold Content.Restored
    decide +kernel
  have hreceived : Document.wide.received? = some { Document.wide with channelCapacity := 9007199254740992 } := by
    decide +kernel
  have hdocument : Document.receive Document.wide.content.message =
      .ok { Document.wide with channelCapacity := 9007199254740992 } := by
    have hlegible : Document.wide.content.isLegible = true := by decide +kernel
    have hlabels : ∀ s ∈ Document.wide.system?, s.Sorted := fun _ hs => by cases hs
    rw [Document.receive_message hlabels, if_pos hlegible, hreceived]
    rfl
  have hreports : Report.receive (Report.contents [Report.unprintable]).message = .error .malformed := by
    have hlegible : ¬ (Report.contents [Report.unprintable]).isLegible = true := by decide +kernel
    rw [Report.receive_message, if_neg hlegible]
  have hsend : Report.send? [Report.unprintable] = some (Report.contents [Report.unprintable]).message := hrs
  refine ⟨⟨hd, _, hd, hdocument, ?_⟩, hrs, ⟨_, hsend, hreports⟩,
    Store.insert {} "f" (Report.contents [Report.unprintable]).message, ?_, ?_⟩
  · rw [hdocument]
    decide +kernel
  · rw [Store.put?, hsend, Option.map_some]
  · rw [Store.get_insert, hreports]
    rfl

end Lasso
