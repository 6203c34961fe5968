import Lasso.Proofs.Eval.Action
import Lasso.Proofs.Eval.Handshake
import Lasso.Proofs.Text
/-!
# Rendezvous: matching, combining and execution agree

The ends of a rendezvous are texts with spaces between their parts. `Handshake.IsSend` and
`Handshake.IsReceive` say what such a text looks like, without saying how it is read:

* `readSend?_eq_some_iff`, `readReceive?_eq_some_iff` -- **reading finds the parts of exactly these
  texts**, so no text is both ends (`not_isReceive_of_isSend`);
* `split?_combine_eq_some_iff` -- **a combined action is split into the ends it was combined of**,
  whatever bars these may hold;
* `ends_meet` -- two actions match exactly when they are the two ends of one channel, and then their
  combination, in either order, gives the receiver the value of what is sent.
-/

namespace Lasso

/-! ## 1. Texts with spaces between their parts -/

/-- Spaces only. -/
def IsSpaces (s : List Char) : Prop := ∀ c ∈ s, Text.isSpace c = true

/-- A text that neither starts nor ends with a space. -/
structure Trimmed (cs : List Char) : Prop where
  ne_nil : cs ≠ []
  head : ∀ c ∈ cs.head?, Text.isSpace c = false
  last : ∀ c ∈ cs.getLast?, Text.isSpace c = false

/-- The text is a name, the mark and the rest, with spaces around the name. -/
def Marked (mark : Char) (cs name rest : List Char) : Prop :=
  ∃ s t, IsSpaces s ∧ IsSpaces t ∧ cs = s ++ (name ++ (t ++ mark :: rest))

/-- The text is the body with spaces around it; in a text of spaces only, the body is the last one. -/
def Wraps (cs body : List Char) : Prop :=
  ∃ s t, IsSpaces s ∧ IsSpaces t ∧ cs = s ++ (body ++ t) ∧
    (Trimmed body ∨ t = [] ∧ ∃ c, Text.isSpace c = true ∧ body = [c])

/-- A character of a name is no space. -/
theorem isSpace_of_isWordChar {c : Char} (h : isWordChar c = true) : Text.isSpace c = false := by
  by_contra hs
  simp only [Text.isSpace, Bool.not_eq_false, Bool.or_eq_true, decide_eq_true_eq] at hs
  rcases hs with (((rfl | rfl) | rfl) | rfl) | rfl <;> exact absurd h (by decide)

theorem trimmed_of_isWordChar {cs : List Char} (hne : cs ≠ []) (h : ∀ c ∈ cs, isWordChar c = true) :
    Trimmed cs where
  ne_nil := hne
  head c hc := isSpace_of_isWordChar (h c (List.mem_of_head? hc))
  last c hc := isSpace_of_isWordChar (h c (List.mem_of_getLast? hc))

section Reading

variable {mark : Char} {isName : List Char → Bool} {cs name rest body : List Char}

/-- Behind the spaces, a name goes on to the first character that is not of names. -/
theorem splitAction?_of_marked (hs : Text.isSpace mark = false) (hw : isWordChar mark = false)
    (hne : name ≠ []) (hname : ∀ c ∈ name, isWordChar c = true) (h : Marked mark cs name rest) :
    splitAction? mark isName cs = if isName name = true then some (name, rest) else none := by
  obtain ⟨s, t, hspaces, hbetween, rfl⟩ := h
  have htrim := trimmed_of_isWordChar hne hname
  have hskip : (s ++ (name ++ (t ++ mark :: rest))).dropWhile Text.isSpace =
      name ++ (t ++ mark :: rest) := by
    refine Text.dropWhile_append_stop hspaces fun c hc => htrim.head c ?_
    rwa [List.head?_append_of_ne_nil _ hne] at hc
  have hstop : ∀ c ∈ (t ++ mark :: rest).head?, isWordChar c = false := by
    intro c hc
    cases t with
    | nil =>
      cases hc
      exact hw
    | cons d t =>
      cases hc
      exact Bool.eq_false_iff.mpr fun hd => by
        have := isSpace_of_isWordChar hd
        rw [hbetween c List.mem_cons_self] at this
        cases this
  have hmark : (t ++ mark :: rest).dropWhile Text.isSpace = mark :: rest :=
    Text.dropWhile_append_stop hbetween fun c hc => by
      cases hc
      exact hs
  unfold splitAction?
  simp only [hskip, Text.takeWhile_append_stop hname hstop, Text.dropWhile_append_stop hname hstop,
    hmark, true_and]

/-- The mark is the first character behind the name. -/
theorem mark_eq_of_splitAction? {mark' : Char} {r r' : List Char × List Char}
    (h : splitAction? mark isName cs = some r) (h' : splitAction? mark' isName cs = some r') :
    mark = mark' := by
  unfold splitAction? at h h'
  simp only at h h'
  generalize List.dropWhile Text.isSpace
    (List.dropWhile isWordChar (List.dropWhile Text.isSpace cs)) = tail at h h'
  cases tail with
  | nil => cases h
  | cons c tail =>
    simp only [Option.ite_none_right_eq_some] at h h'
    exact h.1.1.symm.trans h'.1.1

/-- A text has one mark behind its first word. -/
theorem Marked.unique {mark' : Char} {name' rest' : List Char} (h : Marked mark cs name rest)
    (h' : Marked mark' cs name' rest') (hs : Text.isSpace mark = false) (hw : isWordChar mark = false)
    (hs' : Text.isSpace mark' = false) (hw' : isWordChar mark' = false) (hne : name ≠ [])
    (hname : ∀ c ∈ name, isWordChar c = true) (hne' : name' ≠ [])
    (hname' : ∀ c ∈ name', isWordChar c = true) : mark = mark' ∧ name = name' ∧ rest = rest' := by
  -- both are read with every text for a name
  have hread : splitAction? mark (fun _ => true) cs = some (name, rest) :=
    splitAction?_of_marked hs hw hne hname h
  have hread' : splitAction? mark' (fun _ => true) cs = some (name', rest') :=
    splitAction?_of_marked hs' hw' hne' hname' h'
  obtain rfl := mark_eq_of_splitAction? hread hread'
  obtain ⟨rfl, rfl⟩ := Prod.mk.inj (Option.some.inj (hread.symm.trans hread'))
  exact ⟨rfl, rfl, rfl⟩

theorem Marked.append (h : Marked mark cs name rest) (k : List Char) :
    Marked mark (cs ++ k) name (rest ++ k) := by
  obtain ⟨s, t, hs, ht, rfl⟩ := h
  exact ⟨s, t, hs, ht, by simp⟩

theorem splitAction?_eq_some_iff (hs : Text.isSpace mark = false) (hw : isWordChar mark = false)
    (hnil : isName [] = false) :
    splitAction? mark isName cs = some (name, rest) ↔
      isName name = true ∧ (∀ c ∈ name, isWordChar c = true) ∧ Marked mark cs name rest := by
  constructor
  · intro h
    unfold splitAction? at h
    simp only at h
    split at h
    · rename_i c tail hd
      split at h
      · rename_i hmark
        simp only [Option.some.injEq, Prod.mk.injEq] at h
        obtain ⟨rfl, rfl⟩ := h
        obtain ⟨rfl, hname⟩ := hmark
        obtain ⟨s, hspaces, e⟩ := Text.exists_skipped Text.isSpace cs
        obtain ⟨t, hbetween, e'⟩ :=
          Text.exists_skipped Text.isSpace ((cs.dropWhile Text.isSpace).dropWhile isWordChar)
        refine ⟨hname, fun _ => List.mem_takeWhile_imp, s, t, hspaces, hbetween, ?_⟩
        rw [← hd, ← e', List.takeWhile_append_dropWhile]
        exact e
      · cases h
    · cases h
  · rintro ⟨hname, hchars, hmarked⟩
    have hne : name ≠ [] := by
      rintro rfl
      rw [hnil] at hname
      cases hname
    rw [splitAction?_of_marked hs hw hne hchars hmarked, if_pos hname]

/-- A body that is wrapped in spaces is what is left when they are dropped. -/
theorem Trimmed.trim {s t : List Char} (h : Trimmed body) (hs : IsSpaces s) (ht : IsSpaces t) :
    (s ++ (body ++ t)).dropWhile Text.isSpace = body ++ t ∧
      Text.trimEnd Text.isSpace (body ++ t) = body := by
  refine ⟨Text.dropWhile_append_stop hs fun c hc => h.head c ?_, Text.trimEnd_append_stop ht h.last⟩
  rwa [List.head?_append_of_ne_nil _ h.ne_nil] at hc

/-- What is left between the spaces is wrapped in them. -/
theorem wraps_trim (hne : cs.dropWhile Text.isSpace ≠ []) :
    Wraps cs (Text.trimEnd Text.isSpace (cs.dropWhile Text.isSpace)) := by
  obtain ⟨s, hs, e⟩ := Text.exists_skipped Text.isSpace cs
  obtain ⟨t, ht, e'⟩ := Text.exists_trimmed Text.isSpace (cs.dropWhile Text.isSpace)
  have hhead : (Text.trimEnd Text.isSpace (cs.dropWhile Text.isSpace)).head? =
      (cs.dropWhile Text.isSpace).head? := Text.head?_trimEnd fun _ => Text.head?_dropWhile
  refine ⟨s, t, hs, ht, by rw [← e']; exact e, Or.inl ⟨?_, ?_, fun _ => Text.getLast?_trimEnd⟩⟩
  · intro hnil
    rw [hnil, List.head?_nil, eq_comm, List.head?_eq_none_iff] at hhead
    exact hne hhead
  · intro c hc
    rw [hhead] at hc
    exact Text.head?_dropWhile hc

theorem payload?_eq_some_iff {allowed : Char → Bool}
    (ha : ∀ c, Text.isSpace c = true → allowed c = true) :
    payload? allowed cs = some body ↔ (∀ c ∈ body, allowed c = true) ∧ Wraps cs body := by
  unfold payload?
  split
  · -- spaces only: the last of them is what is sent
    rename_i hnil
    have hcs : IsSpaces cs := List.dropWhile_eq_nil_iff.mp hnil
    rcases List.eq_nil_or_concat cs with rfl | ⟨init, c, rfl⟩
    · refine ⟨fun h => (by cases h), ?_⟩
      rintro ⟨-, s, t, -, -, e, hbody⟩
      obtain ⟨-, e'⟩ := List.append_eq_nil_iff.mp e.symm
      obtain ⟨rfl, rfl⟩ := List.append_eq_nil_iff.mp e'
      rcases hbody with hbody | ⟨-, c, -, hc⟩
      · exact absurd rfl hbody.ne_nil
      · cases hc
    · have hc : Text.isSpace c = true := hcs c (by simp)
      have hinit : IsSpaces init := fun d hd => hcs d (by simp [hd])
      have hfind : (init.concat c).reverse.find? allowed = some c := by
        rw [List.concat_eq_append, List.reverse_concat, List.find?_cons_of_pos (ha c hc)]
      rw [hfind, Option.map_some, Option.some.injEq]
      constructor
      · rintro rfl
        refine ⟨fun d hd => ?_, init, [], hinit, fun _ h => absurd h List.not_mem_nil, by simp,
          Or.inr ⟨rfl, c, hc, rfl⟩⟩
        rw [List.mem_singleton.mp hd]
        exact ha c hc
      · rintro ⟨-, s, t, hs, ht, e, hbody⟩
        rcases hbody with hbody | ⟨rfl, d, hd, rfl⟩
        · -- a trimmed body would hold a character that is no space
          have hfirst := hbody.head (body.head hbody.ne_nil) (List.head?_eq_some_head hbody.ne_nil)
          have hspace : Text.isSpace (body.head hbody.ne_nil) = true :=
            hcs _ (e ▸ by simp)
          rw [hspace] at hfirst
          cases hfirst
        · rw [List.concat_eq_append, List.append_nil] at e
          exact (List.append_inj_right' e rfl)
  · rename_i hne
    simp only
    constructor
    · intro h
      split at h
      · rename_i hall
        cases h
        exact ⟨List.all_eq_true.mp hall, wraps_trim hne⟩
      · cases h
    · rintro ⟨hall, s, t, hs, ht, rfl, hbody⟩
      rcases hbody with hbody | ⟨rfl, d, hd, rfl⟩
      · obtain ⟨hdrop, htrim⟩ := hbody.trim hs ht
        rw [hdrop, htrim, if_pos (List.all_eq_true.mpr hall)]
      · refine absurd (List.dropWhile_eq_nil_iff.mpr fun c hc => ?_) hne
        rcases List.mem_append.mp hc with hc | hc
        · exact hs c hc
        · rw [List.append_nil, List.mem_singleton] at hc
          rw [hc]
          exact hd

theorem receiver?_eq_some_iff :
    receiver? cs = some body ↔
      isVariableName body = true ∧ (∀ c ∈ body, isWordChar c = true) ∧ Wraps cs body := by
  unfold receiver?
  constructor
  · intro h
    simp only at h
    split at h
    · rename_i hname
      cases h
      refine ⟨hname.1, List.all_eq_true.mp hname.2, wraps_trim fun hnil => ?_⟩
      rw [hnil] at hname
      exact absurd hname.1 (by decide)
    · cases h
  · rintro ⟨hname, hall, s, t, hs, ht, rfl, -⟩
    have hne : body ≠ [] := by
      rintro rfl
      exact absurd hname (by decide)
    obtain ⟨hdrop, htrim⟩ := (trimmed_of_isWordChar hne hall).trim hs ht
    simp only [hdrop, htrim]
    exact if_pos ⟨hname, List.all_eq_true.mpr hall⟩

end Reading

/-! ## 2. The ends of a rendezvous -/

namespace Handshake

/-- The name of a rendezvous channel: an underscore and at least one more character of names. -/
structure IsChannel (channel : String) : Prop where
  named : isChannelName channel.toList = true
  word : ∀ c ∈ channel.toList, isWordChar c = true

/-- An action of the form `_c!e`. -/
structure IsSend (action channel payload : String) : Prop where
  isChannel : IsChannel channel
  barless : '|' ∉ payload.toList
  spelled : ∃ rest, Marked '!' action.toList channel.toList rest ∧ Wraps rest payload.toList

/-- An action of the form `_c?x`. -/
structure IsReceive (action channel target : String) : Prop where
  isChannel : IsChannel channel
  named : isVariableName target.toList = true
  word : ∀ c ∈ target.toList, isWordChar c = true
  spelled : ∃ rest, Marked '?' action.toList channel.toList rest ∧ Wraps rest target.toList

variable {action channel payload target : String}

theorem isChannelName_nil : isChannelName [] = false := rfl

/-- **A text is read as a send** exactly when it is one. -/
theorem readSend?_eq_some_iff :
    readSend? action = some (channel, payload) ↔ IsSend action channel payload := by
  have hallowed : ∀ c, Text.isSpace c = true → decide (c ≠ '|') = true := by
    intro c hc
    rw [decide_eq_true_eq]
    rintro rfl
    exact absurd hc (by decide)
  unfold readSend? Lasso.readSend?
  simp only [Option.bind_eq_bind, Option.bind_eq_some_iff, Prod.exists,
    splitAction?_eq_some_iff (by decide : Text.isSpace '!' = false) (by decide) isChannelName_nil,
    payload?_eq_some_iff hallowed, Option.pure_def, Option.some.injEq, Prod.mk.injEq]
  constructor
  · rintro ⟨name, rest, ⟨hname, hword, hmarked⟩, body, ⟨hbody, hwraps⟩, rfl, rfl⟩
    refine ⟨⟨?_, ?_⟩, fun hbar => ?_, rest, ?_, ?_⟩
    · rwa [String.toList_ofList]
    · rwa [String.toList_ofList]
    · rw [String.toList_ofList] at hbar
      exact absurd (hbody _ hbar) (by decide)
    · rwa [String.toList_ofList]
    · rwa [String.toList_ofList]
  · rintro ⟨hchannel, hbar, rest, hmarked, hwraps⟩
    refine ⟨channel.toList, rest, ⟨hchannel.named, hchannel.word, hmarked⟩, payload.toList,
      ⟨fun c hc => ?_, hwraps⟩, String.ofList_toList, String.ofList_toList⟩
    rw [decide_eq_true_eq]
    rintro rfl
    exact hbar hc

/-- **A text is read as a receive** exactly when it is one. -/
theorem readReceive?_eq_some_iff :
    readReceive? action = some (channel, target) ↔ IsReceive action channel target := by
  unfold readReceive? Lasso.readReceive?
  simp only [Option.bind_eq_bind, Option.bind_eq_some_iff, Prod.exists,
    splitAction?_eq_some_iff (by decide : Text.isSpace '?' = false) (by decide) isChannelName_nil,
    receiver?_eq_some_iff, Option.pure_def, Option.some.injEq, Prod.mk.injEq]
  constructor
  · rintro ⟨name, rest, ⟨hname, hword, hmarked⟩, body, ⟨hvar, hbody, hwraps⟩, rfl, rfl⟩
    refine ⟨⟨?_, ?_⟩, ?_, ?_, rest, ?_, ?_⟩ <;> rwa [String.toList_ofList]
  · rintro ⟨hchannel, hvar, hbody, rest, hmarked, hwraps⟩
    exact ⟨channel.toList, rest, ⟨hchannel.named, hchannel.word, hmarked⟩, target.toList,
      ⟨hvar, hbody, hwraps⟩, String.ofList_toList, String.ofList_toList⟩

/-- Behind the channel's name there is one mark, so that **no text is both ends**. -/
theorem not_isReceive_of_isSend {channel' : String} (hs : IsSend action channel payload) :
    ¬ IsReceive action channel' target := by
  intro hr
  obtain ⟨rest, hmarked, -⟩ := hs.spelled
  obtain ⟨rest', hmarked', -⟩ := hr.spelled
  have hsend : splitAction? '!' isChannelName action.toList = some (channel.toList, rest) :=
    (splitAction?_eq_some_iff (by decide) (by decide) isChannelName_nil).mpr
      ⟨hs.isChannel.named, hs.isChannel.word, hmarked⟩
  have hreceive : splitAction? '?' isChannelName action.toList = some (channel'.toList, rest') :=
    (splitAction?_eq_some_iff (by decide) (by decide) isChannelName_nil).mpr
      ⟨hr.isChannel.named, hr.isChannel.word, hmarked'⟩
  exact absurd (mark_eq_of_splitAction? hsend hreceive) (by decide)

theorem isOneSided_iff :
    isOneSided action = true ↔
      (∃ c e, IsSend action c e) ∨ ∃ c x, IsReceive action c x := by
  unfold isOneSided
  rw [Bool.or_eq_true_iff, Option.isSome_iff_exists, Option.isSome_iff_exists]
  simp only [Prod.exists, readSend?_eq_some_iff, readReceive?_eq_some_iff]

/-! ## 3. Combined actions -/

/-- The two actions are the two ends of one channel: what is sent, and what is received into. -/
def Meet (a₁ a₂ payload target : String) : Prop :=
  ∃ c, IsSend a₁ c payload ∧ IsReceive a₂ c target ∨ IsReceive a₁ c target ∧ IsSend a₂ c payload

theorem Meet.symm {a₁ a₂ : String} (h : Meet a₁ a₂ payload target) : Meet a₂ a₁ payload target := by
  obtain ⟨c, ⟨hs, hr⟩ | ⟨hr, hs⟩⟩ := h
  · exact ⟨c, Or.inr ⟨hr, hs⟩⟩
  · exact ⟨c, Or.inl ⟨hs, hr⟩⟩

/-- What is sent and what is received into, if the texts are a send and a receive of one channel. -/
def ends? (send receive : String) : Option (String × String) := do
  let (c, payload) ← readSend? send
  let (d, target) ← readReceive? receive
  if c = d then some (payload, target) else none

theorem ends?_eq_some_iff {send receive : String} :
    ends? send receive = some (payload, target) ↔
      ∃ c, IsSend send c payload ∧ IsReceive receive c target := by
  unfold ends?
  simp only [Option.bind_eq_bind, Option.bind_eq_some_iff, Prod.exists, readSend?_eq_some_iff,
    readReceive?_eq_some_iff, Option.ite_none_right_eq_some, Option.some.injEq, Prod.mk.injEq]
  constructor
  · rintro ⟨c, payload', hs, d, target', hr, rfl, rfl, rfl⟩
    exact ⟨c, hs, hr⟩
  · rintro ⟨c, hs, hr⟩
    exact ⟨c, payload, hs, c, target, hr, rfl, rfl, rfl⟩

/-- An action is cut at its first bar, and the receiving end may stand on either side of it. -/
theorem split?_of_cut {left right : String} (hleft : '|' ∉ left.toList)
    (e : action.toList = left.toList ++ '|' :: right.toList) :
    split? action = if (readReceive? left).isSome then ends? right left else ends? left right := by
  have hbarless : ∀ c ∈ left.toList, decide (c ≠ '|') = true := by
    intro c hc
    rw [decide_eq_true_eq]
    rintro rfl
    exact hleft hc
  have hstop : ∀ c ∈ ('|' :: right.toList).head?, decide (c ≠ '|') = false := by
    intro c hc
    cases hc
    rfl
  unfold split?
  simp only [e, Text.takeWhile_append_stop hbarless hstop, Text.dropWhile_append_stop hbarless hstop,
    String.ofList_toList]
  cases (readReceive? left).isSome <;> rfl

theorem split?_of_cut_eq_some_iff {left right : String} (hleft : '|' ∉ left.toList)
    (e : action.toList = left.toList ++ '|' :: right.toList) :
    split? action = some (payload, target) ↔ Meet left right payload target := by
  rw [split?_of_cut hleft e]
  unfold Meet
  simp only [exists_or]
  split
  · rename_i hreceive
    obtain ⟨⟨d, x⟩, hd⟩ := Option.isSome_iff_exists.mp hreceive
    have hno : ¬ ∃ c, IsSend left c payload ∧ IsReceive right c target := by
      rintro ⟨c, hs, -⟩
      exact not_isReceive_of_isSend hs (readReceive?_eq_some_iff.mp hd)
    rw [ends?_eq_some_iff, or_iff_right hno]
    exact exists_congr fun c => and_comm
  · rename_i hreceive
    have hno : ¬ ∃ c, IsReceive left c target ∧ IsSend right c payload := by
      rintro ⟨c, hr, -⟩
      exact hreceive (Option.isSome_iff_exists.mpr ⟨_, readReceive?_eq_some_iff.mpr hr⟩)
    rw [ends?_eq_some_iff, or_iff_left hno]

theorem toList_combine (a₁ a₂ : String) :
    (combine a₁ a₂).toList = a₁.toList ++ '|' :: a₂.toList := by
  simp [combine]

theorem Meet.barless {a₁ a₂ : String} (h : Meet a₁ a₂ payload target) :
    '|' ∉ a₁.toList ∧ '|' ∉ a₂.toList := by
  obtain ⟨c, ⟨hs, hr⟩ | ⟨hr, hs⟩⟩ := h
  · exact ⟨not_mem_of_readSend? (readSend?_eq_some_iff.mpr hs),
      not_mem_of_readReceive? (readReceive?_eq_some_iff.mpr hr)⟩
  · exact ⟨not_mem_of_readReceive? (readReceive?_eq_some_iff.mpr hr),
      not_mem_of_readSend? (readSend?_eq_some_iff.mpr hs)⟩

/-- **A combined action is split into the ends it was combined of.** A bar in one of the actions would
    stay in what is behind the first bar, and no end has one. -/
theorem split?_combine_eq_some_iff {a₁ a₂ : String} :
    split? (combine a₁ a₂) = some (payload, target) ↔ Meet a₁ a₂ payload target := by
  by_cases hbar : '|' ∈ a₁.toList
  · obtain ⟨left, right, e, hleft⟩ := List.eq_append_cons_of_mem hbar
    have hcut : (combine a₁ a₂).toList =
        (String.ofList left).toList ++ '|' :: (String.ofList (right ++ '|' :: a₂.toList)).toList := by
      rw [toList_combine, e, String.toList_ofList, String.toList_ofList]
      simp
    rw [← String.toList_ofList (l := left)] at hleft
    rw [split?_of_cut_eq_some_iff hleft hcut]
    refine iff_of_false (fun h => h.barless.2 ?_) (fun h => h.barless.1 hbar)
    rw [String.toList_ofList]
    exact List.mem_append_right _ List.mem_cons_self
  · exact split?_of_cut_eq_some_iff hbar (toList_combine a₁ a₂)

theorem agree_iff {a₁ a₂ : String} :
    agree a₁ a₂ = true ↔ ∃ payload target, Meet a₁ a₂ payload target := by
  unfold agree
  rw [Option.isSome_iff_exists]
  simp only [Prod.exists, split?_combine_eq_some_iff]

theorem agree_comm (a₁ a₂ : String) : agree a₁ a₂ = agree a₂ a₁ := by
  rw [Bool.eq_iff_iff, agree_iff, agree_iff]
  exact exists_congr fun _ => exists_congr fun _ => ⟨Meet.symm, Meet.symm⟩

theorem Meet.oneSided {a₁ a₂ : String} (h : Meet a₁ a₂ payload target) :
    isOneSided a₁ = true ∧ isOneSided a₂ = true := by
  obtain ⟨c, ⟨hs, hr⟩ | ⟨hr, hs⟩⟩ := h
  · exact ⟨isOneSided_iff.mpr (Or.inl ⟨c, _, hs⟩), isOneSided_iff.mpr (Or.inr ⟨c, _, hr⟩)⟩
  · exact ⟨isOneSided_iff.mpr (Or.inr ⟨c, _, hr⟩), isOneSided_iff.mpr (Or.inl ⟨c, _, hs⟩)⟩

/-! ## 4. Execution -/

theorem ofText_of_isOneSided (h : isOneSided action = true) : Action.ofText action = .waiting := by
  unfold Action.ofText
  rw [if_pos h]

theorem ofText_of_split? (h : isOneSided action = false)
    (hs : split? action = some (payload, target)) :
    Action.ofText action = .rendezvous payload target := by
  unfold Action.ofText
  rw [if_neg (by simp [h]), hs]

theorem effect_of_split? (h : isOneSided action = false)
    (hs : split? action = some (payload, target)) (env : Env) :
    effect env action = (evalText env payload).map fun v => some (env.set target v) := by
  unfold effect
  simp only [h, hs, Bool.false_eq_true, if_false]
  cases evalText env payload <;> rfl

/-- An end alone is blocked. -/
theorem effect_of_isOneSided {capacity : Int} (h : isOneSided action = true) (env : Env) :
    (Evaluators.standard capacity).effect env action = .ok none := by
  rw [Evaluators.effect_standard, ofText_of_isOneSided h]
  rfl

/-- What both ends of a rendezvous do together: in every environment the target receives the value of
    what is sent and nothing else changes; they are never blocked, and fail exactly when what is sent
    has no value. -/
structure Transfers (action payload target : String) : Prop where
  combined : isOneSided action = false
  family : ∀ capacity, (Evaluators.standard capacity).family? action = some .handshake
  effect : ∀ env, effect env action = (evalText env payload).map fun v => some (env.set target v)
  done : ∀ capacity env v, evalText env payload = .ok v →
    (Evaluators.standard capacity).effect env action = .ok (some (env.set target v))
  failed : ∀ capacity env c, evalText env payload = .error c →
    (Evaluators.standard capacity).effect env action = .error (.inAction action c)
  frame : ∀ (env : Env) v n, env.Built →
    (env.set target v).find? n = if n = .ofString target then some v else env.find? n

theorem Meet.transfers {a₁ a₂ : String} (h : Meet a₁ a₂ payload target) :
    Transfers (combine a₁ a₂) payload target := by
  have hsplit : split? (combine a₁ a₂) = some (payload, target) := split?_combine_eq_some_iff.mpr h
  have hone : isOneSided (combine a₁ a₂) = false := isOneSided_combine a₁ a₂
  have htext := ofText_of_split? hone hsplit
  have hmatches : ActionFamily.handshake.matches? (combine a₁ a₂) = true := by
    simp [ActionFamily.matches?, matches?, hsplit]
  refine ⟨hone, fun _ => List.find?_cons_of_pos hmatches, effect_of_split? hone hsplit,
    fun n env v hv => ?_, fun n env c hc => ?_, fun env v n henv => henv.canonical.1.find?_put _ v n⟩
  · rw [Evaluators.effect_standard, htext, Action.updates, hv]
    rfl
  · rw [Evaluators.effect_standard, htext, Action.updates, hc]
    rfl

/-- **Matching, combining and execution agree.** Two actions match exactly when they are the two ends of
    one channel, in either order; then both are one-sided, and each combination of them transfers what
    is sent to what receives. An end alone is blocked in every environment. -/
theorem ends_meet (a₁ a₂ : String) :
    (agree a₁ a₂ = true ↔
      ∃ c e x, IsSend a₁ c e ∧ IsReceive a₂ c x ∨ IsReceive a₁ c x ∧ IsSend a₂ c e) ∧
    agree a₁ a₂ = agree a₂ a₁ ∧
    (agree a₁ a₂ = true → isOneSided a₁ = true ∧ isOneSided a₂ = true) ∧
    (∀ c e x, IsSend a₁ c e ∧ IsReceive a₂ c x ∨ IsReceive a₁ c x ∧ IsSend a₂ c e →
      Transfers (combine a₁ a₂) e x ∧ Transfers (combine a₂ a₁) e x) ∧
    (isOneSided a₁ = true → ∀ capacity env,
      (Evaluators.standard capacity).effect env a₁ = .ok none) := by
  refine ⟨?_, agree_comm a₁ a₂, fun h => ?_, fun c e x h => ?_,
    fun h capacity env => effect_of_isOneSided h env⟩
  · rw [agree_iff]
    constructor
    · rintro ⟨e, x, c, h⟩
      exact ⟨c, e, x, h⟩
    · rintro ⟨c, e, x, h⟩
      exact ⟨e, x, c, h⟩
  · obtain ⟨e, x, hmeet⟩ := agree_iff.mp h
    exact hmeet.oneSided
  · have hmeet : Meet a₁ a₂ e x := ⟨c, h⟩
    exact ⟨hmeet.transfers, hmeet.symm.transfers⟩

/-- A counter is sent with spaces around everything, and the receiver stands first. -/
theorem ends_meet_counting :
    IsReceive " _c ? x " "_c" "x" ∧ IsSend "_c! count + 1 " "_c" "count + 1" ∧
      (Evaluators.standard 0).effect Env.counting (combine " _c ? x " "_c! count + 1 ") =
        .ok (some (Env.counting.set "x" (.int 4))) ∧
      (Evaluators.standard 0).effect Env.counting "_c! count + 1 " = .ok none := by
  have hr : IsReceive " _c ? x " "_c" "x" := readReceive?_eq_some_iff.mp (by decide +kernel)
  have hs : IsSend "_c! count + 1 " "_c" "count + 1" := readSend?_eq_some_iff.mp (by decide +kernel)
  have hvalue : evalText Env.counting "count + 1" = .ok (.int 4) := by decide +kernel
  obtain ⟨-, -, -, htransfers, -⟩ := ends_meet " _c ? x " "_c! count + 1 "
  obtain ⟨-, -, -, -, hblocked⟩ := ends_meet "_c! count + 1 " " _c ? x "
  exact ⟨hr, hs, (htransfers _ _ _ (Or.inr ⟨hr, hs⟩)).1.done 0 _ _ hvalue,
    hblocked (isOneSided_iff.mpr (Or.inl ⟨_, _, hs⟩)) 0 _⟩

end Handshake

end Lasso
