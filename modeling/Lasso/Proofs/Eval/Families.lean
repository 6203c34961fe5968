import Lasso.Proofs.Eval.Assignment
/-!
# Families of actions

An action is taken by the first family that matches it. The order of the families does not matter, since no
text is an action of two of them: actions on channels start with a name and a mark, the names of the two
kinds of channels start differently, and no assignment goes on with a mark behind a name.

* `Addresses` -- the texts that start with a name and a mark; all texts of rendezvous and of channels do;
* `matches?_unique` -- **at most one family matches a text**;
* `families_in_any_order` -- so that the order in which they are asked does not matter.
-/

namespace Lasso

open Lang

/-! ## 1. Actions on channels -/

/-- The action starts with a name of the given kind and the mark of a send or a receive. -/
def Addresses (isName : List Char → Bool) (action : String) : Prop :=
  ∃ mark name rest, (mark = '!' ∨ mark = '?') ∧ isName name = true ∧ (∀ c ∈ name, isWordChar c = true) ∧
    Marked mark action.toList name rest

section Addresses

theorem mem_marks {mark : Char} (h : mark = '!' ∨ mark = '?') : mark ∈ marks := by
  rcases h with rfl | rfl <;> decide

variable {isName : List Char → Bool} {action : String} {r : String × String}

theorem addresses_of_readSend? {allowed : Char → Bool} (hnil : isName [] = false)
    (h : readSend? isName allowed action = some r) : Addresses isName action := by
  obtain ⟨⟨name, rest⟩, hsplit, -⟩ := Option.bind_eq_some_iff.mp h
  obtain ⟨hname, hword, hmarked⟩ := (splitAction?_eq_some_iff (by decide) (by decide) hnil).mp hsplit
  exact ⟨'!', name, rest, Or.inl rfl, hname, hword, hmarked⟩

theorem addresses_of_readReceive? (hnil : isName [] = false) (h : readReceive? isName action = some r) :
    Addresses isName action := by
  obtain ⟨⟨name, rest⟩, hsplit, -⟩ := Option.bind_eq_some_iff.mp h
  obtain ⟨hname, hword, hmarked⟩ := (splitAction?_eq_some_iff (by decide) (by decide) hnil).mp hsplit
  exact ⟨'?', name, rest, Or.inr rfl, hname, hword, hmarked⟩

theorem Addresses.of_cut {left right : String} (h : Addresses isName left)
    (e : action.toList = left.toList ++ '|' :: right.toList) : Addresses isName action := by
  obtain ⟨mark, name, rest, hmark, hname, hword, hmarked⟩ := h
  refine ⟨mark, name, rest ++ '|' :: right.toList, hmark, hname, hword, ?_⟩
  rw [e]
  exact hmarked.append _

theorem ChannelAction.addresses (h : matches? action = true) : Addresses isVariableName action := by
  obtain ⟨a, ha⟩ := Option.isSome_iff_exists.mp h
  unfold read? at ha
  split at ha
  · rename_i hreceive
    exact addresses_of_readReceive? rfl hreceive
  · obtain ⟨r, hsend, -⟩ := Option.map_eq_some_iff.mp ha
    exact addresses_of_readSend? rfl hsend

namespace Handshake

theorem addresses_of_isOneSided (h : isOneSided action = true) : Addresses isChannelName action := by
  rcases Bool.or_eq_true_iff.mp h with h | h
  · obtain ⟨r, hr⟩ := Option.isSome_iff_exists.mp h
    exact addresses_of_readSend? rfl hr
  · obtain ⟨r, hr⟩ := Option.isSome_iff_exists.mp h
    exact addresses_of_readReceive? rfl hr

/-- A combined action has a bar. -/
theorem mem_of_split? (h : split? action = some r) : '|' ∈ action.toList := by
  by_contra hbar
  have hnil : action.toList.dropWhile (· ≠ '|') = [] := by
    refine List.dropWhile_eq_nil_iff.mpr fun c hc => ?_
    rw [decide_eq_true_eq]
    rintro rfl
    exact hbar hc
  unfold split? at h
  simp only [hnil] at h
  cases h

/-- A rendezvous starts with one of its ends. -/
theorem addresses (h : matches? action = true) : Addresses isChannelName action := by
  rcases Bool.or_eq_true_iff.mp h with h | h
  · exact addresses_of_isOneSided h
  · obtain ⟨⟨payload, target⟩, hr⟩ := Option.isSome_iff_exists.mp h
    obtain ⟨left, right, e, hleft⟩ := List.eq_append_cons_of_mem (mem_of_split? hr)
    rw [← String.toList_ofList (l := left), ← String.toList_ofList (l := right)] at e
    rw [← String.toList_ofList (l := left)] at hleft
    have hmeet := (split?_of_cut_eq_some_iff hleft e).mp hr
    exact (addresses_of_isOneSided hmeet.oneSided.1).of_cut e

end Handshake

/-! ## 2. Names -/

theorem isWord_of_isChannelName {name : List Char} (h : Handshake.isChannelName name = true)
    (hword : ∀ c ∈ name, isWordChar c = true) : IsWord name := by
  refine ⟨?_, hword⟩
  cases name with
  | nil => cases h
  | cons c name =>
    cases name with
    | nil => cases h
    | cons d name =>
      obtain rfl : c = '_' := of_decide_eq_true h
      exact ⟨'_', rfl, by decide⟩

theorem isWord_of_isVariableName {name : List Char} (h : isVariableName name = true)
    (hword : ∀ c ∈ name, isWordChar c = true) : IsWord name := by
  refine ⟨?_, hword⟩
  cases name with
  | nil => cases h
  | cons c name =>
    have hletter : Text.isLetter c = true := by
      rw [Text.isLetter, if_pos (ascii_of_isWordChar (hword c List.mem_cons_self))]
      exact Bool.or_eq_true_iff.mpr (Or.inl h)
    exact ⟨c, rfl, hletter⟩

/-- The names of the two kinds of channels start differently. -/
theorem not_isVariableName {name : List Char} (h : Handshake.isChannelName name = true) :
    isVariableName name = false := by
  cases name with
  | nil => cases h
  | cons c name =>
    cases name with
    | nil => cases h
    | cons d name =>
      obtain rfl : c = '_' := of_decide_eq_true h
      rfl

/-- **No text is both a rendezvous and an action on a channel that holds values.** -/
theorem not_addresses_both (h : Addresses Handshake.isChannelName action)
    (h' : Addresses isVariableName action) : False := by
  obtain ⟨mark, name, rest, hmark, hname, hword, hmarked⟩ := h
  obtain ⟨mark', name', rest', hmark', hname', hword', hmarked'⟩ := h'
  obtain ⟨hspace, hchar, -⟩ := of_mem_marks (mem_marks hmark)
  obtain ⟨hspace', hchar', -⟩ := of_mem_marks (mem_marks hmark')
  obtain ⟨-, rfl, -⟩ := hmarked.unique hmarked' hspace hchar hspace' hchar'
    (isWord_of_isChannelName hname hword).ne_nil hword (isWord_of_isVariableName hname' hword').ne_nil hword'
  rw [not_isVariableName hname] at hname'
  cases hname'

/-- **No action on a channel is a sequence of assignments.** -/
theorem Addresses.not_assignment (h : Addresses isName action)
    (hname : ∀ name, isName name = true → (∀ c ∈ name, isWordChar c = true) → IsWord name) :
    Assignment.matches? action = false := by
  obtain ⟨mark, name, rest, hmark, hn, hword, hmarked⟩ := h
  have hw := hname name hn hword
  obtain ⟨hspace, hchar, -, hne⟩ := of_mem_marks (mem_marks hmark)
  have hplain : Assignment.atomicBody? action.toList = none := by
    refine Option.eq_none_iff_forall_ne_some.mpr fun body hbody => hne ?_
    obtain ⟨-, u, -, hatomic⟩ := Assignment.exists_of_atomicBody? hbody
    exact (hmarked.unique hatomic hspace hchar (by decide) (by decide) hw.ne_nil hword
      Assignment.isWord_atomicWord.ne_nil Assignment.isWord_atomicWord.word).1
  have hbody : Marked mark (Assignment.bodyText action ++ Assignment.closing) name
      (rest ++ Assignment.closing) := by
    rw [Assignment.bodyText, hplain]
    exact hmarked.append _
  cases hread : Assignment.readAll action with
  | error c =>
    rw [Assignment.matches?, hread]
    rfl
  | ok steps => exact absurd hread (Assignment.readAll_ne_ok_of_marked (mem_marks hmark) hw hbody)

end Addresses

/-! ## 3. Families -/

namespace Evaluators

/-- **At most one family matches a text.** -/
theorem matches?_unique {capacity : Int} {action : String} {f g : ActionFamily}
    (hf : f ∈ (standard capacity).actions) (hg : g ∈ (standard capacity).actions)
    (hfa : f.matches? action = true) (hga : g.matches? action = true) : f = g := by
  have hboth : Handshake.matches? action = true → ChannelAction.matches? action = true → False :=
    fun h h' => not_addresses_both (Handshake.addresses h) (ChannelAction.addresses h')
  have hhandshake : Handshake.matches? action = true → Assignment.matches? action = true → False := by
    intro h h'
    rw [(Handshake.addresses h).not_assignment fun _ => isWord_of_isChannelName] at h'
    cases h'
  have hchannels : ChannelAction.matches? action = true → Assignment.matches? action = true → False := by
    intro h h'
    rw [(ChannelAction.addresses h).not_assignment fun _ => isWord_of_isVariableName] at h'
    cases h'
  simp only [standard, List.mem_cons, List.not_mem_nil, or_false] at hf hg
  rcases hf with rfl | rfl | rfl <;> rcases hg with rfl | rfl | rfl
  · rfl
  · exact (hboth hfa hga).elim
  · exact (hhandshake hfa hga).elim
  · exact (hboth hga hfa).elim
  · rfl
  · exact (hchannels hfa hga).elim
  · exact (hhandshake hga hfa).elim
  · exact (hchannels hga hfa).elim
  · rfl

/-- Where at most one element is looked for, it is found in every order. -/
theorem find?_eq_of_perm {α : Type} {p : α → Bool} {l l' : List α} (h : l.Perm l')
    (hunique : ∀ x ∈ l', ∀ y ∈ l', p x = true → p y = true → x = y) : l.find? p = l'.find? p := by
  cases hl' : l'.find? p with
  | none =>
    rw [List.find?_eq_none] at hl' ⊢
    exact fun x hx => hl' x (h.mem_iff.mp hx)
  | some y =>
    have hy := List.mem_of_find?_eq_some hl'
    have hpy := List.find?_some hl'
    obtain ⟨x, hx⟩ := Option.isSome_iff_exists.mp
      (List.find?_isSome.mpr ⟨y, h.mem_iff.mpr hy, hpy⟩)
    rw [hx, hunique x (h.mem_iff.mp (List.mem_of_find?_eq_some hx)) y hy (List.find?_some hx) hpy]

theorem family?_of_perm {ev : Evaluators} {capacity : Int}
    (h : ev.actions.Perm (standard capacity).actions) (action : String) :
    ev.family? action = (standard capacity).family? action :=
  find?_eq_of_perm h fun _ hf _ hg hfa hga => matches?_unique hf hg hfa hga

/-- **The order of the families does not matter.** At most one of them matches a text, so that actions and
    initializations lead to the same environments, blockings and failures in whichever order the families are
    asked. -/
theorem families_in_any_order (capacity : Int) :
    (∀ action, ∀ f ∈ (standard capacity).actions, ∀ g ∈ (standard capacity).actions,
      f.matches? action = true → g.matches? action = true → f = g) ∧
    ∀ ev : Evaluators, ev.actions.Perm [.handshake, .channels capacity, .assignments] →
      (∀ action, ev.family? action = (standard capacity).family? action) ∧
      (∀ e action, ev.effect e action = (standard capacity).effect e action) ∧
      ∀ stmts, ev.initial stmts = (standard capacity).initial stmts := by
  refine ⟨fun action f hf g hg => matches?_unique hf hg, fun ev h => ?_⟩
  have hfamily : ∀ action, ev.family? action = (standard capacity).family? action := family?_of_perm h
  refine ⟨hfamily, fun e action => ?_, fun stmts => ?_⟩
  · rw [effect, effect, hfamily]
  · have hstep : ev.initStep = (standard capacity).initStep := by
      funext e stmt
      rw [initStep, initStep, hfamily]
    rw [initial, initial, hstep]

/-- Assignments are asked first and channels last: a rendezvous that spells a key word, a send of an
    inequality and an initialization have the effects that they have in the usual order. -/
theorem families_in_any_order_turned :
    ([.assignments, .handshake, .channels 1] : List ActionFamily).Perm
        [.handshake, .channels 1, .assignments] ∧
      ({ actions := [.assignments, .handshake, .channels 1] } : Evaluators).effect Env.counting
        "_func ! count != 3 | _func ? x" = .ok (some (Env.counting.set "x" (.bool false))) ∧
      ({ actions := [.assignments, .handshake, .channels 1] } : Evaluators).effect Env.counting
        "func != 3" = (standard 1).effect Env.counting "func != 3" ∧
      ({ actions := [.assignments, .handshake, .channels 1] } : Evaluators).initial ["x := 1", "c!x"] =
        (standard 1).initial ["x := 1", "c!x"] := by
  have hperm : ([.assignments, .handshake, .channels 1] : List ActionFamily).Perm
      [.handshake, .channels 1, .assignments] :=
    show ([.assignments] ++ [.handshake, .channels 1] : List ActionFamily).Perm
      ([.handshake, .channels 1] ++ [.assignments]) from List.perm_append_comm
  obtain ⟨-, horder⟩ := families_in_any_order 1
  obtain ⟨-, heffect, hinitial⟩ := horder { actions := [.assignments, .handshake, .channels 1] } hperm
  refine ⟨hperm, ?_, heffect _ _, hinitial _⟩
  rw [heffect]
  decide +kernel

end Evaluators

end Lasso
