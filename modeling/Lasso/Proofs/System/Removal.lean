import Mathlib.Logic.Function.Basic
import Lasso.Proofs.System.Changes
import Lasso.Proofs.System.Prune
/-!
# Refused changes and removals

* `View` -- what can be seen of a system, its lists and what its tables have for each state. Systems
  with the same view differ at most in how their tables are kept;
* `Change.Admissible` -- when a change that is checked is made: it speaks of declared things, and what
  it takes away is not in use;
* `view_of_removeState`, `view_of_removeAction`, `view_of_removeProp` -- a removal takes away the one
  thing that was named and nothing with it, and what was taken away can be put back;
* `removal_never_cascades` -- **refused changes leave no trace, and removals take away one thing**.
-/

namespace Lasso.TransitionSystem

variable {S A P : Type} [DecidableEq S] [Hashable S] [DecidableEq A] [Hashable A]
  [DecidableEq P] [Hashable P] {m m' : TransitionSystem S A P} {s : S}

/-! ## 1. What can be seen of a system -/

/-- **What can be seen of a system.** A state that is not declared has no entry in the tables. -/
structure View (S A P : Type) where
  name : String
  states : List S
  initial : List S
  actions : List A
  props : List P
  transitions : List (Transition S A)
  label? : S → Option (List P)
  outgoing? : S → Option (List (Transition S A))
  incoming? : S → Option (List (Transition S A))

/-- What can be seen in a table of sets. -/
def entries {V : Type} [DecidableEq V] [Hashable V] (map : Std.HashMap S (Ordered V)) (s : S) :
    Option (List V) := map[s]?.map Ordered.toList

def view (m : TransitionSystem S A P) : View S A P where
  name := m.name
  states := m.states.toList
  initial := m.initial.toList
  actions := m.actions.toList
  props := m.props.toList
  transitions := m.transitions.toList
  label? := entries m.labels
  outgoing? := entries m.outgoing
  incoming? := entries m.incoming

/-- The view with other states and with other entries for one of them. -/
def View.withState (v : View S A P) (s : S) (states : List S) (label? : Option (List P))
    (outgoing? incoming? : Option (List (Transition S A))) : View S A P :=
  { v with
    states := states
    label? := Function.update v.label? s label?
    outgoing? := Function.update v.outgoing? s outgoing?
    incoming? := Function.update v.incoming? s incoming? }

omit [Hashable S] [DecidableEq A] [Hashable A] [DecidableEq P] [Hashable P] in
/-- Of two changes at a state the later one counts. -/
theorem View.withState_withState (v : View S A P) (s : S) (ss ss' : List S) (l l' : Option (List P))
    (o i o' i' : Option (List (Transition S A))) :
    (v.withState s ss l o i).withState s ss' l' o' i' = v.withState s ss' l' o' i' := by
  simp only [withState, Function.update_idem]

omit [Hashable S] [DecidableEq A] [Hashable A] [DecidableEq P] [Hashable P] in
/-- The entries of a state may be put where they are. -/
theorem View.withState_self (v : View S A P) (s : S) (ss : List S) :
    v.withState s ss (v.label? s) (v.outgoing? s) (v.incoming? s) = { v with states := ss } := by
  simp only [withState, Function.update_eq_self]

/-- The list with one of its members at its end. -/
def movedLast {α : Type} [DecidableEq α] (a : α) (l : List α) : List α := l.filter (· ≠ a) ++ [a]

section Entries

variable {V : Type} [DecidableEq V] [Hashable V]

theorem entries_erase (map : Std.HashMap S (Ordered V)) (s : S) :
    entries (map.erase s) = Function.update (entries map) s none := by
  funext t
  unfold entries
  rw [Std.HashMap.getElem?_erase]
  by_cases hst : s = t
  · subst hst
    simp
  · rw [Function.update_of_ne (Ne.symm hst)]
    simp [hst]

theorem entries_insert (map : Std.HashMap S (Ordered V)) (s : S) (o : Ordered V) :
    entries (map.insert s o) = Function.update (entries map) s (some o.toList) := by
  funext t
  unfold entries
  rw [Std.HashMap.getElem?_insert]
  by_cases hst : s = t
  · subst hst
    simp
  · rw [Function.update_of_ne (Ne.symm hst)]
    simp [hst]

/-- The entry of a state in a table that has no more than what is known not to be there. -/
theorem entries_eq_nil {states : Ordered S} {map : Std.HashMap S (Ordered V)} {entry : S → Ordered V → Prop}
    (h : Table states map entry) (hs : s ∈ states) (hnil : ∀ o, map[s]? = some o → entry s o → o.toList = []) :
    entries map s = some [] := by
  obtain ⟨o, ho, he⟩ := h.known s hs
  rw [entries, ho, Option.map_some, hnil o ho he]

end Entries

/-- **A new state** comes last, without label and transitions. -/
theorem Consistent.view_addState (h : m.Consistent) (hs : ¬ s ∈ m.states) :
    (m.addState s).view = m.view.withState s (m.states.toList ++ [s]) (some []) (some []) (some []) := by
  have hno : m.states.contains s = false :=
    Bool.eq_false_iff.mpr fun hs' => hs (h.states.contains_iff.mp hs')
  have hlast := h.states.toList_insert s
  rw [if_neg (Ordered.mem_toList.not.mpr hs)] at hlast
  rw [TransitionSystem.addState, hno]
  simp only [Bool.false_eq_true, if_false, view, View.withState, entries_insert, hlast,
    Ordered.toList_empty]

theorem Consistent.view_addAction (h : m.Consistent) {a : A} (ha : ¬ a ∈ m.actions) :
    (m.addAction a).view = { m.view with actions := m.actions.toList ++ [a] } := by
  have hlast := h.actions.toList_insert a
  rw [if_neg (Ordered.mem_toList.not.mpr ha)] at hlast
  rw [← hlast]
  rfl

theorem Consistent.view_addProp (h : m.Consistent) {p : P} (hp : ¬ p ∈ m.props) :
    (m.addProp p).view = { m.view with props := m.props.toList ++ [p] } := by
  have hlast := h.props.toList_insert p
  rw [if_neg (Ordered.mem_toList.not.mpr hp)] at hlast
  rw [← hlast]
  rfl

/-! ## 2. When a change is made -/

/-- The result of a change that is checked; the other changes have none. -/
def Change.result? [Display S] [Display A] [Display P] (m : TransitionSystem S A P) :
    Change S A P → Option (Except SystemError (TransitionSystem S A P))
  | .setInitial s on => some (m.setInitial s on)
  | .addTransition t => some (m.addTransition t)
  | .addLabel s p => some (m.addLabel s p)
  | .removeLabel s p => some (m.removeLabel s p)
  | .removeState s => some (m.removeState s)
  | .removeAction a => some (m.removeAction a)
  | .removeProp p => some (m.removeProp p)
  | _ => none

/-- **What a checked change asks for**: all that it speaks of is declared, and what it takes away is not
    in use. -/
def Change.Admissible (m : TransitionSystem S A P) : Change S A P → Prop
  | .setInitial s _ => s ∈ m.states
  | .addTransition t => t.source ∈ m.states ∧ t.target ∈ m.states ∧ t.action ∈ m.actions
  | .addLabel s p => s ∈ m.states ∧ p ∈ m.props
  | .removeLabel s _ => s ∈ m.states
  | .removeState s => s ∈ m.states ∧ ¬ s ∈ m.initial ∧ (∀ p, ¬ p ∈ m.label s) ∧
      ∀ t, t ∈ m.transitions → t.source ≠ s ∧ t.target ≠ s
  | .removeAction a => a ∈ m.actions ∧ ∀ t, t ∈ m.transitions → t.action ≠ a
  | .removeProp p => p ∈ m.props ∧ ∀ s, s ∈ m.states → ¬ p ∈ m.label s
  | _ => True

section Checked

variable [Display S] [Display A] [Display P]

/-- **A checked change is made exactly if it is admissible.** -/
theorem Consistent.exists_ok_iff (h : m.Consistent) {c : Change S A P}
    {r : Except SystemError (TransitionSystem S A P)} (hr : c.result? m = some r) :
    (∃ m', r = .ok m') ↔ c.Admissible m := by
  cases c <;> cases hr <;>
    simp only [h.setInitial_eq_ok, h.addTransition_eq_ok, h.addLabel_eq_ok, h.removeLabel_eq_ok,
      h.removeState_eq_ok, h.removeAction_eq_ok, h.removeProp_eq_ok, exists_and_left, exists_eq,
      and_true, Change.Admissible]

/-- A change that is refused leaves the system as it was. -/
theorem leaves_of_error {c : Change S A P} {e : SystemError} (hr : c.result? m = some (.error e)) :
    c.leaves m = m := by
  cases c <;> simp only [Change.result?, Option.some.injEq, reduceCtorEq] at hr <;>
    rw [Change.leaves, hr, leftBy]

end Checked

/-! ## 3. What a removal takes away -/

section Removal

variable [Display S] [Display A] [Display P]

omit [Display A] [Display P] in
/-- **Taking a state away** takes its entries, which were empty, and nothing else; put back, it is the
    last state. -/
theorem Consistent.view_of_removeState (h : m.Consistent) (he : m.removeState s = .ok m') :
    m'.view = m.view.withState s (m.states.toList.filter (· ≠ s)) none none none ∧
      (m'.addState s).view = { m.view with states := movedLast s m.states.toList } := by
  have hc := h.removeState he
  obtain ⟨⟨hs, -, hlabel, hends⟩, e⟩ := h.removeState_eq_ok.mp he
  have hstates : m'.states.toList = m.states.toList.filter (· ≠ s) := by
    rw [e]
    exact h.states.toList_erase s
  have hview : m'.view = m.view.withState s (m.states.toList.filter (· ≠ s)) none none none := by
    rw [← hstates, e]
    simp only [view, View.withState, entries_erase]
  refine ⟨hview, ?_⟩
  -- the entries that went with the state were empty, as those that come with it are
  have hl : m.view.label? s = some [] := entries_eq_nil h.labels hs fun l hl _ => by
    refine List.eq_nil_iff_forall_not_mem.mpr fun p hp => hlabel p ?_
    rw [label, label?, hl]
    exact hp
  have ho : m.view.outgoing? s = some [] := entries_eq_nil h.outgoing hs fun o _ ho => by
    rw [ho.listed]
    exact List.filter_eq_nil_iff.mpr fun t ht e => (hends t ht).1 (of_decide_eq_true e)
  have hi : m.view.incoming? s = some [] := entries_eq_nil h.incoming hs fun o _ ho => by
    rw [ho.listed]
    exact List.filter_eq_nil_iff.mpr fun t ht e => (hends t ht).2 (of_decide_eq_true e)
  have hself := m.view.withState_self s (movedLast s m.states.toList)
  rw [hl, ho, hi] at hself
  have hnew : ¬ s ∈ m'.states := by
    rw [← Ordered.mem_toList, hstates]
    simp
  rw [hc.view_addState hnew, hview, View.withState_withState, hstates]
  exact hself

omit [Display P] in
/-- **Taking an action away** takes nothing else; put back, it is the last action. -/
theorem Consistent.view_of_removeAction (h : m.Consistent) {a : A} (he : m.removeAction a = .ok m') :
    m'.view = { m.view with actions := m.actions.toList.filter (· ≠ a) } ∧
      (m'.addAction a).view = { m.view with actions := movedLast a m.actions.toList } := by
  have hc := h.removeAction he
  obtain ⟨-, rfl⟩ := h.removeAction_eq_ok.mp he
  have hgone := h.actions.toList_erase a
  refine ⟨by rw [← hgone]; rfl, ?_⟩
  rw [hc.view_addAction fun hmem => (h.actions.mem_erase.mp hmem).2 rfl, hgone]
  rfl

omit [Display A] in
/-- **Taking a proposition away** takes nothing else; put back, it is the last proposition. -/
theorem Consistent.view_of_removeProp (h : m.Consistent) {p : P} (he : m.removeProp p = .ok m') :
    m'.view = { m.view with props := m.props.toList.filter (· ≠ p) } ∧
      (m'.addProp p).view = { m.view with props := movedLast p m.props.toList } := by
  have hc := h.removeProp he
  obtain ⟨-, rfl⟩ := h.removeProp_eq_ok.mp he
  have hgone := h.props.toList_erase p
  refine ⟨by rw [← hgone]; rfl, ?_⟩
  rw [hc.view_addProp fun hmem => (h.props.mem_erase.mp hmem).2 rfl, hgone]
  rfl

/-- **Refused changes leave no trace, and removals take away one thing**: a checked change is made exactly
    if it is admissible, and leaves the system as it was otherwise; a removal that is made takes away
    what it names and nothing with it, and when that is added again, the system is as before but for its
    place in the order. -/
theorem removal_never_cascades (h : m.Built) :
    (∀ (c : Change S A P) (r : Except SystemError (TransitionSystem S A P)), c.result? m = some r →
      ((∃ m', r = .ok m') ↔ c.Admissible m) ∧ ∀ e, r = .error e → c.leaves m = m) ∧
    (∀ s m', m.removeState s = .ok m' →
      m'.view = m.view.withState s (m.states.toList.filter (· ≠ s)) none none none ∧
        (m'.addState s).view = { m.view with states := movedLast s m.states.toList }) ∧
    (∀ a m', m.removeAction a = .ok m' →
      m'.view = { m.view with actions := m.actions.toList.filter (· ≠ a) } ∧
        (m'.addAction a).view = { m.view with actions := movedLast a m.actions.toList }) ∧
    ∀ p m', m.removeProp p = .ok m' →
      m'.view = { m.view with props := m.props.toList.filter (· ≠ p) } ∧
        (m'.addProp p).view = { m.view with props := movedLast p m.props.toList } := by
  have hc := h.consistent
  refine ⟨fun c r hr => ⟨hc.exists_ok_iff hr, fun e he => leaves_of_error (he ▸ hr)⟩, ?_, ?_, ?_⟩
  · exact fun s m' => hc.view_of_removeState
  · exact fun a m' => hc.view_of_removeAction
  · exact fun p m' => hc.view_of_removeProp

end Removal

/-- Nothing speaks of the last state of `backwater`. -/
theorem admissible_backwater : (Change.removeState 4).Admissible backwater := by
  refine ⟨?_, ?_, ?_, ?_⟩
  · exact Parts.mem_states_system.mpr (by decide)
  · rw [mem_initial_backwater]
    decide
  · intro p
    rw [backwater, backwater_closed.mem_label_system]
    exact List.not_mem_nil
  · intro t ht
    rw [mem_transitions_backwater] at ht
    revert t
    decide

theorem removal_never_cascades_backwater :
    backwater.Built ∧ (Change.removeState 4).Admissible backwater ∧
      ∃ m', backwater.removeState 4 = .ok m' ∧
        m'.view =
          backwater.view.withState 4 (backwater.states.toList.filter (· ≠ 4)) none none none ∧
        (m'.addState 4).view =
          { backwater.view with states := movedLast 4 backwater.states.toList } := by
  obtain ⟨hchecked, hstate, -⟩ := removal_never_cascades backwater_built
  obtain ⟨m', hm'⟩ := (hchecked (.removeState 4) _ rfl).1.mpr admissible_backwater
  exact ⟨backwater_built, admissible_backwater, m', hm', hstate 4 m' hm'⟩

end Lasso.TransitionSystem
