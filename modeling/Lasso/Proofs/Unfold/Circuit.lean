import Mathlib.Data.Finset.Dedup
import Lasso.Proofs.Env.Assign
import Lasso.Proofs.System.Checked
import Lasso.Proofs.System.Path
/-!
# The transition system of a circuit

A circuit has a semantics of its own: it starts with any inputs and all registers off, and a step sets
the registers as the circuit says and reads any inputs. This file shows how far unfolding gives it.

* `Defined` -- what is asked of a circuit; `Starts`, `Moves`, `Reached`, `IsOn` -- what it does;
  `IsSystemOf` -- a transition system that does the same;
* `Followed` -- what following the steps of one state leaves; `Explored` -- the invariant of the search,
  `Explored.turn` one turn of it and `Explored.exists_followAll?` the whole: it ends, because each turn
  takes up one of finitely many states;
* `exists_unfold` -- **with few inputs the unfolding is the system of the circuit**; `unfold_of_crowded` --
  with more there is no room for their values; `unfold_of_wide` -- with still more the word that counts
  the values overflows, and the system has no states;
* `unfold_isSystemOf_iff` -- all cases together.
-/

namespace Lasso.Circuit

open Env TransitionSystem

variable {ε : Type} {c : Circuit ε} {inputs : List Env} {u u' : Unfolding} {s : State} {r : Env}

/-! ## 1. What a circuit does -/

/-- **What is asked of a circuit**: for inputs and registers that are on or off it gives new registers
    that are on or off, and values of its outputs. -/
structure Defined (c : Circuit ε) : Prop where
  update : ∀ i r, Assigns c.inputs i → Assigns c.registers r →
    ∃ r', c.update i r = .ok r' ∧ Assigns c.registers r'
  compute : ∀ i r, Assigns c.inputs i → Assigns c.registers r →
    ∃ o, c.compute i r = .ok o ∧ o.Over c.outputs

/-- Where a circuit starts: with any inputs, and all registers off. -/
structure Starts (c : Circuit ε) (s : State) : Prop where
  inputs : Assigns c.inputs s.first
  registers : AllOff c.registers s.second

/-- A step of a circuit: its action are the inputs that it reads. -/
structure Moves (c : Circuit ε) (s : State) (a : Env) (t : State) : Prop where
  inputs : Assigns c.inputs a
  reads : t.first = a
  updates : c.update s.first s.second = .ok t.second

/-- The states that a circuit comes to. -/
inductive Reached (c : Circuit ε) : State → Prop where
  | start (s : State) (h : c.Starts s) : Reached c s
  | step (s : State) (a : Env) (t : State) (hs : Reached c s) (h : c.Moves s a t) : Reached c t

/-- A name is on in a state: as an input, as a register or as an output. -/
def IsOn (c : Circuit ε) (s : State) (name : String) : Prop :=
  s.first.get? name = some (.bool true) ∨ s.second.get? name = some (.bool true) ∨
    ∃ o, c.compute s.first s.second = .ok o ∧ o.get? name = some (.bool true)

/-- **A transition system that does what the circuit does.** -/
structure IsSystemOf (c : Circuit ε) (m : System) : Prop where
  built : m.Built
  initial : ∀ s, s ∈ m.initial ↔ c.Starts s
  states : ∀ s, s ∈ m.states ↔ c.Reached s
  transitions : ∀ s a t, ⟨s, a, t⟩ ∈ m.transitions ↔ c.Reached s ∧ c.Moves s a t
  proceeds : ∀ s, s ∈ m.states → m.isTerminal s = .ok false
  label : ∀ s, s ∈ m.states → ∀ name, name ∈ m.label s ↔ c.IsOn s name

theorem Moves.target_eq {a : Env} {t : State} (h : c.Moves s a t)
    (hr : c.update s.first s.second = .ok r) : t = ⟨a, r⟩ := by
  obtain ⟨first, second⟩ := t
  obtain rfl : first = a := h.reads
  obtain rfl : second = r := Except.ok.inj (h.updates.symm.trans hr)
  rfl

theorem Reached.assigns (hd : c.Defined) (h : c.Reached s) :
    Assigns c.inputs s.first ∧ Assigns c.registers s.second := by
  induction h with
  | start s h => exact ⟨h.inputs, h.registers.assigns⟩
  | step s a t _ hm ih =>
    obtain ⟨r, hr, hassigns⟩ := hd.update _ _ ih.1 ih.2
    rw [hm.target_eq hr]
    exact ⟨hm.inputs, hassigns⟩

/-- All pairs of inputs and registers that are on or off. -/
def allStates (c : Circuit ε) : Finset State :=
  ((List.range (2 ^ c.inputs.length)).map (assignment c.inputs)).flatMap (fun i =>
    ((List.range (2 ^ c.registers.length)).map (assignment c.registers)).map fun r => (⟨i, r⟩ : State))
  |>.toFinset

theorem Reached.mem_allStates (hd : c.Defined) (h : c.Reached s) : s ∈ c.allStates := by
  obtain ⟨hi, hr⟩ := h.assigns hd
  refine List.mem_toFinset.mpr (List.mem_flatMap.mpr ⟨s.first, mem_range_assignment.mpr hi, ?_⟩)
  exact List.mem_map.mpr ⟨s.second, mem_range_assignment.mpr hr, rfl⟩

/-! ## 2. What is ahead of the search -/

/-- The number of states that wait or that are not entered yet. -/
def ahead (c : Circuit ε) (u : Unfolding) : Nat :=
  u.waiting.length + (missing c.allStates u.system).card

theorem system_discover (u : Unfolding) (t : State) :
    (discover u t).system = u.system.addState t := by
  unfold discover
  split
  · rename_i hold
    rw [TransitionSystem.addState, if_pos hold]
  · rfl

theorem mem_waiting_discover (h : u.system.Consistent) {t x : State} :
    x ∈ (discover u t).waiting ↔ x ∈ u.waiting ∨ (¬ x ∈ u.system.states ∧ x = t) := by
  unfold discover
  split
  · rename_i hold
    refine ⟨Or.inl, fun hx => hx.elim id fun ⟨hno, e⟩ => ?_⟩
    exact absurd (e ▸ h.states.contains_iff.mp hold) hno
  · rename_i hnew
    rw [List.mem_cons]
    constructor
    · rintro (rfl | hx)
      · exact Or.inr ⟨fun hold => hnew (h.states.contains_iff.mpr hold), rfl⟩
      · exact Or.inl hx
    · rintro (hx | ⟨-, e⟩)
      · exact Or.inr hx
      · exact Or.inl e

/-- Entering a state leaves no more ahead than there was: a new state waits, but it is not missing any
    more. -/
theorem ahead_discover_le (h : u.system.Consistent) {t : State} (ht : t ∈ c.allStates) :
    c.ahead (discover u t) ≤ c.ahead u := by
  unfold ahead
  rw [system_discover]
  unfold discover
  split
  · rename_i hold
    rw [TransitionSystem.addState, if_pos hold]
  · rename_i hnew
    have hless := h.card_missing_addState ht fun hold => hnew (h.states.contains_iff.mpr hold)
    rw [List.length_cons]
    omega

/-! ## 3. Following the steps of a state -/

/-- **What following steps from a state leaves**: the states that given inputs lead to, with the steps
    there; those that are new wait. -/
structure Followed (c : Circuit ε) (s : State) (r : Env) (inputs : List Env) (u u' : Unfolding) :
    Prop where
  built : u'.system.Built
  initial : u'.system.initial = u.system.initial
  actions : u'.system.actions = u.system.actions
  props : u'.system.props = u.system.props
  label : ∀ x, u'.system.label x = u.system.label x
  states : ∀ x, x ∈ u'.system.states ↔ x ∈ u.system.states ∨ ∃ i ∈ inputs, x = ⟨i, r⟩
  transitions : ∀ t, t ∈ u'.system.transitions ↔
    t ∈ u.system.transitions ∨ ∃ i ∈ inputs, t = ⟨s, i, ⟨i, r⟩⟩
  waiting : ∀ x, x ∈ u'.waiting ↔ x ∈ u.waiting ∨ (¬ x ∈ u.system.states ∧ x ∈ u'.system.states)
  ahead_le : (∀ i ∈ inputs, ⟨i, r⟩ ∈ c.allStates) → c.ahead u' ≤ c.ahead u

theorem Followed.nil (h : u.system.Built) : Followed c s r [] u u where
  built := h
  initial := rfl
  actions := rfl
  props := rfl
  label _ := rfl
  states x := by simp
  transitions t := by simp
  waiting x := ⟨Or.inl, fun hx => hx.elim id fun hx => absurd hx.2 hx.1⟩
  ahead_le _ := Nat.le_refl _

/-- Steps behind steps. -/
theorem Followed.cons {i : Env} {u₁ : Unfolding} (h : Followed c s r [i] u u₁)
    (h' : Followed c s r inputs u₁ u') : Followed c s r (i :: inputs) u u' where
  built := h'.built
  initial := h'.initial.trans h.initial
  actions := h'.actions.trans h.actions
  props := h'.props.trans h.props
  label x := (h'.label x).trans (h.label x)
  states x := by
    rw [h'.states, h.states]
    simp [or_assoc]
  transitions t := by
    rw [h'.transitions, h.transitions]
    simp [or_assoc]
  waiting x := by
    have hgrows : x ∈ u.system.states → x ∈ u₁.system.states := fun hx => (h.states x).mpr (Or.inl hx)
    have hgrows' : x ∈ u₁.system.states → x ∈ u'.system.states :=
      fun hx => (h'.states x).mpr (Or.inl hx)
    rw [h'.waiting, h.waiting]
    tauto
  ahead_le hall := Nat.le_trans (h'.ahead_le fun j hj => hall j (List.mem_cons_of_mem _ hj))
    (h.ahead_le fun j hj => hall j (List.mem_singleton.mp hj ▸ List.mem_cons_self))

/-- **Following one step** succeeds between declared things. -/
theorem exists_followInputs (c : Circuit ε) (h : u.system.Built) (hs : s ∈ u.system.states) {i : Env}
    (hi : i ∈ u.system.actions) :
    ∃ u', (followInputs s r u i : Except (CircuitError ε) Unfolding) = .ok u' ∧
      Followed c s r [i] u u' := by
  have hc := h.consistent
  have hstates : ∀ x, x ∈ (u.system.addState ⟨i, r⟩).states ↔ x ∈ u.system.states ∨ x = ⟨i, r⟩ := by
    intro x
    rw [states_addState]
    exact hc.states.mem_insert
  have hbuilt : (u.system.addState ⟨i, r⟩).Built := .addState _ _ h
  have hadd : (u.system.addState ⟨i, r⟩).addTransition ⟨s, i, ⟨i, r⟩⟩ =
      .ok ((u.system.addState ⟨i, r⟩).insertTransition ⟨s, i, ⟨i, r⟩⟩) := by
    refine hbuilt.consistent.addTransition_eq_ok.mpr
      ⟨⟨(hstates s).mpr (Or.inl hs), (hstates _).mpr (Or.inr rfl), ?_⟩, rfl⟩
    rwa [actions_addState]
  refine ⟨⟨(u.system.addState ⟨i, r⟩).insertTransition ⟨s, i, ⟨i, r⟩⟩,
    (discover u ⟨i, r⟩).waiting⟩, ?_, ?_⟩
  · simp only [followInputs, system_discover, hadd]
    rfl
  · exact {
      built := .addTransition _ _ _ hbuilt hadd
      initial := by simp
      actions := by simp
      props := by simp
      label := fun x => by rw [label_insertTransition, hc.label_addState]
      states := fun x => by
        rw [states_insertTransition, hstates]
        simp
      transitions := fun t => by
        rw [transitions_insertTransition, transitions_addState, hc.transitions.mem_insert]
        simp
      waiting := fun x => by
        rw [states_insertTransition, hstates, mem_waiting_discover hc]
        tauto
      ahead_le := fun hall => by
        have hle := ahead_discover_le hc (hall i List.mem_cons_self)
        unfold ahead missing at hle ⊢
        rwa [states_insertTransition, ← system_discover] }

/-- **Following the steps with all given inputs.** -/
theorem exists_foldlM_followInputs (c : Circuit ε) (h : u.system.Built) (hs : s ∈ u.system.states)
    (hi : ∀ i ∈ inputs, i ∈ u.system.actions) :
    ∃ u', (inputs.foldlM (followInputs s r) u : Except (CircuitError ε) Unfolding) = .ok u' ∧
      Followed c s r inputs u u' := by
  induction inputs generalizing u with
  | nil => exact ⟨u, rfl, .nil h⟩
  | cons i inputs ih =>
    obtain ⟨u₁, e₁, h₁⟩ := exists_followInputs c (r := r) h hs (hi i List.mem_cons_self)
    obtain ⟨u', e', h'⟩ := ih h₁.built ((h₁.states s).mpr (Or.inl hs)) fun j hj =>
      h₁.actions ▸ hi j (List.mem_cons_of_mem _ hj)
    refine ⟨u', ?_, h₁.cons h'⟩
    rw [List.foldlM_cons, e₁]
    exact e'

/-! ## 4. The search -/

/-- **The invariant of the search.** What is entered is part of what the circuit does, and a state that
    does not wait has all its steps. -/
structure Explored (c : Circuit ε) (u : Unfolding) : Prop where
  built : u.system.Built
  ports : ∀ p ∈ c.inputs ++ c.registers ++ c.outputs, p ∈ u.system.props
  actions : ∀ i, Assigns c.inputs i → i ∈ u.system.actions
  unlabeled : ∀ s p, ¬ p ∈ u.system.label s
  initial : ∀ s, s ∈ u.system.initial ↔ c.Starts s
  reached : ∀ s, s ∈ u.system.states → c.Reached s
  moves : ∀ t, t ∈ u.system.transitions → c.Moves t.source t.action t.target
  waiting : ∀ s ∈ u.waiting, s ∈ u.system.states
  handled : ∀ s, s ∈ u.system.states →
    s ∈ u.waiting ∨ ∀ a t, c.Moves s a t → ⟨s, a, t⟩ ∈ u.system.transitions

/-- Following all steps of a state that waits keeps the invariant. -/
theorem Explored.followed (hin : ∀ i, i ∈ inputs ↔ Assigns c.inputs i) {m : System} {rest : List State}
    (h : Explored c ⟨m, s :: rest⟩) (hr : c.update s.first s.second = .ok r)
    (hf : Followed c s r inputs ⟨m, rest⟩ u') : Explored c u' where
  built := hf.built
  ports p hp := hf.props ▸ h.ports p hp
  actions i hi := hf.actions ▸ h.actions i hi
  unlabeled x p := hf.label x ▸ h.unlabeled x p
  initial x := hf.initial ▸ h.initial x
  reached x hx := by
    rcases (hf.states x).mp hx with hx | ⟨i, hi, rfl⟩
    · exact h.reached x hx
    · exact .step s i _ (h.reached s (h.waiting s List.mem_cons_self)) ⟨(hin i).mp hi, rfl, hr⟩
  moves t ht := by
    rcases (hf.transitions t).mp ht with ht | ⟨i, hi, rfl⟩
    · exact h.moves t ht
    · exact ⟨(hin i).mp hi, rfl, hr⟩
  waiting x hx := by
    rcases (hf.waiting x).mp hx with hx | ⟨-, hx⟩
    · exact (hf.states x).mpr (Or.inl (h.waiting x (List.mem_cons_of_mem _ hx)))
    · exact hx
  handled x hx := by
    by_cases hxs : x = s
    · -- the state that was taken up has all its steps now
      subst hxs
      refine Or.inr fun a t hm => (hf.transitions _).mpr (Or.inr ⟨a, (hin a).mpr hm.inputs, ?_⟩)
      rw [hm.target_eq hr]
    · by_cases hold : x ∈ m.states
      · rcases h.handled x hold with hw | hall
        · exact Or.inl ((hf.waiting x).mpr (Or.inl ((List.mem_cons.mp hw).resolve_left hxs)))
        · exact Or.inr fun a t hm => (hf.transitions _).mpr (Or.inl (hall a t hm))
      · exact Or.inl ((hf.waiting x).mpr (Or.inr ⟨hold, hx⟩))

/-- **One turn of the search** takes up a state that waits and follows its steps. -/
theorem Explored.turn (hd : c.Defined) (hin : ∀ i, i ∈ inputs ↔ Assigns c.inputs i) {m : System}
    {rest : List State} (h : Explored c ⟨m, s :: rest⟩) :
    ∃ u', c.followState inputs s ⟨m, rest⟩ = .ok u' ∧ Explored c u' ∧
      c.ahead u' < c.ahead ⟨m, s :: rest⟩ := by
  have hs : s ∈ m.states := h.waiting s List.mem_cons_self
  have hreached := h.reached s hs
  obtain ⟨hfirst, hsecond⟩ := hreached.assigns hd
  obtain ⟨r, hr, -⟩ := hd.update _ _ hfirst hsecond
  have hactions : ∀ i ∈ inputs, i ∈ m.actions := fun i hi => h.actions i ((hin i).mp hi)
  obtain ⟨u', e, hf⟩ := exists_foldlM_followInputs c (u := ⟨m, rest⟩) (r := r) h.built hs hactions
  refine ⟨u', ?_, h.followed hin hr hf, ?_⟩
  · rw [followState, hr]
    exact e
  · have hnext : ∀ i ∈ inputs, c.Reached ⟨i, r⟩ :=
      fun i hi => .step s i _ hreached ⟨(hin i).mp hi, rfl, hr⟩
    calc c.ahead u' ≤ c.ahead ⟨m, rest⟩ := hf.ahead_le fun i hi => (hnext i hi).mem_allStates hd
      _ < c.ahead ⟨m, s :: rest⟩ := Nat.add_lt_add_right (Nat.lt_succ_self rest.length) _

/-- **The whole search** ends, and nothing waits then. -/
theorem Explored.exists_followAll? (hd : c.Defined) (hin : ∀ i, i ∈ inputs ↔ Assigns c.inputs i)
    (h : Explored c u) : ∃ m, c.followAll? inputs u = some (.ok m) ∧ Explored c ⟨m, []⟩ := by
  induction hn : c.ahead u using Nat.strong_induction_on generalizing u with
  | h n ih =>
    subst hn
    obtain ⟨m, waiting⟩ := u
    rw [followAll?.eq_def]
    cases waiting with
    | nil => exact ⟨m, rfl, h⟩
    | cons s rest =>
      obtain ⟨u', e, hu', hless⟩ := h.turn hd hin
      simp only [e]
      exact ih _ hless hu' rfl

/-! ## 5. The start -/

/-- What entering initial states leaves. -/
structure Entered (starts : List State) (m m' : System) : Prop where
  built : m'.Built
  actions : m'.actions = m.actions
  props : m'.props = m.props
  transitions : m'.transitions = m.transitions
  label : ∀ x, m'.label x = m.label x
  states : ∀ x, x ∈ m'.states ↔ x ∈ m.states ∨ x ∈ starts
  initial : ∀ x, x ∈ m'.initial ↔ x ∈ m.initial ∨ x ∈ starts

theorem exists_foldlM_addStart {m : System} (h : m.Built) (starts : List State) :
    ∃ m', (starts.foldlM addStart m : Except (CircuitError ε) System) = .ok m' ∧ Entered starts m m' := by
  induction starts generalizing m with
  | nil => exact ⟨m, rfl, h, rfl, rfl, rfl, fun _ => rfl, by simp, by simp⟩
  | cons s starts ih =>
    have hadd : (m.addState s).Built := .addState m s h
    have hstates : ∀ x, x ∈ (m.addState s).states ↔ x ∈ m.states ∨ x = s := fun x => by
      rw [states_addState]
      exact h.consistent.states.mem_insert
    have hset : (m.addState s).setInitial s true = .ok ((m.addState s).insertInitial s) :=
      hadd.consistent.setInitial_eq_ok.mpr ⟨(hstates s).mpr (Or.inr rfl), rfl⟩
    obtain ⟨m', e, hm'⟩ := ih (.setInitial _ _ s true hadd hset)
    refine ⟨m', ?_, hm'.built, ?_, ?_, ?_, fun x => ?_, fun x => ?_, fun x => ?_⟩
    · rw [List.foldlM_cons, addStart, hset]
      exact e
    · rw [hm'.actions, actions_insertInitial, actions_addState]
    · rw [hm'.props, props_insertInitial, props_addState]
    · rw [hm'.transitions, transitions_insertInitial, transitions_addState]
    · rw [hm'.label, label_insertInitial, h.consistent.label_addState]
    · rw [hm'.states, states_insertInitial, hstates, List.mem_cons, or_assoc]
    · rw [hm'.initial, initial_insertInitial, initial_addState, h.consistent.initial.mem_insert,
        List.mem_cons, or_assoc]

/-- The system of a circuit before anything is entered: its ports and actions. -/
def frame (c : Circuit ε) (inputs : List Env) : System :=
  ((TransitionSystem.empty "circuit").addProps (c.inputs ++ c.registers ++ c.outputs)).addActions inputs

theorem frame_built (c : Circuit ε) (inputs : List Env) : (c.frame inputs).Built :=
  List.foldlRecOn inputs addAction
    (List.foldlRecOn _ addProp (Built.empty "circuit") fun _ hm p _ => .addProp _ p hm)
    fun _ hm a _ => .addAction _ a hm

theorem mem_actions_frame {a : Env} : a ∈ (c.frame inputs).actions ↔ a ∈ inputs := by
  rw [frame, addActions_eq, addProps_eq]
  exact Ordered.mem_ofList

theorem mem_props_frame {p : String} :
    p ∈ (c.frame inputs).props ↔ p ∈ c.inputs ++ c.registers ++ c.outputs := by
  rw [frame, addActions_eq, addProps_eq]
  exact Ordered.mem_ofList

theorem label_frame (s : State) : (c.frame inputs).label s = ∅ := by
  rw [frame, label_addActions, label_addProps]
  exact (consistent_empty "circuit").label_of_not_mem (Ordered.not_mem_empty s)

theorem states_frame : (c.frame inputs).states.toList = [] := by
  rw [frame, addActions_eq, addProps_eq]
  rfl

/-- The initial states of a circuit with given inputs. -/
def startsWith (c : Circuit ε) (inputs : List Env) : List State :=
  inputs.map fun i => ⟨i, .ofList (c.registers.map (·, .bool false))⟩

theorem mem_startsWith (hin : ∀ i, i ∈ inputs ↔ Assigns c.inputs i) :
    s ∈ c.startsWith inputs ↔ c.Starts s := by
  unfold startsWith
  rw [List.mem_map]
  constructor
  · rintro ⟨i, hi, rfl⟩
    exact ⟨(hin i).mp hi, allOff_iff.mpr rfl⟩
  · intro h
    obtain ⟨first, second⟩ := s
    obtain rfl := allOff_iff.mp h.registers
    exact ⟨first, (hin first).mpr h.inputs, rfl⟩

/-- **What the search starts from is explored**: the initial states, which all wait. -/
theorem Entered.explored (hin : ∀ i, i ∈ inputs ↔ Assigns c.inputs i) {m : System}
    (h : Entered (c.startsWith inputs) (c.frame inputs) m) :
    Explored c ⟨m, (c.startsWith inputs).reverse⟩ := by
  have hno : ∀ s, ¬ s ∈ (c.frame inputs).states ∧ ¬ s ∈ (c.frame inputs).initial := fun s => by
    rw [frame, addActions_eq, addProps_eq]
    exact ⟨Ordered.not_mem_empty s, Ordered.not_mem_empty s⟩
  have hstates : ∀ s, s ∈ m.states ↔ s ∈ c.startsWith inputs :=
    fun s => (h.states s).trans (or_iff_right (hno s).1)
  have hinitial : ∀ s, s ∈ m.initial ↔ s ∈ c.startsWith inputs :=
    fun s => (h.initial s).trans (or_iff_right (hno s).2)
  have htransitions : ∀ t, ¬ t ∈ m.transitions := fun t => by
    rw [h.transitions, frame, addActions_eq, addProps_eq]
    exact Ordered.not_mem_empty t
  exact {
    built := h.built
    ports := fun p hp => by
      rw [h.props]
      exact mem_props_frame.mpr hp
    actions := fun i hi => by
      rw [h.actions]
      exact mem_actions_frame.mpr ((hin i).mpr hi)
    unlabeled := fun s p => by
      rw [h.label, label_frame]
      exact Ordered.not_mem_empty p
    initial := fun s => (hinitial s).trans (mem_startsWith hin)
    reached := fun s hs => .start s ((mem_startsWith hin).mp ((hstates s).mp hs))
    moves := fun t ht => absurd ht (htransitions t)
    waiting := fun s hs => (hstates s).mpr (List.mem_reverse.mp hs)
    handled := fun s hs => Or.inl (List.mem_reverse.mpr ((hstates s).mp hs)) }

/-! ## 6. Labels -/

/-- The names that are on in a state. -/
def namesOf (c : Circuit ε) (s : State) : List String :=
  [s.first, s.second, (c.compute s.first s.second).toOption.getD ∅].flatMap namesOn

theorem mem_namesOf (hd : c.Defined) (h : c.Reached s) {name : String} :
    name ∈ c.namesOf s ↔ c.IsOn s name := by
  obtain ⟨hfirst, hsecond⟩ := h.assigns hd
  obtain ⟨o, ho, hover⟩ := hd.compute _ _ hfirst hsecond
  unfold namesOf IsOn
  simp only [ho, List.flatMap_cons, List.flatMap_nil, List.append_nil, List.mem_append,
    Except.toOption, Option.getD_some, hfirst.toOver.mem_namesOn, hsecond.toOver.mem_namesOn,
    hover.mem_namesOn, Except.ok.injEq, exists_eq_left']

/-- Only ports are on. -/
theorem IsOn.mem_ports (hd : c.Defined) (h : c.Reached s) {name : String} (hon : c.IsOn s name) :
    name ∈ c.inputs ++ c.registers ++ c.outputs := by
  obtain ⟨hfirst, hsecond⟩ := h.assigns hd
  obtain ⟨o, ho, hover⟩ := hd.compute _ _ hfirst hsecond
  have hmem : ∀ {ns : List String} {e : Env}, e.Over ns → e.get? name = some (.bool true) → name ∈ ns := by
    intro ns e he hv
    refine Classical.byContradiction fun hno => ?_
    rw [he.get?_eq_none hno] at hv
    cases hv
  rw [List.mem_append, List.mem_append]
  rcases hon with hv | hv | ⟨o', ho', hv⟩
  · exact Or.inl (Or.inl (hmem hfirst.toOver hv))
  · exact Or.inl (Or.inr (hmem hsecond.toOver hv))
  · obtain rfl : o' = o := Except.ok.inj (ho'.symm.trans ho)
    exact Or.inr (hmem hover hv)

/-- **Labeling the states** of a system that is explored succeeds and gives each of them the names that
    are on in it. -/
theorem Explored.exists_label (hd : c.Defined) {m : System} (h : Explored c ⟨m, []⟩) :
    ∃ xs, m.states.toList.foldlM c.labelState m = .ok (m.insertLabels xs) ∧
      (∀ x ∈ xs, x.1 ∈ m.states ∧ x.2 ∈ m.props) ∧
      ∀ s p, (s, p) ∈ xs ↔ s ∈ m.states ∧ c.IsOn s p := by
  have hmem : ∀ s p, (s, p) ∈ m.states.toList.flatMap (fun s => (c.namesOf s).map (s, ·)) ↔
      s ∈ m.states ∧ c.IsOn s p := by
    intro s p
    simp only [List.mem_flatMap, List.mem_map, Prod.mk.injEq]
    constructor
    · rintro ⟨s, hs, p, hp, rfl, rfl⟩
      exact ⟨hs, (mem_namesOf hd (h.reached s hs)).mp hp⟩
    · rintro ⟨hs, hp⟩
      exact ⟨s, hs, p, (mem_namesOf hd (h.reached s hs)).mpr hp, rfl, rfl⟩
  have hdeclared : ∀ x ∈ m.states.toList.flatMap (fun s => (c.namesOf s).map (s, ·)),
      x.1 ∈ m.states ∧ x.2 ∈ m.props := by
    intro x hx
    obtain ⟨hs, hp⟩ := (hmem x.1 x.2).mp hx
    exact ⟨hs, h.ports _ (hp.mem_ports hd (h.reached _ hs))⟩
  have hturn : ∀ s ∈ m.states.toList, ∀ m', c.labelState m' s = ((c.namesOf s).map (s, ·)).foldlM
      (fun m x => (TransitionSystem.addLabel m x.1 x.2).mapError .system) m' := by
    intro s hs m'
    obtain ⟨hfirst, hsecond⟩ := (h.reached s hs).assigns hd
    obtain ⟨o, ho, -⟩ := hd.compute _ _ hfirst hsecond
    rw [labelState, ho, List.foldlM_map, namesOf, ho]
    rfl
  refine ⟨_, ?_, hdeclared, hmem⟩
  rw [foldlM_eq_foldlM_flatMap hturn]
  exact foldlM_mapError_eq_ok (h.built.consistent.foldlM_addLabel hdeclared) _

/-- **What the search leaves, labeled, is the system of the circuit.** -/
theorem Explored.isSystemOf (hd : c.Defined) {m : System} (h : Explored c ⟨m, []⟩)
    {xs : List (State × String)} (hdeclared : ∀ x ∈ xs, x.1 ∈ m.states ∧ x.2 ∈ m.props)
    (hmem : ∀ s p, (s, p) ∈ xs ↔ s ∈ m.states ∧ c.IsOn s p) : c.IsSystemOf (m.insertLabels xs) := by
  have hc := h.built.consistent
  have hall : ∀ s, s ∈ m.states → ∀ a t, c.Moves s a t → ⟨s, a, t⟩ ∈ m.transitions := by
    intro s hs
    exact (h.handled s hs).resolve_left List.not_mem_nil
  have hstates : ∀ s, s ∈ m.states ↔ c.Reached s := by
    refine fun s => ⟨h.reached s, fun hs => ?_⟩
    -- what is entered contains the start and is closed under steps
    induction hs with
    | start s hs => exact hc.starts s ((h.initial s).mpr hs)
    | step s a t _ hm ih => exact (hc.ends _ (hall s ih a t hm)).2.1
  exact {
    built := h.built.insertLabels hdeclared
    initial := fun s => by
      rw [initial_insertLabels]
      exact h.initial s
    states := fun s => by
      rw [states_insertLabels]
      exact hstates s
    transitions := fun s a t => by
      rw [transitions_insertLabels]
      refine ⟨fun ht => ⟨h.reached s (hc.ends _ ht).1, h.moves _ ht⟩, fun ⟨hs, hm⟩ => ?_⟩
      exact hall s ((hstates s).mpr hs) a t hm
    proceeds := fun s hs => by
      rw [states_insertLabels] at hs
      -- the circuit can always read, for instance, that all inputs are off
      have hoff : Assigns c.inputs _ := (allOff_iff.mpr rfl).assigns
      obtain ⟨hfirst, hsecond⟩ := (h.reached s hs).assigns hd
      obtain ⟨r, hr, -⟩ := hd.update _ _ hfirst hsecond
      have ht := hall s hs _ ⟨_, r⟩ ⟨hoff, rfl, hr⟩
      rw [← transitions_insertLabels m xs] at ht
      exact (hc.insertLabels hdeclared).isTerminal_source ht
    label := fun s hs name => by
      rw [states_insertLabels] at hs
      rw [hc.mem_label_insertLabels hdeclared, hmem]
      refine ⟨fun hx => (hx.resolve_left (h.unlabeled s name)).2, fun hon => Or.inr ⟨hs, hon⟩⟩ }

/-! ## 7. The number of inputs -/

theorem ways_of_lt {names : List String} (h : names.length < 64) : ways names = 2 ^ names.length := by
  unfold ways
  rw [BitVec.toNat_shiftLeft, BitVec.toNat_ofNat, Nat.shiftLeft_eq, Nat.one_mod_two_pow (by decide),
    Nat.one_mul]
  exact Nat.mod_eq_of_lt (Nat.pow_lt_pow_right (by decide) h)

/-- From 64 names on nothing is counted. -/
theorem ways_of_le {names : List String} (h : 64 ≤ names.length) : ways names = 0 := by
  unfold ways
  rw [BitVec.shiftLeft_eq_zero h, BitVec.toNat_zero]

/-- There is room for the values of 44 names. -/
theorem mostAssignments_eq : mostAssignments = 2 ^ 44 := by decide

theorem exists_assignments {names : List String} (h : names.length ≤ 44) :
    ∃ inputs, (assignments names : Except (CircuitError ε) (List Env)) = .ok inputs ∧
      ∀ i, i ∈ inputs ↔ Assigns names i := by
  have hways : ways names = 2 ^ names.length := ways_of_lt (by omega)
  have hroom : ¬ mostAssignments < ways names := by
    rw [mostAssignments_eq, hways]
    exact Nat.not_lt.mpr (Nat.pow_le_pow_right (by decide) h)
  rw [assignments, if_neg hroom, hways]
  exact ⟨_, rfl, fun i => mem_range_assignment⟩

/-- **A circuit with few inputs unfolds to its system.** -/
theorem exists_unfold (hd : c.Defined) (h : c.inputs.length ≤ 44) :
    ∃ m, c.unfold = .ok m ∧ c.IsSystemOf m := by
  obtain ⟨inputs, hinputs, hin⟩ := exists_assignments (ε := ε) h
  obtain ⟨m₀, hstart, hentered⟩ := exists_foldlM_addStart (ε := ε) (c.frame_built inputs)
    (c.startsWith inputs)
  obtain ⟨m, hfollow, hexplored⟩ := (hentered.explored hin).exists_followAll? hd hin
  obtain ⟨xs, hlabel, hdeclared, hmem⟩ := hexplored.exists_label hd
  refine ⟨m.insertLabels xs, ?_, hexplored.isSystemOf hd hdeclared hmem⟩
  unfold startsWith at hfollow hstart
  unfold frame at hstart
  simp only [unfold, hinputs, bind, Except.bind, hstart, hfollow, Option.getD_some]
  exact hlabel

/-- With more inputs there is no room for their values. -/
theorem unfold_of_crowded (h : 44 < c.inputs.length) (h' : c.inputs.length < 64) :
    c.unfold = .error .endless := by
  have hfull : mostAssignments < ways c.inputs := by
    rw [mostAssignments_eq, ways_of_lt h']
    exact Nat.pow_lt_pow_right (by decide) h
  rw [unfold, assignments, if_pos hfull]
  rfl

/-- **With still more inputs nothing is left but the ports.** -/
theorem unfold_of_wide (h : 64 ≤ c.inputs.length) : c.unfold = .ok (c.frame []) := by
  have hnone : (assignments c.inputs : Except (CircuitError ε) (List Env)) = .ok [] := by
    rw [assignments, ways_of_le h]
    rfl
  have hfollow : c.followAll? [] ⟨c.frame [], []⟩ = some (.ok (c.frame [])) := by
    rw [followAll?.eq_def]
  rw [unfold, hnone]
  show ((c.followAll? [] ⟨c.frame [], []⟩).getD (.error .endless) >>= fun system =>
    system.states.toList.foldlM c.labelState system) = _
  rw [hfollow]
  show (c.frame []).states.toList.foldlM c.labelState (c.frame []) = _
  rw [states_frame]
  rfl

/-- A circuit starts somewhere, so a system without states is not its system. -/
theorem not_isSystemOf_frame (c : Circuit ε) : ¬ c.IsSystemOf (c.frame []) := by
  intro h
  have hstart : c.Starts ⟨_, _⟩ := ⟨(allOff_iff.mpr rfl).assigns, allOff_iff.mpr rfl⟩
  have hs := (h.states _).mpr (.start _ hstart)
  have hnone : (c.frame []).states.toList = [] := states_frame
  exact List.not_mem_nil (hnone ▸ Ordered.mem_toList.mpr hs)

/-- **Unfolding gives the system of a circuit for up to 44 inputs only** (a name counts as often as it
    stands there). From 45 to 63 it fails, and from 64 on it answers with a system that has no states at
    all. -/
theorem unfold_isSystemOf_iff (hd : c.Defined) :
    ((∃ m, c.unfold = .ok m ∧ c.IsSystemOf m) ↔ c.inputs.length ≤ 44) ∧
      (44 < c.inputs.length → c.inputs.length < 64 → c.unfold = .error .endless) ∧
      (64 ≤ c.inputs.length → ∃ m, c.unfold = .ok m ∧ m.states.toList = []) := by
  refine ⟨⟨fun ⟨m, hm, hsystem⟩ => ?_, c.exists_unfold hd⟩, unfold_of_crowded, fun h => ?_⟩
  · refine Nat.not_lt.mp fun hmany => ?_
    rcases Nat.lt_or_ge c.inputs.length 64 with hless | hge
    · rw [unfold_of_crowded hmany hless] at hm
      cases hm
    · rw [unfold_of_wide hge] at hm
      cases hm
      exact c.not_isSystemOf_frame hsystem
  · exact ⟨_, unfold_of_wide h, states_frame⟩

/-- A register that stays on once the input was on, and an output that tells whether both are the same;
    the input is named several times. -/
def latch (n : Nat) : Circuit EvalError :=
  ofDefinitions (List.replicate n "x") ["r"] ["y"] [("r", "x || r")] [("y", "x == r")]

theorem latch_defined {n : Nat} (hn : 0 < n) : (latch n).Defined := by
  have hinputs : ∀ {i}, Assigns (List.replicate n "x") i → i ∈ (List.range 2).map (assignment ["x"]) :=
    fun hi => mem_range_assignment.mpr (hi.congr fun name => by
      rw [List.mem_replicate, List.mem_singleton]
      exact and_iff_right (Nat.ne_of_gt hn))
  have hupdate : ∀ i ∈ (List.range 2).map (assignment ["x"]), ∀ r ∈ (List.range 2).map (assignment ["r"]),
      ∃ r' ∈ (List.range 2).map (assignment ["r"]), define [("r", "x || r")] i r = .ok r' := by
    decide +kernel
  have hcompute : ∀ i ∈ (List.range 2).map (assignment ["x"]), ∀ r ∈ (List.range 2).map (assignment ["r"]),
      ∃ o ∈ (List.range 2).map (assignment ["y"]), define [("y", "x == r")] i r = .ok o := by
    decide +kernel
  constructor
  · intro i r hi hr
    obtain ⟨r', hmem, e⟩ := hupdate i (hinputs hi) r (mem_range_assignment.mpr hr)
    exact ⟨r', e, mem_range_assignment.mp hmem⟩
  · intro i r hi hr
    obtain ⟨o, hmem, e⟩ := hcompute i (hinputs hi) r (mem_range_assignment.mpr hr)
    exact ⟨o, e, (mem_range_assignment.mp hmem).toOver⟩

/-- An input that stands twice is one input. -/
theorem unfold_isSystemOf_iff_latch :
    (latch 2).Defined ∧ ∃ m, (latch 2).unfold = .ok m ∧ (latch 2).IsSystemOf m :=
  ⟨latch_defined (by decide), (unfold_isSystemOf_iff (latch_defined (by decide))).1.mpr (by decide)⟩

/-- One that stands 64 times leaves a system without states. -/
theorem unfold_latch_empty : (latch 64).Defined ∧
    ∃ m, (latch 64).unfold = .ok m ∧ m.states.toList = [] ∧ ¬ (latch 64).IsSystemOf m := by
  have hwide : 64 ≤ (latch 64).inputs.length := by decide
  exact ⟨latch_defined (by decide), _, unfold_of_wide hwide, states_frame,
    (latch 64).not_isSystemOf_frame⟩

end Lasso.Circuit
