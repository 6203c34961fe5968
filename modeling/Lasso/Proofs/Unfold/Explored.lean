import Lasso.Proofs.Unfold.Semantics
/-!
# The search behind an unfolding

`Explored` is **the invariant of the unfolding**: what is entered so far is part of the semantics of the
program, and what is missing waits or is due. There is one lemma for each thing the unfolding does:

* `Explored.start` enters a start, `Explored.enter` a state that a step leads to;
* `Explored.pop` takes up a state that waits, `Explored.followStep` follows one of its steps;
* `Search` -- how the search goes, turn by turn; `Search.yields` -- **what the whole search leaves**: nothing
  waits, and nothing is due.
-/

namespace Lasso.ProgramGraph

open TransitionSystem

variable {L : Type} [DecidableEq L] [Hashable L]

/-! ## 1. The invariant of the unfolding -/

section Explored

variable {g : ProgramGraph L} {ev : Evaluators}

/-- **The invariant of the unfolding.** The states `todo` are starts that are not entered yet, and the
    steps `due` are those of the state that is worked on. -/
structure Explored (g : ProgramGraph L) (ev : Evaluators) (todo : List (State L))
    (due : State L → ProgramStep L → Prop) (u : Unfolding L) : Prop where
  consistent : u.system.Consistent
  actions : ∀ t, t ∈ g.steps → t.action ∈ u.system.actions
  unlabeled : ∀ s p, ¬ p ∈ u.system.label s
  initial : ∀ s, (s ∈ u.system.initial ∨ s ∈ todo) ↔ g.Starts ev s
  reachable : ∀ s, s ∈ u.system.states → u.system.Reachable s
  moves : ∀ t, t ∈ u.system.transitions → g.Moves ev t.source t.action t.target
  waiting : ∀ s ∈ u.waiting, s ∈ u.system.states
  handled : ∀ s, s ∈ u.system.states → s ∈ u.waiting ∨
    ∀ t ∈ g.outgoing s.first, due s t ∨ Handled ev u.system s t

/-- No step is due. -/
def nothingDue (_ : State L) (_ : ProgramStep L) : Prop := False

/-- The steps that are left of one state. -/
def dueAt (s : State L) (ts : List (ProgramStep L)) (s' : State L) (t : ProgramStep L) : Prop :=
  s' = s ∧ t ∈ ts

variable {todo rest : List (State L)} {due : State L → ProgramStep L → Prop} {u u' : Unfolding L}
  {s : State L} {t : ProgramStep L} {ts : List (ProgramStep L)}
  {m : TransitionSystem (State L) String String}

/-- What is in the system the program comes to. -/
theorem Explored.reached (h : Explored g ev todo due u) (hs : s ∈ u.system.states) :
    g.Reached ev s := by
  obtain ⟨i, hi, his⟩ := h.reachable s hs
  induction his with
  | refl => exact .start i ((h.initial i).mp (Or.inl hi))
  | tail hib hbc ih =>
    obtain ⟨a, ha⟩ := hbc
    exact .step _ a _ (ih (h.consistent.ends _ ha).1) (h.moves _ ha)

/-- What entering a state does: a state that was not known before is known then, and waits. -/
structure Discovered (u : Unfolding L) (s : State L) (u' : Unfolding L) : Prop where
  system : u'.system = u.system.addState s
  waiting : s ∈ u.system.states ∧ u'.waiting = u.waiting ∨
    s ∉ u.system.states ∧ u'.waiting = s :: u.waiting

theorem Discovered.mem_waiting (h : Discovered u s u') {x : State L} (hx : x ∈ u.waiting) :
    x ∈ u'.waiting := by
  rcases h.waiting with ⟨-, e⟩ | ⟨-, e⟩
  · exact e ▸ hx
  · exact e ▸ List.mem_cons_of_mem _ hx

theorem Discovered.eq_of_mem_waiting (h : Discovered u s u') {x : State L} (hx : x ∈ u'.waiting) :
    x ∈ u.waiting ∨ x = s := by
  rcases h.waiting with ⟨-, e⟩ | ⟨-, e⟩
  · exact Or.inl (e ▸ hx)
  · exact (List.mem_cons.mp (e ▸ hx)).symm

theorem Discovered.waits (h : Discovered u s u') : s ∈ u.system.states ∨ s ∈ u'.waiting := by
  rcases h.waiting with ⟨hs, -⟩ | ⟨-, e⟩
  · exact Or.inl hs
  · exact Or.inr (e ▸ List.mem_cons_self)

/-- **What a failure says of the program and of the way it is unfolded**: some initialization or some
    state fails, the work is called off, there is no room for another state, or the search goes on from
    what is explored without end. -/
def Explains [Display L] (o : UnfoldOptions) (g : ProgramGraph L) (x : UnfoldError) : Prop :=
  g.Justifies o.evaluators x ∧
    match x with
    | .canceled _ => o.canceled = true
    | .limit n _ => 0 < n ∧ o.maxStates = n
    | .endless _ => ∃ u, Explored g o.evaluators [] nothingDue u ∧ followAll? o g u = none
    | _ => True

theorem yields_discover [Display L] {o : UnfoldOptions} (h : u.system.Consistent) :
    Yields (Discovered u s) (g.Explains o) (discover o g.name u s) := by
  unfold discover
  split
  · rename_i hs
    have hsystem : u.system = u.system.addState s := by rw [addState, if_pos hs]
    exact ⟨hsystem, Or.inl ⟨h.states.contains_iff.mp hs, rfl⟩⟩
  · rename_i hs
    have hnew : Discovered u s ⟨u.system.addState s, s :: u.waiting⟩ :=
      ⟨rfl, Or.inr ⟨fun h' => hs (h.states.contains_iff.mpr h'), rfl⟩⟩
    split
    · rename_i hfull
      rw [Bool.and_eq_true, decide_eq_true_eq] at hfull
      exact ⟨trivial, hfull.1, rfl⟩
    · exact hnew

/-- **A state that was entered and what came with it**: the other states keep what they have. -/
theorem Explored.grow {todo' : List (State L)} (h : Explored g ev todo due u)
    (hd : Discovered u s u') (hc : m.Consistent)
    (hstates : m.states = (u.system.addState s).states)
    (hactions : m.actions = (u.system.addState s).actions)
    (hlabel : ∀ x, m.label x = (u.system.addState s).label x)
    (hstarts : ∀ x, (x ∈ m.initial ∨ x ∈ todo') ↔ (x ∈ u.system.initial ∨ x ∈ todo))
    (hinitial : ∀ x, x ∈ u.system.initial → x ∈ m.initial)
    (htransitions : ∀ t, t ∈ u.system.transitions → t ∈ m.transitions)
    (hmoves : ∀ t, t ∈ m.transitions → t ∈ u.system.transitions ∨ g.Moves ev t.source t.action t.target)
    (hreach : (∀ x, u.system.Reachable x → m.Reachable x) → m.Reachable s) :
    Explored g ev todo' due ⟨m, u'.waiting⟩ := by
  have hmem : ∀ x, x ∈ m.states ↔ x ∈ u.system.states ∨ x = s := fun x => by
    rw [hstates, states_addState]
    exact h.consistent.states.mem_insert
  have hold : ∀ x, u.system.Reachable x → m.Reachable x :=
    fun x hx => hx.mono hinitial htransitions
  have hhandled : ∀ x, x ∈ u.system.states → x ∈ u'.waiting ∨
      ∀ t ∈ g.outgoing x.first, due x t ∨ Handled ev m x t := fun x hx =>
    (h.handled x hx).imp hd.mem_waiting fun hall t ht => (hall t ht).imp_right (.mono htransitions)
  exact {
    consistent := hc
    actions := fun t ht => by
      rw [hactions, actions_addState]
      exact h.actions t ht
    unlabeled := fun x p => by
      rw [hlabel, h.consistent.label_addState]
      exact h.unlabeled x p
    initial := fun x => (hstarts x).trans (h.initial x)
    reachable := fun x hx => by
      rcases (hmem x).mp hx with hx | rfl
      · exact hold x (h.reachable x hx)
      · exact hreach hold
    moves := fun t ht => (hmoves t ht).elim (h.moves t) id
    waiting := fun x hx => (hmem x).mpr ((hd.eq_of_mem_waiting hx).imp_left (h.waiting x))
    handled := fun x hx => by
      rcases (hmem x).mp hx with hx | rfl
      · exact hhandled x hx
      · exact hd.waits.elim (hhandled x) Or.inl }

/-- **Entering a start.** -/
theorem Explored.start (h : Explored g ev (s :: todo) due u) (hd : Discovered u s u') :
    Explored g ev todo due { u' with system := u'.system.insertInitial s } := by
  have hinit : ∀ x, x ∈ ((u.system.addState s).insertInitial s).initial ↔
      x ∈ u.system.initial ∨ x = s := fun x => by
    rw [initial_insertInitial, initial_addState]
    exact h.consistent.initial.mem_insert
  have htrans : ((u.system.addState s).insertInitial s).transitions = u.system.transitions :=
    u.system.transitions_addState s
  rw [hd.system]
  refine h.grow hd ((h.consistent.addState s).insertInitial ?_) rfl rfl (fun _ => rfl) (fun x => ?_)
    (fun x hx => (hinit x).mpr (Or.inl hx)) (fun t ht => htrans ▸ ht) (fun t ht => Or.inl (htrans ▸ ht))
    fun _ => .start ((hinit s).mpr (Or.inr rfl))
  · rw [states_addState]
    exact h.consistent.states.mem_insert.mpr (Or.inr rfl)
  · rw [hinit, List.mem_cons, or_assoc]

/-- **Taking a state up**: all its steps are due. -/
theorem Explored.pop (h : Explored g ev todo nothingDue ⟨m, s :: rest⟩) :
    Explored g ev todo (dueAt s (g.outgoing s.first)) ⟨m, rest⟩ :=
  { h with
    waiting := fun x hx => h.waiting x (List.mem_cons_of_mem _ hx)
    handled := fun x hx => by
      by_cases hxs : x = s
      · subst hxs
        exact Or.inr fun t ht => Or.inl ⟨rfl, ht⟩
      · rcases h.handled x hx with hw | hall
        · exact Or.inl ((List.mem_cons.mp hw).resolve_left hxs)
        · exact Or.inr fun t ht => Or.inr ((hall t ht).resolve_left id) }

/-- What is due at a state without steps is nothing. -/
theorem Explored.done (h : Explored g ev todo (dueAt s []) u) : Explored g ev todo nothingDue u :=
  { h with
    handled := fun x hx => (h.handled x hx).imp_right fun hall t ht =>
      (hall t ht).imp_left fun hd => absurd hd.2 List.not_mem_nil }

/-- A step that is done with is due no more. -/
theorem Explored.settle (h : Explored g ev todo (dueAt s (t :: ts)) u)
    (ht : Handled ev u.system s t) : Explored g ev todo (dueAt s ts) u :=
  { h with
    handled := fun x hx => (h.handled x hx).imp_right fun hall t' ht' => by
      rcases hall t' ht' with ⟨rfl, hd⟩ | hh
      · rcases List.mem_cons.mp hd with rfl | hd
        · exact Or.inr ht
        · exact Or.inl ⟨rfl, hd⟩
      · exact Or.inr hh }

/-- **Entering where a step leads to**, with the transition. -/
theorem Explored.enter {s s' : State L} {a : String} (h : Explored g ev todo due u)
    (hs : s ∈ u.system.states) (hmove : g.Moves ev s a s') (hd : Discovered u s' u') :
    Explored g ev todo due { u' with system := u'.system.insertTransition ⟨s, a, s'⟩ } := by
  have hinit : ((u.system.addState s').insertTransition ⟨s, a, s'⟩).initial = u.system.initial := by
    rw [initial_insertTransition, initial_addState]
  have htrans : ∀ x, x ∈ ((u.system.addState s').insertTransition ⟨s, a, s'⟩).transitions ↔
      x ∈ u.system.transitions ∨ x = ⟨s, a, s'⟩ := fun x => by
    rw [transitions_insertTransition, transitions_addState]
    exact h.consistent.transitions.mem_insert
  rw [hd.system]
  refine h.grow hd ((h.consistent.addState s').insertTransition ?_)
    (states_insertTransition _ _) (actions_insertTransition _ _)
    (label_insertTransition _ _) (fun x => by rw [hinit]) (fun x hx => hinit ▸ hx)
    (fun t ht => (htrans t).mpr (Or.inl ht)) (fun t ht => ?_) fun hold => ?_
  · rw [states_addState, actions_addState]
    obtain ⟨cond, hstep, -⟩ := hmove
    exact ⟨h.consistent.states.mem_insert.mpr (Or.inl hs),
      h.consistent.states.mem_insert.mpr (Or.inr rfl), h.actions _ hstep⟩
  · rcases (htrans t).mp ht with ht | rfl
    · exact Or.inl ht
    · exact Or.inr hmove
  · exact (hold s (h.reachable s hs)).step ⟨a, (htrans _).mpr (Or.inr rfl)⟩

/-! ## 2. Whole searches -/

section Follow

variable [Display L] {o : UnfoldOptions}

/-- **Following a step** settles it; where it cannot be followed it fails, or there is no room. -/
theorem Explored.followStep (h : Explored g o.evaluators todo (dueAt s (t :: ts)) u)
    (hs : s ∈ u.system.states) (ht : t ∈ g.outgoing s.first) :
    Yields (fun u' => Explored g o.evaluators todo (dueAt s ts) u' ∧ s ∈ u'.system.states)
      (g.Explains o) (ProgramGraph.followStep o g.name s u t) := by
  obtain ⟨hstep, hsource⟩ := mem_outgoing.mp ht
  unfold ProgramGraph.followStep
  have htake : Yields (LeadsTo o.evaluators s t) (g.Explains o)
      (takeStep o.evaluators g.name s t) := by
    refine (yields_takeStep o.evaluators g.name s t).imp (fun _ hr => hr) ?_
    rintro x ⟨c, rfl, hfails⟩
    exact ⟨⟨rfl, s, h.reached hs, rfl, t, hstep, hsource, hfails⟩, trivial⟩
  refine htake.bind fun r hr => ?_
  cases r with
  | none => exact ⟨h.settle ⟨none, hr, fun _ hs' => by cases hs'⟩, hs⟩
  | some s' =>
    obtain ⟨htarget, hholds, heffect⟩ := hr
    have hmove : g.Moves o.evaluators s t.action s' :=
      ⟨t.condition, by rwa [← hsource, htarget], hholds, heffect⟩
    refine (yields_discover h.consistent).bind fun u₁ hd => ?_
    refine ⟨(h.enter hs hmove hd).settle ⟨some s', ⟨htarget, hholds, heffect⟩, fun x hx => ?_⟩, ?_⟩
    · cases hx
      rw [hd.system, transitions_insertTransition]
      exact (h.consistent.addState s').transitions.mem_insert.mpr (Or.inr rfl)
    · rw [hd.system, states_insertTransition, states_addState]
      exact h.consistent.states.mem_insert.mpr (Or.inl hs)

/-- What is kept while the steps `ts` of the state `s` are still ahead. -/
def Following (g : ProgramGraph L) (ev : Evaluators) (s : State L) (ts : List (ProgramStep L))
    (u : Unfolding L) : Prop :=
  Explored g ev [] (dueAt s ts) u ∧ s ∈ u.system.states ∧ ∀ t ∈ ts, t ∈ g.outgoing s.first

theorem Following.step {u : Unfolding L} (h : Following g o.evaluators s (t :: ts) u) :
    Yields (Following g o.evaluators s ts) (g.Explains o)
      (ProgramGraph.followStep o g.name s u t) := by
  obtain ⟨hex, hs, hts⟩ := h
  refine (hex.followStep hs (hts t List.mem_cons_self)).imp (fun u' hu' => ?_) fun _ hx => hx
  exact ⟨hu'.1, hu'.2, fun t' ht' => hts t' (List.mem_cons_of_mem _ ht')⟩

omit [Display L] in
theorem Explored.following (h : Explored g ev [] nothingDue ⟨m, s :: rest⟩) :
    Following g ev s (g.outgoing s.first) ⟨m, rest⟩ :=
  ⟨h.pop, h.waiting s List.mem_cons_self, fun _ ht => ht⟩

/-- **How a search goes**, turn by turn: it is done when nothing waits, and it stops when the work is
    called off. It takes up the first state that waits; it fails if a step of this state does, and goes on
    with what the steps leave. -/
inductive Search (o : UnfoldOptions) (g : ProgramGraph L) :
    Unfolding L → Except UnfoldError (TransitionSystem (State L) String String) → Prop where
  | done (m : TransitionSystem (State L) String String) : Search o g ⟨m, []⟩ (.ok m)
  | canceled (m : TransitionSystem (State L) String String) (s : State L) (rest : List (State L))
      (hc : o.canceled = true) : Search o g ⟨m, s :: rest⟩ (.error (.canceled g.name))
  | failed (m : TransitionSystem (State L) String String) (s : State L) (rest : List (State L))
      (c : UnfoldError) (hc : o.canceled = false)
      (h : (g.outgoing s.first).foldlM (ProgramGraph.followStep o g.name s) ⟨m, rest⟩ = .error c) :
      Search o g ⟨m, s :: rest⟩ (.error c)
  | turn (m : TransitionSystem (State L) String String) (s : State L) (rest : List (State L))
      (u : Unfolding L) (r : Except UnfoldError (TransitionSystem (State L) String String))
      (hc : o.canceled = false)
      (h : (g.outgoing s.first).foldlM (ProgramGraph.followStep o g.name s) ⟨m, rest⟩ = .ok u)
      (hr : Search o g u r) : Search o g ⟨m, s :: rest⟩ r

variable {r : Except UnfoldError (TransitionSystem (State L) String String)}

theorem followAll?_eq_some_iff : followAll? o g u = some r ↔ Search o g u r := by
  constructor
  · refine followAll?.partial_correctness o g (Search o g) (fun search ih u r hr => ?_) u r
    obtain ⟨m, waiting⟩ := u
    cases waiting with
    | nil =>
      cases hr
      exact .done m
    | cons s rest =>
      cases hc : o.canceled with
      | true =>
        simp only [hc, if_true, Option.some.injEq] at hr
        exact hr ▸ .canceled m s rest hc
      | false =>
        simp only [hc, Bool.false_eq_true, if_false] at hr
        split at hr
        · rename_i c h
          cases hr
          exact .failed m s rest c hc h
        · rename_i u h
          exact .turn m s rest u r hc h (ih u r hr)
  · intro h
    induction h with
    | done m => rw [followAll?.eq_def]
    | canceled m s rest hc =>
      rw [followAll?.eq_def]
      simp only [hc, if_true]
    | failed m s rest c hc h =>
      rw [followAll?.eq_def]
      simp only [hc, Bool.false_eq_true, if_false, h]
    | turn m s rest u r hc h _ ih =>
      rw [followAll?.eq_def]
      simp only [hc, Bool.false_eq_true, if_false, h, ih]

/-- **A search ends** if each turn keeps an invariant and takes something away. -/
theorem Search.exists_of_measure {I : Unfolding L → Prop} (f : Unfolding L → Nat)
    (hturn : ∀ m s rest u', I ⟨m, s :: rest⟩ →
      (g.outgoing s.first).foldlM (ProgramGraph.followStep o g.name s) ⟨m, rest⟩ = .ok u' →
        I u' ∧ f u' < f ⟨m, s :: rest⟩) (h : I u) : ∃ r, Search o g u r := by
  induction hn : f u using Nat.strongRecOn generalizing u with
  | ind n ih =>
    subst hn
    obtain ⟨m, waiting⟩ := u
    cases waiting with
    | nil => exact ⟨_, .done m⟩
    | cons s rest =>
      cases hc : o.canceled with
      | true => exact ⟨_, .canceled m s rest hc⟩
      | false =>
        cases hfold : (g.outgoing s.first).foldlM (ProgramGraph.followStep o g.name s) ⟨m, rest⟩ with
        | error c => exact ⟨_, .failed m s rest c hc hfold⟩
        | ok u' =>
          obtain ⟨hI, hless⟩ := hturn m s rest u' h hfold
          obtain ⟨r, hr⟩ := ih _ hless hI rfl
          exact ⟨r, .turn m s rest u' r hc hfold hr⟩

/-- **The whole search**: when it ends, nothing waits and nothing is due. -/
theorem Search.yields (hr : Search o g u r) (h : Explored g o.evaluators [] nothingDue u) :
    Yields (fun m => Explored g o.evaluators [] nothingDue ⟨m, []⟩) (g.Explains o) r := by
  have hsteps := fun {m s rest} (h : Explored g o.evaluators [] nothingDue ⟨m, s :: rest⟩) =>
    Yields.foldlM (I := Following g o.evaluators s) (f := ProgramGraph.followStep o g.name s)
      (fun _ _ _ hu => hu.step) h.following
  induction hr with
  | done m => exact h
  | canceled m s rest hc => exact ⟨trivial, hc⟩
  | failed m s rest c hc hfold => exact (hsteps h).of_error hfold
  | turn m s rest u r hc hfold _ ih => exact ih ((hsteps h).of_ok hfold).1.done

end Follow

end Explored

end Lasso.ProgramGraph
