import Lasso.Proofs.Unfold.Program
/-!
# Programs with finitely many states

Without a limit, a program is unfolded if it comes to finitely many states and nothing fails in them.
The search ends because of what is `ahead` of it: the states that wait and those not entered yet.
Entering a state moves it from the second to the first, and each turn of the search takes one away.

* `Explored.exists_search` -- **the search ends**;
* `exists_unfold` -- so an unfolding comes of it;
* `leadsWithin` -- whether given states are all that a program can come to, by trying their steps, and
  `exists_unfold_of_leadsWithin`.
-/

namespace Lasso.ProgramGraph

variable {L : Type} [DecidableEq L] [Hashable L]

/-! ## 1. What is ahead of the search -/

/-- The number of states that wait or that are not entered yet. -/
def ahead (all : Finset (State L)) (u : Unfolding L) : Nat :=
  u.waiting.length + (TransitionSystem.missing all u.system).card

variable {all : Finset (State L)} {g : ProgramGraph L} {o : UnfoldOptions} {u u' : Unfolding L}

/-- Entering a state leaves no more ahead than there was: a new state waits, but it is not missing any
    more. -/
theorem Discovered.ahead_le (h : u.system.Consistent) {s : State L} (hd : Discovered u s u')
    (hs : s ∈ all) : ahead all u' ≤ ahead all u := by
  unfold ahead
  rw [hd.system]
  rcases hd.waiting with ⟨hold, e⟩ | ⟨hnew, e⟩
  · rw [e, TransitionSystem.addState, if_pos (h.states.contains_iff.mpr hold)]
  · have hless := h.card_missing_addState hs hnew
    rw [e, List.length_cons]
    omega

section Search

variable [Display L] {s : State L}

/-- **Following a step** leaves no more ahead than there was. -/
theorem Following.ahead_step (hall : ∀ x, g.Reached o.evaluators x → x ∈ all) {t : ProgramStep L}
    {ts : List (ProgramStep L)} (h : Following g o.evaluators s (t :: ts) u) :
    Yields (fun u' => ahead all u' ≤ ahead all u) (fun _ => True)
      (ProgramGraph.followStep o g.name s u t) := by
  obtain ⟨hex, hs, hts⟩ := h
  obtain ⟨hstep, hsource⟩ := mem_outgoing.mp (hts t List.mem_cons_self)
  unfold ProgramGraph.followStep
  refine ((yields_takeStep o.evaluators g.name s t).imp (fun _ hr => hr) fun _ _ => trivial).bind
    fun r hr => ?_
  cases r with
  | none => exact Nat.le_refl _
  | some s' =>
    obtain ⟨htarget, hholds, heffect⟩ := hr
    have hreached : g.Reached o.evaluators s' := .step s t.action s' (hex.reached hs)
      ⟨t.condition, by rwa [← hsource, htarget], hholds, heffect⟩
    refine ((yields_discover (g := g) hex.consistent).imp (fun _ hd => hd) fun _ _ => trivial).bind
      fun u₁ hd => ?_
    show ahead all { u₁ with system := u₁.system.insertTransition ⟨s, t.action, s'⟩ } ≤ _
    have hsame : ahead all { u₁ with system := u₁.system.insertTransition ⟨s, t.action, s'⟩ } =
        ahead all u₁ := by
      unfold ahead TransitionSystem.missing
      rw [TransitionSystem.states_insertTransition]
    rw [hsame]
    exact hd.ahead_le hex.consistent (hall s' hreached)

/-- **The search ends** where there are only finitely many states: each turn takes one up. -/
theorem Explored.exists_search (hall : ∀ x, g.Reached o.evaluators x → x ∈ all)
    (h : Explored g o.evaluators [] nothingDue u) : ∃ r, Search o g u r := by
  refine Search.exists_of_measure (I := Explored g o.evaluators [] nothingDue) (ahead all)
    (fun m s rest u' h hfold => ?_) h
  have hturn : Yields (fun u' => Following g o.evaluators s [] u' ∧ ahead all u' ≤ ahead all ⟨m, rest⟩)
      (fun _ => True)
      ((g.outgoing s.first).foldlM (ProgramGraph.followStep o g.name s) ⟨m, rest⟩) := by
    refine Yields.foldlM (I := fun ts u' => Following g o.evaluators s ts u' ∧
      ahead all u' ≤ ahead all ⟨m, rest⟩) (fun t ts u₁ hu₁ => ?_) ⟨h.following, Nat.le_refl _⟩
    have hkeeps := hu₁.1.step
    have hahead := hu₁.1.ahead_step hall
    cases hr : ProgramGraph.followStep o g.name s u₁ t with
    | error c => exact trivial
    | ok u₂ => exact ⟨hkeeps.of_ok hr, Nat.le_trans (hahead.of_ok hr) hu₁.2⟩
  obtain ⟨hfollowing, hle⟩ := hturn.of_ok hfold
  have hless : ahead all ⟨m, rest⟩ < ahead all ⟨m, s :: rest⟩ :=
    Nat.add_lt_add_right (Nat.lt_succ_self rest.length) _
  exact ⟨hfollowing.1.done, Nat.lt_of_le_of_lt hle hless⟩

/-! ## 2. Unfolding -/

/-- **A program that comes to finitely many states is unfolded, or one of its steps fails.** -/
theorem unfold_of_finite (all : Finset (State L)) (hcanceled : o.canceled = false)
    (hlimit : o.maxStates ≤ 0)
    (hinit : ∀ stmts, stmts ∈ g.initializations → ∃ e, o.evaluators.initial stmts = .ok e)
    (hall : ∀ s, g.Reached o.evaluators s → s ∈ all) :
    (∃ m, g.unfold o = .ok m) ∨ ∃ text c, g.unfold o = .error (.step g.name text c) := by
  cases hr : g.unfold o with
  | ok m => exact Or.inl ⟨m, rfl⟩
  | error x =>
    obtain ⟨hjust, hwhy⟩ := (yields_unfold o g).of_error hr
    cases x with
    | initialization p c =>
      obtain ⟨-, stmts, hstmts, herror⟩ := hjust
      obtain ⟨e, he⟩ := hinit stmts hstmts
      rw [he] at herror
      cases herror
    | step p text c =>
      obtain ⟨rfl, -⟩ := hjust
      exact Or.inr ⟨text, c, rfl⟩
    | canceled p =>
      have hwhy : o.canceled = true := hwhy
      rw [hcanceled] at hwhy
      cases hwhy
    | limit n p =>
      obtain ⟨hpos, hn⟩ := hwhy
      omega
    | endless p =>
      obtain ⟨u, hu, hnone⟩ := hwhy
      obtain ⟨r, hr⟩ := hu.exists_search hall
      rw [followAll?_eq_some_iff.mpr hr] at hnone
      cases hnone

/-- **A program that comes to finitely many states, in which nothing fails, is unfolded.** -/
theorem exists_unfold (all : Finset (State L)) (hcanceled : o.canceled = false) (hlimit : o.maxStates ≤ 0)
    (hinit : ∀ stmts, stmts ∈ g.initializations → ∃ e, o.evaluators.initial stmts = .ok e)
    (hfails : ∀ s, g.Reached o.evaluators s → ∀ c, ¬ g.Fails o.evaluators s c)
    (hall : ∀ s, g.Reached o.evaluators s → s ∈ all) : ∃ m, g.unfold o = .ok m := by
  rcases unfold_of_finite all hcanceled hlimit hinit hall with h | ⟨text, c, h⟩
  · exact h
  · obtain ⟨-, s, hs, -, hfail⟩ := ((yields_unfold o g).of_error h).1
    exact absurd hfail (hfails s hs c)

/-- Where a program is unfolded, its initializations can be run. -/
theorem exists_initial_of_unfold {m : TransitionSystem (State L) String String}
    (e : g.unfold o = .ok m) {stmts : List String} (hstmts : stmts ∈ g.initializations) :
    ∃ e, o.evaluators.initial stmts = .ok e := by
  obtain ⟨es, hes, -⟩ := bind_eq_ok.mp e
  obtain ⟨es', hmap, -⟩ := bind_eq_ok.mp hes
  obtain ⟨e, he⟩ := exists_of_mapM_eq_ok hmap hstmts
  exact ⟨e, mapError_eq_ok.mp he⟩

/-! ## 3. States that are given -/

section Given

variable {ev : Evaluators} {steps : List (ProgramStep L)} {given : List (State L)}

/-- Whether the steps lead from the given states to given states only. -/
def leadsWithin (ev : Evaluators) (steps : List (ProgramStep L)) (given : List (State L)) : Bool :=
  given.all fun s => steps.all fun t => t.source ≠ s.first ||
    match takeStep ev "" s t with
    | .error _ => true
    | .ok r => r.all (given.contains ·)

/-- Whether no step fails in the given states. -/
def failsNowhere (ev : Evaluators) (steps : List (ProgramStep L)) (given : List (State L)) : Bool :=
  given.all fun s => steps.all fun t => t.source ≠ s.first || (takeStep ev "" s t).isOk

omit [Display L] in
/-- A program with one initial location and one initialization starts in one state. -/
theorem starts_iff_eq {l : L} {stmts : List String} {e : Env} (hl : ∀ k, k ∈ g.initial ↔ k = l)
    (hstmts : g.initializations = .ofList [stmts]) (he : ev.initial stmts = .ok e) {s : State L} :
    g.Starts ev s ↔ s = ⟨l, e⟩ := by
  have hmem : stmts ∈ g.initializations := hstmts ▸ Ordered.mem_ofList.mpr List.mem_cons_self
  constructor
  · rintro ⟨hs, ⟨hnone, -⟩ | ⟨stmts', hstmts', hrun⟩⟩
    · rw [← Ordered.mem_toList, hnone] at hmem
      exact absurd hmem List.not_mem_nil
    · rw [hstmts, Ordered.mem_ofList, List.mem_singleton] at hstmts'
      subst hstmts'
      exact congrArg₂ Pair.mk ((hl _).mp hs) (Except.ok.inj (hrun.symm.trans he))
  · rintro rfl
    exact ⟨(hl l).mpr rfl, Or.inr ⟨stmts, hmem, he⟩⟩

/-- **The given states are all that a program comes to**, if it starts in them and its steps lead to no
    others. -/
theorem mem_of_reached (hstart : ∀ s, g.Starts ev s → s ∈ given)
    (h : leadsWithin ev g.steps.toList given = true) {s : State L} (hs : g.Reached ev s) : s ∈ given := by
  induction hs with
  | start s hs => exact hstart s hs
  | step s a s' _ hmove ih =>
    obtain ⟨cond, hmem, hholds, heffect⟩ := hmove
    have htake : takeStep ev "" s ⟨s.first, cond, a, s'.first⟩ = .ok (some s') := by
      rw [takeStep, hholds]
      show ((ev.effect s.second a).mapError _ >>= _) = _
      rw [heffect]
      rfl
    have hst := List.all_eq_true.mp (List.all_eq_true.mp h s ih) _ hmem
    rw [htake] at hst
    simpa using hst

omit [DecidableEq L] [Hashable L] in
theorem takeStep_of_stepFails {s : State L} {t : ProgramStep L} {c : EvalError} (h : StepFails ev s t c)
    (name : String) : takeStep ev name s t = .error (.step name (Display.text s) c) := by
  rcases h with h | ⟨hholds, h⟩
  · rw [takeStep, h]
    rfl
  · rw [takeStep, hholds]
    show ((ev.effect s.second t.action).mapError _ >>= _) = _
    rw [h]
    rfl

theorem not_fails_of_failsNowhere (h : failsNowhere ev g.steps.toList given = true) {s : State L}
    (hs : s ∈ given) (c : EvalError) : ¬ g.Fails ev s c := by
  rintro ⟨t, ht, hsource, hfail⟩
  have hst := List.all_eq_true.mp (List.all_eq_true.mp h s hs) t ht
  rw [takeStep_of_stepFails hfail, hsource] at hst
  simp [Except.isOk, Except.toBool] at hst

end Given

/-- **A program whose steps lead from given states to given states is unfolded**, where it starts in
    one of them and nothing fails. -/
theorem exists_unfold_of_leadsWithin (given : List (State L)) (hcanceled : o.canceled = false)
    (hlimit : o.maxStates ≤ 0)
    (hinit : ∀ stmts, stmts ∈ g.initializations → ∃ e, o.evaluators.initial stmts = .ok e)
    (hstart : ∀ s, g.Starts o.evaluators s → s ∈ given)
    (hwithin : leadsWithin o.evaluators g.steps.toList given = true)
    (hfails : failsNowhere o.evaluators g.steps.toList given = true) : ∃ m, g.unfold o = .ok m :=
  exists_unfold given.toFinset hcanceled hlimit hinit
    (fun _ hs => not_fails_of_failsNowhere hfails (mem_of_reached hstart hwithin hs))
    fun _ hs => List.mem_toFinset.mpr (mem_of_reached hstart hwithin hs)

end Search

/-! ## 4. A program that counts -/

/-- A program that counts up to two and starts again on a condition, if no value comes from a channel that
    nobody sends to. -/
def counting (cond : String) : ProgramGraph String where
  name := "counter"
  locations := .ofList ["p"]
  initial := .ofList ["p"]
  steps := .ofList [⟨"p", "x < 2", "x++", "p"⟩, ⟨"p", cond, "x = 0", "p"⟩, ⟨"p", "", "d?y", "p"⟩]
  initializations := .ofList [["x := 0"]]

/-- The program that starts again at two. -/
def counter : ProgramGraph String := counting "x == 2"

/-- Where the program is while `x` has the value `n`. -/
def counted (n : Int64) : State String := ⟨"p", (∅ : Env).set "x" (.int n)⟩

theorem steps_counting (cond : String) : (counting cond).steps.toList =
    [⟨"p", "x < 2", "x++", "p"⟩, ⟨"p", cond, "x = 0", "p"⟩, ⟨"p", "", "d?y", "p"⟩] :=
  Ordered.toList_ofList_of_nodup (by simp)

theorem initial_counting (cond : String) {stmts : List String}
    (h : stmts ∈ (counting cond).initializations) :
    Evaluators.initial {} stmts = .ok (counted 0).second := by
  rw [List.mem_singleton.mp (Ordered.mem_ofList.mp h)]
  decide +kernel

theorem starts_counting {cond : String} {s : State String} :
    (counting cond).Starts {} s ↔ s = counted 0 :=
  starts_iff_eq (fun _ => Ordered.mem_ofList.trans List.mem_singleton) rfl
    (initial_counting cond (Ordered.mem_ofList.mpr List.mem_cons_self))

theorem moves_counting (cond : String) : (counting cond).Moves {} (counted 0) "x++" (counted 1) ∧
    (counting cond).Moves {} (counted 1) "x++" (counted 2) := by
  have hstep : ⟨"p", "x < 2", "x++", "p"⟩ ∈ (counting cond).steps := Ordered.mem_ofList.mpr List.mem_cons_self
  exact ⟨⟨"x < 2", hstep, by decide +kernel, by decide +kernel⟩,
    ⟨"x < 2", hstep, by decide +kernel, by decide +kernel⟩⟩

/-- The program comes to all values up to two, one after the other. -/
theorem reached_counting {cond : String}
    (h : leadsWithin {} (counting cond).steps.toList [counted 0, counted 1, counted 2] = true)
    {s : State String} : (counting cond).Reached {} s ↔ s ∈ [counted 0, counted 1, counted 2] := by
  refine ⟨mem_of_reached (fun s hs => starts_counting.mp hs ▸ List.mem_cons_self) h, fun hs => ?_⟩
  have hzero : (counting cond).Reached {} (counted 0) := .start _ (starts_counting.mpr rfl)
  have hone : (counting cond).Reached {} (counted 1) := .step _ "x++" _ hzero (moves_counting cond).1
  have htwo : (counting cond).Reached {} (counted 2) := .step _ "x++" _ hone (moves_counting cond).2
  simp only [List.mem_cons, List.not_mem_nil, or_false] at hs
  rcases hs with rfl | rfl | rfl
  · exact hzero
  · exact hone
  · exact htwo

theorem counter_within :
    leadsWithin {} counter.steps.toList [counted 0, counted 1, counted 2] = true ∧
      failsNowhere {} counter.steps.toList [counted 0, counted 1, counted 2] = true := by
  rw [counter, steps_counting]
  decide +kernel

theorem exists_unfold_counter : ∃ m, counter.unfold {} = .ok m :=
  exists_unfold_of_leadsWithin [counted 0, counted 1, counted 2] rfl (Int.le_refl 0)
    (fun _ hstmts => ⟨_, initial_counting _ hstmts⟩)
    (fun _ hs => starts_counting.mp hs ▸ List.mem_cons_self) counter_within.1 counter_within.2

/-- A condition on a variable without a value fails as soon as it is asked for, which is at two. -/
theorem unfold_counting_unbound : (counting "x == 2 && y > 0").unfold {} =
    .error (.step "counter" (Display.text (counted 2)) (.inCondition "x == 2 && y > 0" (.unbound "y"))) := by
  have hwithin : leadsWithin {} (counting "x == 2 && y > 0").steps.toList
      [counted 0, counted 1, counted 2] = true := by
    rw [steps_counting]
    decide +kernel
  have honly : ∀ s ∈ [counted 0, counted 1, counted 2],
      ∀ t ∈ (counting "x == 2 && y > 0").steps.toList, (takeStep {} "" s t).isOk = true ∨
        takeStep {} "" s t = .error (.step "" (Display.text (counted 2))
          (.inCondition "x == 2 && y > 0" (.unbound "y"))) := by
    rw [steps_counting]
    decide +kernel
  have hreset : ⟨"p", "x == 2 && y > 0", "x = 0", "p"⟩ ∈ (counting "x == 2 && y > 0").steps :=
    Ordered.mem_ofList.mpr (List.mem_cons_of_mem _ List.mem_cons_self)
  have hfails : (counting "x == 2 && y > 0").Fails {} (counted 2)
      (.inCondition "x == 2 && y > 0" (.unbound "y")) :=
    ⟨_, hreset, rfl, Or.inl (by decide +kernel)⟩
  rcases unfold_of_finite (o := {}) [counted 0, counted 1, counted 2].toFinset rfl (Int.le_refl 0)
    (fun stmts hstmts => ⟨_, initial_counting _ hstmts⟩)
    (fun s hs => List.mem_toFinset.mpr ((reached_counting hwithin).mp hs)) with ⟨m, hm⟩ | ⟨text, c, herror⟩
  · have hu := unfolded_of_unfold hm
    exact absurd hfails (hu.sound _ ((hu.states _).mpr ((reached_counting hwithin).mpr (by simp))) _)
  · obtain ⟨-, s, hs, rfl, t, ht, -, hfail⟩ := ((yields_unfold _ _).of_error herror).1
    have htake := takeStep_of_stepFails hfail ""
    rcases honly s ((reached_counting hwithin).mp hs) t ht with hok | hknown
    · rw [htake] at hok
      cases hok
    · obtain ⟨-, htext, hc⟩ := UnfoldError.step.inj (Except.error.inj (htake.symm.trans hknown))
      rw [herror, htext, hc]
      rfl

/-- The program comes to three values, to the first of them again, and receives nothing; where the condition
    fails, unfolding fails. -/
theorem unfold_operational_counter :
    (∃ m, counter.unfold {} = .ok m ∧ (∀ s, s ∈ m.states ↔ s ∈ [counted 0, counted 1, counted 2]) ∧
      (∀ s, s ∈ m.initial ↔ s = counted 0) ∧ m.prune = (m, 0) ∧
      ⟨counted 0, "x++", counted 1⟩ ∈ m.transitions ∧ ⟨counted 2, "x = 0", counted 0⟩ ∈ m.transitions ∧
      (∀ s s', ⟨s, "d?y", s'⟩ ∉ m.transitions) ∧
      ∀ p, p ∈ m.label (counted 1) ↔ p = "p" ∨ p = "x = 1") ∧
    (counting "x == 2 && y > 0").Justifies {}
      (.step "counter" (Display.text (counted 2)) (.inCondition "x == 2 && y > 0" (.unbound "y"))) := by
  refine ⟨?_, (unfold_operational {} (counting "x == 2 && y > 0")).2 _ unfold_counting_unbound⟩
  obtain ⟨m, hm⟩ := exists_unfold_counter
  obtain ⟨hstates, hinitial, htransitions, -, hprune, hlabel, -⟩ := (unfold_operational {} counter).1 m hm
  have hmem : ∀ s, s ∈ m.states ↔ s ∈ [counted 0, counted 1, counted 2] := fun s =>
    (hstates s).trans (reached_counting counter_within.1)
  refine ⟨m, hm, hmem, fun s => (hinitial s).trans starts_counting, hprune, ?_, ?_, fun s s' h => ?_,
    fun p => ?_⟩
  · exact (htransitions _ _ _).mpr ⟨(hmem _).mpr (by simp), (moves_counting _).1⟩
  · exact (htransitions _ _ _).mpr ⟨(hmem _).mpr (by simp), "x == 2",
      Ordered.mem_ofList.mpr (by simp [counted]), by decide +kernel, by decide +kernel⟩
  · have hblocked : ∀ s ∈ [counted 0, counted 1, counted 2],
        Evaluators.effect {} s.second "d?y" = .ok none := by decide +kernel
    obtain ⟨hs, cond, -, -, heffect⟩ := (htransitions _ _ _).mp h
    rw [hblocked s ((hmem s).mp hs)] at heffect
    cases heffect
  · have htexts : (counted 1).second.entryTexts = ["x = 1"] := by decide +kernel
    rw [hlabel _ ((hmem _).mpr (by simp)), htexts, List.mem_singleton]
    exact or_congr_left List.mem_singleton

end Lasso.ProgramGraph
