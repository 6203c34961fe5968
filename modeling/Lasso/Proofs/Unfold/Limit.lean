import Mathlib.Algebra.GroupWithZero.Nat
import Lasso.Proofs.Unfold.Finite
/-!
# The limit of an unfolding

A limit on the number of states changes nothing as long as there is room, and the search fails exactly
when it would enter a state too many.

* `Capped` -- a computation with a limit beside the same one without: equal, or out of room where the
  other one goes beyond the limit; with the rules for sequences and loops;
* `capped_discover`, `capped_followStep`, `Search.capped` -- entering a state, following a step and the
  whole search are so;
* `room`, `exists_search_of_limit` -- **a search with a limit ends**: a state that is entered waits in
  place of a free one, and each turn takes one away;
* `unfold_limit_exact` -- **the limit is exact**.
-/

namespace Lasso

/-! ## 1. Computations with a limit -/

section Capped

variable {ε α β γ : Type} {size : α → Nat} {size' : β → Nat} {n : Nat} {full : ε}

/-- The first computation has a limit and the second one has none. They do the same, with a result
    within the limit; or the first is out of room, and no result of the second is within the limit. -/
inductive Capped (size : α → Nat) (n : Nat) (full : ε) : Except ε α → Except ε α → Prop where
  | same (r : Except ε α) (h : ∀ a, r = .ok a → size a ≤ n) : Capped size n full r r
  | full (r : Except ε α) (h : ∀ a, r = .ok a → n < size a) : Capped size n full (.error full) r

theorem Capped.within {a : α} (h : size a ≤ n) : Capped size n full (.ok a) (.ok a) := by
  refine .same _ fun b hb => ?_
  obtain rfl := Except.ok.inj hb
  exact h

theorem Capped.beyond {a : α} (h : n < size a) : Capped size n full (.error full) (.ok a) := by
  refine .full _ fun b hb => ?_
  obtain rfl := Except.ok.inj hb
  exact h

theorem Capped.failed (c : ε) : Capped size n full (.error c) (.error c) :=
  .same _ fun _ hb => nomatch hb

/-- One computation behind another, where the second one only adds. -/
theorem Capped.bind {x x' : Except ε α} {f f' : α → Except ε β} (hx : Capped size n full x x')
    (hf : ∀ a, size a ≤ n → Capped size' n full (f a) (f' a))
    (hgrows : ∀ a b, f' a = .ok b → size a ≤ size' b) :
    Capped size' n full (x >>= f) (x' >>= f') := by
  cases hx with
  | same _ h =>
    cases x with
    | error c => exact .failed c
    | ok a => exact hf a (h a rfl)
  | full _ h =>
    refine .full _ fun b hb => ?_
    obtain ⟨a, ha, hb⟩ := bind_eq_ok.mp hb
    exact Nat.lt_of_lt_of_le (h a ha) (hgrows a b hb)

/-- What every turn of a loop does, the loop does, if doing it several times is doing it once. -/
theorem rel_of_foldlM {R : α → α → Prop} (hrefl : ∀ a, R a a)
    (htrans : ∀ a b c, R a b → R b c → R a c) {f : α → γ → Except ε α}
    (hf : ∀ a t b, f a t = .ok b → R a b) {ts : List γ} {a b : α} (h : ts.foldlM f a = .ok b) :
    R a b := by
  induction ts generalizing a with
  | nil =>
    obtain rfl := Except.ok.inj h
    exact hrefl a
  | cons t ts ih =>
    rw [List.foldlM_cons] at h
    obtain ⟨c, hc, h⟩ := bind_eq_ok.mp h
    exact htrans a c b (hf a t c hc) (ih h)

/-- A loop whose turns only add does so too. -/
theorem le_of_foldlM {f : α → γ → Except ε α} (hgrows : ∀ a t b, f a t = .ok b → size a ≤ size b)
    {ts : List γ} {a b : α} (h : ts.foldlM f a = .ok b) : size a ≤ size b :=
  rel_of_foldlM (R := fun a b => size a ≤ size b) (fun _ => Nat.le_refl _)
    (fun _ _ _ => Nat.le_trans) hgrows h

/-- A loop whose turns only add. -/
theorem Capped.foldlM {f f' : α → γ → Except ε α}
    (hf : ∀ a t, size a ≤ n → Capped size n full (f a t) (f' a t))
    (hgrows : ∀ a t b, f' a t = .ok b → size a ≤ size b) {a : α} (ha : size a ≤ n) (ts : List γ) :
    Capped size n full (ts.foldlM f a) (ts.foldlM f' a) := by
  induction ts generalizing a with
  | nil => exact .within ha
  | cons t ts ih =>
    rw [List.foldlM_cons, List.foldlM_cons]
    exact (hf a t ha).bind (fun b hb => ih hb) fun b c hc => le_of_foldlM hgrows hc

/-- What the limited computation does where the other one has a result. -/
theorem Capped.of_ok {x : Except ε α} {a : α} (h : Capped size n full x (.ok a)) :
    (size a ≤ n → x = .ok a) ∧ (n < size a → x = .error full) := by
  cases h with
  | same _ h =>
    have hle := h a rfl
    exact ⟨fun _ => rfl, fun hlt => absurd hlt (by omega)⟩
  | full _ h =>
    have hlt := h a rfl
    exact ⟨fun hle => absurd hle (by omega), fun _ => rfl⟩

theorem Capped.eq_or {x x' : Except ε α} (h : Capped size n full x x') :
    x = x' ∨ x = .error full := by
  cases h with
  | same _ _ => exact Or.inl rfl
  | full _ _ => exact Or.inr rfl

/-- Where the limited computation has a result, the other one has the same. -/
theorem Capped.eq_ok {x x' : Except ε α} {a : α} (h : Capped size n full x x') (hx : x = .ok a) :
    x' = .ok a ∧ size a ≤ n := by
  cases h with
  | same _ h => exact ⟨hx, h a hx⟩
  | full _ h => cases hx

end Capped

/-- The same options with another number of states. -/
def UnfoldOptions.limited (o : UnfoldOptions) (n : Int) : UnfoldOptions := { o with maxStates := n }

/-- The same options without a limit. -/
def UnfoldOptions.unlimited (o : UnfoldOptions) : UnfoldOptions := o.limited 0

namespace UnfoldOptions

@[simp] theorem maxStates_limited (o : UnfoldOptions) (n : Int) : (o.limited n).maxStates = n := rfl

@[simp] theorem maxStates_unlimited (o : UnfoldOptions) : o.unlimited.maxStates = 0 := rfl

@[simp] theorem evaluators_limited (o : UnfoldOptions) (n : Int) :
    (o.limited n).evaluators = o.evaluators := rfl

@[simp] theorem evaluators_unlimited (o : UnfoldOptions) : o.unlimited.evaluators = o.evaluators := rfl

end UnfoldOptions

namespace ProgramGraph

variable {L : Type} [DecidableEq L] [Hashable L] {o : UnfoldOptions} {g : ProgramGraph L}
  {u u' : Unfolding L} {name : String} {s : State L} {n : Nat} [NeZero n]

/-! ## 2. One step -/

/-- The number of states entered so far. -/
def Unfolding.count (u : Unfolding L) : Nat := u.system.states.size

theorem size_insert_of_new {α : Type} [DecidableEq α] [Hashable α] {xs : Ordered α} {a : α}
    (h : xs.contains a = false) : (xs.insert a).size = xs.size + 1 := by
  rw [Ordered.insert, Ordered.add, h]
  exact Array.size_push a

theorem count_addState (h : u.system.states.contains s = false) (waiting : List (State L)) :
    Unfolding.count ⟨u.system.addState s, waiting⟩ = u.count + 1 := by
  rw [Unfolding.count, TransitionSystem.states_addState]
  exact size_insert_of_new h

/-- **What entering a state can do**: nothing, or one more state waits, and there was room for it. -/
theorem discover_cases (h : discover o name u s = .ok u') :
    u' = u ∨ u'.count = u.count + 1 ∧ u'.waiting = s :: u.waiting ∧
      (0 < o.maxStates → u.count < o.maxStates) := by
  unfold discover at h
  split at h
  · exact Or.inl (Except.ok.inj h).symm
  · rename_i hnew
    have hcount := count_addState (Bool.eq_false_iff.mpr hnew) (s :: u.waiting)
    split at h
    · cases h
    · rename_i hroom
      obtain rfl := Except.ok.inj h
      rw [Bool.and_eq_true, decide_eq_true_eq, decide_eq_true_eq] at hroom
      exact Or.inr ⟨hcount, rfl, fun hpos => Int.lt_of_not_ge fun hfull => hroom ⟨hpos, hfull⟩⟩

theorem capped_discover (o : UnfoldOptions) (name : String) (s : State L) (h : u.count ≤ n) :
    Capped Unfolding.count n (.limit n name) (discover (o.limited n) name u s)
      (discover o.unlimited name u s) := by
  unfold discover
  cases hknown : u.system.states.contains s with
  | true => exact .within h
  | false =>
    have hcount := count_addState hknown (s :: u.waiting)
    have hpos : 0 < n := Nat.pos_of_neZero n
    simp only [Bool.false_eq_true, if_false, UnfoldOptions.maxStates_limited,
      UnfoldOptions.maxStates_unlimited, gt_iff_lt, Int.natCast_pos, hpos, decide_true, Bool.true_and,
      Int.lt_irrefl, decide_false, Bool.false_and, ge_iff_le, Int.ofNat_le, decide_eq_true_eq]
    by_cases hfull : n ≤ u.system.states.size
    · have hle : n ≤ u.count := hfull
      rw [if_pos hfull]
      exact .beyond (by omega)
    · have hlt : u.count < n := Nat.lt_of_not_le hfull
      rw [if_neg hfull]
      exact .within (by omega)

theorem discover_limited_of_nonpos (o : UnfoldOptions) {k : Int} (hk : k ≤ 0) :
    discover (L := L) (o.limited k) = discover o.unlimited := by
  funext name u s
  unfold discover
  simp [Int.not_lt.mpr hk]

section Steps

variable [Display L] {t : ProgramStep L}

/-- What following a step can do: nothing but enter a state, as far as the states are concerned. -/
theorem followStep_cases (h : followStep o name s u t = .ok u') :
    ∃ u₁, u'.count = u₁.count ∧ u'.waiting = u₁.waiting ∧
      (u₁ = u ∨ ∃ s', discover o name u s' = .ok u₁) := by
  obtain ⟨r, -, h⟩ := bind_eq_ok.mp h
  cases r with
  | none =>
    obtain rfl := Except.ok.inj h
    exact ⟨_, rfl, rfl, Or.inl rfl⟩
  | some s' =>
    obtain ⟨u₁, hu₁, h⟩ := bind_eq_ok.mp h
    obtain rfl := Except.ok.inj h
    refine ⟨u₁, ?_, rfl, Or.inr ⟨s', hu₁⟩⟩
    rw [Unfolding.count, TransitionSystem.states_insertTransition]
    rfl

theorem count_le_of_followStep (h : followStep o name s u t = .ok u') : u.count ≤ u'.count := by
  obtain ⟨u₁, hcount, -, rfl | ⟨s', hd⟩⟩ := followStep_cases h
  · exact Nat.le_of_eq hcount.symm
  · rcases discover_cases hd with rfl | ⟨hone, -, -⟩
    · exact Nat.le_of_eq hcount.symm
    · omega

theorem capped_followStep (o : UnfoldOptions) (name : String) (s : State L) (t : ProgramStep L)
    (h : u.count ≤ n) :
    Capped Unfolding.count n (.limit n name) (followStep (o.limited n) name s u t)
      (followStep o.unlimited name s u t) := by
  unfold followStep
  rw [UnfoldOptions.evaluators_limited, UnfoldOptions.evaluators_unlimited]
  cases takeStep o.evaluators name s t with
  | error c => exact .failed c
  | ok r =>
    cases r with
    | none => exact .within h
    | some s' =>
      have hcount : ∀ u' : Unfolding L, Unfolding.count
          { u' with system := u'.system.insertTransition ⟨s, t.action, s'⟩ } = u'.count := by
        intro u'
        rw [Unfolding.count, TransitionSystem.states_insertTransition]
        rfl
      refine (capped_discover o name s' h).bind (fun u' hu' => ?_) fun u' u'' hu'' => ?_
      · refine .within ?_
        rw [hcount]
        exact hu'
      · obtain rfl := Except.ok.inj hu''
        rw [hcount]

/-! ## 3. The search -/

/-- Following all steps of a state. -/
theorem capped_turn (o : UnfoldOptions) (g : ProgramGraph L) (s : State L) (rest : List (State L))
    (h : m.states.size ≤ n) :
    Capped Unfolding.count n (.limit n g.name)
      ((g.outgoing s.first).foldlM (followStep (o.limited n) g.name s) ⟨m, rest⟩)
      ((g.outgoing s.first).foldlM (followStep o.unlimited g.name s) ⟨m, rest⟩) :=
  Capped.foldlM (fun _ t hu => capped_followStep o g.name s t hu)
    (fun _ _ _ hu => count_le_of_followStep hu) h _

variable {r : Except UnfoldError (TransitionSystem (State L) String String)}
  {m : TransitionSystem (State L) String String}

/-- What the search leads to has at least the states that are there. -/
def Gains (u : Unfolding L) (r : Except UnfoldError (TransitionSystem (State L) String String)) : Prop :=
  ∀ m, r = .ok m → u.count ≤ m.states.size

/-- **A search without a limit beside the one with a limit**, if it ends. -/
theorem Search.capped (hr : Search o.unlimited g u r) :
    Gains u r ∧ (u.count ≤ n → ∃ r', Search (o.limited n) g u r' ∧
      Capped (·.states.size) n (.limit n g.name) r' r) := by
  induction hr with
  | done m =>
    refine ⟨fun m' hm' => ?_, fun hle => ⟨_, .done m, .within hle⟩⟩
    obtain rfl := Except.ok.inj hm'
    exact Nat.le_refl _
  | canceled m s rest hc =>
    exact ⟨fun m' hm' => (nomatch hm'), fun _ => ⟨_, .canceled m s rest hc, .failed _⟩⟩
  | failed m s rest c hc hfold =>
    refine ⟨fun m' hm' => (nomatch hm'), fun hle => ?_⟩
    rcases (capped_turn o g s rest hle).eq_or with hsame | hfull
    · exact ⟨_, .failed m s rest c hc (hsame.trans hfold), .failed c⟩
    · exact ⟨_, .failed m s rest _ hc hfull, .full _ fun m' hm' => nomatch hm'⟩
  | turn m s rest u' r hc hfold _ ih =>
    obtain ⟨hmore, hsearch⟩ := ih
    have hle' : Unfolding.count ⟨m, rest⟩ ≤ u'.count :=
      le_of_foldlM (fun _ _ _ hu => count_le_of_followStep hu) hfold
    refine ⟨fun m' hm' => Nat.le_trans hle' (hmore m' hm'), fun hle => ?_⟩
    have hturn := capped_turn o g s rest hle
    rw [hfold] at hturn
    by_cases hroom : u'.count ≤ n
    · obtain ⟨r', hr', hcapped⟩ := hsearch hroom
      exact ⟨r', .turn m s rest u' r' hc (hturn.of_ok.1 hroom) hr', hcapped⟩
    · have hlt : n < u'.count := Nat.lt_of_not_le hroom
      refine ⟨_, .failed m s rest _ hc (hturn.of_ok.2 hlt), .full _ fun m' hm' => ?_⟩
      exact Nat.lt_of_lt_of_le hlt (hmore m' hm')

/-- **What a search with a limit leads to, the one without leads to as well.** -/
theorem Search.unlimited (hr : Search (o.limited n) g u (.ok m)) (hle : u.count ≤ n) :
    Search o.unlimited g u (.ok m) := by
  generalize e : Except.ok m = r at hr
  induction hr with
  | done m => exact .done m
  | canceled => cases e
  | failed => cases e
  | turn m s rest u' r hc hfold _ ih =>
    obtain ⟨hfold', hle'⟩ := (capped_turn o g s rest hle).eq_ok hfold
    exact .turn m s rest u' r hc hfold' (ih hle' e)

/-- **Searches that take the same steps** lead to the same. -/
theorem Search.congr {o' : UnfoldOptions} (hstep : followStep (L := L) o = followStep o')
    (hcanceled : o.canceled = o'.canceled) (hr : Search o g u r) : Search o' g u r := by
  induction hr with
  | done m => exact .done m
  | canceled m s rest hc => exact .canceled m s rest (hcanceled ▸ hc)
  | failed m s rest c hc hfold => exact .failed m s rest c (hcanceled ▸ hc) (hstep ▸ hfold)
  | turn m s rest u' r hc hfold _ ih => exact .turn m s rest u' r (hcanceled ▸ hc) (hstep ▸ hfold) ih

/-! ## 4. The search ends -/

/-- The states that wait and those that there is room for. -/
def room (n : Nat) (u : Unfolding L) : Nat := u.waiting.length + (n - u.count)

/-- Following a step takes no more room than it gives. -/
theorem room_followStep (h : followStep (o.limited n) name s u t = .ok u') : room n u' ≤ room n u := by
  obtain ⟨u₁, hcount, hwaiting, hd⟩ := followStep_cases h
  unfold room
  rw [hcount, hwaiting]
  rcases hd with rfl | ⟨s', hd⟩
  · exact Nat.le_refl _
  · rcases discover_cases hd with rfl | ⟨hone, hwaits, hlimit⟩
    · exact Nat.le_refl _
    · have hlt : u.count < n := Int.ofNat_lt.mp (hlimit (Int.natCast_pos.mpr (Nat.pos_of_neZero n)))
      rw [hone, hwaits, List.length_cons]
      omega

/-- **A search with a limit ends**: each turn takes up a state that waits. -/
theorem exists_search_of_limit (o : UnfoldOptions) (g : ProgramGraph L) (n : Nat) [NeZero n]
    (u : Unfolding L) : ∃ r, Search (o.limited n) g u r := by
  refine Search.exists_of_measure (I := fun _ => True) (room n) (fun m s rest u' _ hfold => ?_) trivial
  have hroom : room n u' ≤ room n ⟨m, rest⟩ :=
    rel_of_foldlM (R := fun u u' => room n u' ≤ room n u) (fun _ => Nat.le_refl _)
      (fun _ _ _ h₁ h₂ => Nat.le_trans h₂ h₁) (fun _ _ _ hu => room_followStep hu) hfold
  have hless : room n ⟨m, rest⟩ < room n ⟨m, s :: rest⟩ :=
    Nat.add_lt_add_right (Nat.lt_succ_self rest.length) _
  exact ⟨trivial, Nat.lt_of_le_of_lt hroom hless⟩

/-! ## 5. Unfolding -/

/-- Enters a state in which the program starts. -/
def enterStart (o : UnfoldOptions) (name : String) (u : Unfolding L) (s : State L) :
    Except UnfoldError (Unfolding L) := do
  let u ← discover o name u s
  return { u with system := u.system.insertInitial s }

/-- The unfolding with the states in which the program starts, before its steps are followed. -/
def started (o : UnfoldOptions) (g : ProgramGraph L) : Except UnfoldError (Unfolding L) := do
  let es ← g.initialEnvs o.evaluators
  let starts : List (State L) := es.flatMap fun e => g.initial.toList.map fun l => ⟨l, e⟩
  starts.foldlM (enterStart o g.name)
    ⟨(TransitionSystem.empty g.name).addActions (g.steps.toList.map (·.action)), []⟩

theorem unfold_eq (o : UnfoldOptions) (g : ProgramGraph L) : g.unfold o = started o g >>= fun u =>
    ((followAll? o g u).getD (.error (.endless g.name))).map labelStates := by
  unfold unfold started
  cases g.initialEnvs o.evaluators with
  | error c => rfl
  | ok es => rfl

omit [Display L] in
theorem count_le_of_enterStart (h : enterStart o name u s = .ok u') : u.count ≤ u'.count := by
  obtain ⟨u₁, hd, h⟩ := bind_eq_ok.mp h
  obtain rfl := Except.ok.inj h
  rcases discover_cases hd with rfl | ⟨hone, -, -⟩
  · exact Nat.le_refl _
  · have hle : u.count ≤ u₁.count := by omega
    exact hle

omit [Display L] in
theorem capped_enterStart (o : UnfoldOptions) (name : String) (s : State L) (h : u.count ≤ n) :
    Capped Unfolding.count n (.limit n name) (enterStart (o.limited n) name u s)
      (enterStart o.unlimited name u s) := by
  refine (capped_discover o name s h).bind (fun u' hu' => .within hu') fun u' u'' hu'' => ?_
  obtain rfl := Except.ok.inj hu''
  exact Nat.le_refl _

omit [Display L] in
/-- Entering all starts: there is none at first. -/
theorem capped_started (o : UnfoldOptions) (g : ProgramGraph L) (n : Nat) [NeZero n] :
    Capped Unfolding.count n (.limit n g.name) (started (o.limited n) g) (started o.unlimited g) := by
  unfold started
  rw [UnfoldOptions.evaluators_limited, UnfoldOptions.evaluators_unlimited]
  cases g.initialEnvs o.evaluators with
  | error c => exact .failed c
  | ok es =>
    refine Capped.foldlM (fun _ s hu => capped_enterStart o g.name s hu)
      (fun _ _ _ hu => count_le_of_enterStart hu) ?_ _
    have hzero : Unfolding.count (L := L) ⟨(TransitionSystem.empty g.name).addActions
        (g.steps.toList.map (·.action)), []⟩ = 0 := by
      rw [Unfolding.count, TransitionSystem.addActions_eq]
      rfl
    rw [hzero]
    exact Nat.zero_le n

theorem states_labelStates (m : TransitionSystem (State L) String String) :
    (labelStates m).states = m.states := congrArg (·.1) (parts_labelStates m)

/-- Where an unfolding succeeds, its search ends with a system, which is labeled. -/
theorem exists_search (h : g.unfold o = .ok m) :
    ∃ u m₀, started o g = .ok u ∧ Search o g u (.ok m₀) ∧ m = labelStates m₀ ∧
      m.states.size = m₀.states.size := by
  rw [unfold_eq] at h
  obtain ⟨u, hu, h⟩ := bind_eq_ok.mp h
  obtain ⟨m₀, hm₀, rfl⟩ := map_eq_ok.mp h
  refine ⟨u, m₀, hu, ?_, rfl, by rw [states_labelStates]⟩
  cases hr : followAll? o g u with
  | none =>
    rw [hr] at hm₀
    cases hm₀
  | some r =>
    rw [hr] at hm₀
    exact followAll?_eq_some_iff.mp (hr.trans (congrArg some hm₀))

theorem unfold_of_search (hu : started o g = .ok u) (hr : Search o g u r) :
    g.unfold o = r.map labelStates := by
  rw [unfold_eq, hu]
  show ((followAll? o g u).getD _).map labelStates = _
  rw [followAll?_eq_some_iff.mpr hr]
  rfl

/-- **An unfolding with a limit beside one that succeeds without.** -/
theorem capped_unfold (n : Nat) [NeZero n] (h : g.unfold o.unlimited = .ok m) :
    Capped (·.states.size) n (.limit n g.name) (g.unfold (o.limited n)) (.ok m) := by
  obtain ⟨u, m₀, hu, hsearch, rfl, hsize⟩ := exists_search h
  obtain ⟨hmore, hcapped⟩ := hsearch.capped (n := n)
  have hstarted := capped_started o g n
  rw [hu] at hstarted
  by_cases hroom : u.count ≤ n
  · have hu' := hstarted.of_ok.1 hroom
    obtain ⟨r, hr, hcap⟩ := hcapped hroom
    rw [unfold_of_search hu' hr]
    by_cases hle : m₀.states.size ≤ n
    · rw [hcap.of_ok.1 hle]
      exact .within (hsize ▸ hle)
    · rw [hcap.of_ok.2 (Nat.lt_of_not_le hle)]
      exact .beyond (by omega)
  · have hlt : n < m₀.states.size := Nat.lt_of_lt_of_le (Nat.lt_of_not_le hroom) (hmore m₀ rfl)
    rw [unfold_eq, hstarted.of_ok.2 (Nat.lt_of_not_le hroom)]
    exact .beyond (by omega)

theorem unfold_unlimited (h : g.unfold (o.limited n) = .ok m) : g.unfold o.unlimited = .ok m := by
  obtain ⟨u, m₀, hu, hsearch, rfl, -⟩ := exists_search h
  obtain ⟨hu', hle⟩ := (capped_started o g n).eq_ok hu
  exact unfold_of_search hu' (hsearch.unlimited hle)

/-- An unfolding with a limit does not go on without end. -/
theorem unfold_limited_ends (o : UnfoldOptions) (g : ProgramGraph L) (n : Nat) [NeZero n] (p : String) :
    g.unfold (o.limited n) ≠ .error (.endless p) := by
  intro h
  obtain ⟨-, hwhy⟩ := (yields_unfold (o.limited n) g).of_error h
  obtain ⟨u, -, hnone⟩ := hwhy
  obtain ⟨r, hr⟩ := exists_search_of_limit o g n u
  rw [followAll?_eq_some_iff.mpr hr] at hnone
  cases hnone

/-- **A number of states that is not positive is no limit.** -/
theorem unfold_limited_of_nonpos (o : UnfoldOptions) (g : ProgramGraph L) {k : Int} (hk : k ≤ 0) :
    g.unfold (o.limited k) = g.unfold o.unlimited := by
  have hdiscover := discover_limited_of_nonpos (L := L) o hk
  have hstep : followStep (L := L) (o.limited k) = followStep o.unlimited := by
    unfold followStep
    rw [hdiscover]
    rfl
  have hsearch : ∀ u, followAll? (o.limited k) g u = followAll? o.unlimited g u := fun u =>
    Option.ext fun r => by
      rw [followAll?_eq_some_iff, followAll?_eq_some_iff]
      exact ⟨Search.congr hstep rfl, Search.congr hstep.symm rfl⟩
  have hstarted : started (o.limited k) g = started o.unlimited g := by
    unfold started enterStart
    rw [hdiscover]
    rfl
  simp only [unfold_eq, hstarted, hsearch]

/-- **The limit of an unfolding is exact.** A number of states that is not positive is no limit. With a
    limit the unfolding ends, and never with more states than that. A program that is unfolded without a
    limit is unfolded to the same system with every limit that is not less than its number of states, and
    is out of room with every other. So a limit that suffices can be raised or left out. -/
theorem unfold_limit_exact (o : UnfoldOptions) (g : ProgramGraph L) (n : Int) :
    (n ≤ 0 → g.unfold (o.limited n) = g.unfold o.unlimited) ∧
    (0 < n →
      (∀ p, g.unfold (o.limited n) ≠ .error (.endless p)) ∧
      (∀ m, g.unfold (o.limited n) = .ok m → m.states.size ≤ n) ∧
      (∀ m, g.unfold o.unlimited = .ok m →
        (m.states.size ≤ n → g.unfold (o.limited n) = .ok m) ∧
        (n < m.states.size → g.unfold (o.limited n) = .error (.limit n g.name))) ∧
      ∀ m, g.unfold (o.limited n) = .ok m →
        g.unfold o.unlimited = .ok m ∧ ∀ k, n ≤ k → g.unfold (o.limited k) = .ok m) := by
  refine ⟨unfold_limited_of_nonpos o g, fun hn => ?_⟩
  obtain ⟨n, rfl⟩ := Int.eq_ofNat_of_zero_le (Int.le_of_lt hn)
  have : NeZero n := ⟨by omega⟩
  have hwithin : ∀ m, g.unfold (o.limited n) = .ok m → m.states.size ≤ n := fun m hm =>
    ((capped_unfold n (unfold_unlimited hm)).eq_ok hm).2
  refine ⟨unfold_limited_ends o g n, fun m hm => Int.ofNat_le.mpr (hwithin m hm), fun m hm => ?_,
    fun m hm => ?_⟩
  · obtain ⟨hroom, hfull⟩ := (capped_unfold n hm).of_ok
    exact ⟨fun h => hroom (Int.ofNat_le.mp h), fun h => hfull (Int.ofNat_lt.mp h)⟩
  · have hm' := unfold_unlimited hm
    refine ⟨hm', fun k hk => ?_⟩
    obtain ⟨k, rfl⟩ := Int.eq_ofNat_of_zero_le (Int.le_trans (Int.le_of_lt hn) hk)
    have : NeZero k := ⟨by omega⟩
    exact (capped_unfold k hm').of_ok.1 (Nat.le_trans (hwithin m hm) (Int.ofNat_le.mp hk))

end Steps

/-- A program with three states is out of room with one or two, and has room in every other limit. -/
theorem unfold_limit_exact_counter :
    ∃ m, counter.unfold {} = .ok m ∧ m.states.size = 3 ∧
      counter.unfold { maxStates := -1 } = .ok m ∧
      counter.unfold { maxStates := 1 } = .error (.limit 1 "counter") ∧
      counter.unfold { maxStates := 2 } = .error (.limit 2 "counter") ∧
      ∀ k : Int, 3 ≤ k → counter.unfold { maxStates := k } = .ok m := by
  obtain ⟨m, hm⟩ := exists_unfold_counter
  have hu := unfolded_of_unfold hm
  have hsize : m.states.size = 3 := hu.consistent.states.size_eq_length (by decide +kernel)
    fun s => (hu.states s).trans (reached_counting counter_within.1)
  have hexact : ∀ n : Int, 0 < n → _ := fun n hn => ((unfold_limit_exact {} counter n).2 hn).2.2.1 m hm
  have hthree := (hexact 3 (by decide)).1 (by omega)
  refine ⟨m, hm, hsize, ((unfold_limit_exact {} counter (-1)).1 (by decide)).trans hm, ?_, ?_, ?_⟩
  · exact (hexact 1 (by decide)).2 (by omega)
  · exact (hexact 2 (by decide)).2 (by omega)
  · exact (((unfold_limit_exact {} counter 3).2 (by decide)).2.2.2 m hthree).2

end ProgramGraph

end Lasso
