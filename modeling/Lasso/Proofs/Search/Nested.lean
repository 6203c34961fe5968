import Lasso.Proofs.Search.Sweep
/-!
# The inner search and lassos

* `Sought` -- the invariant of the inner search: its stack is a path from the goal, and no state it has
  met leads back to the goal;
* `cycleThrough_eq_some`, `cycleThrough_eq_none` -- **the inner search finds a way back exactly when
  there is one**;
* `lasso?_eq_some`, `lasso?_eq_none` -- the same for the two searches together: what is found is a
  lasso from a start through an accepting state, and **where nothing is found, no accepting state that
  can be reached lies on a cycle**.
-/

namespace Lasso

variable {S : Type} [DecidableEq S] [Hashable S] {known : Std.HashMap S Nat} {next : S → List S}

/-! ## 1. The invariant of the inner search -/

/-- **The invariant of the inner search** for the way back to `goal`. The top of the stack stands
    first, so its states go against the successors. -/
structure Sought (known : Std.HashMap S Nat) (next : S → List S) (goal : S)
    (stack : List (S × List S)) (visited : Std.HashSet S) : Prop where
  chain : (stack.map (·.1)).IsChain fun b a => Leads next a b
  bottom : ∀ s ∈ (stack.map (·.1)).getLast?, s = goal
  frames : ∀ f ∈ stack, ∀ t ∈ f.2, t ∈ next f.1
  missed : ∀ s ∈ visited, ¬ Leads next s goal
  waits : Waits known next visited stack
  goal_mem : goal ∈ visited

namespace Sought

variable {goal : S} {visited : Std.HashSet S} {stack : List (S × List S)}

theorem start (h : ¬ Leads next goal goal) :
    Sought known next goal [(goal, next goal)] ((∅ : Std.HashSet S).insert goal) where
  chain := List.isChain_singleton goal
  bottom s hs := (Option.some.inj hs).symm
  frames f hf t ht := by
    rw [List.mem_singleton.mp hf] at ht ⊢
    exact ht
  missed s hs := by
    rcases mem_insert_iff.mp hs with rfl | hs
    · exact h
    · exact absurd hs Std.HashSet.not_mem_empty
  waits := by
    have hnone : Waits known next (∅ : Std.HashSet S) ([] : List (S × List S)) :=
      fun s t hs => absurd hs Std.HashSet.not_mem_empty
    exact hnone.meet fun f hf => absurd hf List.not_mem_nil
  goal_mem := mem_insert_iff.mpr (Or.inl rfl)

theorem pop {x : S} (h : Sought known next goal ((x, []) :: stack) visited) :
    Sought known next goal stack visited where
  chain := h.chain.tail
  bottom s hs := by
    cases stack with
    | nil => cases hs
    | cons f rest => exact h.bottom s (by rwa [List.map_cons, List.map_cons, List.getLast?_cons_cons])
  frames f hf := h.frames f (List.mem_cons_of_mem _ hf)
  missed := h.missed
  waits := h.waits.pop
  goal_mem := h.goal_mem

theorem skip {x s : S} {ss : List S} (h : Sought known next goal ((x, s :: ss) :: stack) visited)
    (hs : s ∈ visited ∨ ¬ s ∈ known) : Sought known next goal ((x, ss) :: stack) visited where
  chain := h.chain
  bottom := h.bottom
  frames f hf := by
    rcases List.mem_cons.mp hf with rfl | hf
    · exact fun t ht => h.frames _ List.mem_cons_self t (List.mem_cons_of_mem _ ht)
    · exact h.frames f (List.mem_cons_of_mem _ hf)
  missed := h.missed
  waits := h.waits.skip hs
  goal_mem := h.goal_mem

theorem descend {x s : S} {ss : List S} (h : Sought known next goal ((x, s :: ss) :: stack) visited)
    (hs : ¬ Leads next s goal) :
    Sought known next goal ((s, next s) :: (x, ss) :: stack) (visited.insert s) where
  chain := List.isChain_cons_cons.mpr
    ⟨h.frames _ List.mem_cons_self s List.mem_cons_self, h.chain⟩
  bottom t ht := h.bottom t (by
    rwa [List.map_cons, List.map_cons, List.getLast?_cons_cons] at ht)
  frames f hf := by
    rcases List.mem_cons.mp hf with rfl | hf
    · exact fun t ht => ht
    · rcases List.mem_cons.mp hf with rfl | hf
      · exact fun t ht => h.frames _ List.mem_cons_self t (List.mem_cons_of_mem _ ht)
      · exact h.frames f (List.mem_cons_of_mem _ hf)
  missed t ht := by
    rcases mem_insert_iff.mp ht with rfl | ht
    · exact hs
    · exact h.missed t ht
  waits := h.waits.meet lost_of_descend
  goal_mem := mem_insert_iff.mpr (Or.inr h.goal_mem)

/-! ## 2. What the inner search returns -/

/-- The states on the stack, read from the bottom, with the state that leads back to the goal. -/
theorem closes {x s : S} {ss : List S} (h : Sought known next goal ((x, s :: ss) :: stack) visited)
    (hs : Leads next s goal) :
    (s :: x :: stack.map (·.1)).reverse.head? = some goal ∧
      ((s :: x :: stack.map (·.1)).reverse ++ [goal]).IsChain (Leads next) := by
  have hx : Leads next x s := h.frames _ List.mem_cons_self s List.mem_cons_self
  constructor
  · rw [List.head?_reverse, List.getLast?_cons_cons]
    obtain ⟨b, hb⟩ : ∃ b, (x :: stack.map (·.1)).getLast? = some b := by
      rw [List.getLast?_eq_some_getLast (List.cons_ne_nil _ _)]
      exact ⟨_, rfl⟩
    rw [hb, h.bottom b hb]
  · have hup : (goal :: s :: x :: stack.map (·.1)).IsChain fun b a => Leads next a b :=
      List.isChain_cons_cons.mpr ⟨hs, List.isChain_cons_cons.mpr ⟨hx, h.chain⟩⟩
    rw [← List.reverse_cons]
    exact List.isChain_reverse.mpr hup

theorem seek_eq_some (h : Sought known next goal stack visited) {cycle : List S}
    (e : seek known next goal stack visited = some cycle) :
    cycle.head? = some goal ∧ (cycle ++ [goal]).IsChain (Leads next) := by
  fun_induction seek known next goal stack visited with
  | case1 => cases e
  | case2 visited x stack ih => exact ih h.pop e
  | case3 visited x s ss stack hv ih => exact ih (h.skip (Or.inl hv)) e
  | case4 visited x s ss stack hv hk hgoal =>
    rw [← Option.some.inj e]
    exact h.closes hgoal
  | case5 visited x s ss stack hv hk hgoal ih => exact ih (h.descend hgoal) e
  | case6 visited x s ss stack hv hk ih => exact ih (h.skip (Or.inr hk)) e

theorem seek_eq_none (h : Sought known next goal stack visited)
    (hk : ∀ s t, t ∈ next s → t ∈ known) (e : seek known next goal stack visited = none) :
    ¬ Relation.TransGen (Leads next) goal goal := by
  fun_induction seek known next goal stack visited with
  | case1 =>
    -- what was met is closed under successors and has no way back
    intro hback
    obtain ⟨b, hb, hlast⟩ := Relation.TransGen.tail'_iff.mp hback
    exact h.missed b (h.waits.closed hk h.goal_mem hb) hlast
  | case2 visited x stack ih => exact ih h.pop e
  | case3 visited x s ss stack hv ih => exact ih (h.skip (Or.inl hv)) e
  | case4 visited x s ss stack hv hk' hgoal => cases e
  | case5 visited x s ss stack hv hk' hgoal ih => exact ih (h.descend hgoal) e
  | case6 visited x s ss stack hv hk' ih => exact ih (h.skip (Or.inr hk')) e

end Sought

theorem cycleThrough_eq_some {s : S} {cycle : List S} (e : cycleThrough known next s = some cycle) :
    cycle.head? = some s ∧ (cycle ++ [s]).IsChain (Leads next) := by
  unfold cycleThrough at e
  split at e
  · rename_i hs
    rw [← Option.some.inj e]
    exact ⟨rfl, List.isChain_pair.mpr hs⟩
  · rename_i hs
    exact (Sought.start hs).seek_eq_some e

theorem cycleThrough_eq_none (hk : ∀ s t, t ∈ next s → t ∈ known) {s : S}
    (e : cycleThrough known next s = none) : ¬ Relation.TransGen (Leads next) s s := by
  unfold cycleThrough at e
  split at e
  · cases e
  · rename_i hs
    exact (Sought.start hs).seek_eq_none hk e

/-! ## 3. Lassos -/

/-- The lasso goes through the first node that has a cycle. -/
theorem firstLasso_eq_some {forest : Forest S} {ns : List Nat} {stem cycle : List S}
    (e : firstLasso known next forest ns = some (stem, cycle)) :
    ∃ before n after x, ns = before ++ n :: after ∧
      (∀ k ∈ before, ∀ y, forest.node? k = some y → cycleThrough known next y.payload = none) ∧
      forest.node? n = some x ∧ cycleThrough known next x.payload = some cycle ∧
      stem = (forest.path n).dropLast := by
  induction ns with
  | nil => cases e
  | cons n ns ih =>
    unfold firstLasso at e
    split at e
    · rename_i hnone
      obtain ⟨before, k, after, x, hns, hbefore, hlasso⟩ := ih e
      refine ⟨n :: before, k, after, x, by rw [hns, List.cons_append], ?_, hlasso⟩
      refine List.forall_mem_cons.mpr ⟨fun y hy => ?_, hbefore⟩
      rw [hnone] at hy
      cases hy
    · rename_i x hx
      split at e
      · rename_i c hc
        cases e
        exact ⟨[], n, ns, x, rfl, fun k hk => absurd hk List.not_mem_nil, hx, hc, rfl⟩
      · rename_i hnone
        obtain ⟨before, k, after, y, hns, hbefore, hlasso⟩ := ih e
        refine ⟨n :: before, k, after, y, by rw [hns, List.cons_append], ?_, hlasso⟩
        refine List.forall_mem_cons.mpr ⟨fun z hz => ?_, hbefore⟩
        obtain rfl : x = z := Option.some.inj (hx.symm.trans hz)
        exact hnone

theorem firstLasso_eq_none {forest : Forest S} {ns : List Nat}
    (e : firstLasso known next forest ns = none) {n : Nat} (hn : n ∈ ns) {x : ForestNode S}
    (hx : forest.node? n = some x) : cycleThrough known next x.payload = none := by
  induction ns with
  | nil => cases hn
  | cons k ns ih =>
    unfold firstLasso at e
    rcases List.mem_cons.mp hn with rfl | hn
    · rw [hx] at e
      cases hcycle : cycleThrough known next x.payload with
      | none => rfl
      | some c =>
        simp only [hcycle] at e
        cases e
    · refine ih ?_ hn
      split at e
      · exact e
      · split at e
        · cases e
        · exact e

variable {accepting : S → Bool} {starts : List S}

/-- **What the searches return is a lasso** from a start through an accepting state. -/
theorem lasso?_eq_some {stem cycle : List S}
    (e : (sweep known next accepting starts).lasso? known next = some (stem, cycle)) :
    ∃ hc : cycle ≠ [], accepting (cycle.head hc) = true ∧
      (∃ r ∈ starts, (stem ++ cycle).head? = some r) ∧
      (stem ++ cycle ++ [cycle.head hc]).IsChain (Leads next) := by
  have h : Swept known next accepting starts (sweep known next accepting starts) [] := swept_sweep
  obtain ⟨before, n, after, x, hns, -, hx, hcycle, rfl⟩ := firstLasso_eq_some e
  obtain ⟨x', hx', hacc⟩ := (h.noted n).mp (hns ▸ List.mem_append_right _ List.mem_cons_self)
  obtain rfl : x = x' := Option.some.inj (hx.symm.trans hx')
  obtain ⟨hhead, hchain⟩ := cycleThrough_eq_some hcycle
  obtain ⟨rest, rfl⟩ := List.head?_eq_some_iff.mp hhead
  obtain ⟨hpath, hlast, r, hr, hroot⟩ := h.grows.path hx
  obtain ⟨stem, hstem⟩ : ∃ stem, (sweep known next accepting starts).forest.path n =
      stem ++ [x.payload] := ⟨_, (List.dropLast_append_getLast? _ hlast).symm⟩
  rw [hstem, List.dropLast_concat]
  rw [hstem] at hpath hroot
  refine ⟨List.cons_ne_nil _ _, hacc, ⟨r, hr, ?_⟩, ?_⟩
  · cases stem with
    | nil => exact hroot
    | cons s stem => exact hroot
  · -- the path to the state and the cycle from it share the state
    have hjoin : (stem ++ [x.payload] ++ (rest ++ [x.payload])).IsChain (Leads next) :=
      List.IsChain.append_overlap hpath hchain (List.cons_ne_nil _ _)
    simpa using hjoin

/-- **Where no lasso is found**, no accepting state that can be reached lies on a cycle. -/
theorem lasso?_eq_none (hk : ∀ s t, t ∈ next s → t ∈ known)
    (e : (sweep known next accepting starts).lasso? known next = none) {r s : S} (hr : r ∈ starts)
    (hrs : Relation.ReflTransGen (Leads next) r s) (hacc : accepting s = true) :
    ¬ Relation.TransGen (Leads next) s s := by
  have h : Swept known next accepting starts (sweep known next accepting starts) [] := swept_sweep
  obtain ⟨n, x, hx, rfl⟩ := (h.found s).mp ((mem_visited_sweep hk).mpr ⟨r, hr, hrs⟩)
  have hn : n ∈ (sweep known next accepting starts).accepted.toList :=
    (h.noted n).mpr ⟨x, hx, hacc⟩
  exact cycleThrough_eq_none hk (firstLasso_eq_none e hn hx)

end Lasso
