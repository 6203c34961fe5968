import Lasso.Proofs.Forest
import Lasso.Proofs.Search.Nested
/-!
# The order of discovery

What the two searches leave, beyond what they find:

* `Deepens` -- the outer search goes deeper first: its stack is a part of the line from the state it
  met last up to a start, so the forest is nested (`nested_sweep`);
* `Grows.nodup_path` -- no state stands twice on the path to a node;
* `Winds` -- no state stands twice on the stack of the inner search, so **a cycle has no state twice**
  (`nodup_of_cycleThrough`);
* `lasso?_eq_first` -- **the lasso goes through the first accepting state on a cycle**, in the order of
  discovery.
-/

namespace Lasso

/-! ## 1. Deeper first -/

namespace Forest

variable {α : Type} {f : Forest α} {n : Nat} {l : List Nat} {x : ForestNode α}

theorem Line.push (h : Line f n l) (x : ForestNode α) : Line ⟨f.nodes.push x⟩ n l := by
  induction h with
  | nil => exact .nil
  | root n a h => exact .root n a (getElem?_push_of_some h)
  | child n p a l h hlt hp ih => exact .child n p a l (getElem?_push_of_some h) hlt ih

theorem Nested.push (h : f.Nested) (hx : ∀ p, x.parent? = some p → ∃ l, Line f f.size l ∧ p ∈ l) :
    (⟨f.nodes.push x⟩ : Forest α).Nested := by
  intro n p a hn
  rcases getElem?_push hn with hn | ⟨hsize, rfl⟩
  · obtain ⟨l, hl, hp⟩ := h n p a hn
    exact ⟨l, hl.push x, hp⟩
  · obtain ⟨l, hl, hp⟩ := hx p rfl
    rw [hsize]
    exact ⟨l, hl.push _, hp⟩

theorem nested_empty : (∅ : Forest α).Nested := by
  intro n p a hn
  simp [EmptyCollection.emptyCollection] at hn

end Forest

section Search

variable {S : Type} [DecidableEq S] [Hashable S] {known : Std.HashMap S Nat} {next : S → List S}
  {accepting : S → Bool} {starts : List S}

/-- **The search goes deeper first**: the nodes on its stack are the upper part of the line from the
    node that was found last. -/
structure Deepens (w : Sweep S) (stack : List (Nat × List S)) : Prop where
  nested : w.forest.Nested
  line : ∃ l, w.forest.Line w.forest.size l ∧ stack.map (·.1) <:+ l

namespace Deepens

variable {w : Sweep S} {stack : List (Nat × List S)}

theorem pop {n : Nat} {ss : List S} (h : Deepens w ((n, ss) :: stack)) : Deepens w stack := by
  obtain ⟨l, hl, hstack⟩ := h.line
  exact ⟨h.nested, l, hl, (List.suffix_cons n _).trans hstack⟩

/-- A frame is known by its node. -/
theorem look {n : Nat} {ss ss' : List S} (h : Deepens w ((n, ss) :: stack)) :
    Deepens w ((n, ss') :: stack) := ⟨h.nested, h.line⟩

theorem root (h : Deepens w []) (accepting : S → Bool) (s : S) (ss : List S) :
    Deepens (w.visit accepting none s).1 [(w.forest.size, ss)] := by
  have hnew : (w.forest.nodes.push ⟨none, s⟩)[w.forest.size]? = some ⟨none, s⟩ := by
    rw [Forest.size, Array.getElem?_push_size]
  have hline : Forest.Line ⟨w.forest.nodes.push ⟨none, s⟩⟩ (w.forest.size + 1) [w.forest.size] :=
    .root _ s hnew
  rw [Swept.forest_visit]
  refine ⟨h.nested.push fun p hp => (by cases hp), [w.forest.size], ?_, List.suffix_refl _⟩
  simpa [Forest.size] using hline

/-- A state that is met from the top of the stack is put on the line. -/
theorem descend {n : Nat} {ss : List S} (h : Deepens w ((n, ss) :: stack)) (accepting : S → Bool)
    (s : S) (ss' ts : List S) :
    Deepens (w.visit accepting (some n) s).1 ((w.forest.size, ts) :: (n, ss') :: stack) := by
  obtain ⟨l, hl, hstack⟩ := h.line
  have hn : n ∈ l := hstack.subset List.mem_cons_self
  have hupper : w.forest.Line (n + 1) (n :: stack.map (·.1)) := hl.suffix hstack
  have hnew : (w.forest.nodes.push ⟨some n, s⟩)[w.forest.size]? = some ⟨some n, s⟩ := by
    rw [Forest.size, Array.getElem?_push_size]
  have hline : Forest.Line ⟨w.forest.nodes.push ⟨some n, s⟩⟩ (w.forest.size + 1)
      (w.forest.size :: n :: stack.map (·.1)) :=
    .child _ n s _ hnew (hl.lt n hn) (hupper.push _)
  rw [Swept.forest_visit]
  refine ⟨h.nested.push fun p hp => ?_, w.forest.size :: n :: stack.map (·.1), ?_, List.suffix_refl _⟩
  · cases hp
    exact ⟨l, hl, hn⟩
  · simpa [Forest.size] using hline

theorem sweepFrom (h : Deepens w stack) :
    Deepens (Lasso.sweepFrom known next accepting stack w) [] := by
  fun_induction Lasso.sweepFrom known next accepting stack w with
  | case1 => exact h
  | case2 w n stack ih => exact ih h.pop
  | case3 w n s ss stack hv ih => exact ih h.look
  | case4 w n s ss stack hv hk ih =>
    refine ih ?_
    have h' := h.descend accepting s ss (next s)
    rw [Swept.forest_visit] at h' ⊢
    exact h'
  | case5 w n s ss stack hv hk ih => exact ih h.look

theorem sweepStart (h : Deepens w []) (s : S) :
    Deepens (Lasso.sweepStart known next accepting w s) [] := by
  unfold Lasso.sweepStart
  split
  · exact h
  · have h' := h.root accepting s (next s)
    rw [Swept.forest_visit] at h' ⊢
    exact h'.sweepFrom

end Deepens

theorem deepens_empty : Deepens ({} : Sweep S) [] where
  nested := Forest.nested_empty
  line := ⟨[], .nil, List.suffix_refl _⟩

/-- **The forest of the outer search is nested.** -/
theorem nested_sweep : (sweep known next accepting starts).forest.Nested := by
  have h : Deepens (sweep known next accepting starts) [] :=
    List.foldlRecOn (motive := fun w => Deepens w []) starts (sweepStart known next accepting)
      deepens_empty fun _ h s _ => h.sweepStart s
  exact h.nested

/-! ## 2. Paths without repetition -/

omit [DecidableEq S] [Hashable S] in
/-- What was found once has one number. -/
theorem Forest.eq_of_payload_eq {f : Forest S} (h : f.discovered.Nodup) {i j : Nat} {x y : ForestNode S}
    (hi : f.nodes[i]? = some x) (hj : f.nodes[j]? = some y) (hxy : x.payload = y.payload) : i = j := by
  obtain ⟨hi', rfl⟩ := Array.getElem?_eq_some_iff.mp hi
  obtain ⟨hj', rfl⟩ := Array.getElem?_eq_some_iff.mp hj
  have hli : i < f.discovered.length := by simpa [discovered] using hi'
  have hlj : j < f.discovered.length := by simpa [discovered] using hj'
  have hij : f.discovered[i] = f.discovered[j] := by simpa [discovered] using hxy
  exact (h.getElem_inj_iff).mp hij

omit [DecidableEq S] [Hashable S] in
/-- The way up from a node goes over nodes that were found before it. -/
theorem Forest.Grows.mem_ancestors {f : Forest S} (h : f.Grows next starts) {fuel n : Nat} {a : S}
    (ha : a ∈ f.ancestors fuel n) : ∃ k ≤ n, ∃ x, f.nodes[k]? = some x ∧ x.payload = a := by
  induction fuel generalizing n with
  | zero => exact absurd ha List.not_mem_nil
  | succ fuel ih =>
    rw [Forest.ancestors] at ha
    split at ha
    · exact absurd ha List.not_mem_nil
    · rename_i b hn
      rw [List.mem_singleton.mp ha]
      exact ⟨n, le_refl n, _, hn, rfl⟩
    · rename_i p b hn
      rcases List.mem_cons.mp ha with rfl | ha
      · exact ⟨n, le_refl n, _, hn, rfl⟩
      · have hp := (h.child n p b hn).1
        obtain ⟨k, hk, hx⟩ := ih ha
        exact ⟨k, by omega, hx⟩

omit [DecidableEq S] [Hashable S] in
/-- **No state stands twice on the path to a node.** -/
theorem Forest.Grows.nodup_path {f : Forest S} (h : f.Grows next starts) (honce : f.discovered.Nodup)
    (n : Nat) : (f.path n).Nodup := by
  have hup : ∀ fuel n, (f.ancestors fuel n).Nodup := by
    intro fuel
    induction fuel with
    | zero => exact fun _ => List.nodup_nil
    | succ fuel ih =>
      intro n
      rw [Forest.ancestors]
      split
      · exact List.nodup_nil
      · exact List.nodup_singleton _
      · rename_i p a hn
        refine List.nodup_cons.mpr ⟨fun ha => ?_, ih p⟩
        have hp := (h.child n p a hn).1
        obtain ⟨k, hk, x, hx, hxa⟩ := h.mem_ancestors ha
        have hkn : k = n := Forest.eq_of_payload_eq honce hx hn hxa
        omega
  exact List.nodup_reverse.mpr (hup (n + 1) n)

/-- **No state stands twice on the stack** of the inner search: a state that is put on it was not met
    before. -/
structure Winds (stack : List (S × List S)) (visited : Std.HashSet S) : Prop where
  once : (stack.map (·.1)).Nodup
  met : ∀ s ∈ stack.map (·.1), s ∈ visited

namespace Winds

variable {goal x s : S} {ss ts : List S} {visited : Std.HashSet S} {stack : List (S × List S)}

theorem pop (h : Winds ((x, ss) :: stack) visited) : Winds stack visited where
  once := (List.nodup_cons.mp h.once).2
  met s hs := h.met s (List.mem_cons_of_mem _ hs)

theorem look (h : Winds ((x, ss) :: stack) visited) (ts : List S) : Winds ((x, ts) :: stack) visited :=
  ⟨h.once, h.met⟩

theorem descend (h : Winds stack visited) (hs : ¬ s ∈ visited) (ts : List S) :
    Winds ((s, ts) :: stack) (visited.insert s) where
  once := List.nodup_cons.mpr ⟨fun hmem => hs (h.met s hmem), h.once⟩
  met t ht := by
    rcases List.mem_cons.mp ht with rfl | ht
    · exact mem_insert_iff.mpr (Or.inl rfl)
    · exact mem_insert_iff.mpr (Or.inr (h.met t ht))

theorem nodup_of_seek (h : Winds stack visited) {cycle : List S}
    (e : seek known next goal stack visited = some cycle) : cycle.Nodup := by
  fun_induction seek known next goal stack visited with
  | case1 => cases e
  | case2 visited x stack ih => exact ih h.pop e
  | case3 visited x s ss stack hv ih => exact ih (h.look ss) e
  | case4 visited x s ss stack hv hk hgoal =>
    rw [← Option.some.inj e]
    exact List.nodup_reverse.mpr (h.descend hv []).once
  | case5 visited x s ss stack hv hk hgoal ih => exact ih ((h.look ss).descend hv (next s)) e
  | case6 visited x s ss stack hv hk ih => exact ih (h.look ss) e

end Winds

/-- **A cycle has no state twice.** -/
theorem nodup_of_cycleThrough {s : S} {cycle : List S} (e : cycleThrough known next s = some cycle) :
    cycle.Nodup := by
  unfold cycleThrough at e
  split at e
  · rw [← Option.some.inj e]
    exact List.nodup_singleton s
  · have h : Winds [(s, next s)] ((∅ : Std.HashSet S).insert s) := by
      refine ⟨List.nodup_singleton s, fun t ht => ?_⟩
      exact mem_insert_iff.mpr (Or.inl (List.mem_singleton.mp ht))
    exact h.nodup_of_seek e

/-! ## 3. The first lasso -/

/-- A state at which the search may stop: it accepts, and some way leads from it back to it. -/
def Recurs (R : S → S → Prop) (accepting : S → Bool) (s : S) : Prop :=
  accepting s = true ∧ Relation.TransGen R s s

/-- **A lasso without repetition through the first state that recurs**, among those that were
    discovered. -/
structure IsFirstLasso (R : S → S → Prop) (accepting : S → Bool) (starts order : List S)
    (stem cycle : List S) (s : S) : Prop where
  head : cycle.head? = some s
  first : ∃ before after, order = before ++ s :: after ∧ ∀ t ∈ before, ¬ Recurs R accepting t
  recurs : Recurs R accepting s
  start : ∃ r ∈ starts, (stem ++ cycle).head? = some r
  chain : (stem ++ cycle ++ [s]).IsChain R
  nodup_cycle : cycle.Nodup
  nodup_stem : (stem ++ [s]).Nodup

omit [DecidableEq S] [Hashable S] in
/-- A chain that ends where it starts is a way back. -/
theorem transGen_of_isChain {s : S} {rest : List S} (h : (s :: rest ++ [s]).IsChain (Leads next)) :
    Relation.TransGen (Leads next) s s := by
  obtain ⟨t, ts, hts⟩ : ∃ t ts, rest ++ [s] = t :: ts := List.exists_cons_of_ne_nil (by simp)
  have hlast : (t :: ts).getLast (List.cons_ne_nil t ts) = s := by
    simp only [← hts, List.getLast_concat]
  rw [List.cons_append, hts] at h
  obtain ⟨hst, hchain⟩ := List.isChain_cons_cons.mp h
  exact .head' hst (List.relationReflTransGen_of_exists_isChain_cons ts hchain hlast)

/-- **What the searches return is the first lasso** in the order of discovery. -/
theorem lasso?_eq_first (hk : ∀ s t, t ∈ next s → t ∈ known) {stem cycle : List S}
    (e : (sweep known next accepting starts).lasso? known next = some (stem, cycle)) :
    ∃ s, IsFirstLasso (Leads next) accepting starts
      (sweep known next accepting starts).forest.discovered stem cycle s := by
  have h : Swept known next accepting starts (sweep known next accepting starts) [] := swept_sweep
  obtain ⟨hc, hacc, hstart, hchain⟩ := lasso?_eq_some e
  obtain ⟨before, n, after, x, hns, hbefore, hx, hcycle, hstem⟩ := firstLasso_eq_some e
  obtain ⟨hhead, hround⟩ := cycleThrough_eq_some hcycle
  obtain ⟨rest, hrest⟩ := List.head?_eq_some_iff.mp hhead
  have hs : cycle.head hc = x.payload := by
    rw [List.head?_eq_some_head hc] at hhead
    exact Option.some.inj hhead
  rw [hs] at hacc hchain
  have hx' : (sweep known next accepting starts).forest.nodes[n]? = some x := hx
  have hpath := h.grows.path hx'
  refine ⟨x.payload, hhead, ?_, ⟨hacc, ?_⟩, hstart, hchain, nodup_of_cycleThrough hcycle, ?_⟩
  · -- an accepting state that was found earlier has a smaller number, and its search found no cycle
    have hdrop := Forest.discovered_drop hx'
    refine ⟨_, _, ((List.take_append_drop n _).symm.trans (by rw [hdrop])), fun t ht hrecurs => ?_⟩
    obtain ⟨k, hk', hkt⟩ := List.mem_take_iff_getElem.mp ht
    obtain ⟨y, hy, hyt⟩ : ∃ y, (sweep known next accepting starts).forest.nodes[k]? = some y ∧
        y.payload = t := by
      have hlen : k < (sweep known next accepting starts).forest.nodes.size := by
        have := hk'
        simp [Forest.discovered] at this
        omega
      refine ⟨_, Array.getElem?_eq_getElem hlen, ?_⟩
      simpa [Forest.discovered] using hkt
    have hnoted : k ∈ (sweep known next accepting starts).accepted.toList :=
      (h.noted k).mpr ⟨y, hy, by rw [hyt]; exact hrecurs.1⟩
    have horder := h.inOrder
    rw [hns] at hnoted horder
    have hkn : k < n := by
      have := hk'
      omega
    have hkbefore : k ∈ before := by
      rcases List.mem_append.mp hnoted with hmem | hmem
      · exact hmem
      · rcases List.mem_cons.mp hmem with rfl | hmem
        · omega
        · have := (List.pairwise_cons.mp (List.pairwise_append.mp horder).2.1).1 k hmem
          omega
    have hnone := hbefore k hkbefore y hy
    rw [hyt] at hnone
    exact cycleThrough_eq_none hk hnone hrecurs.2
  · rw [hrest] at hround
    exact transGen_of_isChain hround
  · have hnodup := h.grows.nodup_path h.once n
    rw [hstem, List.dropLast_append_getLast? _ hpath.2.1]
    exact hnodup

end Search

end Lasso
