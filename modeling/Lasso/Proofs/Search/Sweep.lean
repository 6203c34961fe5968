import Mathlib.Data.List.Chain
import Mathlib.Data.List.Nodup
import Mathlib.Logic.Relation
import Lasso.Search.Nested
/-!
# The outer search

The outer search goes along the successors of states. What it leaves is read here as four facts:

* `Forest.Grows` -- every root of its forest is a start, and every other node is a successor of its
  parent, which was found earlier; so the path to a node is a path of the graph (`Grows.path`);
* `Waits` -- what a search has not met yet waits on its stack;
* `Swept` -- **the invariant of the search**: the forest holds the met states once each, the noted
  numbers are those of the accepting ones in order. One lemma for each thing a step of the search can
  do (`pop`, `skip`, `descend`, `root`);
* `mem_visited_sweep` -- the search meets what can be reached from the starts and nothing else.
-/

namespace Lasso

/-! ## 1. Forests that grow along successors -/

section Forest

variable {S : Type} {next : S → List S} {starts : List S}

/-- The step from a state to one of its successors. -/
def Leads (next : S → List S) (s t : S) : Prop := t ∈ next s

/-- **A forest along the successors**: its roots are starts, and every other node is a successor of
    an earlier node. -/
structure Forest.Grows (next : S → List S) (starts : List S) (f : Forest S) : Prop where
  root : ∀ (n : Nat) (a : S), f.nodes[n]? = some ⟨none, a⟩ → a ∈ starts
  child : ∀ (n p : Nat) (a : S), f.nodes[n]? = some ⟨some p, a⟩ →
    p < n ∧ ∃ x : ForestNode S, f.nodes[p]? = some x ∧ a ∈ next x.payload

namespace Forest

variable {f : Forest S} {x y : ForestNode S} {n : Nat}

theorem grows_empty : (∅ : Forest S).Grows next starts where
  root n a h := by simp [EmptyCollection.emptyCollection] at h
  child n p a h := by simp [EmptyCollection.emptyCollection] at h

theorem getElem?_push (h : (f.nodes.push x)[n]? = some y) :
    f.nodes[n]? = some y ∨ n = f.size ∧ y = x := by
  rw [Array.getElem?_push] at h
  by_cases hn : n = f.nodes.size
  · rw [if_pos hn] at h
    exact Or.inr ⟨hn, (Option.some.inj h).symm⟩
  · rw [if_neg hn] at h
    exact Or.inl h

theorem getElem?_push_of_some (h : f.nodes[n]? = some y) : (f.nodes.push x)[n]? = some y := by
  have hn : n < f.nodes.size := (Array.getElem?_eq_some_iff.mp h).1
  rw [Array.getElem?_push, if_neg (Nat.ne_of_lt hn), h]

theorem lt_size_of_getElem? (h : f.nodes[n]? = some x) : n < f.size :=
  (Array.getElem?_eq_some_iff.mp h).1

theorem Grows.push (h : f.Grows next starts) (hroot : x.parent? = none → x.payload ∈ starts)
    (hchild : ∀ p, x.parent? = some p → ∃ y, f.nodes[p]? = some y ∧ x.payload ∈ next y.payload) :
    (⟨f.nodes.push x⟩ : Forest S).Grows next starts where
  root n a hn := by
    rcases getElem?_push hn with hn | ⟨-, rfl⟩
    · exact h.root n a hn
    · exact hroot rfl
  child n p a hn := by
    rcases getElem?_push hn with hn | ⟨hsize, rfl⟩
    · obtain ⟨hp, y, hy, ha⟩ := h.child n p a hn
      exact ⟨hp, y, getElem?_push_of_some hy, ha⟩
    · obtain ⟨y, hy, ha⟩ := hchild p rfl
      exact ⟨hsize ▸ lt_size_of_getElem? hy, y, getElem?_push_of_some hy, ha⟩

/-- The way from a node up to its root goes against the successors and ends in a start. -/
theorem Grows.ancestors (h : f.Grows next starts) :
    ∀ {fuel n : Nat} {x : ForestNode S}, f.nodes[n]? = some x → n < fuel →
      (f.ancestors fuel n).IsChain (fun b a => Leads next a b) ∧
        (f.ancestors fuel n).head? = some x.payload ∧
        ∃ r ∈ starts, (f.ancestors fuel n).getLast? = some r
  | 0, n, _, _, hlt => absurd hlt (Nat.not_lt_zero n)
  | fuel + 1, n, ⟨none, a⟩, hx, _ => by
    have e : f.ancestors (fuel + 1) n = [a] := by rw [Forest.ancestors, hx]
    rw [e]
    exact ⟨List.isChain_singleton a, rfl, a, h.root n a hx, rfl⟩
  | fuel + 1, n, ⟨some p, a⟩, hx, hlt => by
    have e : f.ancestors (fuel + 1) n = a :: f.ancestors fuel p := by rw [Forest.ancestors, hx]
    obtain ⟨hp, y, hy, ha⟩ := h.child n p a hx
    obtain ⟨hchain, hhead, r, hr, hlast⟩ := h.ancestors hy (show p < fuel by omega)
    obtain ⟨rest, hrest⟩ : ∃ rest, f.ancestors fuel p = y.payload :: rest :=
      List.head?_eq_some_iff.mp hhead
    rw [e, hrest]
    rw [hrest] at hchain hlast
    exact ⟨List.isChain_cons_cons.mpr ⟨ha, hchain⟩, rfl, r, hr, by rw [List.getLast?_cons_cons]; exact hlast⟩

/-- **The path to a node** leads along successors from a start to what was found there. -/
theorem Grows.path (h : f.Grows next starts) (hx : f.nodes[n]? = some x) :
    (f.path n).IsChain (Leads next) ∧ (f.path n).getLast? = some x.payload ∧
      ∃ r ∈ starts, (f.path n).head? = some r := by
  obtain ⟨hchain, hhead, r, hr, hlast⟩ := h.ancestors hx (Nat.lt_succ_self n)
  refine ⟨List.isChain_reverse.mpr hchain, ?_, r, hr, ?_⟩
  · rw [Forest.path, List.getLast?_reverse]
    exact hhead
  · rw [Forest.path, List.head?_reverse]
    exact hlast

/-- What a forest found can be reached from a start. -/
theorem Grows.reaches (h : f.Grows next starts) (hx : f.nodes[n]? = some x) :
    ∃ r ∈ starts, Relation.ReflTransGen (Leads next) r x.payload := by
  induction n using Nat.strong_induction_on generalizing x with
  | _ n ih =>
    obtain ⟨parent?, a⟩ := x
    cases parent? with
    | none => exact ⟨a, h.root n a hx, .refl⟩
    | some p =>
      obtain ⟨hp, y, hy, ha⟩ := h.child n p a hx
      obtain ⟨r, hr, hry⟩ := ih p hp hy
      exact ⟨r, hr, hry.tail ha⟩

end Forest

end Forest

section Search

variable {S : Type} [DecidableEq S] [Hashable S] {known : Std.HashMap S Nat} {next : S → List S}
  {n : Nat} {s : S} {ss : List S}

/-! ## 2. What waits on a stack -/

section Waits

variable {α : Type} {visited : Std.HashSet S} {stack : List (α × List S)}

/-- **What is not met waits**: a known successor of a met state is met, or some frame of the stack has
    it still to look at. -/
def Waits (known : Std.HashMap S Nat) (next : S → List S) (visited : Std.HashSet S)
    (stack : List (α × List S)) : Prop :=
  ∀ s t, s ∈ visited → t ∈ next s → t ∈ known → t ∈ visited ∨ ∃ f ∈ stack, t ∈ f.2

theorem Waits.pop {a : α} (h : Waits known next visited ((a, []) :: stack)) :
    Waits known next visited stack := by
  intro s t hs ht hk
  rcases h s t hs ht hk with hv | ⟨f, hf, htf⟩
  · exact Or.inl hv
  · rcases List.mem_cons.mp hf with rfl | hf
    · exact absurd htf List.not_mem_nil
    · exact Or.inr ⟨f, hf, htf⟩

theorem Waits.skip {a : α} (h : Waits known next visited ((a, s :: ss) :: stack))
    (hs : s ∈ visited ∨ ¬ s ∈ known) : Waits known next visited ((a, ss) :: stack) := by
  intro u t hu ht hk
  rcases h u t hu ht hk with hv | ⟨f, hf, htf⟩
  · exact Or.inl hv
  · rcases List.mem_cons.mp hf with rfl | hf
    · rcases List.mem_cons.mp htf with rfl | htf
      · exact Or.inl (hs.resolve_right fun h' => h' hk)
      · exact Or.inr ⟨_, List.mem_cons_self, htf⟩
    · exact Or.inr ⟨f, List.mem_cons_of_mem _ hf, htf⟩

theorem mem_insert_iff {s t : S} : t ∈ visited.insert s ↔ t = s ∨ t ∈ visited := by
  rw [Std.HashSet.mem_insert, beq_iff_eq, eq_comm]

/-- A state that is met puts its successors on the stack; the frames below may lose it. -/
theorem Waits.meet {a : α} {stack' : List (α × List S)} (h : Waits known next visited stack)
    (hlost : ∀ f ∈ stack, ∀ t ∈ f.2, t = s ∨ ∃ f' ∈ stack', t ∈ f'.2) :
    Waits known next (visited.insert s) ((a, next s) :: stack') := by
  intro u t hu ht hk
  rcases mem_insert_iff.mp hu with rfl | hu
  · exact Or.inr ⟨_, List.mem_cons_self, ht⟩
  · rcases h u t hu ht hk with hv | ⟨f, hf, htf⟩
    · exact Or.inl (mem_insert_iff.mpr (Or.inr hv))
    · rcases hlost f hf t htf with rfl | ⟨f', hf', htf'⟩
      · exact Or.inl (mem_insert_iff.mpr (Or.inl rfl))
      · exact Or.inr ⟨f', List.mem_cons_of_mem _ hf', htf'⟩

omit [DecidableEq S] [Hashable S] in
/-- What a frame loses when one goes down from it. -/
theorem lost_of_descend {a : α} :
    ∀ f ∈ (a, s :: ss) :: stack, ∀ t ∈ f.2, t = s ∨ ∃ f' ∈ (a, ss) :: stack, t ∈ f'.2 := by
  intro f hf t ht
  rcases List.mem_cons.mp hf with rfl | hf
  · rcases List.mem_cons.mp ht with rfl | ht
    · exact Or.inl rfl
    · exact Or.inr ⟨_, List.mem_cons_self, ht⟩
  · exact Or.inr ⟨f, List.mem_cons_of_mem _ hf, ht⟩

/-- **Once nothing waits, what was met is closed** under successors, if these are known. -/
theorem Waits.closed (h : Waits known next visited ([] : List (α × List S)))
    (hk : ∀ s t, t ∈ next s → t ∈ known) {s t : S} (hs : s ∈ visited)
    (hst : Relation.ReflTransGen (Leads next) s t) : t ∈ visited := by
  induction hst with
  | refl => exact hs
  | tail _ ht ih => exact (h _ _ ih ht (hk _ _ ht)).resolve_right fun ⟨_, hf, _⟩ => List.not_mem_nil hf

end Waits

/-! ## 3. The invariant of the search -/

section Sweep

variable {accepting : S → Bool} {starts : List S}

/-- **The invariant of the outer search**, for what it has found and what is on its stack. -/
structure Swept (known : Std.HashMap S Nat) (next : S → List S) (accepting : S → Bool)
    (starts : List S) (w : Sweep S) (stack : List (Nat × List S)) : Prop where
  grows : w.forest.Grows next starts
  found : ∀ s, s ∈ w.visited ↔
    ∃ (n : Nat) (x : ForestNode S), w.forest.nodes[n]? = some x ∧ x.payload = s
  once : (w.forest.nodes.toList.map (·.payload)).Nodup
  frames : ∀ f ∈ stack,
    ∃ x : ForestNode S, w.forest.nodes[f.1]? = some x ∧ ∀ t ∈ f.2, t ∈ next x.payload
  waits : Waits known next w.visited stack
  noted : ∀ n, n ∈ w.accepted.toList ↔
    ∃ x : ForestNode S, w.forest.nodes[n]? = some x ∧ accepting x.payload = true
  inOrder : w.accepted.toList.Pairwise (· < ·)

theorem swept_empty : Swept known next accepting starts {} [] where
  grows := Forest.grows_empty
  found s := by simp [EmptyCollection.emptyCollection]
  once := List.nodup_nil
  frames f hf := absurd hf List.not_mem_nil
  waits s t hs := absurd hs Std.HashSet.not_mem_empty
  noted n := by simp [EmptyCollection.emptyCollection]
  inOrder := List.Pairwise.nil

namespace Swept

variable {w : Sweep S} {stack : List (Nat × List S)}

theorem pop (h : Swept known next accepting starts w ((n, []) :: stack)) :
    Swept known next accepting starts w stack :=
  { h with
    frames := fun f hf => h.frames f (List.mem_cons_of_mem _ hf)
    waits := h.waits.pop }

/-- A successor that is met already, or not known, may be passed over. -/
theorem skip (h : Swept known next accepting starts w ((n, s :: ss) :: stack))
    (hs : s ∈ w.visited ∨ ¬ s ∈ known) : Swept known next accepting starts w ((n, ss) :: stack) :=
  { h with
    frames := fun f hf => by
      rcases List.mem_cons.mp hf with rfl | hf
      · obtain ⟨x, hx, hsub⟩ := h.frames _ List.mem_cons_self
        exact ⟨x, hx, fun t ht => hsub t (List.mem_cons_of_mem _ ht)⟩
      · exact h.frames f (List.mem_cons_of_mem _ hf)
    waits := h.waits.skip hs }

omit [DecidableEq S] [Hashable S] in
theorem forest_visit [DecidableEq S] [Hashable S] (w : Sweep S) (accepting : S → Bool)
    (parent? : Option Nat) (s : S) :
    w.visit accepting parent? s =
      (⟨w.visited.insert s, ⟨w.forest.nodes.push ⟨parent?, s⟩⟩,
        if accepting s then w.accepted.push w.forest.size else w.accepted⟩, w.forest.size) := by
  cases parent? <;> rfl

/-- **Meeting a new state** puts it and its successors on the stack. The frames below may have lost
    the state itself from what they still look at. -/
theorem meet {stack' : List (Nat × List S)} {parent? : Option Nat}
    (h : Swept known next accepting starts w stack) (hs : ¬ s ∈ w.visited)
    (hroot : parent? = none → s ∈ starts)
    (hchild : ∀ p, parent? = some p → ∃ x, w.forest.nodes[p]? = some x ∧ s ∈ next x.payload)
    (hframes : ∀ f ∈ stack', ∃ x, w.forest.nodes[f.1]? = some x ∧ ∀ t ∈ f.2, t ∈ next x.payload)
    (hlost : ∀ f ∈ stack, ∀ t ∈ f.2, t = s ∨ ∃ f' ∈ stack', t ∈ f'.2) :
    Swept known next accepting starts (w.visit accepting parent? s).1
      ((w.forest.size, next s) :: stack') := by
  rw [forest_visit]
  have hnew : (w.forest.nodes.push ⟨parent?, s⟩)[w.forest.size]? = some ⟨parent?, s⟩ := by
    rw [Array.getElem?_push]
    exact if_pos rfl
  exact {
    grows := h.grows.push hroot hchild
    found := fun t => by
      rw [mem_insert_iff, h.found t]
      constructor
      · rintro (rfl | ⟨n, x, hx, hxt⟩)
        · exact ⟨_, _, hnew, rfl⟩
        · exact ⟨n, x, Forest.getElem?_push_of_some hx, hxt⟩
      · rintro ⟨n, x, hx, rfl⟩
        rcases Forest.getElem?_push hx with hx | ⟨-, rfl⟩
        · exact Or.inr ⟨n, x, hx, rfl⟩
        · exact Or.inl rfl
    once := by
      rw [Array.toList_push, List.map_append, List.map_singleton]
      refine List.Nodup.append h.once (List.nodup_singleton _) ?_
      rw [List.disjoint_singleton]
      intro hmem'
      obtain ⟨x, hx, hxs⟩ := List.mem_map.mp hmem'
      obtain ⟨n, hn⟩ := List.mem_iff_getElem?.mp hx
      exact hs ((h.found s).mpr ⟨n, x, by rwa [Array.getElem?_toList] at hn, hxs⟩)
    frames := fun f hf => by
      rcases List.mem_cons.mp hf with rfl | hf
      · exact ⟨_, hnew, fun t ht => ht⟩
      · obtain ⟨x, hx, hsub⟩ := hframes f hf
        exact ⟨x, Forest.getElem?_push_of_some hx, hsub⟩
    waits := h.waits.meet hlost
    noted := fun n => by
      have hold : n ∈ w.accepted.toList →
          ∃ x, (w.forest.nodes.push ⟨parent?, s⟩)[n]? = some x ∧ accepting x.payload = true := by
        intro hn
        obtain ⟨x, hx, hacc⟩ := (h.noted n).mp hn
        exact ⟨x, Forest.getElem?_push_of_some hx, hacc⟩
      by_cases hacc : accepting s = true
      · simp only [hacc, if_true, Array.toList_push, List.mem_append, List.mem_singleton]
        constructor
        · rintro (hn | rfl)
          · exact hold hn
          · exact ⟨_, hnew, hacc⟩
        · rintro ⟨x, hx, hxacc⟩
          rcases Forest.getElem?_push hx with hx | ⟨rfl, -⟩
          · exact Or.inl ((h.noted n).mpr ⟨x, hx, hxacc⟩)
          · exact Or.inr rfl
      · simp only [hacc, Bool.false_eq_true, if_false]
        refine ⟨hold, ?_⟩
        rintro ⟨x, hx, hxacc⟩
        rcases Forest.getElem?_push hx with hx | ⟨-, rfl⟩
        · exact (h.noted n).mpr ⟨x, hx, hxacc⟩
        · exact absurd hxacc hacc
    inOrder := by
      by_cases hacc : accepting s = true
      · simp only [hacc, if_true, Array.toList_push]
        refine List.pairwise_append.mpr ⟨h.inOrder, List.pairwise_singleton _ _, fun k hk j hj => ?_⟩
        obtain ⟨x, hx, -⟩ := (h.noted k).mp hk
        rw [List.mem_singleton.mp hj]
        exact Forest.lt_size_of_getElem? hx
      · simp only [hacc, Bool.false_eq_true, if_false]
        exact h.inOrder }

/-- **Going down** to a successor that was not met before. -/
theorem descend (h : Swept known next accepting starts w ((n, s :: ss) :: stack))
    (hs : ¬ s ∈ w.visited) :
    Swept known next accepting starts (w.visit accepting (some n) s).1
      ((w.forest.size, next s) :: (n, ss) :: stack) := by
  obtain ⟨x, hx, hsub⟩ := h.frames _ List.mem_cons_self
  refine h.meet hs (fun e => by cases e) (fun p e => ?_) (fun f hf => ?_) lost_of_descend
  · cases e
    exact ⟨x, hx, hsub s List.mem_cons_self⟩
  · rcases List.mem_cons.mp hf with rfl | hf
    · exact ⟨x, hx, fun t ht => hsub t (List.mem_cons_of_mem _ ht)⟩
    · exact h.frames f (List.mem_cons_of_mem _ hf)

/-- **Starting over** from a start that was not met before. -/
theorem root (h : Swept known next accepting starts w []) (hs : ¬ s ∈ w.visited)
    (hstart : s ∈ starts) :
    Swept known next accepting starts (w.visit accepting none s).1 [(w.forest.size, next s)] :=
  h.meet hs (fun _ => hstart) (fun p e => by cases e) (fun f hf => absurd hf List.not_mem_nil)
    fun f hf => absurd hf List.not_mem_nil

/-! ## 4. Whole searches -/

theorem sweepFrom (h : Swept known next accepting starts w stack) :
    Swept known next accepting starts (Lasso.sweepFrom known next accepting stack w) [] := by
  fun_induction Lasso.sweepFrom known next accepting stack w with
  | case1 => exact h
  | case2 w n stack ih => exact ih h.pop
  | case3 w n s ss stack hv ih => exact ih (h.skip (Or.inl hv))
  | case4 w n s ss stack hv hk ih =>
    refine ih ?_
    rw [forest_visit]
    have h' := h.descend hv
    rw [forest_visit] at h'
    exact h'
  | case5 w n s ss stack hv hk ih => exact ih (h.skip (Or.inr hk))

theorem sweepStart (h : Swept known next accepting starts w []) (hs : s ∈ starts) :
    Swept known next accepting starts (Lasso.sweepStart known next accepting w s) [] := by
  unfold Lasso.sweepStart
  split
  · exact h
  · rename_i hv
    have h' := (h.root hv hs).sweepFrom
    rw [forest_visit] at h' ⊢
    exact h'

end Swept

theorem swept_sweep : Swept known next accepting starts (sweep known next accepting starts) [] :=
  List.foldlRecOn (motive := fun w => Swept known next accepting starts w []) starts
    (sweepStart known next accepting) swept_empty fun _ h _ hs => h.sweepStart hs

theorem mem_visited_sweepFrom {w : Sweep S} {stack : List (Nat × List S)} (hs : s ∈ w.visited) :
    s ∈ (sweepFrom known next accepting stack w).visited := by
  fun_induction sweepFrom known next accepting stack w with
  | case1 => exact hs
  | case2 w n stack ih => exact ih hs
  | case3 w n t ss stack hv ih => exact ih hs
  | case4 w n t ss stack hv hk ih =>
    refine ih ?_
    rw [Sweep.visited_visit]
    exact Std.HashSet.mem_insert.mpr (Or.inr hs)
  | case5 w n t ss stack hv hk ih => exact ih hs

theorem mem_visited_sweepStart {w : Sweep S} {s t : S} (h : s ∈ w.visited ∨ s = t) :
    s ∈ (sweepStart known next accepting w t).visited := by
  unfold sweepStart
  split
  · rename_i ht
    exact h.elim id fun e => e ▸ ht
  · refine mem_visited_sweepFrom ?_
    exact mem_insert_iff.mpr h.symm

theorem mem_visited_foldl_sweepStart {ts : List S} {w : Sweep S} (h : s ∈ w.visited ∨ s ∈ ts) :
    s ∈ (ts.foldl (sweepStart known next accepting) w).visited := by
  induction ts generalizing w with
  | nil => exact h.resolve_right List.not_mem_nil
  | cons t ts ih =>
    refine ih ?_
    rcases h with h | h
    · exact Or.inl (mem_visited_sweepStart (Or.inl h))
    · rcases List.mem_cons.mp h with h | h
      · exact Or.inl (mem_visited_sweepStart (Or.inr h))
      · exact Or.inr h

/-- **The outer search meets exactly what can be reached from the starts**, if successors are known. -/
theorem mem_visited_sweep (hk : ∀ s t, t ∈ next s → t ∈ known) :
    s ∈ (sweep known next accepting starts).visited ↔
      ∃ r ∈ starts, Relation.ReflTransGen (Leads next) r s := by
  have h : Swept known next accepting starts (sweep known next accepting starts) [] := swept_sweep
  constructor
  · intro hs
    obtain ⟨n, x, hx, rfl⟩ := (h.found s).mp hs
    exact h.grows.reaches hx
  · rintro ⟨r, hr, hrs⟩
    exact h.waits.closed hk (mem_visited_foldl_sweepStart (Or.inr hr)) hrs

end Sweep

end Search

end Lasso
