import Mathlib.Data.List.Basic
import Lasso.Forest
/-!
# The trees of a forest

A search numbers what it finds, and notes for each node the one it was found from. Here the numbered
nodes are compared with the trees that are read off them:

* `Tree.preorder` -- the payloads of a tree, a parent before its children;
* `Line` -- the last of the first nodes with those above it, up to a root;
* `Nested` -- **every node was found from a node on the line** at that time, as in a search that goes
  deeper first;
* `preorderAll_trees` -- so **the preorder of the trees is the order in which the nodes were found**;
* `along_trees` -- the trees follow the steps that the nodes were found by.
-/

namespace Lasso

/-! ## 1. Trees -/

namespace Tree

variable {α : Type}

mutual

/-- The payloads of a tree, a parent before its children. -/
def preorder : Tree α → List α
  | .node a ts => a :: preorderAll ts

/-- The payloads of several trees. -/
def preorderAll : List (Tree α) → List α
  | [] => []
  | t :: ts => t.preorder ++ preorderAll ts

end

/-- **Every child in the tree follows its parent** by `R`. -/
inductive Along (R : α → α → Prop) : Tree α → Prop where
  | node (a : α) (ts : List (Tree α)) (h : ∀ t ∈ ts, R a t.payload) (hs : ∀ t ∈ ts, Along R t) :
      Along R (.node a ts)

end Tree

namespace Forest

variable {α : Type} {f : Forest α} {n p : Nat} {x : ForestNode α} {g : Grown α} {l : List Nat}

/-- What was found, in the order in which it was found. -/
def discovered (f : Forest α) : List α := f.nodes.toList.map (·.payload)

theorem mem_discovered {a : α} :
    a ∈ f.discovered ↔ ∃ (n : Nat) (x : ForestNode α), f.nodes[n]? = some x ∧ x.payload = a := by
  unfold discovered
  rw [List.mem_map]
  constructor
  · rintro ⟨x, hx, rfl⟩
    obtain ⟨n, hn⟩ := List.mem_iff_getElem?.mp hx
    exact ⟨n, x, by simpa using hn, rfl⟩
  · rintro ⟨n, x, hx, rfl⟩
    exact ⟨x, List.mem_iff_getElem?.mpr ⟨n, by simpa using hx⟩, rfl⟩

theorem discovered_drop (h : f.nodes[n]? = some x) :
    f.discovered.drop n = x.payload :: f.discovered.drop (n + 1) := by
  obtain ⟨hn, rfl⟩ := Array.getElem?_eq_some_iff.mp h
  have hlen : n < f.discovered.length := by simpa [discovered] using hn
  rw [List.drop_eq_getElem_cons hlen]
  simp [discovered]

/-! ## 2. Reading nodes from the last one back -/

/-- The trees below a node among those that are read. -/
def Grown.at (g : Grown α) (k : Nat) : List (Tree α) := g.below.getD k []

theorem growFrom_of_le (h : f.size ≤ n) : f.growFrom n = ⟨[], Array.replicate f.size []⟩ := by
  have hzero : f.size - n = 0 := by omega
  rw [growFrom, hzero]
  rfl

theorem growFrom_of_getElem? (h : f.nodes[n]? = some x) :
    f.growFrom n = grow (f.growFrom (n + 1)) n x := by
  have hn : n < f.size := (Array.getElem?_eq_some_iff.mp h).1
  have hsucc : f.size - n = f.size - (n + 1) + 1 := by omega
  rw [growFrom, hsucc, List.range'_succ, List.foldr_cons, h]
  rfl

/-- **What is read is known by what one node adds**, beginning behind the last node. -/
theorem growFrom_induct {P : Nat → Grown α → Prop}
    (hend : ∀ n, f.size ≤ n → P n ⟨[], Array.replicate f.size []⟩)
    (hnode : ∀ n x g, f.nodes[n]? = some x → P (n + 1) g → P n (grow g n x)) (n : Nat) :
    P n (f.growFrom n) := by
  induction hk : f.size - n generalizing n with
  | zero =>
    have hle : f.size ≤ n := by omega
    rw [growFrom_of_le hle]
    exact hend n hle
  | succ k ih =>
    have hn : n < f.nodes.size := by
      have hsize : f.size = f.nodes.size := rfl
      omega
    have hx : f.nodes[n]? = some f.nodes[n] := Array.getElem?_eq_getElem hn
    rw [growFrom_of_getElem? hx]
    exact hnode n _ _ hx (ih (n + 1) (by omega))

theorem at_replicate (m k : Nat) (roots : List (Tree α)) :
    Grown.at ⟨roots, Array.replicate m []⟩ k = [] := by
  simp [Grown.at, Array.getElem?_replicate]
  split <;> rfl

theorem grow_root {a : α} : grow g n ⟨none, a⟩ = { g with roots := .node a (g.at n) :: g.roots } := rfl

theorem at_grow_child {a : α} (hp : p < g.below.size) (k : Nat) :
    (grow g n ⟨some p, a⟩).at k = if k = p then .node a (g.at n) :: g.at p else g.at k := by
  have hgrow : grow g n ⟨some p, a⟩ = { g with below := g.below.modify p (.node a (g.at n) :: ·) } := rfl
  rw [hgrow]
  by_cases hk : k = p
  · subst hk
    simp [Grown.at, hp, Array.getElem_modify]
  · have hk' : ¬ p = k := fun h => hk h.symm
    simp [Grown.at, Array.getElem?_modify, hk, hk']

theorem size_below_grow : (grow g n x).below.size = g.below.size := by
  unfold grow
  split
  · rfl
  · simp

/-! ## 3. Nested numbers -/

/-- **The line of the first `n` nodes**: the last of them and those above it, up to its root. -/
inductive Line (f : Forest α) : Nat → List Nat → Prop where
  | nil : Line f 0 []
  | root (n : Nat) (a : α) (h : f.nodes[n]? = some ⟨none, a⟩) : Line f (n + 1) [n]
  | child (n p : Nat) (a : α) (l : List Nat) (h : f.nodes[n]? = some ⟨some p, a⟩) (hlt : p < n)
      (hp : Line f (p + 1) l) : Line f (n + 1) (n :: l)

/-- **Every node was found from a node on the line** of those found before it. -/
def Nested (f : Forest α) : Prop :=
  ∀ (n p : Nat) (a : α), f.nodes[n]? = some ⟨some p, a⟩ → ∃ l, Line f n l ∧ p ∈ l

namespace Line

theorem lt (h : Line f n l) : ∀ k ∈ l, k < n := by
  induction h with
  | nil => exact fun k hk => absurd hk List.not_mem_nil
  | root n a h =>
    intro k hk
    rw [List.mem_singleton.mp hk]
    omega
  | child n p a l h hlt hp ih =>
    intro k hk
    rcases List.mem_cons.mp hk with rfl | hk
    · omega
    · have := ih k hk
      omega

theorem descends (h : Line f n l) : l.Pairwise (· > ·) := by
  induction h with
  | nil => exact List.Pairwise.nil
  | root n a h => exact List.pairwise_singleton _ _
  | child n p a l h hlt hp ih =>
    refine List.pairwise_cons.mpr ⟨fun k hk => ?_, ih⟩
    have := hp.lt k hk
    omega

/-- A line is a line from each of its nodes upward. -/
theorem suffix (h : Line f n l) {upper : List Nat} (hl : p :: upper <:+ l) :
    Line f (p + 1) (p :: upper) := by
  induction h with
  | nil => simp at hl
  | root n a h =>
    obtain ⟨hp, hu⟩ : p = n ∧ upper = [] := by
      rcases List.suffix_cons_iff.mp hl with hl | hl
      · simpa using hl
      · simp at hl
    subst hp hu
    exact .root p a h
  | child n q a l h hlt hq ih =>
    rcases List.suffix_cons_iff.mp hl with hl | hl
    · obtain ⟨hp, hu⟩ : p = n ∧ upper = l := by simpa using hl
      subst hp hu
      exact .child p q a upper h hlt hq
    · exact ih hl

theorem unique (h : Line f n l) {l' : List Nat} (h' : Line f n l') : l = l' := by
  induction h generalizing l' with
  | nil =>
    cases h'
    rfl
  | root n a h =>
    cases h' with
    | root _ b hb => rfl
    | child _ p b l' hb => simp [h] at hb
  | child n p a l h hlt hp ih =>
    cases h' with
    | root _ b hb => simp [h] at hb
    | child _ q b l' hb _ hq =>
      obtain ⟨hpq, -⟩ : p = q ∧ a = b := by simpa [h] using hb
      subst hpq
      rw [ih hq]

end Line

/-! ## 4. Preorder -/

/-- The payloads of the trees below the nodes of a line, the last node first. -/
def lineOrder (g : Grown α) (l : List Nat) : List α := l.flatMap fun k => Tree.preorderAll (g.at k)

/-- What is known when the nodes from `n` on are read: only the nodes on the line have trees below
    them, and these hold the nodes from `n` on in their order, before the roots. -/
structure Reads (f : Forest α) (n : Nat) (g : Grown α) : Prop where
  size : g.below.size = f.size
  bare : ∀ l, Line f n l → ∀ k < n, k ∉ l → g.at k = []
  order : ∀ l, Line f n l → lineOrder g l ++ Tree.preorderAll g.roots = f.discovered.drop n

theorem lineOrder_of_bare (h : ∀ k ∈ l, g.at k = []) : lineOrder g l = [] := by
  refine List.flatMap_eq_nil_iff.mpr fun k hk => ?_
  rw [h k hk]
  rfl

theorem lineOrder_congr {g' : Grown α} (h : ∀ k ∈ l, g.at k = g'.at k) :
    lineOrder g l = lineOrder g' l := by
  unfold lineOrder
  exact List.flatMap_congr fun k hk => by rw [h k hk]

theorem reads_end (hn : f.size ≤ n) : Reads f n ⟨[], Array.replicate f.size []⟩ where
  size := Array.size_replicate
  bare l _ k _ _ := at_replicate _ _ _
  order l _ := by
    have hlen : f.discovered.length ≤ n := by simpa [discovered, Forest.size] using hn
    rw [lineOrder_of_bare fun k _ => at_replicate _ _ _, List.drop_eq_nil_of_le hlen]
    rfl

/-- A root stands before the roots that are read. -/
theorem Reads.root {a : α} (h : Reads f (n + 1) g) (hx : f.nodes[n]? = some ⟨none, a⟩) :
    Reads f n (grow g n ⟨none, a⟩) := by
  have hline : Line f (n + 1) [n] := .root n a hx
  have hbare : ∀ k < n, g.at k = [] := fun k hk =>
    h.bare _ hline k (by omega) (by simp; omega)
  rw [grow_root]
  refine ⟨h.size, fun l _ k hk _ => hbare k hk, fun l hl => ?_⟩
  have hnone : lineOrder g l = [] := lineOrder_of_bare fun k hk => hbare k (hl.lt k hk)
  have horder := h.order _ hline
  rw [discovered_drop hx, ← horder]
  show lineOrder g l ++ Tree.preorderAll (.node a (g.at n) :: g.roots) = _
  rw [hnone]
  simp [lineOrder, Tree.preorderAll, Tree.preorder]

/-- A child stands before the children of its parent that are read. Between the node before it and its
    parent on the line, no node has a tree below it. -/
theorem Reads.child {a : α} (h : Reads f (n + 1) g) (hx : f.nodes[n]? = some ⟨some p, a⟩)
    (hl : Line f n l) (hp : p ∈ l) : Reads f n (grow g n ⟨some p, a⟩) := by
  obtain ⟨lower, upper, rfl⟩ := List.append_of_mem hp
  have hpn : p < n := hl.lt p hp
  have hline : Line f (n + 1) (n :: p :: upper) :=
    .child n p a _ hx hpn (hl.suffix (List.suffix_append lower _))
  have hsize : p < g.below.size := by
    have := (Array.getElem?_eq_some_iff.mp hx).1
    have hf : f.size = f.nodes.size := rfl
    rw [h.size]
    omega
  have hdesc := List.pairwise_append.mp hl.descends
  have hlower : ∀ k ∈ lower, g.at k = [] := by
    intro k hk
    have hkn := hl.lt k (List.mem_append_left _ hk)
    refine h.bare _ hline k (by omega) fun hmem => ?_
    rcases List.mem_cons.mp hmem with hmem | hmem
    · omega
    · have := hdesc.2.2 k hk k hmem
      omega
  have hother : ∀ k, k ≠ p → (grow g n ⟨some p, a⟩).at k = g.at k := by
    intro k hk
    rw [at_grow_child hsize, if_neg hk]
  refine ⟨size_below_grow.trans h.size, fun l' hl' k hk hkl => ?_, fun l' hl' => ?_⟩
  · rw [hl'.unique hl] at hkl
    have hkp : k ≠ p := fun e => hkl (e ▸ hp)
    rw [hother k hkp]
    refine h.bare _ hline k (by omega) fun hmem => ?_
    rcases List.mem_cons.mp hmem with hmem | hmem
    · omega
    · exact hkl (List.mem_append_right _ hmem)
  · rw [hl'.unique hl]
    have hlowerp : ∀ k ∈ lower, (grow g n ⟨some p, a⟩).at k = [] := by
      intro k hk
      have := hdesc.2.2 k hk p List.mem_cons_self
      rw [hother k (by omega), hlower k hk]
    have hupper : lineOrder (grow g n ⟨some p, a⟩) upper = lineOrder g upper := by
      refine lineOrder_congr fun k hk => hother k ?_
      have := (List.pairwise_cons.mp hdesc.2.1).1 k hk
      omega
    have hat : (grow g n ⟨some p, a⟩).at p = .node a (g.at n) :: g.at p := by
      rw [at_grow_child hsize, if_pos rfl]
    have hroots : (grow g n ⟨some p, a⟩).roots = g.roots := rfl
    have horder := h.order _ hline
    rw [discovered_drop hx, ← horder, hroots]
    have hsplit : lineOrder (grow g n ⟨some p, a⟩) (lower ++ p :: upper) =
        lineOrder (grow g n ⟨some p, a⟩) lower ++
          (Tree.preorderAll ((grow g n ⟨some p, a⟩).at p) ++
            lineOrder (grow g n ⟨some p, a⟩) upper) := by
      simp [lineOrder]
    rw [hsplit, lineOrder_of_bare hlowerp, hat, hupper]
    simp [lineOrder, Tree.preorderAll, Tree.preorder]

/-- **The preorder of the trees is the order in which the nodes were found.** -/
theorem preorderAll_trees (h : f.Nested) : Tree.preorderAll f.trees = f.discovered := by
  have hreads : Reads f 0 (f.growFrom 0) := by
    refine growFrom_induct (P := Reads f) (fun n hn => reads_end hn) (fun n x g hx hg => ?_) 0
    obtain ⟨parent?, a⟩ := x
    cases parent? with
    | none => exact hg.root hx
    | some p =>
      obtain ⟨l, hl, hp⟩ := h n p a hx
      exact hg.child hx hl hp
  exact hreads.order [] .nil

/-! ## 5. Steps -/

section Along

variable {R : α → α → Prop} {I : α → Prop}

/-- What is read follows the steps that the nodes were found by. -/
structure ReadsAlong (f : Forest α) (R : α → α → Prop) (I : α → Prop) (g : Grown α) : Prop where
  size : g.below.size = f.size
  roots : ∀ t ∈ g.roots, I t.payload ∧ t.Along R
  below : ∀ k y, f.nodes[k]? = some y → ∀ t ∈ g.at k, R y.payload t.payload ∧ t.Along R

theorem ReadsAlong.tree {x : ForestNode α} (h : ReadsAlong f R I g) (hx : f.nodes[n]? = some x) :
    (Tree.node x.payload (g.at n)).Along R :=
  .node _ _ (fun t ht => (h.below n x hx t ht).1) fun t ht => (h.below n x hx t ht).2

theorem ReadsAlong.grow (h : ReadsAlong f R I g) (hx : f.nodes[n]? = some x)
    (hroot : x.parent? = none → I x.payload)
    (hchild : ∀ p, x.parent? = some p → p < f.size ∧
      ∀ y, f.nodes[p]? = some y → R y.payload x.payload) : ReadsAlong f R I (grow g n x) := by
  have htree := h.tree hx
  obtain ⟨parent?, a⟩ := x
  refine ⟨size_below_grow.trans h.size, ?_, ?_⟩
  · cases parent? with
    | none => exact List.forall_mem_cons.mpr ⟨⟨hroot rfl, htree⟩, h.roots⟩
    | some p => exact h.roots
  · intro k y hy t ht
    cases parent? with
    | none => exact h.below k y hy t ht
    | some p =>
      obtain ⟨hp, hstep⟩ := hchild p rfl
      rw [at_grow_child (h.size ▸ hp)] at ht
      split at ht
      · rename_i hk
        subst hk
        rcases List.mem_cons.mp ht with rfl | ht
        · exact ⟨hstep y hy, htree⟩
        · exact h.below k y hy t ht
      · exact h.below k y hy t ht

/-- **The trees follow the steps that the nodes were found by**, from the roots on. -/
theorem along_trees (hroot : ∀ (n : Nat) (a : α), f.nodes[n]? = some ⟨none, a⟩ → I a)
    (hchild : ∀ (n p : Nat) (a : α), f.nodes[n]? = some ⟨some p, a⟩ → p < f.size ∧
      ∀ y, f.nodes[p]? = some y → R y.payload a) :
    ∀ t ∈ f.trees, I t.payload ∧ t.Along R := by
  have hreads : ReadsAlong f R I (f.growFrom 0) := by
    refine growFrom_induct (P := fun _ g => ReadsAlong f R I g) (fun n _ => ?_)
      (fun n x g hx hg => ?_) 0
    · refine ⟨Array.size_replicate, fun t ht => absurd ht List.not_mem_nil, fun k y _ t ht => ?_⟩
      rw [at_replicate] at ht
      exact absurd ht List.not_mem_nil
    · obtain ⟨parent?, a⟩ := x
      refine hg.grow hx ?_ ?_
      · intro hnone
        cases hnone
        exact hroot n a hx
      · intro p hsome
        cases hsome
        exact hchild n p a hx
  exact hreads.roots

end Along

end Forest

end Lasso
