import Mathlib.Data.List.Forall2
import Lasso.Proofs.Forest
import Lasso.Proofs.Text.Quoted
/-!
# Forests are known by their Newick texts

* `Tree.toldApart` -- **the texts of trees can be told apart**, whatever bytes their payloads hold, and each
  stands in one line (`Tree.not_mem_newick`);
* `Forest.Built` -- the forests that roots and children are added to;
* `Forest.Alike` -- two forests have the same roots, in the same order, with the same payloads and the same
  children, in the same order; this says nothing of trees, only of numbered nodes;
* `Forest.Shows` -- the tree that the numbered nodes below a node are; the trees that are read off a forest
  are those of its roots (`Built.shows_trees`), and forests are alike exactly if their trees are the same
  (`Built.alike_iff`);
* `Forest.newick_unambiguous` -- **the text is the same exactly if the forests are alike, and has one line per
  root**.
-/

namespace Lasso

open Text (ToldApart behind quoteBytes_append_inj not_mem_quoteBytes)

/-! ## 1. Trees -/

namespace Tree

variable {α : Type}

/-- What holds of a tree whenever it holds of the trees below its root holds of every tree. -/
theorem induct {P : Tree α → Prop} (h : ∀ a ts, (∀ t ∈ ts, P t) → P (.node a ts)) : ∀ t, P t
  | .node a ts => h a ts (all ts)
where
  all : ∀ ts : List (Tree α), ∀ t ∈ ts, P t
    | [] => List.forall_mem_nil _
    | t :: ts => List.forall_mem_cons.mpr ⟨induct h t, all ts⟩

variable [Display α]

/-- The characters of a tree's text. -/
def chars (t : Tree α) : List Char := t.newick.toList

/-- The characters of a payload between quotes. -/
def label (a : α) : List Char := (Text.quoteBytes (Display.bytes a)).toList

theorem chars_leaf (a : α) : chars (.node a []) = label a := by
  rw [chars, newick, label]

theorem toList_newickRest (ts : List (Tree α)) : (newickRest ts).toList = behind [','] chars ts := by
  induction ts with
  | nil =>
    rw [newickRest]
    rfl
  | cons t ts ih =>
    rw [newickRest, String.toList_append, String.toList_append, ih]
    rfl

theorem chars_node (a : α) (t : Tree α) (ts : List (Tree α)) :
    chars (.node a (t :: ts)) = '(' :: (t.chars ++ (behind [','] chars ts ++ ')' :: label a)) := by
  rw [chars, newick]
  simp only [String.toList_append, toList_newickRest]
  simp [chars, label]

/-- **A tree's text stands in one line.** -/
theorem not_mem_newick (t : Tree α) : '\n' ∉ t.newick.toList := by
  show '\n' ∉ t.chars
  induction t using induct with
  | h a ts ih =>
    have hlabel : '\n' ∉ label a := not_mem_quoteBytes _
    cases ts with
    | nil =>
      rw [chars_leaf]
      exact hlabel
    | cons t ts =>
      have hfirst := ih t List.mem_cons_self
      have hrest : '\n' ∉ behind [','] chars ts := by
        intro h
        obtain ⟨u, hu, h⟩ := List.mem_flatMap.mp h
        rcases List.mem_cons.mp h with h | h
        · cases h
        · exact ih u (List.mem_cons_of_mem _ hu) h
      rw [chars_node]
      simp [hfirst, hrest, hlabel]

end Tree

/-- **The texts of trees can be told apart.** A quote starts the text of a leaf and a parenthesis that of any
    other tree; the induction is on the one tree. -/
theorem Tree.toldApart (t u : Tree Bytes) : ToldApart chars t u := by
  induction t using induct generalizing u with
  | h a ts ih =>
    intro r s hr hs h
    obtain ⟨b, us⟩ := u
    cases ts with
    | nil =>
      cases us with
      | nil =>
        rw [chars_leaf, chars_leaf] at h
        obtain ⟨rfl, rfl⟩ := quoteBytes_append_inj h
        exact ⟨rfl, rfl⟩
      | cons u us =>
        rw [chars_leaf, label, Text.toList_quoteBytes, chars_node] at h
        cases (List.cons.inj h).1
    | cons t ts =>
      cases us with
      | nil =>
        rw [chars_leaf, label, Text.toList_quoteBytes, chars_node] at h
        cases (List.cons.inj h).1
      | cons u us =>
        simp only [chars_node, List.cons_append, List.append_assoc, List.cons.injEq, true_and] at h
        obtain ⟨rfl, hrest⟩ := ih t List.mem_cons_self u (Text.endsNumber_behind (by decide) (by decide) ts _)
          (Text.endsNumber_behind (by decide) (by decide) us _) h
        obtain ⟨rfl, hlabel⟩ := Text.eq_of_parted (by decide) (by decide) (by decide)
          (fun c hc d _ => ih c (List.mem_cons_of_mem _ hc) d) hrest
        obtain ⟨rfl, rfl⟩ := quoteBytes_append_inj hlabel
        exact ⟨rfl, rfl⟩

namespace Forest

variable {α : Type} {f g : Forest α} {m n p : Nat} {x : ForestNode α} {t u : Tree α} {r : Grown α}

/-! ## 2. Numbered nodes -/

/-- **The forests that roots and children are added to.** -/
inductive Built : Forest α → Prop where
  | empty : Built ∅
  | addRoot (f : Forest α) (a : α) (hf : Built f) : Built (f.addRoot a).1
  | addChild (f : Forest α) (p : Nat) (a : α) (hf : Built f) (hp : p < f.size) : Built (f.addChild p a).1

/-- A node is found from one that was found before. -/
theorem Built.parent_lt (h : f.Built) (hx : f.nodes[n]? = some x) (hp : x.parent? = some p) : p < n := by
  induction h with
  | empty => simp [EmptyCollection.emptyCollection] at hx
  | addRoot f a _ ih =>
    simp only [Forest.addRoot, Array.getElem?_push] at hx
    split at hx
    · cases hx
      cases hp
    · exact ih hx
  | addChild f q a _ hq ih =>
    simp only [Forest.addChild, Array.getElem?_push] at hx
    split at hx
    · rename_i hn
      cases hx
      cases hp
      rw [hn]
      exact hq
    · exact ih hx

/-- The nodes from a number on that were found from the given one, or that are roots. -/
def foundFrom (f : Forest α) (n : Nat) (parent? : Option Nat) : List Nat :=
  (List.range' n (f.size - n)).filter fun k => f.nodes[k]?.map (·.parent?) = some parent?

/-- The roots, in the order in which they were found. -/
def roots (f : Forest α) : List Nat := f.foundFrom 0 none

/-- The children of a node, in the order in which they were found. -/
def childrenOf (f : Forest α) (n : Nat) : List Nat := f.foundFrom 0 (some n)

/-- The payload of a node. -/
def payload? (f : Forest α) (n : Nat) : Option α := (f.node? n).map (·.payload)

theorem payload?_eq (h : f.nodes[n]? = some x) : f.payload? n = some x.payload := by
  rw [payload?, node?, h, Option.map_some]

/-- **The trees below two nodes are the same**: the payloads of the nodes, and in the same order the trees
    below their children. -/
inductive AlikeBelow (f g : Forest α) : Nat → Nat → Prop where
  | node (m n : Nat) (a : α) (hm : f.payload? m = some a) (hn : g.payload? n = some a)
      (h : List.Forall₂ (AlikeBelow f g) (f.childrenOf m) (g.childrenOf n)) : AlikeBelow f g m n

/-- **Two forests have the same ordered shape and the same payloads.** -/
def Alike (f g : Forest α) : Prop := List.Forall₂ (AlikeBelow f g) f.roots g.roots

theorem foundFrom_of_le (h : f.size ≤ n) (parent? : Option Nat) : f.foundFrom n parent? = [] := by
  have hzero : f.size - n = 0 := by omega
  rw [foundFrom, hzero]
  rfl

theorem foundFrom_of_getElem? (h : f.nodes[n]? = some x) (parent? : Option Nat) :
    f.foundFrom n parent? =
      if x.parent? = parent? then n :: f.foundFrom (n + 1) parent? else f.foundFrom (n + 1) parent? := by
  have hn : n < f.size := (Array.getElem?_eq_some_iff.mp h).1
  have hsucc : f.size - n = f.size - (n + 1) + 1 := by omega
  rw [foundFrom, hsucc, List.range'_succ, List.filter_cons, h]
  simp [foundFrom]

/-- The children of a node are found behind it. -/
theorem Built.childrenOf_eq (h : f.Built) (n : Nat) : f.childrenOf n = f.foundFrom (n + 1) (some n) := by
  have hskip : ∀ k ≤ n + 1, f.foundFrom (n + 1 - k) (some n) = f.foundFrom (n + 1) (some n) := by
    intro k
    induction k with
    | zero => exact fun _ => rfl
    | succ k ih =>
      intro hk
      rw [← ih (by omega)]
      by_cases hlt : n + 1 - (k + 1) < f.nodes.size
      · have hx := Array.getElem?_eq_getElem hlt
        rw [foundFrom_of_getElem? hx, if_neg, show n + 1 - (k + 1) + 1 = n + 1 - k by omega]
        intro hp
        have := h.parent_lt hx hp
        omega
      · have hsize : f.size = f.nodes.size := rfl
        rw [foundFrom_of_le (by omega), foundFrom_of_le (by omega)]
  have h0 := hskip (n + 1) (Nat.le_refl _)
  rw [Nat.sub_self] at h0
  exact h0

/-! ## 3. The trees that the nodes are -/

/-- **The tree that the numbered nodes below a node are.** -/
inductive Shows (f : Forest α) : Nat → Tree α → Prop where
  | node (n : Nat) (a : α) (ts : List (Tree α)) (hn : f.payload? n = some a)
      (h : List.Forall₂ (Shows f) (f.childrenOf n) ts) : Shows f n (.node a ts)

theorem Shows.inv {a : α} {ts : List (Tree α)} (h : f.Shows n (.node a ts)) :
    f.payload? n = some a ∧ List.Forall₂ (Shows f) (f.childrenOf n) ts := by
  cases h with
  | node _ _ _ hn h => exact ⟨hn, h⟩

/-- What is known when the nodes from `n` on are read. -/
structure ReadsTrees (f : Forest α) (n : Nat) (r : Grown α) : Prop where
  size : r.below.size = f.size
  roots : List.Forall₂ (Shows f) (f.foundFrom n none) r.roots
  below : ∀ k, List.Forall₂ (Shows f) (f.foundFrom n (some k)) (r.at k)

theorem readsTrees_end (hn : f.size ≤ n) : ReadsTrees f n ⟨[], Array.replicate f.size []⟩ where
  size := Array.size_replicate
  roots := by
    rw [foundFrom_of_le hn]
    exact .nil
  below k := by
    rw [foundFrom_of_le hn, at_replicate]
    exact .nil

/-- All children of a node are read when the nodes behind it are. -/
theorem ReadsTrees.shows (h : ReadsTrees f (n + 1) r) (hf : f.Built) (hx : f.nodes[n]? = some x) :
    f.Shows n (.node x.payload (r.at n)) :=
  .node n _ _ (payload?_eq hx) (hf.childrenOf_eq n ▸ h.below n)

theorem ReadsTrees.grow (h : ReadsTrees f (n + 1) r) (hf : f.Built) (hx : f.nodes[n]? = some x) :
    ReadsTrees f n (grow r n x) := by
  have hshows := h.shows hf hx
  have hlt : ∀ p, x.parent? = some p → p < n := fun p => hf.parent_lt hx
  obtain ⟨parent?, a⟩ := x
  refine ⟨size_below_grow.trans h.size, ?_, fun k => ?_⟩
  · rw [foundFrom_of_getElem? hx]
    cases parent? with
    | none => exact .cons hshows h.roots
    | some p => exact h.roots
  · rw [foundFrom_of_getElem? hx]
    cases parent? with
    | none => exact h.below k
    | some p =>
      have hp : p < r.below.size := by
        have hpn := hlt p rfl
        have hn := (Array.getElem?_eq_some_iff.mp hx).1
        have hsize : f.size = f.nodes.size := rfl
        rw [h.size]
        omega
      rw [at_grow_child hp]
      by_cases hk : k = p
      · rw [if_pos (by rw [hk]), if_pos hk, hk]
        exact .cons hshows (h.below p)
      · rw [if_neg (fun e => hk (Option.some.inj e).symm), if_neg hk]
        exact h.below k

theorem Built.readsTrees (hf : f.Built) (n : Nat) : ReadsTrees f n (f.growFrom n) :=
  growFrom_induct (P := ReadsTrees f) (fun _ hn => readsTrees_end hn) (fun _ _ _ hx h => h.grow hf hx) n

/-- **The trees that are read off a forest are those of its roots.** -/
theorem Built.shows_trees (hf : f.Built) : List.Forall₂ (Shows f) f.roots f.trees :=
  (hf.readsTrees 0).roots

section Forall

variable {β γ : Type} {ms : List β} {ns : List γ} {ts us : List (Tree α)} {R : β → γ → Prop}
  {A : β → Tree α → Prop} {B : γ → Tree α → Prop}

theorem eq_of_forall₂ (hR : List.Forall₂ R ms ns) (hA : List.Forall₂ A ms ts) (hB : List.Forall₂ B ns us)
    (h : ∀ t ∈ ts, ∀ m n u, R m n → A m t → B n u → t = u) : ts = us := by
  induction hR generalizing ts us with
  | nil =>
    cases hA
    cases hB
    rfl
  | cons hmn _ ih =>
    cases hA with
    | cons hmt hA =>
      cases hB with
      | cons hnu hB =>
        rw [h _ List.mem_cons_self _ _ _ hmn hmt hnu, ih hA hB fun t ht => h t (List.mem_cons_of_mem _ ht)]

theorem forall₂_of_forall₂ (hA : List.Forall₂ A ms ts) (hB : List.Forall₂ B ns ts)
    (h : ∀ t ∈ ts, ∀ m n, A m t → B n t → R m n) : List.Forall₂ R ms ns := by
  induction hA generalizing ns with
  | nil =>
    cases hB
    exact .nil
  | cons hmt _ ih =>
    cases hB with
    | cons hnt hB =>
      exact .cons (h _ List.mem_cons_self _ _ hmt hnt) (ih hB fun t ht => h t (List.mem_cons_of_mem _ ht))

end Forall

theorem Shows.unique (ht : f.Shows n t) (hu : f.Shows n u) : t = u := by
  induction t using Tree.induct generalizing n u with
  | h a ts ih =>
    obtain ⟨b, us⟩ := u
    obtain ⟨ha, hts⟩ := ht.inv
    obtain ⟨hb, hus⟩ := hu.inv
    have heq : ts = us := eq_of_forall₂ (List.forall₂_same.mpr fun _ _ => rfl) hts hus
      fun t ht m n u e hmt hnu => ih t ht (e ▸ hmt) hnu
    rw [heq, Option.some.inj (ha.symm.trans hb)]

/-- Nodes with the same trees below them show the same tree. -/
theorem Shows.eq_of_alikeBelow (ht : f.Shows m t) (hu : g.Shows n u) (h : AlikeBelow f g m n) : t = u := by
  induction t using Tree.induct generalizing m n u with
  | h a ts ih =>
    obtain ⟨b, us⟩ := u
    obtain ⟨ha, hts⟩ := ht.inv
    obtain ⟨hb, hus⟩ := hu.inv
    cases h with
    | node _ _ c hm hn hchildren =>
      have heq : ts = us := eq_of_forall₂ hchildren hts hus fun t ht m n u e hmt hnu => ih t ht hmt hnu e
      rw [heq, Option.some.inj (ha.symm.trans hm), Option.some.inj (hb.symm.trans hn)]

theorem Shows.alikeBelow (hm : f.Shows m t) (hn : g.Shows n t) : AlikeBelow f g m n := by
  induction t using Tree.induct generalizing m n with
  | h a ts ih =>
    obtain ⟨hma, hmts⟩ := hm.inv
    obtain ⟨hna, hnts⟩ := hn.inv
    exact .node m n a hma hna (forall₂_of_forall₂ hmts hnts fun t ht _ _ => ih t ht)

/-- **Forests are alike exactly if their trees are the same.** -/
theorem Built.alike_iff (hf : f.Built) (hg : g.Built) : f.Alike g ↔ f.trees = g.trees := by
  constructor
  · intro h
    exact eq_of_forall₂ h hf.shows_trees hg.shows_trees fun t _ m n u e ht hu => ht.eq_of_alikeBelow hu e
  · intro h
    exact forall₂_of_forall₂ hf.shows_trees (h ▸ hg.shows_trees) fun t _ m n hm hn => hm.alikeBelow hn

/-! ## 4. Texts -/

/-- The text of the tree below a root. -/
theorem Built.newickAt_root [Display α] (hf : f.Built) (hn : n ∈ f.roots) (ht : f.Shows n t) :
    f.newickAt n = t.newick ++ ";" := by
  have hroot : f.nodes[n]?.map (·.parent?) = some none := by simpa using (List.mem_filter.mp hn).2
  obtain ⟨x, hx, hp⟩ := Option.map_eq_some_iff.mp hroot
  have hshows := (hf.readsTrees (n + 1)).shows hf hx
  have htree : f.tree? n = some t := by
    rw [ht.unique hshows, tree?, hx]
    rfl
  have hisRoot : f.isRoot n = true := by
    rw [isRoot, hx]
    exact Option.isNone_iff_eq_none.mpr hp
  rw [newickAt, htree, hisRoot]
  rfl

/-- **Every root has one line, with the text of its tree.** -/
theorem Built.newick_eq [Display α] (hf : f.Built) :
    f.newick = String.join (f.roots.map fun n => f.newickAt n ++ "\n") := by
  have hpairs := (List.forall₂_and_left _ _).mpr ⟨fun _ hn => hn, hf.shows_trees⟩
  have hlines : List.Forall₂ (· = ·) (f.roots.map fun n => f.newickAt n ++ "\n")
      (f.trees.map fun t => t.newick ++ ";\n") := by
    rw [List.forall₂_map_left_iff, List.forall₂_map_right_iff]
    refine hpairs.imp fun n t h => ?_
    rw [hf.newickAt_root h.1 h.2, String.append_assoc]
    rfl
  rw [List.forall₂_eq_eq_eq] at hlines
  rw [newick, hlines]

theorem not_mem_newickAt [Display α] (f : Forest α) (n : Nat) : '\n' ∉ (f.newickAt n).toList := by
  rw [newickAt]
  split
  · exact List.not_mem_nil
  · rename_i t _
    rw [String.toList_append, List.mem_append, not_or]
    refine ⟨t.not_mem_newick, ?_⟩
    split <;> decide

theorem toList_newick [Display α] (f : Forest α) :
    f.newick.toList = f.trees.flatMap fun t => t.chars ++ [';', '\n'] := by
  rw [newick, String.toList_join, List.flatMap_map]
  refine List.flatMap_congr fun t _ => ?_
  rw [String.toList_append]
  rfl

/-- Trees that each end in a semicolon can be told apart. -/
theorem eq_of_lines {ts us : List (Tree Bytes)}
    (h : ts.flatMap (fun t => t.chars ++ [';', '\n']) = us.flatMap fun t => t.chars ++ [';', '\n']) :
    ts = us := by
  induction ts generalizing us with
  | nil =>
    cases us with
    | nil => rfl
    | cons u us => simp at h
  | cons t ts ih =>
    cases us with
    | nil => simp at h
    | cons u us =>
      simp only [List.flatMap_cons, List.append_assoc] at h
      obtain ⟨rfl, hrest⟩ := Tree.toldApart t u (Text.endsNumber_cons _ (by decide))
        (Text.endsNumber_cons _ (by decide)) h
      rw [ih (List.cons.inj (List.cons.inj hrest).2).2]

/-- **The text is the same exactly if the forests are alike**; it has one line per root, with the text of the
    tree below it. -/
theorem newick_unambiguous {f g : Forest Bytes} (hf : f.Built) (hg : g.Built) :
    (f.newick = g.newick ↔ f.Alike g) ∧
      f.newick = String.join (f.roots.map fun n => f.newickAt n ++ "\n") ∧
      ∀ n ∈ f.roots, '\n' ∉ (f.newickAt n).toList := by
  refine ⟨?_, hf.newick_eq, fun n _ => f.not_mem_newickAt n⟩
  rw [hf.alike_iff hg]
  constructor
  · intro h
    have hchars := congrArg String.toList h
    rw [toList_newick, toList_newick] at hchars
    exact eq_of_lines hchars
  · intro h
    rw [newick, newick, h]

/-- Two trees, the first with a child whose payload looks like the end of a line. -/
def hedge : Forest Bytes :=
  (((∅ : Forest Bytes).addRoot (.ofString "a")).1.addChild 0 (.ofString "b\");\n(")).1.addRoot [0xff] |>.1

/-- The same trees, with the second root found before the child. -/
def hedgeAgain : Forest Bytes :=
  (((∅ : Forest Bytes).addRoot (.ofString "a")).1.addRoot [0xff]).1.addChild 0 (.ofString "b\");\n(") |>.1

theorem hedge_built : hedge.Built := .addRoot _ _ (.addChild _ _ _ (.addRoot _ _ .empty) (by decide))

theorem hedgeAgain_built : hedgeAgain.Built :=
  .addChild _ _ _ (.addRoot _ _ (.addRoot _ _ .empty)) (by decide)

theorem newick_unambiguous_hedge :
    hedge.Built ∧ hedgeAgain.Built ∧ (hedge.newick = hedgeAgain.newick ↔ hedge.Alike hedgeAgain) ∧
      hedge.newick = String.join (hedge.roots.map fun n => hedge.newickAt n ++ "\n") ∧
      ∀ n ∈ hedge.roots, '\n' ∉ (hedge.newickAt n).toList :=
  ⟨hedge_built, hedgeAgain_built, newick_unambiguous hedge_built hedgeAgain_built⟩

example : hedge.newick = hedgeAgain.newick := by decide +kernel

end Forest

end Lasso
