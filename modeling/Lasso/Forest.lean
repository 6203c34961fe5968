import Lasso.Display
/-!
# Search trees

A search records how it came to each thing it found. The record is a forest whose nodes are numbered
in the order in which they were found: a node is known by its payload and the number of the node it
was found from.

* `Forest.trees` is the forest as ordered trees, `Forest.tree?` the tree below one node;
* `Tree.newick` writes a tree as nested lists of quoted payloads, children before their parent;
* `Forest.path` lists the payloads from the root down to a node.
-/

namespace Lasso

/-! ## 1. Ordered trees -/

/-- A payload with the trees below it. -/
inductive Tree (α : Type) where
  | node (payload : α) (children : List (Tree α))

namespace Tree

section

variable {α : Type}

instance [Inhabited α] : Inhabited (Tree α) := ⟨.node default []⟩

def payload : Tree α → α
  | .node a _ => a

def children : Tree α → List (Tree α)
  | .node _ ts => ts

mutual

/-- The number of nodes. -/
def size : Tree α → Nat
  | .node _ ts => 1 + sizeAll ts

/-- The number of nodes of several trees. -/
def sizeAll : List (Tree α) → Nat
  | [] => 0
  | t :: ts => t.size + sizeAll ts

end

mutual

/-- One line per node, each with as many dashes as it is deep, a parent before its children. -/
def outline [Display α] (depth : Nat) : Tree α → String
  | .node a ts => String.ofList (List.replicate depth '-') ++ Display.text a ++ "\n" ++
      outlineAll (depth + 1) ts

/-- The lines of several trees. -/
def outlineAll [Display α] (depth : Nat) : List (Tree α) → String
  | [] => ""
  | t :: ts => t.outline depth ++ outlineAll depth ts

end

mutual

/-- A tree as nested lists: the children between parentheses, then the payload between quotes. -/
def newick [Display α] : Tree α → String
  | .node a [] => Text.quoteBytes (Display.bytes a)
  | .node a (t :: ts) => "(" ++ t.newick ++ newickRest ts ++ ")" ++ Text.quoteBytes (Display.bytes a)

/-- The trees behind the first, each behind a comma. -/
def newickRest [Display α] : List (Tree α) → String
  | [] => ""
  | t :: ts => "," ++ t.newick ++ newickRest ts

end

end

end Tree

/-! ## 2. Forests -/

/-- A node of a forest: the number of the node it was found from, and what was found. -/
structure ForestNode (α : Type) where
  parent? : Option Nat
  payload : α

/-- A forest in the order in which its nodes were found. -/
structure Forest (α : Type) where
  nodes : Array (ForestNode α) := #[]

namespace Forest

section

variable {α : Type}

instance : EmptyCollection (Forest α) := ⟨{}⟩
instance : Inhabited (Forest α) := ⟨∅⟩

/-- The number of nodes. -/
def size (f : Forest α) : Nat := f.nodes.size

/-- Adds a root and returns its number. -/
def addRoot (f : Forest α) (a : α) : Forest α × Nat :=
  let n := f.nodes.size
  (⟨f.nodes.push ⟨none, a⟩⟩, n)

/-- Adds a child of a node and returns its number. -/
def addChild (f : Forest α) (parent : Nat) (a : α) : Forest α × Nat :=
  let n := f.nodes.size
  (⟨f.nodes.push ⟨some parent, a⟩⟩, n)

/-- The node with a number. -/
def node? (f : Forest α) (n : Nat) : Option (ForestNode α) := f.nodes[n]?

/-- The payloads from a node up to its root, over at most `fuel` nodes. -/
def ancestors (f : Forest α) : (fuel : Nat) → (n : Nat) → List α
  | 0, _ => []
  | fuel + 1, n =>
    match f.nodes[n]? with
    | none => []
    | some ⟨none, a⟩ => [a]
    | some ⟨some p, a⟩ => a :: f.ancestors fuel p

/-- The payloads from the root down to a node. -/
def path (f : Forest α) (n : Nat) : List α := (f.ancestors (n + 1) n).reverse

/-- The number of nodes above a node. -/
def depth (f : Forest α) (n : Nat) : Nat := (f.path n).length - 1

/-! ## 3. The trees of a forest -/

/-- What is known when all nodes from a number on are read: the roots among them, and for each node
the trees of its children among them. -/
structure Grown (α : Type) where
  roots : List (Tree α) := []
  below : Array (List (Tree α))

/-- Reads the node with number `n`, when all later ones are read. -/
def grow (g : Grown α) (n : Nat) (x : ForestNode α) : Grown α :=
  let t := Tree.node x.payload (g.below.getD n [])
  match x.parent? with
  | none => { g with roots := t :: g.roots }
  | some p => { g with below := g.below.modify p (t :: ·) }

/-- Reads the nodes from the last one back to number `n`. -/
def growFrom (f : Forest α) (n : Nat) : Grown α :=
  ((List.range' n (f.size - n)).foldr (fun i g =>
    match f.nodes[i]? with
    | none => g
    | some x => grow g i x) ⟨[], Array.replicate f.size []⟩)

/-- The trees of the forest, in the order of their roots. -/
def trees (f : Forest α) : List (Tree α) := (f.growFrom 0).roots

/-- The tree below a node. -/
def tree? (f : Forest α) (n : Nat) : Option (Tree α) := do
  let x ← f.nodes[n]?
  return .node x.payload ((f.growFrom (n + 1)).below.getD n [])

/-- Whether a node is a root. -/
def isRoot (f : Forest α) (n : Nat) : Bool :=
  match f.nodes[n]? with
  | some x => x.parent?.isNone
  | none => false

/-- The text of the tree below a node; only the text of a whole tree ends in a semicolon. -/
def newickAt [Display α] (f : Forest α) (n : Nat) : String :=
  match f.tree? n with
  | none => ""
  | some t => t.newick ++ if f.isRoot n then ";" else ""

/-- The outline of the tree below a node, as deep as the node stands. -/
def outlineAt [Display α] (f : Forest α) (n : Nat) : String :=
  match f.tree? n with
  | none => ""
  | some t => t.outline (f.depth n)

/-- One line per tree. -/
def newick [Display α] (f : Forest α) : String :=
  String.join (f.trees.map fun t => t.newick ++ ";\n")

end

end Forest

end Lasso
