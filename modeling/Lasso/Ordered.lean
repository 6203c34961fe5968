import Std.Data.HashMap
import Lasso.Display
/-!
# Ordered sets

A set that remembers the order in which its members came. The members stand in an array, and an
index knows the place of each, so that membership is one lookup. Traversals of the same set always
meet the members in the same order.

* `Ordered.add` and `Ordered.remove` tell whether they changed the set;
* `Ordered.retain` keeps the order of what stays;
* the algebra of sets and `Ordered.sameMembers` look at the members only, not at their order.
-/

namespace Lasso

/-- A set with the order in which its members came. -/
structure Ordered (α : Type) [DecidableEq α] [Hashable α] where
  items : Array α := #[]
  /-- The place of each member. -/
  index : Std.HashMap α Nat := ∅

namespace Ordered

section

variable {α : Type} [DecidableEq α] [Hashable α]

/-! ## 1. Members -/

/-- The set without members. -/
def empty : Ordered α := {}

instance : EmptyCollection (Ordered α) := ⟨empty⟩
instance : Inhabited (Ordered α) := ⟨empty⟩

/-- The members in order. -/
def toList (o : Ordered α) : List α := o.items.toList

/-- Whether something is a member. -/
def contains (o : Ordered α) (a : α) : Bool := o.index.contains a

/-- The number of members. -/
def size (o : Ordered α) : Nat := o.items.size

/-- Whether there are no members. -/
def isEmpty (o : Ordered α) : Bool := o.items.isEmpty

/-! ## 2. Changes -/

/-- Puts a new member behind the others. -/
def add (o : Ordered α) (a : α) : Ordered α × Bool :=
  if o.contains a then (o, false)
  else
    let n := o.items.size
    (⟨o.items.push a, o.index.insert a n⟩, true)

/-- Puts a new member behind the others, if it is new. -/
def insert (o : Ordered α) (a : α) : Ordered α := (o.add a).1

/-- Puts several members behind the others, each if it is new. -/
def insertMany (o : Ordered α) (as : List α) : Ordered α := as.foldl insert o

/-- The members of a list, each at its first place. -/
def ofList (as : List α) : Ordered α := insertMany ∅ as

/-- A set of its own with the same members in the same order. -/
def clone (o : Ordered α) : Ordered α := ofList o.toList

/-- Writes the places of all members from the `n`th on. -/
def renumber (items : Array α) (n : Nat) (index : Std.HashMap α Nat) : Std.HashMap α Nat :=
  (items.toList.drop n).foldl (fun (r : Std.HashMap α Nat × Nat) a => (r.1.insert a r.2, r.2 + 1))
    (index, n) |>.1

/-- Takes a member out; the others keep their order. -/
def remove (o : Ordered α) (a : α) : Ordered α × Bool :=
  match o.index[a]? with
  | none => (o, false)
  | some n =>
    let items := o.items.eraseIdxIfInBounds n
    (⟨items, renumber items n (o.index.erase a)⟩, true)

/-- Takes a member out, if it is one. -/
def erase (o : Ordered α) (a : α) : Ordered α := (o.remove a).1

/-- Keeps the members that satisfy a condition, in order. -/
def retain (o : Ordered α) (keep : α → Bool) : Ordered α :=
  let gone := o.toList.filter fun a => !keep a
  let items := o.items.filter keep
  ⟨items, renumber items 0 (gone.foldl (fun m a => m.erase a) o.index)⟩

/-! ## 3. The algebra of sets -/

/-- The members of either. -/
def union (o p : Ordered α) : Ordered α := o.insertMany p.toList

/-- The members of both. -/
def inter (o p : Ordered α) : Ordered α := ofList (o.toList.filter p.contains)

/-- The members of the first that are not in the second. -/
def diff (o p : Ordered α) : Ordered α := ofList (o.toList.filter fun a => !p.contains a)

/-- Whether every member is a member of the other. -/
def isSubset (o p : Ordered α) : Bool := o.toList.all p.contains

/-- Whether both have the same members, in whatever order. -/
def sameMembers (o p : Ordered α) : Bool := o.size = p.size && o.isSubset p

/-! ## 4. Texts -/

/-- The texts of the members, sorted. -/
def sortedTexts [Display α] (o : Ordered α) : List String := sortNames (o.toList.map Display.text)

/-- The text of the set without regard to its order. -/
def text [Display α] (o : Ordered α) : String := braced o.sortedTexts

end

end Ordered

end Lasso
