import Lasso.Forest
import Lasso.Search.Explore
/-!
# Nested search

Looks for a lasso: a path from a start to an accepting state, and a cycle that leads from there back
to itself. An outer depth first search meets every state once and notes the accepting ones in the
order in which it meets them; from each of them, an inner search looks for the way back.

* `sweep` is the outer search, with the forest of how it came to each state;
* `cycleThrough` is the inner search from one state;
* `findLasso` puts both together.
-/

namespace Lasso

section

variable {S : Type}

/-- The size of what a stack of frames has left to look at. -/
def stackWeight {α : Type} : List (α × List S) → Nat
  | [] => 0
  | f :: stack => f.2.length + 1 + stackWeight stack

theorem stackWeight_cons {α : Type} (a : α) (ts : List S) (stack : List (α × List S)) :
    stackWeight ((a, ts) :: stack) = ts.length + 1 + stackWeight stack := rfl

variable [DecidableEq S] [Hashable S]

/-! ## 1. The outer search -/

/-- What the outer search has found: the states it has met, how it came to them, and the numbers of
the accepting ones in the order in which it met them. -/
structure Sweep (S : Type) [DecidableEq S] [Hashable S] where
  visited : Std.HashSet S := ∅
  forest : Forest S := ∅
  accepted : Array Nat := #[]

/-- Meets a state that the node `parent?` leads to, and returns the number of its node. -/
def Sweep.visit (w : Sweep S) (accepting : S → Bool) (parent? : Option Nat) (s : S) :
    Sweep S × Nat :=
  let (forest, n) := match parent? with
    | none => w.forest.addRoot s
    | some p => w.forest.addChild p s
  (⟨w.visited.insert s, forest, if accepting s then w.accepted.push n else w.accepted⟩, n)

theorem Sweep.visited_visit (w : Sweep S) (accepting : S → Bool) (parent? : Option Nat) (s : S) :
    (w.visit accepting parent? s).1.visited = w.visited.insert s := by
  cases parent? <;> rfl

/-- Follows the successors on the stack, the deepest first. A frame is a node of the forest with the
successors that are still to be looked at. -/
def sweepFrom (known : Std.HashMap S Nat) (next : S → List S) (accepting : S → Bool)
    (stack : List (Nat × List S)) (w : Sweep S) : Sweep S :=
  match stack with
  | [] => w
  | (_, []) :: stack => sweepFrom known next accepting stack w
  | (n, s :: ss) :: stack =>
    if _hv : s ∈ w.visited then sweepFrom known next accepting ((n, ss) :: stack) w
    else if _hk : s ∈ known then
      sweepFrom known next accepting
        (((w.visit accepting (some n) s).2, next s) :: (n, ss) :: stack)
        (w.visit accepting (some n) s).1
    else sweepFrom known next accepting ((n, ss) :: stack) w
termination_by ((unreached known w.visited).length, stackWeight stack)
decreasing_by
  · exact Prod.Lex.right _ (by simp [stackWeight_cons])
  · exact Prod.Lex.right _ (by simp [stackWeight_cons])
  · rw [Sweep.visited_visit]
    exact Prod.Lex.left _ _ (length_unreached_insert_lt _hk _hv)
  · exact Prod.Lex.right _ (by simp [stackWeight_cons])

/-- Meets one start and everything beyond it that was not met before. -/
def sweepStart (known : Std.HashMap S Nat) (next : S → List S) (accepting : S → Bool)
    (w : Sweep S) (s : S) : Sweep S :=
  if s ∈ w.visited then w
  else
    let (w, n) := w.visit accepting none s
    sweepFrom known next accepting [(n, next s)] w

/-- The outer search from the starts in turn. -/
def sweep (known : Std.HashMap S Nat) (next : S → List S) (accepting : S → Bool)
    (starts : List S) : Sweep S :=
  starts.foldl (sweepStart known next accepting) {}

/-! ## 2. The inner search -/

/-- Follows the successors on the stack until some state leads to the goal; returns the states on
the stack then, from the bottom to the top. -/
def seek (known : Std.HashMap S Nat) (next : S → List S) (goal : S)
    (stack : List (S × List S)) (visited : Std.HashSet S) : Option (List S) :=
  match stack with
  | [] => none
  | (_, []) :: stack => seek known next goal stack visited
  | (x, s :: ss) :: stack =>
    if _hv : s ∈ visited then seek known next goal ((x, ss) :: stack) visited
    else if _hk : s ∈ known then
      if goal ∈ next s then some (s :: x :: stack.map (·.1)).reverse
      else seek known next goal ((s, next s) :: (x, ss) :: stack) (visited.insert s)
    else seek known next goal ((x, ss) :: stack) visited
termination_by ((unreached known visited).length, stackWeight stack)
decreasing_by
  · exact Prod.Lex.right _ (by simp [stackWeight_cons])
  · exact Prod.Lex.right _ (by simp [stackWeight_cons])
  · exact Prod.Lex.left _ _ (length_unreached_insert_lt _hk _hv)
  · exact Prod.Lex.right _ (by simp [stackWeight_cons])

/-- A cycle that starts in `s` and leads back to it, without repeating `s` at its end. -/
def cycleThrough (known : Std.HashMap S Nat) (next : S → List S) (s : S) : Option (List S) :=
  if s ∈ next s then some [s]
  else seek known next s [(s, next s)] ((∅ : Std.HashSet S).insert s)

/-! ## 3. Lassos -/

/-- The lasso through the first accepted node with a cycle: the path to the node, without it, and
the cycle. -/
def firstLasso (known : Std.HashMap S Nat) (next : S → List S) (forest : Forest S) :
    List Nat → Option (List S × List S)
  | [] => none
  | n :: ns =>
    match forest.node? n with
    | none => firstLasso known next forest ns
    | some x =>
      match cycleThrough known next x.payload with
      | some cycle => some ((forest.path n).dropLast, cycle)
      | none => firstLasso known next forest ns

/-- The lasso that the sweep leads to. -/
def Sweep.lasso? (w : Sweep S) (known : Std.HashMap S Nat) (next : S → List S) :
    Option (List S × List S) :=
  firstLasso known next w.forest w.accepted.toList

end

end Lasso
