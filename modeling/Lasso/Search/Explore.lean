import Std.Data.HashMap
import Std.Data.HashSet
/-!
# Exploring a graph

A finite graph is given by the states that are known and by the successors of each. Searches keep
the set of states they have met; each step either meets another known state or has less left to
look at, which is why they end.

* `unreached` lists the known states that a search has not met, the measure of what is left;
* `explore` meets everything that can be reached from the waiting states.
-/

namespace Lasso

section

variable {S : Type} [DecidableEq S] [Hashable S]

/-- The known states that are not reached yet. -/
def unreached (known : Std.HashMap S Nat) (reached : Std.HashSet S) : List S :=
  known.keys.filter fun s => !reached.contains s

theorem length_unreached_insert_lt {known : Std.HashMap S Nat} {reached : Std.HashSet S} {s : S}
    (hs : s ∈ known) (hr : ¬ s ∈ reached) :
    (unreached known (reached.insert s)).length < (unreached known reached).length := by
  have hsub : unreached known (reached.insert s) =
      (unreached known reached).filter fun x => !(s == x) := by
    simp only [unreached, List.filter_filter]
    congr 1
    funext x
    simp [Std.HashSet.contains_insert]
  have hmem : s ∈ unreached known reached := by
    simp only [unreached, List.mem_filter, Bool.not_eq_true', Std.HashMap.mem_keys]
    exact ⟨hs, by simpa using hr⟩
  rw [hsub]
  have hlt := List.length_filter_lt_length_iff_exists (p := fun x => !(s == x))
    (l := unreached known reached)
  exact hlt.2 ⟨s, hmem, by simp⟩

/-- Reaches the waiting states and everything beyond them. A state is looked at once, and only if it
is known. -/
def explore (known : Std.HashMap S Nat) (next : S → List S) (waiting : List S)
    (reached : Std.HashSet S) : Std.HashSet S :=
  match waiting with
  | [] => reached
  | s :: rest =>
    if _hr : s ∈ reached then explore known next rest reached
    else if _hk : s ∈ known then explore known next (next s ++ rest) (reached.insert s)
    else explore known next rest reached
termination_by ((unreached known reached).length, waiting.length)
decreasing_by
  · exact Prod.Lex.right _ (Nat.lt_succ_self _)
  · exact Prod.Lex.left _ _ (length_unreached_insert_lt _hk _hr)
  · exact Prod.Lex.right _ (Nat.lt_succ_self _)

end

end Lasso
