import Lasso.Display
/-!
# Pairs

The states and locations of composed machines are pairs of those of their parts. A pair of pairs has
the parts of all its components, so that a state of a composition shows the states it is made of.
-/

namespace Lasso

/-- Two things that stand together. -/
structure Pair (α β : Type) where
  first : α
  second : β
  deriving DecidableEq, Hashable

instance {α β : Type} [Display α] [Display β] : Display (Pair α β) where
  text p := "<" ++ Display.text p.first ++ "," ++ Display.text p.second ++ ">"
  parts p := Display.parts p.first ++ Display.parts p.second

end Lasso
