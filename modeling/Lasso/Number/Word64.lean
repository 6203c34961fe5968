/-!
# Words of 64 bits
-/

namespace Lasso.Word64

/-- One more than the largest whole number of 64 bits with a sign: the 63rd power of two. -/
def limit : Nat := 9223372036854775808

/-- How many words of 64 bits there are: the 64th power of two. -/
def count : Nat := 18446744073709551616

/-- The least whole number of 64 bits. -/
def least : Int := -(limit : Int)

/-- Whether a whole number fits into 64 bits with its sign. -/
def fits (n : Int) : Bool := least ≤ n && n < (limit : Int)

end Lasso.Word64
