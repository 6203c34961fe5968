/-!
# Binary floating-point numbers

Numbers of 53 binary digits and their decimal texts, in exact arithmetic on natural numbers.

* `Double.ofDecimal` is the nearest number to a decimal, a tie goes to the even mantissa;
* `Double.shortest` is the shortest decimal that is read back as the number, of several the nearest.
-/

namespace Lasso

/-- A floating-point number. A finite one is `mantissa · 2 ^ exponent` with its sign; the mantissa
has at most 53 binary digits, and 53 unless the exponent is the least one, -1074. -/
inductive Double where
  | finite (negative : Bool) (mantissa : Nat) (exponent : Int)
  | infinite (negative : Bool)
  | nan
  deriving DecidableEq, Repr, Inhabited

namespace Double

/-! ## 1. Rounding -/

/-- The natural number nearest to a quotient; a tie goes to the even one. -/
def roundDiv (num den : Nat) : Nat :=
  let q := num / den
  let r := num % den
  if 2 * r < den then q
  else if 2 * r > den then q + 1
  else if q % 2 = 0 then q else q + 1

/-- The quotient of `num` and `den · 2 ^ e`, rounded. -/
def roundScaled (num den : Nat) (e : Int) : Nat :=
  if e ≥ 0 then roundDiv num (den * Nat.pow 2 e.toNat) else roundDiv (num * Nat.pow 2 (-e).toNat) den

/-- The exponent with which the quotient has a mantissa of 53 digits, or -1074 if that is more. -/
def exponentFor (num den : Nat) : Int :=
  let e : Int := (num.log2 : Int) - den.log2 - 52
  let full := if e ≥ 0 then num / (den * Nat.pow 2 e.toNat) else num * Nat.pow 2 (-e).toNat / den
  max (if full < 4503599627370496 then e - 1 else e) (-1074)

/-- The number nearest to a quotient; a tie goes to the even mantissa. -/
def ofRatio (negative : Bool) (num den : Nat) : Double :=
  if num = 0 then .finite negative 0 (-1074)
  else
    let e := exponentFor num den
    let m := roundScaled num den e
    let (m, e) := if m = 9007199254740992 then (4503599627370496, e + 1) else (m, e)
    if e > 971 then .infinite negative else .finite negative m e

/-- The number of decimal digits. -/
def digitCount (n : Nat) : Nat := (Nat.toDigits 10 n).length

/-- The number nearest to `digits · 10 ^ exp`. -/
def ofDecimal (negative : Bool) (digits : Nat) (exp : Int) : Double :=
  if digits = 0 then .finite negative 0 (-1074)
  else
    -- beyond these bounds every decimal is infinite or zero, and the powers need not be computed
    let top : Int := digitCount digits + exp
    if top > 400 then .infinite negative
    else if top < -400 then .finite negative 0 (-1074)
    else if exp ≥ 0 then ofRatio negative (digits * Nat.pow 10 exp.toNat) 1
    else ofRatio negative digits (Nat.pow 10 (-exp).toNat)

/-- The number nearest to an integer. -/
def ofInt (n : Int) : Double := ofRatio (n < 0) n.natAbs 1

/-! ## 2. Parts and products -/

/-- A finite number as a quotient. -/
def ratio (m : Nat) (e : Int) : Nat × Nat :=
  if e ≥ 0 then (m * Nat.pow 2 e.toNat, 1) else (m, Nat.pow 2 (-e).toNat)

/-- The number nearest to a product of finite numbers. -/
def mul : Double → Double → Double
  | .finite a m e, .finite b n f =>
    let (x, y) := ratio m e
    let (z, w) := ratio n f
    ofRatio (a != b) (x * z) (y * w)
  | _, _ => .nan

/-- The integer part, towards zero; infinite numbers have none. -/
def truncate? : Double → Option Int
  | .finite negative m e =>
    let n := if e ≥ 0 then m * Nat.pow 2 e.toNat else m / Nat.pow 2 (-e).toNat
    some (if negative then -n else n)
  | _ => none

/-! ## 3. Shortest decimals -/

/-- What lies between two halfway points: bounds `low` and `high` over `den`, both included or
not. -/
structure Gap where
  low : Nat
  high : Nat
  den : Nat
  closed : Bool

/-- The real numbers that are read as `m · 2 ^ e`. -/
def gap (m : Nat) (e : Int) : Gap :=
  -- halfway to the neighbour below is nearer where the exponent changes
  let narrow := m = 4503599627370496 && e > -1074
  let num := 4 * m
  let low := if narrow then num - 1 else num - 2
  let high := num + 2
  let closed := m % 2 = 0
  if e ≥ 0 then ⟨low * Nat.pow 2 e.toNat, high * Nat.pow 2 e.toNat, 4, closed⟩
  else ⟨low, high, 4 * Nat.pow 2 (-e).toNat, closed⟩

/-- Whether `n · 10 ^ k` lies in a gap. -/
def Gap.has (g : Gap) (n : Nat) (k : Int) : Bool :=
  let num := if k ≥ 0 then n * Nat.pow 10 k.toNat * g.den else n * g.den
  let scale := if k ≥ 0 then 1 else Nat.pow 10 (-k).toNat
  if g.closed then g.low * scale ≤ num && num ≤ g.high * scale
  else g.low * scale < num && num < g.high * scale

/-- The quotient and rest of `m · 2 ^ e` by `10 ^ k`, with the divisor. -/
def divPower (m : Nat) (e k : Int) : Nat × Nat × Nat :=
  let num := (if e ≥ 0 then m * Nat.pow 2 e.toNat else m) * (if k < 0 then Nat.pow 10 (-k).toNat else 1)
  let den := (if e < 0 then Nat.pow 2 (-e).toNat else 1) * (if k ≥ 0 then Nat.pow 10 k.toNat else 1)
  (num / den, num % den, den)

/-- The decimal with unit `10 ^ k` that lies in the gap and is nearest to `m · 2 ^ e`. -/
def onGrid? (m : Nat) (e k : Int) : Option Nat :=
  let g := gap m e
  let (q, r, den) := divPower m e k
  match g.has q k, g.has (q + 1) k with
  | true, true => some (if 2 * r < den || (2 * r = den && q % 2 = 0) then q else q + 1)
  | true, false => some q
  | false, true => some (q + 1)
  | false, false => none

/-- The first unit, from `10 ^ k` downwards, whose grid meets the gap, with the point there. -/
def firstOnGrid (m : Nat) (e : Int) : (fuel : Nat) → (k : Int) → Nat × Int
  | 0, k => (0, k)
  | fuel + 1, k =>
    match onGrid? m e k with
    | some n => if n = 0 then firstOnGrid m e fuel (k - 1) else (n, k)
    | none => firstOnGrid m e fuel (k - 1)

/-- Takes zeros from the end of the digits. -/
def dropZeros : (fuel : Nat) → Nat → Int → Nat × Int
  | 0, n, k => (n, k)
  | fuel + 1, n, k => if n % 10 = 0 && n ≠ 0 then dropZeros fuel (n / 10) (k + 1) else (n, k)

/-- The shortest decimal `digits · 10 ^ exp` that is read as `m · 2 ^ e`. -/
def shortest (m : Nat) (e : Int) : Nat × Int :=
  if m = 0 then (0, 0)
  else
    let (q, _, _) := divPower m e 0
    let top : Int := if q = 0 then 1 else digitCount q
    let (n, k) := firstOnGrid m e 400 top
    dropZeros 400 n k

/-! ## 4. Texts -/

/-- The digits of a number with zeros in front up to a width. -/
def padded (width n : Nat) : String :=
  let ds := Nat.toDigits 10 n
  String.ofList (List.replicate (width - ds.length) '0' ++ ds)

/-- A decimal in positional notation. -/
def positional (n : Nat) (k : Int) : String :=
  if k ≥ 0 then toString (n * Nat.pow 10 k.toNat)
  else
    let places := (-k).toNat
    toString (n / Nat.pow 10 places) ++ "." ++ padded places (n % Nat.pow 10 places)

/-- A decimal with one digit before the point and an exponent. -/
def scientific (n : Nat) (k : Int) : String :=
  let ds := Nat.toDigits 10 n
  let exp : Int := k + (ds.length - 1 : Nat)
  let mantissa := match ds with
    | d :: [] => [d]
    | d :: rest => d :: '.' :: rest
    | [] => []
  String.ofList mantissa ++ "e" ++ (if exp < 0 then "-" else "+") ++ toString exp.natAbs

/-- The text of a number: positional from a millionth up to 21 digits, with an exponent beyond. -/
def text : Double → String
  | .finite negative m e =>
    let (n, k) := shortest m e
    let top : Int := digitCount n + k
    (if negative then "-" else "") ++
      if n ≠ 0 && (top > 21 || top < -5) then scientific n k else positional n k
  | .infinite false => "+Inf"
  | .infinite true => "-Inf"
  | .nan => "NaN"

end Double

end Lasso
