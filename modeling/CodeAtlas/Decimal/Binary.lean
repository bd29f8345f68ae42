/-!
# Binary floating-point numbers as exact fractions

A finite number of sixty-four bits is `± mant · 2 ^ exp`. Everything the library prints about a
number is computed from this form in exact arithmetic.
-/

namespace CodeAtlas.Decimal

inductive Binary where
  | nan
  | infinite (neg : Bool)
  | finite (neg : Bool) (mant : Nat) (exp : Int)
deriving DecidableEq, Repr

def minExp : Int := -1074

def Binary.ofFloat (x : Float) : Binary :=
  let bits := x.toBits.toNat
  let neg := Nat.pow 2 63 ≤ bits
  let biased : Nat := bits / Nat.pow 2 52 % Nat.pow 2 11
  let fraction := bits % Nat.pow 2 52
  if biased = 2047 then
    if fraction = 0 then .infinite neg else .nan
  else if biased = 0 then .finite neg fraction minExp
  else .finite neg (Nat.pow 2 52 + fraction) ((biased : Int) + minExp - 1)

/-- `num / den` rounded to the nearest whole number; an exact half goes to the even neighbour. -/
def roundDiv (num den : Nat) : Nat :=
  let q := num / den
  let r := num % den
  if 2 * r < den then q
  else if den < 2 * r then q + 1
  else if q % 2 = 0 then q
  else q + 1

def power (base : Nat) (e : Int) : Nat × Nat :=
  if 0 ≤ e then (Nat.pow base e.toNat, 1) else (1, Nat.pow base (-e).toNat)

def pow2 (e : Int) : Nat × Nat := power 2 e

def pow10 (e : Int) : Nat × Nat := power 10 e

def digits (n : Nat) : String :=
  String.ofList (Nat.toDigits 10 n)

def fracLt (a b : Nat × Nat) : Bool :=
  a.1 * b.2 < b.1 * a.2

def fracMul (n : Nat) (a : Nat × Nat) : Nat × Nat :=
  (n * a.1, a.2)

/-- The exponent of the last binary place to which a positive fraction is rounded: fifty-three
places are kept, but none below the exponent of the smallest numbers. -/
def lastPlace (a : Nat × Nat) : Int :=
  let e : Int := (a.1.log2 : Int) - a.2.log2 - 53
  max minExp (if fracLt a (pow2 (e + 53)) then e else e + 1)

def infiniteBits : Nat := 2047 * Nat.pow 2 52

/-- The bits of the number nearest to a positive fraction. A carry out of the last place moves on
into the exponent, as it should. -/
def nearestBits (a : Nat × Nat) : Nat :=
  let e := lastPlace a
  let (num, den) := pow2 e
  min infiniteBits ((e - minExp).toNat * Nat.pow 2 52 + roundDiv (a.1 * den) (a.2 * num))

/-- The number `± mant · 10 ^ exp`, rounded to the nearest floating-point number. Where the exponent
alone shows that it is too large or too small, the power of ten is not computed. -/
def toFloat (neg : Bool) (mant : Nat) (exp : Int) : Float :=
  let size :=
    if mant = 0 || exp < -(400 + (mant.log2 : Int)) then 0
    else if 400 < exp then infiniteBits
    else nearestBits (fracMul mant (pow10 exp))
  Float.ofBits (UInt64.ofNat ((if neg then Nat.pow 2 63 else 0) + size))

end CodeAtlas.Decimal
