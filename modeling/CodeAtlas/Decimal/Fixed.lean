import CodeAtlas.Decimal.Binary

/-!
# Numbers with a fixed number of decimal places

A number is rounded to the nearest multiple of a power of ten; an exact half goes to the even
neighbour. The sign of a negative number is kept even when nothing but zeros is left.
-/

namespace CodeAtlas.Decimal

def placePoint (places n : Nat) : String :=
  if places = 0 then digits n
  else
    let fraction := digits (n % Nat.pow 10 places)
    digits (n / Nat.pow 10 places) ++ "." ++
      String.ofList (List.replicate (places - fraction.length) '0') ++ fraction

def scaled (places mant : Nat) (exp : Int) : Nat :=
  let (num, den) := pow2 exp
  roundDiv (mant * num * Nat.pow 10 places) den

def fixed (places : Nat) (x : Float) : String :=
  match Binary.ofFloat x with
  | .nan => "nan"
  | .infinite neg => if neg then "-inf" else "inf"
  | .finite neg mant exp =>
    (if neg then "-" else "") ++ placePoint places (scaled places mant exp)

def percent (x : Float) : String :=
  fixed 0 (x * 100.0) ++ "%"

def roundTo (places : Nat) (x : Float) : Float :=
  match Binary.ofFloat x with
  | .finite neg mant exp => toFloat neg (scaled places mant exp) (-places)
  | _ => x

end CodeAtlas.Decimal
