import CodeAtlas.Decimal.Binary

/-!
# The shortest decimal text of a number

Of all decimals that read back as a given number, `shortest` takes one with the fewest digits and,
of those, the nearest one. For each number of digits only the two decimals next to the number are
looked at. Should seventeen digits not be enough, the exact expansion is taken.

Numbers from 10⁻⁴ up to 10¹⁶ are written positionally, all others with an exponent of at least two
digits. A whole number keeps one zero after the point.
-/

namespace CodeAtlas.Decimal

structure Candidate where
  coef : Nat
  exp : Int
deriving DecidableEq, Repr

/-- The largest `e` with `10 ^ e ≤ a`, found by stepping from `e`; `steps` bounds the search. -/
def decimalExponent (a : Nat × Nat) : (steps : Nat) → (e : Int) → Int
  | 0, e => e
  | n + 1, e =>
    if fracLt a (pow10 e) then decimalExponent a n (e - 1)
    else if fracLt a (pow10 (e + 1)) then e
    else decimalExponent a n (e + 1)

/-- Whether a decimal lies in the interval of the reals that round to `mant · 2 ^ exp`. The ends
belong to it when `mant` is even. -/
def readsBack (mant : Nat) (exp : Int) (c : Candidate) : Bool :=
  let unit := pow2 (exp - 2)
  let low := if mant = Nat.pow 2 52 && minExp < exp then 4 * mant - 1 else 4 * mant - 2
  let value := fracMul c.coef (pow10 c.exp)
  let lowEnd := fracMul low unit
  let highEnd := fracMul (4 * mant + 2) unit
  if mant % 2 = 0 then !fracLt value lowEnd && !fracLt highEnd value
  else fracLt lowEnd value && fracLt value highEnd

/-- The decimal of `n` digits nearest to the number among those that read back, if there is one. -/
def candidateOf (mant : Nat) (exp : Int) (e : Int) (n : Nat) : Option Candidate :=
  let (num, den) := pow2 exp
  let step := e - n + 1
  let (gridNum, gridDen) := pow10 step
  let total := mant * num * gridDen
  let size := den * gridNum
  let below := total / size
  let near := roundDiv total size
  let far := if near = below then below + 1 else below
  [near, far].findSome? fun coef =>
    let c : Candidate := ⟨coef, step⟩
    if readsBack mant exp c then some c else none

def exactCandidate (mant : Nat) (exp : Int) : Candidate :=
  if 0 ≤ exp then ⟨mant * Nat.pow 2 exp.toNat, 0⟩ else ⟨mant * Nat.pow 5 (-exp).toNat, exp⟩

def shortestCandidate (mant : Nat) (exp : Int) : Candidate :=
  let (num, den) := pow2 exp
  let e := decimalExponent (mant * num, den) 700 0
  match (List.range 17).findSome? fun n => candidateOf mant exp e (n + 1) with
  | some c => c
  | none => exactCandidate mant exp

/-- The digits of a coefficient without zeros at its end, and the power of ten of its last digit. -/
def stripZeros : (steps : Nat) → Candidate → Candidate
  | 0, c => c
  | n + 1, c => if c.coef % 10 = 0 && c.coef != 0 then stripZeros n ⟨c.coef / 10, c.exp + 1⟩ else c

def exponentText (e : Int) : String :=
  let size := digits e.natAbs
  "e" ++ (if e < 0 then "-" else "+") ++ (if size.length < 2 then "0" else "") ++ size

def writeCandidate (c : Candidate) : String :=
  let ds := Nat.toDigits 10 c.coef
  let point : Int := ds.length + c.exp
  if -4 < point && point ≤ 16 then
    if point ≤ 0 then
      "0." ++ String.ofList (List.replicate (-point).toNat '0' ++ ds)
    else
      let whole := ds.take point.toNat
      let zeros := List.replicate (point.toNat - ds.length) '0'
      let fraction := ds.drop point.toNat
      String.ofList (whole ++ zeros) ++ "." ++ (if fraction.isEmpty then "0"
        else String.ofList fraction)
  else
    match ds with
    | [] => ""
    | [d] => String.ofList [d] ++ exponentText (point - 1)
    | d :: rest => String.ofList (d :: '.' :: rest) ++ exponentText (point - 1)

def shortest (x : Float) : String :=
  match Binary.ofFloat x with
  | .nan => "nan"
  | .infinite neg => if neg then "-inf" else "inf"
  | .finite neg mant exp =>
    let text := if mant = 0 then "0.0"
      else writeCandidate (stripZeros 400 (shortestCandidate mant exp))
    (if neg then "-" else "") ++ text

end CodeAtlas.Decimal
