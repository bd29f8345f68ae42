/-!
# Choosing relevant and different elements

From a pool of candidates one is chosen after the other: the most relevant one first, then always
the one whose relevance, less its likeness to what was already chosen, is greatest; among equals the
earliest in the pool. Numbers are of any type with an order.
-/

namespace CodeAtlas.Vector

variable {α R : Type}

def takeBest? [LT R] [DecidableLT R] (score : α → R) : List α → Option (α × List α)
  | [] => none
  | x :: rest =>
    match takeBest? score rest with
    | none => some (x, [])
    | some (y, others) => if score x < score y then some (y, x :: others) else some (x, rest)

def greatest [LT R] [DecidableLT R] (x : R) (xs : List R) : R :=
  xs.foldl (fun a b => if a < b then b else a) x

structure Weighing (α R : Type) where
  relevance : α → R
  likeness : α → α → R
  weight : R
  counterweight : R

def Weighing.score [LT R] [DecidableLT R] [Mul R] [Sub R] (w : Weighing α R) (chosen : List α)
    (x : α) : R :=
  match chosen with
  | [] => w.relevance x
  | c :: cs =>
    w.weight * w.relevance x - w.counterweight * greatest (w.likeness c x) (cs.map (w.likeness · x))

def choose [LT R] [DecidableLT R] [Mul R] [Sub R] (w : Weighing α R) :
    (limit : Nat) → (chosen pool : List α) → List α
  | 0, _, _ => []
  | n + 1, chosen, pool =>
    match takeBest? (w.score chosen) pool with
    | none => []
    | some (x, rest) => x :: choose w n (chosen ++ [x]) rest

/-! ## Vectors

Vectors are of short numbers, and what is computed from two of them is weighed in long ones. The
weighing is the same for all types of numbers, so that it can also be carried out exactly. -/

def dot {V : Type} [Add V] [Mul V] [OfNat V 0] (u v : List V) : V :=
  (u.zip v).foldl (fun s (a, b) => s + a * b) 0

/-- The vector of length one in the same direction; the zero vector stays as it is. -/
def direction (v : List Float) : List Float32 :=
  let v := v.map Float.toFloat32
  let length := (dot v v).sqrt
  if length > 0 then v.map (· / length) else v

/-- Relevance is likeness to a vector that is asked for. What does not count for relevance counts
for being different. -/
def weighing {α V R : Type} [Add V] [Mul V] [OfNat V 0] [OfNat R 1] [Sub R] (widen : V → R)
    (asked : List V) (weight : R) : Weighing (α × List V) R where
  relevance x := widen (dot asked x.2)
  likeness x y := widen (dot x.2 y.2)
  weight := weight
  counterweight := 1 - weight

end CodeAtlas.Vector
