/-!
# Leading parts of a list

A limit may be negative: it then says how many elements are left out at the end.
-/

namespace CodeAtlas

/-- The first `limit` elements; a negative limit leaves out that many at the end. -/
def leading {α : Type} (limit : Int) (xs : List α) : List α :=
  if 0 ≤ limit then xs.take limit.toNat else xs.take (xs.length + limit).toNat

/-- Pieces of `size` consecutive elements; the last one may be shorter. `steps` bounds their
number. -/
def piecesFrom {α : Type} (size : Nat) : (steps : Nat) → List α → List (List α)
  | 0, _ => []
  | _ + 1, [] => []
  | n + 1, xs => xs.take size :: piecesFrom size n (xs.drop size)

def pieces {α : Type} (size : Nat) (xs : List α) : List (List α) :=
  piecesFrom size xs.length xs

def distinct {α : Type} [BEq α] (xs : List α) : List α :=
  xs.foldl (fun seen x => if seen.contains x then seen else seen ++ [x]) []

end CodeAtlas
