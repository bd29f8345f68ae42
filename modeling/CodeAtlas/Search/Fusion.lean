import CodeAtlas.Data.OrderedMap

/-!
# Reciprocal rank fusion

Several ranked lists are merged into one. An item earns a share for its place in each list that
names it, and items are ordered by the sum of their shares; items with equal sums stay in the order
in which they were first met. The merge is generic in the numbers that shares are made of.
-/

namespace CodeAtlas.Search

/-- What has been earned so far: each item's sum of shares and the payload met last. -/
abbrev Standings (R P : Type) : Type := OrderedMap String (R × P)

def earn {R P : Type} [Add R] (zero : R) (standings : Standings R P) (item : String) (payload : P)
    (share : R) : Standings R P :=
  let before := match standings.get? item with
    | some (sum, _) => sum
    | none => zero
  standings.insert item (before + share, payload)

def takeIn {R P : Type} [Add R] (zero : R) (share : Nat → R) (place : Nat)
    (standings : Standings R P) : List (String × P) → Standings R P
  | [] => standings
  | (item, payload) :: rest =>
    takeIn zero share (place + 1) (earn zero standings item payload (share place)) rest

/-- Merges ranked lists; `share` gives what a place, counted from zero, earns. -/
def fuse {R P : Type} [Add R] [LT R] [DecidableLT R] (zero : R) (share : Nat → R)
    (lists : List (List (String × P))) : List (R × P) :=
  let standings := lists.foldl (fun s ranked => takeIn zero share 0 s ranked) {}
  standings.values.mergeSort fun a b => !(a.1 < b.1)

def damping : Int := 60

/-- Merges ranked lists with the usual shares. `none` when a place would divide by zero. -/
def reciprocalRank? {P : Type} (damping : Int) (lists : List (List (String × P))) :
    Option (List (Float × P)) :=
  let places := (lists.map List.length).foldl max 0
  if (List.range places).any fun place => damping + place + 1 == 0 then none
  else some (fuse 0.0 (fun place => 1.0 / Float.ofInt (damping + place + 1)) lists)

end CodeAtlas.Search
