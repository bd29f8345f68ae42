import CodeAtlas.Data.Leading
import CodeAtlas.Pattern.Syntax

/-!
# Finding patterns

A pattern that is tried at a place of a text gives the places where it may end. It is found in a
text if it ends somewhere when it is tried at some place.
-/

namespace CodeAtlas

def caseForms (c : Char) : List Char :=
  let low := Text.lowerChar c
  let shared := ((Text.sharedLetters.lookup low.toNat).getD []).map Char.ofNat
  (c :: low :: shared).flatMap fun d =>
    match Text.upperChar d with
    | [u] => [d, u]
    | _ => [d]

def SetItem.holds (c : Char) : SetItem → Bool
  | .range first last => (caseForms c).any fun d => first ≤ d && d ≤ last
  | .kind k negated => k.holds (Text.lowerChar c) != negated

namespace Pattern

def endsAt (text : Array Char) (i : Nat) (holds : Char → Bool) : List Nat :=
  match text[i]? with
  | some c => if holds c then [i + 1] else []
  | none => []

def stay (i : Nat) (holds : Bool) : List Nat :=
  if holds then [i] else []

def afterSteps (step : Nat → List Nat) : (n : Nat) → List Nat → List Nat
  | _, [] => []
  | 0, places => places
  | n + 1, places => afterSteps step n (distinct (places.flatMap step))

def withinSteps (step : Nat → List Nat) : (n : Nat) → (reached latest : List Nat) → List Nat
  | _, reached, [] => reached
  | 0, reached, _ => reached
  | n + 1, reached, latest =>
    let new := (distinct (latest.flatMap step)).filter fun i => !reached.contains i
    withinSteps step n (reached ++ new) new

def ends (text : Array Char) : Pattern → Nat → List Nat
  | .nothing, i => [i]
  | .char c, i => endsAt text i (Text.sameLetter c)
  | .any all, i => endsAt text i fun c => all || c != '\n'
  | .set negated items, i => endsAt text i fun c => items.any (·.holds c) != negated
  | .seq p q, i => distinct ((ends text p i).flatMap fun j => ends text q j)
  | .alt p q, i => distinct (ends text p i ++ ends text q i)
  | .times least most p, i =>
    let step (j : Nat) : List Nat := ends text p j
    let places := afterSteps step least [i]
    withinSteps step (((most.map (· - least)).getD text.size).min text.size) places places
  | .start lines, i => stay i (i == 0 || (lines && text[i - 1]? == some '\n'))
  | .stop lines, i =>
    stay i (i == text.size || (text[i]? == some '\n' && (lines || i + 1 == text.size)))
  | .fullStop, i => stay i (i == text.size)
  | .edge negated, i =>
    let before := if i == 0 then none else text[i - 1]?
    stay i (text.size != 0 && (before.any Text.isWord != text[i]?.any Text.isWord) != negated)
  | .ahead negated p, i => stay i ((ends text p i).isEmpty == negated)
  | .behind negated p, i =>
    stay i ((List.range (i + 1)).any (fun j => (ends text p j).contains i) != negated)

def isFoundIn (p : Pattern) (text : String) : Bool :=
  let chars := text.toList.toArray
  (List.range (chars.size + 1)).any fun i => !(ends chars p i).isEmpty

end Pattern

end CodeAtlas
