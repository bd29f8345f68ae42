/-!
# JSON values

Whole numbers and numbers with a fraction or exponent are told apart. The fields of an object keep
the order in which they were first written, and a key occurs once.
-/

namespace CodeAtlas

inductive Json where
  | null
  | bool (b : Bool)
  | int (n : Int)
  | float (x : Float)
  | str (s : String)
  | arr (items : List Json)
  | obj (fields : List (String × Json))
deriving Inhabited, Repr

namespace Json

def put (key : String) (value : Json) : List (String × Json) → List (String × Json)
  | [] => [(key, value)]
  | (k, v) :: rest => if k = key then (k, value) :: rest else (k, v) :: put key value rest

def get? (v : Json) (key : String) : Option Json :=
  match v with
  | .obj fields => fields.lookup key
  | _ => none

/-- The field of an object, where a field that holds null counts as missing. -/
def present? (v : Json) (key : String) : Option Json :=
  match v.get? key with
  | some .null => none
  | other => other

/-- Whether a value counts as something: null, false, zero and empty values do not. -/
def isSomething : Json → Bool
  | .null => false
  | .bool b => b
  | .int n => n != 0
  | .float x => x != 0.0
  | .str s => !s.isEmpty
  | .arr items => !items.isEmpty
  | .obj fields => !fields.isEmpty

def number? : Json → Option (Int ⊕ Float)
  | .bool b => some (.inl (if b then 1 else 0))
  | .int n => some (.inl n)
  | .float x => some (.inr x)
  | _ => none

def asFloat : Int ⊕ Float → Float
  | .inl n => Float.ofInt n
  | .inr x => x

mutual

/-- Whether two values are equal. The order of fields does not matter, and a number equals a number
of the other form with the same value, as true equals one and false equals zero. -/
def same : Json → Json → Bool
  | .null, .null => true
  | .str s, .str t => s == t
  | .arr xs, .arr ys => sameAll xs ys
  | .obj fs, .obj gs => fs.length == gs.length && sameFields fs gs
  | v, w =>
    match v.number?, w.number? with
    | some (.inl m), some (.inl n) => m == n
    | some x, some y => asFloat x == asFloat y
    | _, _ => false

def sameAll : List Json → List Json → Bool
  | [], [] => true
  | x :: xs, y :: ys => same x y && sameAll xs ys
  | _, _ => false

def sameFields : List (String × Json) → List (String × Json) → Bool
  | [], _ => true
  | (k, v) :: rest, gs =>
    (match gs.lookup k with
      | some w => same v w
      | none => false) && sameFields rest gs

end

instance : BEq Json := ⟨same⟩

end Json

end CodeAtlas
