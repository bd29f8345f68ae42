import CodeAtlas.Text.Classes

/-!
# Globs of one path segment

A star matches any run of characters within a segment and a question mark one character; a bracket
expression matches one character of a set, also a slash. A backslash takes the next character as it
is.
-/

namespace CodeAtlas.Ignore

inductive Token where
  | exact (c : Char)
  | run
  | one
  /-- One character inside one of the ranges, or outside of all of them. -/
  | set (negated : Bool) (ranges : List (Char × Char))
deriving DecidableEq, Repr

inductive Flaw where
  /-- Nothing is left of the pattern, or it ends in a lone backslash. -/
  | invalid
  | badRange
deriving DecidableEq, Repr

def rangesOf : List Char → Except Flaw (List (Char × Char))
  | [] => .ok []
  | lo :: '-' :: hi :: rest => do
    if hi < lo then throw .badRange
    let more ← rangesOf rest
    return (lo, hi) :: more
  | c :: rest => do
    let more ← rangesOf rest
    return (c, c) :: more

/-- The inside of a bracket expression and what follows it; a closing bracket that comes first
counts as a member. `none` if the expression is not closed. -/
def bracketInside? (cs : List Char) : Option (List Char × List Char) :=
  let (lead, body) := match cs with
    | ']' :: rest => ([']'], rest)
    | _ => ([], cs)
  match body.dropWhile (· != ']') with
  | _ :: rest => some (lead ++ body.takeWhile (· != ']'), rest)
  | [] => none

def readSet? (cs : List Char) : Option (Bool × List Char × List Char) :=
  match cs with
  | c :: rest =>
    if c == '!' || c == '^' then (bracketInside? rest).map fun (inside, after) =>
      (true, inside, after)
    else (bracketInside? cs).map fun (inside, after) => (false, inside, after)
  | [] => none

def tokensFrom : (steps : Nat) → List Char → Except Flaw (List Token)
  | 0, _ => .ok []
  | _ + 1, [] => .ok []
  | n + 1, c :: rest =>
    if c == '\\' then
      match rest with
      | [] => .error .invalid
      | d :: after => return .exact d :: (← tokensFrom n after)
    else if c == '*' then return .run :: (← tokensFrom n rest)
    else if c == '?' then return .one :: (← tokensFrom n rest)
    else if c == '[' then
      match readSet? rest with
      | some (negated, inside, after) =>
        return .set negated (← rangesOf inside) :: (← tokensFrom n after)
      | none => return .exact '[' :: (← tokensFrom n rest)
    else return .exact c :: (← tokensFrom n rest)

def tokens (glob : String) : Except Flaw (List Token) :=
  tokensFrom glob.length glob.toList

end CodeAtlas.Ignore
