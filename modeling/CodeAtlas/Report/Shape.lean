import CodeAtlas.Failure
import CodeAtlas.Pattern.Match
import CodeAtlas.Pattern.Reader
import CodeAtlas.Report.Symbol

/-!
# Symbols by shape

Finding symbols by what their declarations look like.
-/

namespace CodeAtlas.Report

/-- The shape of a declaration; empty texts, and the values given here, ask for nothing. -/
structure Shape where
  kind : String := ""
  language : String := ""
  visibility : String := ""
  asyncOnly : Bool := false
  leastParameters : Int := 0
  mostParameters : Int := -1
  returnType : String := ""
  file : String := ""
  leastComplexity : Int := 0

def Shape.fits (s : Shape) (n : Node) : Bool :=
  let t := n.traits
  passesExact s.kind n.kind.word && passesExact s.language n.language &&
    (s.visibility.isEmpty || Text.lower (t.visibility.getD "") == Text.lower s.visibility) &&
    (!s.asyncOnly || t.isAsync) && s.leastParameters ≤ t.parameters.length &&
    (s.mostParameters < 0 || (t.parameters.length : Int) ≤ s.mostParameters) &&
    passesFilter s.returnType (t.returnType.getD "") && passesFilter s.file n.loc.file &&
    (s.leastComplexity ≤ 0 || s.leastComplexity ≤ t.complexity.getD 0)

def shapeTags (t : Traits) : List String :=
  [t.visibility.getD "", if t.isAsync then "async" else "",
    if t.parameters.isEmpty then "" else toString t.parameters.length ++ " params",
    around "-> " t.returnType,
    match t.complexity with
      | some c => "complexity=" ++ toString c
      | none => ""].filter (!·.isEmpty)

def shapeLines (n : Node) : String :=
  let tags := shapeTags n.traits
  Text.join "\n"
    ([placed n] ++ (if tags.isEmpty then [] else ["  [" ++ Text.join ", " tags ++ "]"]) ++
    (if n.summary.isEmpty then [] else ["  " ++ n.summary]))

def mostShapes : Int := 200

def namePattern? (text : String) : Except Failure (Option Pattern) :=
  if text.isEmpty then .ok none
  else
    match Pattern.parse? text with
    | some p => .ok (some p)
    | none => .error .badPattern

def structuralSearch (nodes : List Node) (s : Shape) (pattern : String) (limit : Int) :
    Except Failure String := do
  let name? ← namePattern? pattern
  let limit := min limit mostShapes
  match (symbolsOf nodes).filter fun n => s.fits n && name?.all (·.isFoundIn n.name) with
  | [] => return "No symbols matched the given filters."
  | found =>
    let more := if limit < found.length then
        ["\n... and " ++ toString (found.length - limit) ++
          " more. Narrow with additional filters."]
      else []
    return Text.join "\n\n" ((toString found.length ++ " symbol(s) matched:\n") ::
      (leading limit found).map shapeLines ++ more)

end CodeAtlas.Report
