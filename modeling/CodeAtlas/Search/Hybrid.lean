import CodeAtlas.Graph.Codec
import CodeAtlas.Graph.Lookup
import CodeAtlas.Search.Bm25
import CodeAtlas.Search.Fusion

/-!
# Search by words and by meaning

Symbols are ranked by the words of their texts. Where a search by meaning is at hand, its results
are fused with that ranking. Texts can be tokenized once, in an index that later searches share.
-/

namespace CodeAtlas.Search

/-! ## Tokens

The tokens of a text are its runs of ASCII letters, digits and underscores, in lower case, that have
more than one character. -/

def isTokenChar (c : Char) : Bool :=
  c.isAlphanum || c == '_'

def tokenize (text : String) : List String :=
  let runs := Text.splitBy (fun c => !isTokenChar c) (Text.lowerChars text.toList)
  (runs.filter fun r => 1 < r.length).map String.ofList

def nodeText (n : Node) : String :=
  Text.join " " ([n.kind.word, n.name] ++ (if n.summary.isEmpty then [] else [n.summary]) ++
    n.traits.parameters ++ (n.traits.returnType.filter fun t => !t.isEmpty).toList)

def shownFields (n : Node) : List (String × Json) :=
  [("node_id", .str n.id), ("type", .str n.kind.word), ("name", .str n.name),
    ("file", .str n.loc.file), ("lines", .arr [.int n.loc.first, .int n.loc.last]),
    ("language", .str n.language), ("summary", .str n.summary)]

/-- Symbols that are ready to be searched, in columns: a symbol has the same position in each. -/
structure WordIndex where
  size : Nat
  ids : Vector String size
  shown : Vector (List (String × Json)) size
  tokens : Vector (List String) size
  languages : Vector String size
  kinds : Vector String size

namespace WordIndex

def empty : WordIndex :=
  ⟨0, #v[], #v[], #v[], #v[], #v[]⟩

instance : Inhabited WordIndex := ⟨empty⟩

def push (x : WordIndex) (n : Node) : WordIndex :=
  ⟨x.size + 1, x.ids.push n.id, x.shown.push (shownFields n), x.tokens.push (tokenize (nodeText n)),
    x.languages.push n.language, x.kinds.push n.kind.word⟩

end WordIndex

def buildIndex (nodes : List Node) : WordIndex :=
  nodes.foldl (fun x n => if n.isComment then x else x.push n) .empty

/-- What a search is restricted to; empty texts restrict nothing. -/
structure Scope where
  language : String := ""
  kind : String := ""

def Scope.admits (s : Scope) (language kind : String) : Bool :=
  passesExact s.language language && passesExact s.kind kind

def poolFactor : Int := 4

/-- The positive scores with their positions, best first; equal scores stay in order. -/
def bestScores (scores : List Float) (pool : Int) : List (Float × Nat) :=
  leading pool ((scores.zipIdx.filter fun x => x.1 > 0.0).mergeSort fun a b => !(a.1 < b.1))

def withScore (shown : List (String × Json)) (score : Float) : Json :=
  .obj (shown ++ [("score", .float score)])

def WordIndex.positions (x : WordIndex) (scope : Scope) : List (Fin x.size) :=
  (List.finRange x.size).filter fun i => scope.admits x.languages[i] x.kinds[i]

/-- The ranking by words over symbols that were readied before. Scores are counted from the first
symbol in scope, so each rank is led back to a position in the index. -/
def rankIndexed (x : WordIndex) (scope : Scope) (query : String) (pool : Int) :
    List (String × Json) :=
  let positions := x.positions scope
  let scores := Bm25.scores (positions.map fun i => x.tokens[i]) (tokenize query)
  (bestScores scores pool).filterMap fun (score, rank) =>
    positions[rank]?.map fun i => (x.ids[i], withScore x.shown[i] score)

def candidates (nodes : List Node) (scope : Scope) : List Node :=
  nodes.filter fun n => !n.isComment && scope.admits n.language n.kind.word

def rankNodes (nodes : List Node) (scope : Scope) (query : String) (pool : Int) :
    List (String × Json) :=
  let found := candidates nodes scope
  let scores := Bm25.scores (found.map fun n => tokenize (nodeText n)) (tokenize query)
  (bestScores scores pool).filterMap fun (score, rank) =>
    found[rank]?.map fun n => (n.id, withScore (shownFields n) score)

def rankWith (index : Option WordIndex) (nodes : List Node) (scope : Scope)
    (query : String) (pool : Int) : List (String × Json) :=
  match index with
  | some index => rankIndexed index scope query pool
  | none => rankNodes nodes scope query pool

/-- Results of a search by meaning under the identifiers that they carry; `none` if one carries
none. -/
def identified? (results : List Json) : Option (List (String × Json)) :=
  results.mapM fun r => (r.field? "node_id" Json.text?).map fun id => (id, r)

/-- Fuses both rankings and keeps the first `limit` results. `none` if a result of the search by
meaning carries no identifier. -/
def fuseRankings? (byWords : List (String × Json)) (byMeaning : List Json) (limit : Int) :
    Option (List Json) := do
  let dense ← identified? byMeaning
  let fused ← reciprocalRank? damping [byWords, dense]
  return leading limit (fused.map (·.2))

/-- Fuses the rankings where a search by meaning is at hand and otherwise keeps the first results of
the ranking by words. -/
def combine? (byWords : List (String × Json)) (byMeaning : Option (List Json)) (limit : Int) :
    Option (List Json) :=
  match byMeaning with
  | some results => fuseRankings? byWords results limit
  | none => some (leading limit (byWords.map (·.2)))

end CodeAtlas.Search
