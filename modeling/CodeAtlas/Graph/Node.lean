import CodeAtlas.Digest.Sha256
import CodeAtlas.Text.Trim
import CodeAtlas.Text.Utf8

/-!
# Nodes of the code graph

A node is a code entity: a class, a function, an endpoint, a comment and so on. It knows where it
stands in the project, what its declaration says about it and, where that was looked up, how it
changed over time.
-/

namespace CodeAtlas

inductive NodeKind where
  | file
  | classDecl
  | method
  | function
  | variableDecl
  | endpoint
  | table
  | interfaceDecl
  | comment
deriving DecidableEq, Repr, Inhabited

namespace NodeKind

def all : List NodeKind :=
  [.file, .classDecl, .method, .function, .variableDecl, .endpoint, .table, .interfaceDecl,
    .comment]

def word : NodeKind → String
  | .file => "file"
  | .classDecl => "class"
  | .method => "method"
  | .function => "function"
  | .variableDecl => "variable"
  | .endpoint => "endpoint"
  | .table => "table"
  | .interfaceDecl => "interface"
  | .comment => "comment"

def ofWord? (w : String) : Option NodeKind :=
  all.find? fun k => k.word == w

end NodeKind

structure Location where
  file : String
  first : Int
  last : Int
deriving DecidableEq, Repr, Inhabited

structure Traits where
  visibility : Option String := none
  isAsync : Bool := false
  complexity : Option Int := none
  parameters : List String := []
  returnType : Option String := none
  /-- For a comment, the name of the symbol that it is attached to; empty at file level. -/
  parentSymbol : String := ""
deriving DecidableEq, Repr, Inhabited

structure Change where
  revision : String
  author : String
  date : String
  message : String
deriving DecidableEq, Repr, Inhabited

structure History where
  churnRate : Int := 0
  owners : List String := []
  changes : List Change := []
deriving DecidableEq, Repr, Inhabited

structure Node where
  id : String
  kind : NodeKind
  name : String
  loc : Location
  language : String
  traits : Traits := {}
  summary : String := ""
  history : Option History := none
deriving DecidableEq, Repr, Inhabited

namespace Node

/-- The identifier of the symbol `symbol` of the file `file`: the first sixteen hexadecimal digits
of the digest of both. -/
def makeId (file symbol : String) : String :=
  Text.cut 16 (Digest.Sha256.hexDigest (Text.Utf8.encode (file ++ "::" ++ symbol)))

def isComment (n : Node) : Bool :=
  n.kind == .comment

end Node

end CodeAtlas
