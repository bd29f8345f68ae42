import CodeAtlas.Extract.CSharp
import CodeAtlas.Extract.Go
import CodeAtlas.Extract.Php
import CodeAtlas.Extract.Python
import CodeAtlas.Extract.Script

/-!
# The languages that are read

Each language has a name, the file suffixes that belong to it, and an extractor.
-/

namespace CodeAtlas

inductive Language where
  | php
  | javascript
  | python
  | typescript
  | go
  | csharp
deriving DecidableEq, Repr, Inhabited

namespace Language

def all : List Language :=
  [.php, .javascript, .python, .typescript, .go, .csharp]

def name : Language → String
  | .php => "php"
  | .javascript => "javascript"
  | .python => "python"
  | .typescript => "typescript"
  | .go => "go"
  | .csharp => "csharp"

def ofName? (n : String) : Option Language :=
  all.find? fun l => l.name == n

def suffixes : Language → List String
  | .php => [".php"]
  | .javascript => [".js", ".jsx", ".mjs"]
  | .python => [".py", ".pyi"]
  | .typescript => [".ts", ".tsx"]
  | .go => [".go"]
  | .csharp => [".cs"]

def ofSuffix? (suffix : String) : Option Language :=
  all.find? fun l => l.suffixes.contains suffix

def extract (l : Language) (file : String) (parsed : Source.Parsed) :
    Extract.Reads Extract.Emission :=
  let site : Extract.Site := ⟨file, l.name, parsed⟩
  match l with
  | .php => Extract.Php.extract site
  | .javascript => Extract.Script.extract .plain site
  | .python => Extract.Python.extract site
  | .typescript => Extract.Script.extract .typed site
  | .go => Extract.Go.extract site
  | .csharp => Extract.CSharp.extract site

end Language

/-- Reads the symbols of a file in the language of that name. A file in any other language has
none. -/
def extractSymbols (language file : String) (parsed : Source.Parsed) :
    Extract.Reads Extract.Emission :=
  match Language.ofName? language with
  | some l => l.extract file parsed
  | none => .ok {}

namespace Source

/-! ## Parsing

Source texts are parsed outside of the library, each in its language. What comes back is a table; a
text that is not in it is a single node that spans all of it. -/

/-- The trees of texts in languages; of several for one text and language, the first counts. -/
structure Grammar where
  trees : List ((Language × String) × Tree) := []
deriving Inhabited

def Grammar.treeOf (g : Grammar) (l : Language) (text : String) : Tree :=
  (g.trees.lookup (l, text)).getD (.node "module" 0 text.utf8ByteSize [])

def Grammar.parse (g : Grammar) (l : Language) (text : String) : Parsed :=
  ⟨Text.Utf8.encode text, g.treeOf l text⟩

/-- Takes in the tree that a text has in some languages. -/
def Grammar.learn (g : Grammar) (languages : List Language) (text : String) (tree : Tree) :
    Grammar :=
  ⟨languages.map (fun l => ((l, text), tree)) ++ g.trees⟩

end Source

end CodeAtlas
