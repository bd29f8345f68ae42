import CodeAtlas.Decimal.Shortest
import CodeAtlas.Json.Value
import CodeAtlas.Text.Quoted

/-!
# JSON values in running text

How reports show a value that came from outside: a text stands as it is, and anything else is
spelled out, with texts inside it in quotes.
-/

namespace CodeAtlas.Json

mutual

def spelled : Json → String
  | .null => "None"
  | .bool b => if b then "True" else "False"
  | .int n => toString n
  | .float x => Decimal.shortest x
  | .str s => Text.quoted s
  | .arr items => "[" ++ Text.join ", " (spelledAll items) ++ "]"
  | .obj fields => "\x7b" ++ Text.join ", " (spelledFields fields) ++ "\x7d"

def spelledAll : List Json → List String
  | [] => []
  | v :: rest => spelled v :: spelledAll rest

def spelledFields : List (String × Json) → List String
  | [] => []
  | (k, v) :: rest => (Text.quoted k ++ ": " ++ spelled v) :: spelledFields rest

end

def shown : Json → String
  | .str s => s
  | v => v.spelled

end CodeAtlas.Json
