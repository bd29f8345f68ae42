import CodeAtlas.Decimal.Shortest
import CodeAtlas.Json.Value
import CodeAtlas.Text.Split

/-!
# Writing JSON

Values are written on one line. Everything but printable ASCII is escaped inside strings; a
character beyond the basic plane becomes two escapes.
-/

namespace CodeAtlas.Json

structure Style where
  item : String
  key : String

def Style.compact : Style := ⟨",", ":"⟩

def Style.spaced : Style := ⟨", ", ": "⟩

def hex4 (n : Nat) : List Char :=
  [n / 4096 % 16, n / 256 % 16, n / 16 % 16, n % 16].map Nat.digitChar

def unitEscape (n : Nat) : List Char :=
  '\\' :: 'u' :: hex4 n

def escapeChar (c : Char) : List Char :=
  if c == '"' then ['\\', '"']
  else if c == '\\' then ['\\', '\\']
  else if c == '\n' then ['\\', 'n']
  else if c == '\r' then ['\\', 'r']
  else if c == '\t' then ['\\', 't']
  else if c.toNat = 8 then ['\\', 'b']
  else if c.toNat = 12 then ['\\', 'f']
  else if 32 ≤ c.toNat && c.toNat < 127 then [c]
  else if c.toNat < 0x10000 then unitEscape c.toNat
  else
    let n := c.toNat - 0x10000
    unitEscape (0xD800 + n / 1024) ++ unitEscape (0xDC00 + n % 1024)

def quote (s : String) : String :=
  "\"" ++ String.ofList (s.toList.flatMap escapeChar) ++ "\""

def writeFloat (x : Float) : String :=
  match Decimal.Binary.ofFloat x with
  | .nan => "NaN"
  | .infinite neg => if neg then "-Infinity" else "Infinity"
  | .finite .. => Decimal.shortest x

def writeInt (n : Int) : String :=
  (if n < 0 then "-" else "") ++ Decimal.digits n.natAbs

mutual

def write (style : Style) : Json → String
  | .null => "null"
  | .bool b => if b then "true" else "false"
  | .int n => writeInt n
  | .float x => writeFloat x
  | .str s => quote s
  | .arr items => "[" ++ Text.join style.item (writeAll style items) ++ "]"
  | .obj fields => "\x7b" ++ Text.join style.item (writeFields style fields) ++ "\x7d"

def writeAll (style : Style) : List Json → List String
  | [] => []
  | v :: rest => write style v :: writeAll style rest

def writeFields (style : Style) : List (String × Json) → List String
  | [] => []
  | (k, v) :: rest => (quote k ++ style.key ++ write style v) :: writeFields style rest

end

end CodeAtlas.Json
