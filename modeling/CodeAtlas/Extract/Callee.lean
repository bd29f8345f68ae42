import CodeAtlas.Extract.Emission
import CodeAtlas.Text.Split

/-!
# Calls and their callees

A call is recorded as an edge from the enclosing symbol to the callee, which is known by the text of
the called expression only. Calls of built-in functions, which every file makes, are not recorded.
-/

namespace CodeAtlas.Extract

open Source (Tree)

def builtinCallees : List String :=
  ["console.log", "console.error", "console.warn", "console.info", "console.debug", "require",
   "setTimeout", "setInterval", "clearTimeout", "clearInterval", "parseInt", "parseFloat",
   "isNaN", "isFinite", "JSON.parse", "JSON.stringify", "Promise.resolve", "Promise.reject",
   "Promise.all", "Object.keys", "Object.values", "Object.assign", "Object.entries",
   "Array.isArray", "Array.from", "Math.floor", "Math.ceil", "Math.round", "Math.random",
   "Math.max", "Math.min", "String", "Number", "Boolean", "Date.now", "Error", "print", "len",
   "range", "str", "int", "float", "bool", "list", "dict", "set", "tuple", "type", "isinstance",
   "issubclass", "hasattr", "getattr", "setattr", "super", "enumerate", "zip", "map", "filter",
   "sorted", "reversed", "open", "repr", "abs", "min", "max", "sum", "any", "all", "next",
   "iter", "fmt.Println", "fmt.Printf", "fmt.Sprintf", "fmt.Fprintf", "fmt.Errorf",
   "log.Println", "log.Printf", "log.Fatal", "log.Fatalf", "make", "append", "cap", "close",
   "delete", "copy", "new", "panic", "recover", "var_dump", "print_r", "echo", "isset", "unset",
   "empty", "is_null", "is_array", "is_string", "is_int", "array_map", "array_filter",
   "array_merge", "count", "strlen", "substr", "strpos", "sprintf", "implode", "explode",
   "json_encode", "json_decode", "intval", "floatval", "Console.WriteLine", "Console.Write",
   "Console.ReadLine", "string.IsNullOrEmpty", "string.IsNullOrWhiteSpace", "string.Format",
   "string.Join", "string.Concat", "Convert.ToInt32", "Convert.ToString", "Convert.ToBoolean",
   "Convert.ToDecimal", "Math.Abs", "Math.Max", "Math.Min", "Math.Floor", "Math.Ceiling",
   "Math.Round", "DateTime.Now", "DateTime.UtcNow", "DateTime.Parse", "Enum.Parse",
   "Enum.GetValues", "Task.FromResult", "Task.CompletedTask", "Task.WhenAll", "Task.WhenAny",
   "Object.ReferenceEquals", "GC.Collect", "nameof", "typeof", "sizeof",
   "ArgumentNullException", "ArgumentException", "InvalidOperationException",
   "NotImplementedException", "NotSupportedException"]

def resolveCallee (text : String) : Option String :=
  if text.isEmpty || builtinCallees.contains text || Text.startsWith text "new " ||
      Text.endsWith text "." then
    none
  else
    some text

def contextLength : Nat := 200

/-- The edge of a call. Calls are known by name only, hence the reduced confidence. -/
def callEdge (source callee context : String) : Edge :=
  { source := source, target := Node.makeId "" callee, relation := .calls, confidence := 0.8,
    context := context }

/-- The edge of a call at a tree node, whose called expression has the text `calleeText`. The
context is the start of the call's own text; a call without text is described by its callee. -/
def callAt (s : Site) (source : String) (t : Tree) (calleeText : String) : Reads Emission :=
  match resolveCallee calleeText with
  | none => .ok {}
  | some callee => do
    let text ← if s.parsed.isEmpty t then .ok callee else s.parsed.text t
    return .ofEdge (callEdge source callee (Text.cut contextLength text))

/-- The edge of the call that a tree node of a kind makes. What is called is the first child. -/
def callOfKind (kind : String) (s : Site) (source : String) (t : Tree) : Reads Emission := do
  if t.kind == kind then
    match t.children.head? with
    | some callee => callAt s source t (← s.parsed.text callee)
    | none => return {}
  else return {}

/-- How a language writes the requests that its clients make: by which callees, and with which
literals as addresses. -/
structure RequestForm where
  isRequest : String → Bool
  arguments : String
  literal : String
  quotes : List Char
  mark : String

namespace RequestForm

def requestEmission (f : RequestForm) (s : Site) (source : String) (t : Tree)
    (calleeText : String) :
    Reads Emission := do
  match (t.child? f.arguments).bind fun args => args.child? f.literal with
  | none => return {}
  | some arg =>
    let url := Text.trimOf f.quotes (← s.parsed.text arg)
    if url.isEmpty then return {}
    let endpoint := s.requestEndpoint url t
    return { nodes := [endpoint]
             edges := [{ source := source, target := endpoint.id, relation := .networksTo
                         isBridge := true
                         context := calleeText ++ "(" ++ f.mark ++ url ++ f.mark ++ ")" }] }

/-- The edge of a call, and the endpoint that it addresses if it is a request. -/
def callEmission (f : RequestForm) (s : Site) (source : String) (t : Tree) : Reads Emission := do
  if t.kind == "call_expression" then
    match t.children.head? with
    | some callee =>
      let calleeText ← s.parsed.text callee
      let call ← callAt s source t calleeText
      let request ← if f.isRequest calleeText then f.requestEmission s source t calleeText
        else .ok {}
      return call ++ request
    | none => return {}
  else return {}

end RequestForm

def walkBody (emit : Tree → Reads Emission) : Option Tree → Reads Emission
  | some body => Emission.gather emit body.preorder
  | none => .ok {}

end CodeAtlas.Extract
