import CodeAtlas.Project.Walk

/-!
# Reading files in the languages that are switched on
-/

namespace CodeAtlas.Index

structure Readers where
  languages : List Language

namespace Readers

def ofNames (names : List String) : Except Failure Readers := do
  let languages ← names.mapM fun n =>
    match Language.ofName? n with
    | some l => .ok l
    | none => .error (Failure.unknownLanguage n (Language.all.map (·.name)))
  return ⟨distinct languages⟩

def languageOf? (r : Readers) (p : Path) : Option Language :=
  (CodeAtlas.languageOf? p).filter r.languages.contains

def require (r : Readers) (name : String) : Except Failure Language :=
  match (Language.ofName? name).filter r.languages.contains with
  | some l => .ok l
  | none => .error (.languageOff name)

def parseFile (r : Readers) (g : Source.Grammar) (files : Files) (p : Path) :
    Except Failure (Option (Source.Parsed × Language)) :=
  match r.languageOf? p with
  | none => .ok none
  | some l => do
    let content ← files.readContent p
    return some (g.parse l content, l)

end Readers

def symbolsIn (l : Language) (file : String) (parsed : Source.Parsed) :
    Except Failure Extract.Emission :=
  match l.extract file parsed with
  | .ok e => .ok e
  | .error fault => .error (.badText fault)

end CodeAtlas.Index
