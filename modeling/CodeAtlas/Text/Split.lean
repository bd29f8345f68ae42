import CodeAtlas.Text.Classes

/-!
# Splitting and joining

`splitBy` cuts at every character of a class and `splitOn` at every occurrence of a separator; both
give one piece more than there are cuts. `lines` cuts at line ends and `words` at runs of blanks;
they give no piece for what follows a last line end or surrounds the words.
-/

namespace CodeAtlas.Text

def splitBy (p : Char → Bool) : List Char → List (List Char)
  | [] => [[]]
  | c :: cs =>
    if p c then [] :: splitBy p cs
    else
      match splitBy p cs with
      | [] => [[c]]
      | piece :: pieces => (c :: piece) :: pieces

/-- Cuts at every occurrence of `sep`, left to right. `skip` characters still belong to the
separator found last and `piece`, reversed, has been read of the current piece. -/
def splitOnFrom (sep : List Char) (skip : Nat) (piece : List Char) : List Char → List (List Char)
  | [] => [piece.reverse]
  | c :: cs =>
    match skip with
    | k + 1 => splitOnFrom sep k piece cs
    | 0 =>
      if sep.isPrefixOf (c :: cs) then piece.reverse :: splitOnFrom sep (sep.length - 1) [] cs
      else splitOnFrom sep 0 (c :: piece) cs

def splitOn (sep s : String) : List String :=
  (splitOnFrom sep.toList 0 [] s.toList).map String.ofList

def splitChar (sep : Char) (s : String) : List String :=
  (splitBy (· == sep) s.toList).map String.ofList

def lineList : List Char → List (List Char)
  | [] => []
  | [c] => if isLineEnd c then [[]] else [[c]]
  | c :: d :: cs =>
    if isLineEnd c then
      if c == '\r' && d == '\n' then [] :: lineList cs else [] :: lineList (d :: cs)
    else
      match lineList (d :: cs) with
      | [] => [[c]]
      | line :: rest => (c :: line) :: rest

def lines (s : String) : List String :=
  (lineList s.toList).map String.ofList

def words (s : String) : List String :=
  ((splitBy isBlank s.toList).filter fun piece => !piece.isEmpty).map String.ofList

def occursIn (part : List Char) : List Char → Bool
  | [] => part.isEmpty
  | c :: cs => part.isPrefixOf (c :: cs) || occursIn part cs

def contains (s part : String) : Bool :=
  occursIn part.toList s.toList

def startsWith (s part : String) : Bool :=
  part.toList.isPrefixOf s.toList

def endsWith (s part : String) : Bool :=
  part.toList.isSuffixOf s.toList

def join (sep : String) : List String → String
  | [] => ""
  | [s] => s
  | s :: rest => s ++ sep ++ join sep rest

def replace (old new s : String) : String :=
  join new (splitOn old s)

/-- A text with line ends of one and two characters turned into line feeds. -/
def unixLineList : List Char → List Char
  | [] => []
  | '\r' :: '\n' :: cs => '\n' :: unixLineList cs
  | '\r' :: cs => '\n' :: unixLineList cs
  | c :: cs => c :: unixLineList cs

/-- A text with carriage returns, alone or before a line feed, turned into line feeds. -/
def unixLines (s : String) : String :=
  String.ofList (unixLineList s.toList)

theorem unixLineList_of_not_mem {cs : List Char} (h : '\r' ∉ cs) : unixLineList cs = cs := by
  fun_induction unixLineList cs with
  | case1 => rfl
  | case2 => simp at h
  | case3 => simp at h
  | case4 c cs _ _ ih => rw [ih (fun hmem => h (List.mem_cons_of_mem c hmem))]

theorem unixLines_of_not_mem {s : String} (h : '\r' ∉ s.toList) : unixLines s = s := by
  rw [unixLines, unixLineList_of_not_mem h, String.ofList_toList]

theorem return_not_mem_unixLines (s : String) : '\r' ∉ (unixLines s).toList := by
  rw [unixLines, String.toList_ofList]
  fun_induction unixLineList s.toList with
  | case1 => exact List.not_mem_nil
  | case2 cs ih => simpa using ih
  | case3 cs _ ih => simpa using ih
  | case4 c cs _ hc ih => simpa [ih] using fun h => hc h.symm

end CodeAtlas.Text
