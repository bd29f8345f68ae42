import CodeAtlas.Data.Leading
import CodeAtlas.Json.Reader
import CodeAtlas.Json.Shown
import CodeAtlas.Text.Trim

/-!
# Reading the reply of a language model

A reply should be a list of texts. Fences around it are removed; where the whole reply is no such
list, what stands between its first opening and its last closing bracket is tried. A summary that is
empty, or that is missing, counts as none.
-/

namespace CodeAtlas.Summary

/-- The rest of a text after the fence that it starts with: three backticks, a word in small letters
and the end of the line. -/
def afterFence? : List Char → Option (List Char)
  | '\x60' :: '\x60' :: '\x60' :: rest =>
    match rest.dropWhile fun c => 'a' ≤ c && c ≤ 'z' with
    | '\n' :: more => some more
    | more => some more
  | _ => none

theorem afterFence?_length {cs rest : List Char} (h : afterFence? cs = some rest) :
    rest.length < cs.length := by
  unfold afterFence? at h
  split at h
  · rename_i tail
    have shorter :=
      (List.dropWhile_suffix (l := tail) fun c => decide ('a' ≤ c) && decide (c ≤ 'z')).length_le
    split at h
    · rename_i more heq
      cases h
      rw [heq] at shorter
      simp only [List.length_cons] at shorter ⊢
      omega
    · cases h
      simp only [List.length_cons]
      omega
  · cases h

def withoutFences (cs : List Char) : List Char :=
  match _h : afterFence? cs with
  | some rest => withoutFences rest
  | none =>
    match cs with
    | [] => []
    | c :: rest => c :: withoutFences rest
termination_by cs.length
decreasing_by
  · exact afterFence?_length _h
  · simp

def bracketed? (cs : List Char) : Option (List Char) :=
  let tail := cs.dropWhile (· != '[')
  let part := (tail.reverse.dropWhile (· != ']')).reverse
  if part.isEmpty then none else some part

def summaryOf (v : Json) : Option String :=
  if v.isSomething then some v.shown else none

def listOf? (cs : List Char) : Option (List Json) :=
  match Json.parse? (String.ofList cs) with
  | some (.arr items) => some items
  | _ => none

/-- The list in which a reply gives its summaries: the whole reply if it is a list of the expected
length, else a list inside it. -/
def replyList? (cs : List Char) (expected : Int) : Option (List Json) :=
  match (listOf? cs).filter fun items => items.length == expected with
  | some items => some items
  | none => (bracketed? cs).bind listOf?

def summariesOf (reply : String) (expected : Int) : List (Option String) :=
  let cs := (Text.trim (String.ofList (withoutFences reply.toList))).toList
  let found := leading expected (((replyList? cs expected).getD []).map summaryOf)
  found ++ List.replicate (expected - found.length).toNat none

end CodeAtlas.Summary
