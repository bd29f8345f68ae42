import CodeAtlas.Text.Utf8

/-!
# Syntax trees over a source text

A tree node has a kind, a span of bytes and children. Spans are not checked against each other or
against the source. `Tree.preorder` lists a tree and all its descendants, parents before children
and siblings in order; every walk over a whole tree is a walk over this list.
-/

namespace CodeAtlas.Source

inductive Tree where
  | node (kind : String) (start stop : Nat) (children : List Tree)
deriving Inhabited

namespace Tree

def kind : Tree → String
  | .node k _ _ _ => k

def start : Tree → Nat
  | .node _ s _ _ => s

def stop : Tree → Nat
  | .node _ _ e _ => e

def children : Tree → List Tree
  | .node _ _ _ cs => cs

mutual

def preorder : Tree → List Tree
  | .node k s e cs => .node k s e cs :: preorderAll cs

def preorderAll : List Tree → List Tree
  | [] => []
  | t :: ts => t.preorder ++ preorderAll ts

end

theorem preorder_eq (t : Tree) : t.preorder = t :: preorderAll t.children := by
  cases t with
  | node kind start stop cs => rw [preorder]; rfl

theorem preorderAll_append (ts us : List Tree) :
    preorderAll (ts ++ us) = preorderAll ts ++ preorderAll us := by
  induction ts with
  | nil => rfl
  | cons t ts ih => rw [List.cons_append, preorderAll, ih, preorderAll, List.append_assoc]

/-- A tree comes before its children, which take its place. -/
theorem preorderAll_cons (t : Tree) (ts : List Tree) :
    preorderAll (t :: ts) = t :: preorderAll (t.children ++ ts) := by
  rw [preorderAll, preorder_eq, preorderAll_append, List.cons_append]

def child? (t : Tree) (kind : String) : Option Tree :=
  t.children.find? fun c => c.kind == kind

def hasChild (t : Tree) (kind : String) : Bool :=
  t.children.any fun c => c.kind == kind

theorem child?_mem {t c : Tree} {kind : String} (h : t.child? kind = some c) : c ∈ t.children :=
  List.mem_of_find?_eq_some h

end Tree

structure Parsed where
  bytes : List UInt8
  root : Tree

namespace Parsed

def slice (p : Parsed) (t : Tree) : List UInt8 :=
  (p.bytes.take t.stop).drop t.start

def isEmpty (p : Parsed) (t : Tree) : Bool :=
  (p.slice t).isEmpty

/-- The text of a node; a span that cuts a character has none. -/
def text (p : Parsed) (t : Tree) : Except Text.Utf8.Fault String :=
  Text.Utf8.decode (p.slice t)

def lineAt (p : Parsed) (pos : Nat) : Nat :=
  (p.bytes.take pos).count 10 + 1

def firstLine (p : Parsed) (t : Tree) : Nat :=
  p.lineAt t.start

def lastLine (p : Parsed) (t : Tree) : Nat :=
  p.lineAt t.stop

/-- The text of the first child of a kind, empty when there is none. -/
def childText (p : Parsed) (t : Tree) (kind : String) : Except Text.Utf8.Fault String :=
  match t.child? kind with
  | some c => p.text c
  | none => .ok ""

/-- The text of a child of a kind whose span is not empty, if the first child of that kind has
one. -/
def childText? (p : Parsed) (t : Tree) (kind : String) : Except Text.Utf8.Fault (Option String) :=
  match t.child? kind with
  | some c => if p.isEmpty c then .ok none else (p.text c).map some
  | none => .ok none

end Parsed

end CodeAtlas.Source
