import CodeAtlas.Data.OrderedMap
import CodeAtlas.Failure

/-!
# Running commands

Commands of a version control system are run outside of the library. A shell holds the replies that
are still to come, by the first two words of the command, and the commands that were run. The last
reply is given again and again; a command without one succeeds and prints nothing. Line ends in what
is printed become line feeds.
-/

namespace CodeAtlas.History

structure Reply where
  output : String := ""
  code : Int := 0
  errors : String := ""
deriving Repr, Inhabited

structure Shell where
  replies : OrderedMap String (List Reply) := {}
  ran : List (List String) := []
deriving Inhabited

/-- An operation that runs commands. What was run stays known after a failure. -/
abbrev ShellM (α : Type) : Type := ExceptT Failure (StateM Shell) α

def commandKey (command : List String) : String :=
  Text.join " " (command.take 2)

def Shell.reply (s : Shell) (command : List String) : Reply × Shell :=
  let ran := s.ran ++ [command]
  let key := commandKey command
  match s.replies.get? key with
  | some (r :: next :: more) => (r, { replies := s.replies.insert key (next :: more), ran := ran })
  | some [r] => (r, { s with ran := ran })
  | _ => ({}, { s with ran := ran })

def run (command : List String) : ShellM String := do
  let r ← modifyGet fun s => s.reply command
  if r.code == 0 then return Text.unixLines r.output
  throw (.commandFailed command (Text.unixLines r.errors))

end CodeAtlas.History
