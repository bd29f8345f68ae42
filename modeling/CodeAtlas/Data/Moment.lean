import CodeAtlas.Json.Reader
import CodeAtlas.Text.Trim

/-!
# Moments in time

A moment is a calendar date with a time of day, at an offset from universal time or at none. Moments
with an offset are compared by the instant they name, moments without one by what they show; one of
each kind cannot be compared.
-/

namespace CodeAtlas

/-- A moment: the microseconds from the start of year one up to what it shows, and its offset in
microseconds. -/
structure Moment where
  shown : Int
  offset : Option Int := none
deriving DecidableEq, Repr, Inhabited

namespace Moment

def second : Int := 1000000

def day : Int := 86400 * second

def isLeap (year : Int) : Bool :=
  year % 4 == 0 && (year % 100 != 0 || year % 400 == 0)

def monthLength (year : Int) (month : Nat) : Nat :=
  if month = 2 then (if isLeap year then 29 else 28)
  else if [4, 6, 9, 11].contains month then 30
  else 31

/-- The days before a year, counted from the start of year one. -/
def daysBeforeYear (year : Int) : Int :=
  let y := year - 1
  y * 365 + y / 4 - y / 100 + y / 400

def daysBeforeMonth (year : Int) (month : Nat) : Nat :=
  (List.range (month - 1)).foldl (fun days m => days + monthLength year (m + 1)) 0

def dayNumber (year : Int) (month dayOfMonth : Nat) : Int :=
  daysBeforeYear year + daysBeforeMonth year month + dayOfMonth - 1

def yearOfDay (n : Int) : Int :=
  let guess := n / 366 + 1
  let years := (List.range (n / 366 / 400 + 3).toNat).map fun (k : Nat) => guess + k
  (years.filter fun y => daysBeforeYear y ≤ n).getLast?.getD guess

def monthOfDay (year : Int) (place : Nat) : Nat × Nat :=
  let months := (List.range 12).map (· + 1)
  let month := (months.filter fun m => daysBeforeMonth year m ≤ place).getLast?.getD 1
  (month, place - daysBeforeMonth year month + 1)

def dateOfDay (n : Int) : Int × Nat × Nat :=
  let year := yearOfDay n
  let (month, dayOfMonth) := monthOfDay year (n - daysBeforeYear year).toNat
  (year, month, dayOfMonth)

def padded (width : Nat) (n : Nat) : String :=
  Text.padLeft width (Decimal.digits n) '0'

def dateText (m : Moment) : String :=
  let (year, month, dayOfMonth) := dateOfDay (m.shown / day)
  padded 4 year.toNat ++ "-" ++ padded 2 month ++ "-" ++ padded 2 dayOfMonth

def clockText (t : Nat) : String :=
  let s := t / 1000000
  let fraction := t % 1000000
  padded 2 (s / 3600) ++ ":" ++ padded 2 (s / 60 % 60) ++ ":" ++ padded 2 (s % 60) ++
    (if fraction = 0 then "" else "." ++ padded 6 fraction)

def offsetText (offset : Int) : String :=
  let t := offset.natAbs
  let clock := clockText t
  (if offset < 0 then "-" else "+") ++ (if t % 60000000 = 0 then Text.cut 5 clock else clock)

def toText (m : Moment) : String :=
  m.dateText ++ "T" ++ clockText (m.shown % day).toNat ++
    match m.offset with
    | some o => offsetText o
    | none => ""

inductive Flaw where
  | malformed
  | year
  | month
  | dayOfMonth
  | hour
  | minute
  | second
  | offset
deriving DecidableEq, Repr

def digits? (count : Nat) (cs : List Char) : Option (Nat × List Char) :=
  let ds := cs.take count
  if ds.length == count && ds.all Json.isDigit then some (Json.digitsValue ds, cs.drop count)
    else none

/-- The value of a fraction of a second in microseconds. Six digits count; further ones are
skipped. -/
def fraction? (cs : List Char) : Option (Nat × List Char) :=
  let count := min 6 cs.length
  match digits? count cs with
  | some (n, rest) => some (n * Nat.pow 10 (6 - count), rest.dropWhile Json.isDigit)
  | none => none

/-- A time of day in microseconds as written, hours first, with colons or without, and whether
something is left after it. A single character after complete digits is tolerated as the rest. -/
def clock? (cs : List Char) : Option ((Nat × Nat × Nat × Nat) × Bool) := do
  let (h, rest) ← digits? 2 cs
  match rest with
  | [] => return ((h, 0, 0, 0), false)
  | [_] => return ((h, 0, 0, 0), true)
  | c :: rest' =>
    if c == '.' || c == ',' then
      let (f, left) ← fraction? rest'
      return ((h, 0, 0, f), !left.isEmpty)
    let colons := c == ':'
    let (m, rest) ← digits? 2 (if colons then rest' else rest)
    match rest with
    | [] => return ((h, m, 0, 0), false)
    | [_] => return ((h, m, 0, 0), true)
    | c :: rest' =>
      if c == '.' || c == ',' then
        let (f, left) ← fraction? rest'
        return ((h, m, 0, f), !left.isEmpty)
      guard (!colons || c == ':')
      let (s, rest) ← digits? 2 (if colons then rest' else rest)
      match rest with
      | [] => return ((h, m, s, 0), false)
      | [_] => return ((h, m, s, 0), true)
      | c :: rest' =>
        guard (!colons || c == '.' || c == ',' || c == ':')
        let (f, left) ← fraction? (if c == '.' || c == ',' || colons then rest' else rest)
        return ((h, m, s, f), !left.isEmpty)

def startsOffset (c : Char) : Bool :=
  c == '+' || c == '-' || c == 'Z'

def offset? (cs : List Char) : Option Int := do
  match cs with
  | ['Z'] => return 0
  | sign :: rest =>
    guard (sign != 'Z')
    let ((h, m, s, f), more) ← clock? rest
    guard !more
    let size : Int := ((h * 3600 + m * 60 + s) * 1000000 + f : Nat)
    return if sign == '-' then -size else size
  | [] => none

def date? (cs : List Char) : Option ((Nat × Nat × Nat) × List Char) := do
  let (y, rest) ← digits? 4 cs
  match rest with
  | '-' :: rest =>
    let (m, rest) ← digits? 2 rest
    match rest with
    | '-' :: rest =>
      let (d, rest) ← digits? 2 rest
      return ((y, m, d), rest)
    | _ => none
  | _ =>
    let (m, rest) ← digits? 2 rest
    let (d, rest) ← digits? 2 rest
    return ((y, m, d), rest)

def parts? (cs : List Char) :
    Option ((Nat × Nat × Nat) × (Nat × Nat × Nat × Nat) × Option Int) := do
  let (date, rest) ← date? cs
  match rest with
  | [] => return (date, (0, 0, 0, 0), none)
  | _ :: clockText =>
    guard !clockText.isEmpty
    let time := clockText.takeWhile fun c => !startsOffset c
    match clockText.dropWhile fun c => !startsOffset c with
    | [] =>
      let (clock, more) ← clock? time
      guard !more
      return (date, clock, none)
    | zone =>
      let (clock, _) ← clock? time
      return (date, clock, some (← offset? zone))

/-- Reads a moment. Any character may divide date and time. -/
def parse (text : String) : Except Flaw Moment :=
  match parts? text.toList with
  | none => .error .malformed
  | some ((y, mo, d), (h, mi, s, f), offset) =>
    if offset.any fun o => o ≤ -day || day ≤ o then .error .offset
    else if y = 0 then .error .year
    else if mo = 0 || 12 < mo then .error .month
    else if d = 0 || monthLength y mo < d then .error .dayOfMonth
    else if 23 < h then .error .hour
    else if 59 < mi then .error .minute
    else if 59 < s then .error .second
    else
      let time : Int := ((h * 3600 + mi * 60 + s) * 1000000 + f : Nat)
      .ok ⟨dayNumber y mo d * day + time, offset⟩

def instant (m : Moment) (offset : Int) : Int :=
  m.shown - offset

/-- How far one moment lies after another, in microseconds; `none` if one has an offset and the
other has none. -/
def minus? (a b : Moment) : Option Int :=
  match a.offset, b.offset with
  | some o, some p => some (a.instant o - b.instant p)
  | none, none => some (a.shown - b.shown)
  | _, _ => none

def before? (a b : Moment) : Option Bool :=
  (a.minus? b).map (· < 0)

def daysIn (span : Int) : Int :=
  span / day

/-- The first day that no moment can show. -/
def lastDay : Int := daysBeforeYear 10000

/-- A moment some days later; `none` if the calendar does not reach that far. -/
def addDays? (m : Moment) (days : Int) : Option Moment :=
  let shown := m.shown + days * day
  if 0 ≤ shown && shown < lastDay * day then some { m with shown := shown } else none

/-- A moment shown in universal time; one without an offset is taken to show it already. -/
def toUniversal (m : Moment) : Moment :=
  ⟨m.shown - m.offset.getD 0, some 0⟩

end Moment

end CodeAtlas
