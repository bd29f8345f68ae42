/-!
# Reading UTF-8

`decode` reads a list of bytes and refuses the first ill-formed sequence, saying where it stands and
what is wrong with it. A sequence is refused as early as its bytes allow: overlong forms, surrogates
and code points past the last plane fail at their second byte.
-/

namespace CodeAtlas.Text.Utf8

inductive Flaw where
  | badStart
  | badContinuation
  | cutShort
deriving DecidableEq, Repr

structure Fault where
  byte : UInt8
  start : Nat
  length : Nat
  flaw : Flaw
deriving DecidableEq, Repr

def Flaw.reason : Flaw → String
  | .badStart => "invalid start byte"
  | .badContinuation => "invalid continuation byte"
  | .cutShort => "unexpected end of data"

def hexByte (b : UInt8) : String :=
  String.ofList [Nat.digitChar (b.toNat / 16), Nat.digitChar (b.toNat % 16)]

def Fault.message (f : Fault) : String :=
  if f.length = 1 then
    "'utf-8' codec can't decode byte 0x" ++ hexByte f.byte ++ " in position " ++ toString f.start ++
      ": " ++ f.flaw.reason
  else
    "'utf-8' codec can't decode bytes in position " ++ toString f.start ++ "-" ++
      toString (f.start + f.length - 1) ++ ": " ++ f.flaw.reason

def isContinuation (b : UInt8) : Bool :=
  0x80 ≤ b && b ≤ 0xBF

def secondByteOk (first second : UInt8) : Bool :=
  isContinuation second &&
    (if first = 0xE0 then 0xA0 ≤ second
     else if first = 0xED then second ≤ 0x9F
     else if first = 0xF0 then 0x90 ≤ second
     else if first = 0xF4 then second ≤ 0x8F
     else true)

def lowBits (b : UInt8) : Nat :=
  b.toNat % 64

def decodeFrom (pos : Nat) : List UInt8 → Except Fault (List Char)
  | [] => .ok []
  | b :: rest =>
    let fail (n : Nat) (flaw : Flaw) : Except Fault (List Char) := .error ⟨b, pos, n, flaw⟩
    if b < 0x80 then return Char.ofNat b.toNat :: (← decodeFrom (pos + 1) rest)
    else if 0xC2 ≤ b && b ≤ 0xDF then
      match rest with
      | [] => fail 1 .cutShort
      | b₁ :: rest =>
        if isContinuation b₁ then
          return Char.ofNat ((b.toNat - 0xC0) * 64 + lowBits b₁) :: (← decodeFrom (pos + 2) rest)
        else fail 1 .badContinuation
    else if 0xE0 ≤ b && b ≤ 0xEF then
      match rest with
      | [] => fail 1 .cutShort
      | b₁ :: rest =>
        if !secondByteOk b b₁ then fail 1 .badContinuation
        else
          match rest with
          | [] => fail 2 .cutShort
          | b₂ :: rest =>
            if isContinuation b₂ then
              return Char.ofNat (((b.toNat - 0xE0) * 64 + lowBits b₁) * 64 + lowBits b₂) ::
                (← decodeFrom (pos + 3) rest)
            else fail 2 .badContinuation
    else if 0xF0 ≤ b && b ≤ 0xF4 then
      match rest with
      | [] => fail 1 .cutShort
      | b₁ :: rest =>
        if !secondByteOk b b₁ then fail 1 .badContinuation
        else
          match rest with
          | [] => fail 2 .cutShort
          | b₂ :: rest =>
            if !isContinuation b₂ then fail 2 .badContinuation
            else
              match rest with
              | [] => fail 3 .cutShort
              | b₃ :: rest =>
                if isContinuation b₃ then
                  return Char.ofNat
                    ((((b.toNat - 0xF0) * 64 + lowBits b₁) * 64 + lowBits b₂) * 64 + lowBits b₃) ::
                    (← decodeFrom (pos + 4) rest)
                else fail 3 .badContinuation
    else fail 1 .badStart

def decode (bytes : List UInt8) : Except Fault String :=
  (decodeFrom 0 bytes).map String.ofList

def encode (s : String) : List UInt8 :=
  s.toUTF8.toList

end CodeAtlas.Text.Utf8
