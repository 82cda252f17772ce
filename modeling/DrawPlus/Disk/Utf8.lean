/-!
# Reading UTF-8

Bytes are read as UTF-8, strictly: no overlong forms, no surrogates, nothing above the last code
point. The first fault ends the reading; it is reported with the bytes that were begun, from the
first byte of the character up to the one that does not fit.
-/

namespace DrawPlus

inductive Utf8Fault where
  | start
  | ending
  | continuation
deriving DecidableEq

/-- A fault in the bytes from `first` to just before `stop`. -/
structure Utf8Error where
  fault : Utf8Fault
  byte : UInt8
  first : Nat
  stop : Nat
deriving DecidableEq

namespace Utf8Error

def reason : Utf8Fault → String
  | .start => "invalid start byte"
  | .ending => "unexpected end of data"
  | .continuation => "invalid continuation byte"

/-- Two hexadecimal figures. -/
def byteText (b : UInt8) : String :=
  let figures := Nat.toDigits 16 b.toNat
  String.ofList (List.replicate (2 - figures.length) '0' ++ figures)

/-- The wording of an error. One byte is shown, of several only the positions. -/
def message (e : Utf8Error) : String :=
  let place :=
    if e.stop = e.first + 1 then
      "byte 0x" ++ byteText e.byte ++ " in position " ++ toString e.first
    else "bytes in position " ++ toString e.first ++ "-" ++ toString (e.stop - 1)
  "'utf-8' codec can't decode " ++ place ++ ": " ++ reason e.fault

end Utf8Error

namespace Utf8

def isContinuation (b : UInt8) : Bool :=
  0x80 ≤ b.toNat && b.toNat < 0xC0

/-- The second byte `c` can follow the first byte `b`. -/
def isSecond (b c : UInt8) : Bool :=
  isContinuation c &&
  !(b.toNat == 0xE0 && c.toNat < 0xA0) && !(b.toNat == 0xED && 0xA0 ≤ c.toNat) &&
  !(b.toNat == 0xF0 && c.toNat < 0x90) && !(b.toNat == 0xF4 && 0x90 ≤ c.toNat)

/-- The six low bits of a continuation byte. -/
def low (b : UInt8) : Nat :=
  b.toNat % 64

/-- Decode the bytes that stand `position` bytes into a text. -/
def decodeFrom (position : Nat) : List UInt8 → Except Utf8Error (List Char)
  | [] => .ok []
  | b :: rest =>
    let fail (fault : Utf8Fault) (count : Nat) : Except Utf8Error (List Char) :=
      .error ⟨fault, b, position, position + count⟩
    if b.toNat < 0x80 then do
      return Char.ofNat b.toNat :: (← decodeFrom (position + 1) rest)
    else if b.toNat < 0xC2 || 0xF5 ≤ b.toNat then fail .start 1
    else
      match rest with
      | [] => fail .ending 1
      | c :: rest =>
        if !isSecond b c then fail .continuation 1
        else if b.toNat < 0xE0 then do
          return Char.ofNat (b.toNat % 32 * 64 + low c) :: (← decodeFrom (position + 2) rest)
        else
          match rest with
          | [] => fail .ending 2
          | d :: rest =>
            if !isContinuation d then fail .continuation 2
            else if b.toNat < 0xF0 then do
              return Char.ofNat ((b.toNat % 16 * 64 + low c) * 64 + low d) ::
                (← decodeFrom (position + 3) rest)
            else
              match rest with
              | [] => fail .ending 3
              | e :: rest =>
                if !isContinuation e then fail .continuation 3
                else do
                  return Char.ofNat (((b.toNat % 8 * 64 + low c) * 64 + low d) * 64 + low e) ::
                    (← decodeFrom (position + 4) rest)

def decode (bytes : List UInt8) : Except Utf8Error (List Char) :=
  decodeFrom 0 bytes

end Utf8

end DrawPlus
