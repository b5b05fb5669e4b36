import Lisplet.Text.Quoted

set_option autoImplicit false

/-! # Decoding files

The bytes of a file are decoded as UTF-8, and line ends of all three kinds become newlines. The
decoder takes one byte at a time and knows how many bytes the character it is in still owes and
between which bounds the next one has to lie; the bounds of a second byte rule out overlong forms,
surrogates and code points beyond the last one. -/

namespace Lisplet

namespace Utf8

/-- Why bytes are no text. -/
inductive Cause where
  | startByte
  | continuationByte
  | endOfData
deriving DecidableEq, Inhabited

/-- The bytes from `first` up to `past`, of which the first is `lead`, are no text. -/
structure Error where
  first : Nat
  past : Nat
  lead : UInt8
  cause : Cause
deriving DecidableEq, Inhabited

def Cause.text : Cause → String
  | .startByte => "invalid start byte"
  | .continuationByte => "invalid continuation byte"
  | .endOfData => "unexpected end of data"

/-- The wording of a decoding error: a single byte is shown, a range is only located. -/
def Error.message (e : Error) : String :=
  let place :=
    if e.past = e.first + 1 then
      "byte 0x" ++ Text.hex 2 e.lead.toNat ++ " in position " ++ toString e.first
    else "bytes in position " ++ toString e.first ++ "-" ++ toString (e.past - 1)
  "'utf-8' codec can't decode " ++ place ++ ": " ++ e.cause.text

/-- A character that was begun. -/
structure Pending where
  /-- Where it begins. -/
  first : Nat
  lead : UInt8
  /-- The bits read so far. -/
  code : Nat
  /-- How many bytes are still owed. -/
  owed : Nat
  /-- The bounds of the next byte. -/
  low : UInt8
  high : UInt8

/-- The character that a lead byte at `position` begins. -/
def begin? (position : Nat) (lead : UInt8) : Option Pending :=
  let bits (mask : UInt8) : Nat := (lead &&& mask).toNat
  if 0xc2 ≤ lead && lead ≤ 0xdf then some ⟨position, lead, bits 0x1f, 1, 0x80, 0xbf⟩
  else if 0xe0 ≤ lead && lead ≤ 0xef then
    some ⟨position, lead, bits 0x0f, 2, if lead = 0xe0 then 0xa0 else 0x80,
      if lead = 0xed then 0x9f else 0xbf⟩
  else if 0xf0 ≤ lead && lead ≤ 0xf4 then
    some ⟨position, lead, bits 0x07, 3, if lead = 0xf0 then 0x90 else 0x80,
      if lead = 0xf4 then 0x8f else 0xbf⟩
  else none

/-- The character after one more byte. -/
def Pending.take (p : Pending) (byte : UInt8) : Pending :=
  { p with
    code := p.code * 64 + (byte &&& 0x3f).toNat
    owed := p.owed - 1
    low := 0x80
    high := 0xbf }

/-- Decode the bytes from `position` on; `done` has the characters before it, newest first, and
    `pending` the one that was begun. -/
def decodeFrom (done : List Char) (pending : Option Pending) (position : Nat) :
    List UInt8 → Except Error (List Char)
  | [] =>
    match pending with
    | none => .ok done.reverse
    | some p => .error ⟨p.first, position, p.lead, .endOfData⟩
  | byte :: rest =>
    match pending with
    | none =>
      if byte < 0x80 then decodeFrom (Char.ofNat byte.toNat :: done) none (position + 1) rest
      else match begin? position byte with
        | some p => decodeFrom done (some p) (position + 1) rest
        | none => .error ⟨position, position + 1, byte, .startByte⟩
    | some p =>
      if p.low ≤ byte && byte ≤ p.high then
        let next := p.take byte
        if next.owed = 0 then decodeFrom (Char.ofNat next.code :: done) none (position + 1) rest
        else decodeFrom done (some next) (position + 1) rest
      else .error ⟨p.first, position, p.lead, .continuationByte⟩

/-- The text that bytes encode. -/
def decode (bytes : List UInt8) : Except Error (List Char) := decodeFrom [] none 0 bytes

end Utf8

namespace Text

/-- A carriage return, alone or before a newline, becomes a newline. -/
def unifyNewlines : List Char → List Char
  | [] => []
  | '\r' :: '\n' :: rest => '\n' :: unifyNewlines rest
  | c :: rest => (if c = '\r' then '\n' else c) :: unifyNewlines rest

end Text

end Lisplet
