/-!
# Text/Utf8 — reading a text from its bytes

A character is written by a leading byte and up to three that continue it.  A leading byte fixes
how many follow and, for the first of them, a range that leaves out the forms which are too long,
surrogates and everything beyond the last code point.  Reading stops at the first **fault**; it is
placed at the leading byte of the character that could not be read.
-/

namespace Yielding.Text

/-- The ways in which bytes fail to be a text. -/
inductive ByteFault
  | badStart | badContinuation | cutShort
deriving DecidableEq, Repr

def ByteFault.message : ByteFault → String
  | badStart => "invalid start byte"
  | badContinuation => "invalid continuation byte"
  | cutShort => "unexpected end of data"

/-- A fault and the index of the leading byte it concerns. -/
structure MisplacedByte where
  fault : ByteFault
  start : Nat
deriving DecidableEq, Repr

/-- A character of which some bytes were read: the index of its leading byte, its bits so far, the
number of bytes that must follow beyond the next one, and the range of the next one. -/
structure OpenCharacter where
  start : Nat
  bits : Nat
  further : Nat
  low : Nat
  high : Nat
deriving DecidableEq, Repr

/-- What a leading byte at an index stands for. -/
inductive Leading
  | whole (c : Char)
  | unfinished (c : OpenCharacter)
  | none

def leading (index b : Nat) : Leading :=
  if b < 0x80 then .whole (Char.ofNat b)
  else if b < 0xC2 then .none
  else if b < 0xE0 then .unfinished ⟨index, b - 0xC0, 0, 0x80, 0xBF⟩
  else if b < 0xF0 then
    .unfinished ⟨index, b - 0xE0, 1, if b = 0xE0 then 0xA0 else 0x80,
      if b = 0xED then 0x9F else 0xBF⟩
  else if b < 0xF5 then
    .unfinished ⟨index, b - 0xF0, 2, if b = 0xF0 then 0x90 else 0x80,
      if b = 0xF4 then 0x8F else 0xBF⟩
  else .none

/-- Reads the bytes from an index on, of which the first may continue a character. -/
def readBytes : Nat → Option OpenCharacter → List UInt8 → Except MisplacedByte (List Char)
  | _, none, [] => .ok []
  | _, some c, [] => .error ⟨.cutShort, c.start⟩
  | i, none, b :: bs =>
    match leading i b.toNat with
    | .whole c => (readBytes (i + 1) none bs).map (c :: ·)
    | .unfinished c => readBytes (i + 1) (some c) bs
    | .none => .error ⟨.badStart, i⟩
  | i, some c, b :: bs =>
    if c.low ≤ b.toNat ∧ b.toNat ≤ c.high then
      let bits := c.bits * 64 + b.toNat % 64
      match c.further with
      | 0 => (readBytes (i + 1) none bs).map (Char.ofNat bits :: ·)
      | further + 1 => readBytes (i + 1) (some ⟨c.start, bits, further, 0x80, 0xBF⟩) bs
    else .error ⟨.badContinuation, c.start⟩

/-- The text that bytes stand for. -/
def ofBytes (bytes : List UInt8) : Except MisplacedByte String :=
  (readBytes 0 none bytes).map String.ofList

/-- The bytes of a text. -/
def toBytes (s : String) : List UInt8 := s.toUTF8.toList

/-!
## One way to end a line

Lines end by a line feed, by a carriage return, or by both.  Read from a file, each of the three is
a line feed.
-/

/-- Every end of a line becomes a line feed. -/
def feedLines : List Char → List Char
  | [] => []
  | '\r' :: '\n' :: cs => '\n' :: feedLines cs
  | '\r' :: cs => '\n' :: feedLines cs
  | c :: cs => c :: feedLines cs

end Yielding.Text
