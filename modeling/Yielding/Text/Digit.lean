/-!
# Text/Digit — white space, digits and integers
-/

namespace Yielding.Text

/-!
## White space

The characters with the property `White_Space`, and the four information separators.
-/

/-- White space: the controls that separate, the spaces, and the line and paragraph separators. -/
def isBlank (c : Char) : Bool :=
  let n := c.toNat
  (0x09 ≤ n && n ≤ 0x0d) || (0x1c ≤ n && n ≤ 0x20) || n == 0x85 || n == 0xa0 || n == 0x1680 ||
    (0x2000 ≤ n && n ≤ 0x200a) || n == 0x2028 || n == 0x2029 || n == 0x202f || n == 0x205f ||
    n == 0x3000

/-!
## Decimal digits of every script

A decimal digit is a character of the general category `Nd`.  These characters come in blocks of
ten that run from the digit zero to the digit nine, so the category is given by its zeros.
-/

/-- The code points of the zeros, in increasing order. -/
def digitZeros : List Nat :=
  [0x30, 0x660, 0x6f0, 0x7c0, 0x966, 0x9e6, 0xa66, 0xae6, 0xb66, 0xbe6, 0xc66, 0xce6, 0xd66,
   0xde6, 0xe50, 0xed0, 0xf20, 0x1040, 0x1090, 0x17e0, 0x1810, 0x1946, 0x19d0, 0x1a80, 0x1a90,
   0x1b50, 0x1bb0, 0x1c40, 0x1c50, 0xa620, 0xa8d0, 0xa900, 0xa9d0, 0xa9f0, 0xaa50, 0xabf0,
   0xff10, 0x104a0, 0x10d30, 0x11066, 0x110f0, 0x11136, 0x111d0, 0x112f0, 0x11450, 0x114d0,
   0x11650, 0x116c0, 0x11730, 0x118e0, 0x11950, 0x11c50, 0x11d50, 0x11da0, 0x16a60, 0x16ac0,
   0x16b50, 0x1d7ce, 0x1d7d8, 0x1d7e2, 0x1d7ec, 0x1d7f6, 0x1e140, 0x1e2f0, 0x1e950, 0x1fbf0]

/-- The value of a decimal digit. -/
def digitValue? (c : Char) : Option Nat :=
  if c.toNat < 0x80 then
    if c.isDigit then some (c.toNat - 0x30) else none
  else
    (digitZeros.find? fun start => start ≤ c.toNat && c.toNat < start + 10).map (c.toNat - ·)

/-- Whether `c` is a decimal digit. -/
def isDecimalDigit (c : Char) : Bool := (digitValue? c).isSome

/-- The number that a run of decimal digits writes; other characters are passed over. -/
def digitsValue (cs : List Char) : Nat :=
  cs.foldl (fun n c => (digitValue? c).elim n (n * 10 + ·)) 0

/-!
## Integers in texts

An integer is an optional sign and decimal digits, with white space around it.  A single underscore
may stand between two digits.
-/

/-- Whether the character may stand around an integer.  In the ASCII range only the space and the
controls from tab to carriage return may. -/
def isMargin (c : Char) : Bool :=
  if c.toNat < 0x7f then c = ' ' || (0x09 ≤ c.toNat && c.toNat ≤ 0x0d) else isBlank c

/-- A text without its margins. -/
def trimMargins (cs : List Char) : List Char :=
  ((cs.dropWhile isMargin).reverse.dropWhile isMargin).reverse

/-- Digits with single underscores between them, to be continued by a digit. -/
def readDigits? (n : Nat) : List Char → Option Nat
  | [] => none
  | c :: cs =>
    match digitValue? c, cs with
    | none, _ => none
    | some v, [] => some (n * 10 + v)
    | some v, '_' :: rest => readDigits? (n * 10 + v) rest
    | some v, d :: rest => readDigits? (n * 10 + v) (d :: rest)

/-- Reads an integer. -/
def readInteger? (s : String) : Option Int :=
  match trimMargins s.toList with
  | '-' :: cs => (readDigits? 0 cs).map fun n => -(n : Int)
  | '+' :: cs => (readDigits? 0 cs).map Int.ofNat
  | cs => (readDigits? 0 cs).map Int.ofNat

end Yielding.Text
