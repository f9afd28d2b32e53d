import Yielding.Text.Digit
import Yielding.Token.Basic

/-!
# Token/Lexer — cutting a text into tokens

At each place the classes of words are tried in a fixed order and **the first class that matches
wins**; inside a class the longest match counts.  Blanks and plain comments are dropped, doc
comments are kept, and a name that spells a keyword is that keyword.

Each class is a function from the rest of the text to the length of its match.
-/

namespace Yielding.Lexer

open Text

/-- What begins at a place: a word to keep or a stretch to drop. -/
inductive Found
  | word (kind : Terminal)
  | gap
deriving DecidableEq, Repr

/-! ## Names and comments -/

def isNameStart (c : Char) : Bool := c.isAlpha || c == '_'

def isNamePart (c : Char) : Bool := c.isAlphanum || c == '_'

/-- The length of the longest run of characters of one kind. -/
def run (p : Char → Bool) (cs : List Char) : Nat := (cs.takeWhile p).length

/-- A character of one kind, then a run of another. -/
def headedLength? (start part : Char → Bool) : List Char → Option Nat
  | c :: cs => if start c then some (1 + run part cs) else none
  | [] => none

/-- A letter or underscore, then letters, digits and underscores. -/
def nameLength? : List Char → Option Nat := headedLength? isNameStart isNamePart

/-- The slashes of `mark` and the rest of the line. -/
def lineLength? (mark cs : List Char) : Option Nat :=
  if mark.isPrefixOf cs then some (mark.length + run (· ≠ '\n') (cs.drop mark.length)) else none

/-- The length up to the end of the first `*/`. -/
def blockEnd? : List Char → Option Nat
  | '*' :: '/' :: _ => some 2
  | _ :: cs => (blockEnd? cs).map (· + 1)
  | [] => none

/-- From `/*` to the first `*/` after it. -/
def blockCommentLength? : List Char → Option Nat
  | '/' :: '*' :: cs => (blockEnd? cs).map (· + 2)
  | _ => none

def isGap (c : Char) : Bool :=
  c == ' ' || c == '\t' || c == '\x0c' || c == '\r' || c == '\n'

/-- A run of blanks. -/
def gapLength? (cs : List Char) : Option Nat :=
  match run isGap cs with
  | 0 => none
  | n + 1 => some (n + 1)

/-! ## Numbers -/

/-- The suffixes of integers, a shorter one before the longer ones. -/
def intSuffixes : List String :=
  ["i8", "i16", "i32", "i64", "i128", "isize", "u8", "u16", "u32", "u64", "u128", "usize"]

/-- The suffixes of floating-point numbers. -/
def floatSuffixes : List String := ["f32", "f64"]

/-- The length of the first of `suffixes` that begins the text, or zero. -/
def suffixLength (suffixes : List String) (cs : List Char) : Nat :=
  match suffixes.find? (·.toList.isPrefixOf cs) with
  | some s => s.length
  | none => 0

/-- A digit, then digits and underscores. -/
def digitsLength? : List Char → Option Nat :=
  headedLength? isDecimalDigit fun c => isDecimalDigit c || c == '_'

/-- The length of a sign, or zero. -/
def signLength : List Char → Nat
  | '+' :: _ | '-' :: _ => 1
  | _ => 0

/-- The length of an exponent part, or zero when no digit follows its sign. -/
def exponentLength : List Char → Nat
  | c :: cs =>
    if c == 'e' || c == 'E' then
      let digits := run isDecimalDigit (cs.drop (signLength cs))
      if digits = 0 then 0 else 1 + signLength cs + digits
    else 0
  | [] => 0

/-- Digits, an optional type suffix. -/
def intLength? (cs : List Char) : Option Nat :=
  (digitsLength? cs).map fun n => n + suffixLength intSuffixes (cs.drop n)

/-- Digits, an optional exponent, an optional type suffix. -/
def fractionLength? (cs : List Char) : Option Nat :=
  (digitsLength? cs).map fun part =>
    let power := exponentLength (cs.drop part)
    part + power + suffixLength floatSuffixes (cs.drop (part + power))

/-- Digits, a point and a fraction. -/
def floatLength? (cs : List Char) : Option Nat :=
  (digitsLength? cs).bind fun whole =>
    match cs.drop whole with
    | '.' :: rest => (fractionLength? rest).map (whole + 1 + ·)
    | _ => none

/-! ## Quoted words -/

def isHexDigit (c : Char) : Bool :=
  c.isDigit || ('a' ≤ c && c ≤ 'f') || ('A' ≤ c && c ≤ 'F')

/-- The characters of a braced code. -/
def isCodePart (c : Char) : Bool := isHexDigit c || c == '_'

/-- The length of `\u` with a braced code, which may hold underscores. -/
def codeEscapeLength? : List Char → Option Nat
  | '\\' :: 'u' :: '\x7b' :: cs =>
    match run isCodePart cs with
    | 0 => none
    | n + 1 =>
      match cs.drop (n + 1) with
      | '\x7d' :: _ => some (n + 5)
      | _ => none
  | _ => none

/-- The length of `\x` with two hexadecimal digits. -/
def byteEscapeLength? : List Char → Option Nat
  | '\\' :: 'x' :: a :: b :: _ => if isHexDigit a && isHexDigit b then some 4 else none
  | _ => none

/-- The length of a backslash with any character but a line feed. -/
def plainEscapeLength? : List Char → Option Nat
  | '\\' :: c :: _ => if c = '\n' then none else some 2
  | _ => none

/-- The length of one character that is neither a quote nor a backslash. -/
def plainCharLength? : List Char → Option Nat
  | c :: _ => if c = '\'' || c = '\\' then none else some 1
  | [] => none

/-- The length of a form of character with the quote that closes it. -/
def closedLength? (form : List Char → Option Nat) (cs : List Char) : Option Nat :=
  (form cs).bind fun n =>
    match cs.drop n with
    | '\'' :: _ => some (n + 1)
    | _ => none

/-- One character or escape between quotes: the first form that a closing quote follows. -/
def charLength? : List Char → Option Nat
  | '\'' :: cs =>
    ((closedLength? codeEscapeLength? cs).or <| (closedLength? byteEscapeLength? cs).or <|
      (closedLength? plainEscapeLength? cs).or <| closedLength? plainCharLength? cs).map (· + 1)
  | _ => none

/-- A quote and a name that no quote follows: a name right before a quote gives up its last
character. -/
def lifetimeLength? : List Char → Option Nat
  | '\'' :: cs => do
    let n ← nameLength? cs
    match cs.drop n, n with
    | '\'' :: _, 0 | '\'' :: _, 1 => none
    | '\'' :: _, n + 2 => some (n + 2)
    | _, n => some (n + 1)
  | _ => none

/-- The length up to and with the closing quote; a backslash takes the next character along. -/
def stringEnd? : List Char → Option Nat
  | '"' :: _ => some 1
  | '\\' :: _ :: cs => (stringEnd? cs).map (· + 2)
  | '\\' :: [] => none
  | _ :: cs => (stringEnd? cs).map (· + 1)
  | [] => none

/-- Text between double quotes. -/
def stringLength? : List Char → Option Nat
  | '"' :: cs => (stringEnd? cs).map (· + 1)
  | _ => none

/-! ## Words -/

/-- The punctuation that begins the text. -/
def punctuation? (cs : List Char) : Option (Found × Nat) :=
  (Terminal.punctuation.find? (·.1.toList.isPrefixOf cs)).map fun (text, kind) =>
    (.word kind, text.length)

/-- The terminal of a name: its keyword, if it spells one. -/
def nameKind (cs : List Char) : Terminal :=
  match Terminal.keywords.find? (·.1.toList == cs) with
  | some (_, kind) => kind
  | none => .name

/-- The classes of words, in the order in which they are tried. -/
def classes : List (List Char → Option (Found × Nat)) :=
  [fun cs => (lineLength? ['/', '/', '/'] cs).map (.word .docComment, ·),
   fun cs => (floatLength? cs).map (.word .float, ·),
   fun cs => (intLength? cs).map (.word .int, ·),
   fun cs => (charLength? cs).map (.word .char, ·),
   fun cs => (lifetimeLength? cs).map (.word .lifetime, ·),
   fun cs => (nameLength? cs).map fun n => (.word (nameKind (cs.take n)), n),
   fun cs => (stringLength? cs).map (.word .string, ·),
   fun cs => (blockCommentLength? cs).map (.gap, ·),
   fun cs => (gapLength? cs).map (.gap, ·),
   fun cs => (lineLength? ['/', '/'] cs).map (.gap, ·),
   punctuation?]

/-- What begins the text, with its length. -/
def next? (cs : List Char) : Option (Found × Nat) := classes.findSome? (· cs)

/-- A character that begins no word. -/
structure Failure where
  char : Char
  pos : Pos
deriving DecidableEq, Repr

/-- The tokens of a text and, if the text could not be cut to its end, the character that stopped
it. -/
structure Result where
  tokens : List Token
  failure : Option Failure
deriving DecidableEq, Repr

/-- Cuts the text `cs`, whose first character stands at `pos` with `offset` characters before it and
whose first `skip` characters belong to what was found before. -/
def lexFrom (pos : Pos) (offset : Nat) : (skip : Nat) → List Char → Result
  | _, [] => ⟨[], none⟩
  | skip + 1, c :: cs => lexFrom (pos.after c) (offset + 1) skip cs
  | 0, c :: cs =>
    match next? (c :: cs) with
    | none => ⟨[], some ⟨c, pos⟩⟩
    | some (found, n) =>
      let rest := lexFrom (pos.after c) (offset + 1) (n - 1) cs
      match found with
      | .gap => rest
      | .word kind =>
        let lexeme := (c :: cs).take n
        let token : Token :=
          ⟨kind, String.ofList lexeme, ⟨pos, pos.advance lexeme⟩, offset⟩
        ⟨token :: rest.tokens, rest.failure⟩

/-- Cuts a whole text into tokens. -/
def lex (text : List Char) : Result := lexFrom .first 0 0 text

end Yielding.Lexer
