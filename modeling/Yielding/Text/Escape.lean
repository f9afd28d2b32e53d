import Yielding.Text.Digit

/-!
# Text/Escape — escapes inside quoted source text

A backslash begins an escape: a letter for a control character, `\x` with two hexadecimal digits up
to `7F`, `\u` with a braced code point, or a line feed, which disappears together with the blanks
after it.
-/

namespace Yielding.Text

/-- Why an escape stands for no character. -/
inductive EscapeError
  /-- A braced number that is no scalar value. -/
  | code (text : String)
  /-- A byte above `7F`. -/
  | byte (text : String)
  /-- A character that means nothing after a backslash. -/
  | unknown (char : Char)
deriving DecidableEq, Repr

/-- The value of a hexadecimal digit. -/
def hexValue? (c : Char) : Option Nat :=
  if c.isDigit then some (c.toNat - '0'.toNat)
  else if 'a' ≤ c && c ≤ 'f' then some (c.toNat - 'a'.toNat + 10)
  else if 'A' ≤ c && c ≤ 'F' then some (c.toNat - 'A'.toNat + 10)
  else none

/-- The number that hexadecimal digits write; other characters are passed over. -/
def hexNumber (cs : List Char) : Nat :=
  cs.foldl (fun n c => (hexValue? c).elim n (n * 16 + ·)) 0

/-- The characters that one letter after a backslash stands for. -/
def simpleEscape? : Char → Option Char
  | 'n' => some '\n'
  | 'r' => some '\r'
  | 't' => some '\t'
  | '\\' => some '\\'
  | '0' => some '\x00'
  | '\'' => some '\''
  | '"' => some '"'
  | _ => none

/-- The digits of a braced code after `\u{`: a digit, then at most seven digits or underscores. -/
def codeDigits? : List Char → Option (List Char)
  | c :: cs =>
    if (hexValue? c).isSome then
      let more := cs.takeWhile fun c => (hexValue? c).isSome || c == '_'
      match cs.drop more.length with
      | '\x7d' :: _ => if more.length ≤ 7 then some (c :: more) else none
      | _ => none
    else none
  | [] => none

/-- What an escape without a number means, and how many characters belong to it. -/
def plainEscape : List Char → Except EscapeError (List Char × Nat)
  | '\n' :: rest => .ok ([], 1 + (rest.takeWhile isBlank).length)
  | c :: _ =>
    match simpleEscape? c with
    | some d => .ok ([d], 1)
    | none => .error (.unknown c)
  | [] => .ok (['\\'], 0)

/-- What the escape whose backslash stands right before `cs` means, and how many characters of `cs`
belong to it. -/
def escape (cs : List Char) : Except EscapeError (List Char × Nat) :=
  match cs with
  | 'u' :: '\x7b' :: rest =>
    match codeDigits? rest with
    | some digits =>
      let value := hexNumber digits
      if value.isValidChar then .ok ([Char.ofNat value], digits.length + 3)
      else .error (.code (String.ofList (['\\', 'u', '\x7b'] ++ digits ++ ['\x7d'])))
    | none => plainEscape cs
  | 'x' :: a :: b :: _ =>
    match hexValue? a, hexValue? b with
    | some x, some y =>
      if x * 16 + y ≤ 0x7f then .ok ([Char.ofNat (x * 16 + y)], 3)
      else .error (.byte (String.ofList ['\\', 'x', a, b]))
    | _, _ => plainEscape cs
  | _ => plainEscape cs

/-- The characters that a text with escapes stands for; its first `skip` characters belong to an
escape already read. -/
def unescapeFrom : (skip : Nat) → List Char → Except EscapeError (List Char)
  | _, [] => .ok []
  | skip + 1, _ :: cs => unescapeFrom skip cs
  | 0, c :: cs =>
    if c = '\\' then do
      let (meant, n) ← escape cs
      return meant ++ (← unescapeFrom n cs)
    else return c :: (← unescapeFrom 0 cs)

/-- The characters that a text with escapes stands for. -/
def unescape (cs : List Char) : Except EscapeError (List Char) := unescapeFrom 0 cs

end Yielding.Text
