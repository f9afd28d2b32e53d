import Yielding.Text.Escape
import Yielding.Token.Basic

/-!
# Item/Problem — what can be wrong with the text of an item

A problem has a **cause**, the part of the item it spoils, and a site.  The wording of a cause is
`Cause.message`, and `Cause.notes` are the remarks that go with it.
-/

namespace Yielding

/-- The part of an item that a problem spoils. -/
inductive Spoiled
  | signature | body
deriving DecidableEq, Repr

/-- What is wrong. -/
inductive Cause
  /-- A character begins no word. -/
  | unexpectedChar (char : Char)
  /-- Something else stands where an item should begin. -/
  | expectedItem (found : String)
  | missingBody
  | unclosedBody
  /-- The item ends too early. -/
  | unexpectedEnd
  /-- A word that the rules of items do not allow there. -/
  | unexpected (found : String) (expected : List Terminal)
  /-- The word where `yields` should stand. -/
  | expectedYields (found : String)
  /-- A function body that ends without its `gen` block. -/
  | expectedGenBlock
  /-- An arrow where an item written with a star should have `yields`. -/
  | arrowForYields (found : String)
  /-- `yields` where a `gen fn` item should have an arrow. -/
  | yieldsForArrow
  /-- A size hint with a number of arguments other than one. -/
  | hintArity (count : Nat)
  | selfNotFirst
  | repeatedParam (name : String)
  /-- The result type of a function with a `gen` block that names no item type. -/
  | resultWithoutItem
  | nestedSelf
  | unsupportedPattern (name : String)
  | repeatedRest
  | restOutsideTuple
  | unsupportedMacro (name : String)
  | tupleIndex (text : String)
  | escape (error : Text.EscapeError)
  /-- A number has more digits than are read; this ends the reading of the whole text. -/
  | oversized
  /-- The parts of a phrase do not fit its rule; no derivation by the rules of items has this. -/
  | incoherent
deriving DecidableEq, Repr

namespace Cause

def message : Cause → String
  | unexpectedChar c => "unexpected character `" ++ c.toString ++ "`"
  | expectedItem found =>
    "expected an iterator item (`fn*`, `gen fn` or a `fn` returning a `gen` block), found `" ++
      found ++ "`"
  | missingBody => "missing iterator body"
  | unclosedBody => "unclosed iterator body"
  | unexpectedEnd => "unexpected end of item"
  | unexpected found _ => "unexpected `" ++ found ++ "`"
  | expectedYields found | arrowForYields found =>
    "expected contextual keyword `yields`, found `" ++ found ++ "`"
  | expectedGenBlock =>
    "expected a `gen \x7b ... \x7d` block at the end of the function body"
  | yieldsForArrow => "expected `->` after the parameter list of a `gen fn` item"
  | hintArity count => "`#[size_hint]` takes exactly one argument, got " ++ toString count
  | selfNotFirst => "`self` parameter is only allowed as the first parameter"
  | repeatedParam name =>
    "identifier `" ++ name ++ "` is bound more than once in this parameter list"
  | resultWithoutItem =>
    "a function returning a `gen` block must return `impl Iterator<Item = T>`"
  | nestedSelf => "nested `fn` items cannot take `self`"
  | unsupportedPattern name => "unsupported pattern `" ++ name ++ "(..)`"
  | repeatedRest => "`..` can only be used once per tuple pattern"
  | restOutsideTuple => "`..` patterns are only allowed inside tuple patterns"
  | unsupportedMacro name => "unsupported macro `" ++ name ++ "!`"
  | tupleIndex text => "invalid tuple index `" ++ text ++ "`"
  | escape (.code text) => "invalid unicode escape `" ++ text ++ "`"
  | escape (.byte text) => "out of range hex escape `" ++ text ++ "`"
  | escape (.unknown c) => "unknown character escape `\\" ++ c.toString ++ "`"
  | oversized => "oversized number"
  | incoherent => "incoherent phrase"

/-- How many expected terminals a note lists. -/
def listedTerminals : Nat := 8

/-- The note that lists what was expected. -/
def expectedNote (expected : List Terminal) : String :=
  "expected one of: " ++ ", ".intercalate ((expected.take listedTerminals).map Terminal.shown) ++
    (if expected.length > listedTerminals then ", ..." else "")

def notes : Cause → List String
  | unexpected _ expected => if expected.isEmpty then [] else [expectedNote expected]
  | arrowForYields _ => ["`fn*` items name their element type with `yields TYPE`"]
  | hintArity _ => ["write `#[size_hint((lower, Some(upper)))]`"]
  | unsupportedPattern _ => ["only `Some`, `Ok`, `Err` and `None` patterns are supported"]
  | escape (.byte _) => ["use `\\u\x7b..\x7d` for characters above 0x7F"]
  | _ => []

end Cause

/-- Something wrong with the text of an item, or between items. -/
structure Problem where
  spoiled : Spoiled
  cause : Cause
  site : Site
deriving DecidableEq, Repr

def Problem.message (p : Problem) : String := p.cause.message

def Problem.notes (p : Problem) : List String := p.cause.notes

end Yielding
