import Yielding.Item.Problem
import Yielding.Token.Lexer

/-!
# Item/Slice — cutting a text into items

The tokens of a text are read once, from left to right.  An item begins with a word that can open
one; its body is the first brace outside all brackets up to the brace that closes it.  A header that
ends without a body, and words between items, are problems, and none of them hides the items after
it.
-/

namespace Yielding

/-- The text of an item, and where it and its body begin. -/
structure Slice where
  text : String
  start : Pos
  bodyOpen : Pos
deriving DecidableEq, Repr

/-- The text of the slice after as many blank lines and blanks as put it back in its place. -/
def Slice.padded (s : Slice) : List Char :=
  List.replicate (s.start.line - 1) '\n' ++ List.replicate (s.start.column - 1) ' ' ++
    s.text.toList

namespace Scan

/-- Where the scan of a source stands. -/
inductive State
  /-- Between items. -/
  | outside
  /-- Past a word that opens no item, up to the next one that does. -/
  | lost
  /-- In the header of an item that began with `first`, inside `depth` brackets. -/
  | header (first : Token) (depth : Int) (seenFn : Bool)
  /-- In the body of an item, inside `depth` braces. -/
  | body (first bodyOpen : Token) (depth : Nat)
deriving DecidableEq, Repr

/-- What the scan comes upon. -/
inductive Event
  | slice (s : Slice)
  | problem (p : Problem)
deriving DecidableEq, Repr

def cut (source : List Char) (first bodyOpen last : Token) : Slice :=
  { text := String.ofList ((source.drop first.offset).take (last.stopOffset - first.offset))
    start := first.region.start
    bodyOpen := bodyOpen.region.start }

def bodyless (first : Token) : Event := .problem ⟨.signature, .missingBody, first.site⟩

def begin (t : Token) : State :=
  .header t 0 (t.kind = .kwFn)

def step (source : List Char) (s : State) (t : Token) : State × List Event :=
  match s with
  | .outside =>
    if t.kind.opensItem then (begin t, [])
    else (.lost, [.problem ⟨.signature, .expectedItem t.text, t.site⟩])
  | .lost => if t.kind.opensItem then (begin t, []) else (.lost, [])
  | .header first depth seenFn =>
    match t.kind with
    | .lpar | .lsqb => (.header first (depth + 1) seenFn, [])
    | .rpar | .rsqb => (.header first (depth - 1) seenFn, [])
    | kind =>
      if depth ≠ 0 then (s, [])
      else if kind = .lbrace then (.body first t 1, [])
      else if kind = .semicolon then (.outside, [bodyless first])
      else if kind.opensItem && seenFn then (begin t, [bodyless first])
      else (.header first depth (seenFn || kind = .kwFn), [])
  | .body first bodyOpen depth =>
    match t.kind with
    | .lbrace => (.body first bodyOpen (depth + 1), [])
    | .rbrace =>
      if depth = 1 then (.outside, [.slice (cut source first bodyOpen t)])
      else (.body first bodyOpen (depth - 1), [])
    | _ => (s, [])

def badChar (spoiled : Spoiled) (f : Lexer.Failure) : Event :=
  .problem ⟨spoiled, .unexpectedChar f.char, f.pos.site⟩

/-- Reads the end of the tokens.  A character that stopped the lexer is reported once, in place of
the item that it cut short. -/
def finish (failure : Option Lexer.Failure) (s : State) : List Event :=
  match s, failure with
  | .header _ _ _, some f => [badChar .signature f]
  | .header first _ _, none => [bodyless first]
  | .body _ _ _, some f => [badChar .body f]
  | .body _ bodyOpen _, none => [.problem ⟨.body, .unclosedBody, bodyOpen.site⟩]
  | _, some f => [badChar .signature f]
  | _, none => []

def events (source : List Char) (failure : Option Lexer.Failure) : State → List Token → List Event
  | s, [] => finish failure s
  | s, t :: ts =>
    let (s', found) := step source s t
    found ++ events source failure s' ts

end Scan

/-- What the scan of a source finds. -/
structure Scanned where
  slices : List Slice
  problems : List Problem
deriving DecidableEq, Repr

/-- The items of a source, as texts. -/
def scan (source : List Char) : Scanned :=
  let lexed := Lexer.lex source
  let events := Scan.events source lexed.failure .outside lexed.tokens
  { slices := events.filterMap fun
      | .slice s => some s
      | .problem _ => none
    problems := events.filterMap fun
      | .slice _ => none
      | .problem p => some p }

end Yielding
