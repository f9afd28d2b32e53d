import Yielding.Datum.Basic
import Yielding.Format.Number
import Yielding.Format.Template

/-!
# Datum/Format — filling templates with data

`fill` puts data into the holes of a template.  Fields without a name take the arguments one after
the other; fields with a number take the argument of that number, and a template may only use one of
both ways.
-/

namespace Yielding.Datum

/-!
## Equality of data

Numbers are equal by value, whatever their kind, sequences of one kind element by element, ranges as
the sequences they stand for, and outcomes by their payloads.  Cursors are only equal to themselves.
What is not a number is not equal to itself, but as an element of something it counts as the same.
-/

/-- The integer that a floating-point number is, if it is one. -/
def wholeNumber? (x : Float) : Option Int :=
  if x.isNaN || x.isInf then Option.none
  else
    let r := floatRatio x
    if r.num % r.den = 0 then
      Option.some (if isNegative x then -(r.floor : Int) else r.floor)
    else Option.none

def Number.equal : Number → Number → Bool
  | .int a, .int b => a = b
  | .float a, .float b => a == b
  | .int a, .float b => wholeNumber? b = Option.some a
  | .float a, .int b => wholeNumber? a = Option.some b

def rangeEqual (a b c d : Int) : Bool :=
  rangeLength a b = rangeLength c d && (rangeLength a b = 0 || a = c)

mutual

/-- Whether two elements are the same, given when two lists are. -/
def sameBy (lists : ListRef → ListRef → Bool) : Datum → Datum → Bool
  | none, none => true
  | nan m, nan k => m = k
  | str a, str b => a = b
  | tuple as, tuple bs => sameRow lists as bs
  | dict as, dict bs => as.length = bs.length && sameEntries lists as bs
  | range a b, range c d => rangeEqual a b c d
  | ok a, ok b | err a, err b | some a, some b => sameBy lists a b
  | list a, list b => lists a b
  | cursor a, cursor b => a = b
  | a, b =>
    match a.number?, b.number? with
    | Option.some x, Option.some y => x.equal y
    | _, _ => false

def sameRow (lists : ListRef → ListRef → Bool) : List Datum → List Datum → Bool
  | [], [] => true
  | a :: as, b :: bs => sameBy lists a b && sameRow lists as bs
  | _, _ => false

/-- Whether every entry has its like among other entries. -/
def sameEntries (lists : ListRef → ListRef → Bool) :
    List (Datum × Datum) → List (Datum × Datum) → Bool
  | [], _ => true
  | (k, v) :: es, others =>
    (match others.find? fun e => sameBy lists k e.1 with
      | Option.some e => sameBy lists v e.2
      | Option.none => false) && sameEntries lists es others

end

/-- Whether two lists are the same element by element, as deep as `depth`. -/
def sameLists (s : Store) : (depth : Nat) → ListRef → ListRef → Bool
  | 0, _, _ => false
  | depth + 1, a, b => a = b || sameRow (sameLists s depth) (s.listAt a) (s.listAt b)

/-- Whether two elements are the same.  No list can be nested deeper than there are lists. -/
def same (s : Store) (a b : Datum) : Bool := sameBy (sameLists s (s.lists.length + 1)) a b

def equal (s : Store) : Datum → Datum → Bool
  | nan _, nan _ => false
  | a, b => same s a b

def valueAt? (s : Store) (entries : List (Datum × Datum)) (key : Datum) : Option Datum :=
  (entries.find? fun e => same s key e.1).map Prod.snd

def putEntry (s : Store) (entries : List (Datum × Datum)) (key value : Datum) :
    List (Datum × Datum) :=
  if entries.any fun e => same s key e.1 then
    entries.map fun e => if same s key e.1 then (e.1, value) else e
  else entries ++ [(key, value)]

/-!
## Data as text

The **shown** form of a datum writes it like a literal, with quotes around texts.  A list that
contains itself is written `[...]` where it recurs.  The **plain** form of a text is the text
itself; for everything else it is the shown form.
-/

def boolText (b : Bool) : String := if b then "True" else "False"

mutual

/-- The shown form of a datum, given that of lists. -/
def shownBy (lists : ListRef → String) (cursors : CursorRef → String) : Datum → String
  | none => "None"
  | bool b => boolText b
  | int n => toString n
  | float x => Decimal.floatText x
  | nan _ => "nan"
  | str s => Text.quoted s
  | tuple [d] => "(" ++ shownBy lists cursors d ++ ",)"
  | tuple [] => "()"
  | tuple (d :: d' :: ds) =>
    "(" ++ ", ".intercalate (shownBy lists cursors d :: shownBy lists cursors d' ::
      shownRow lists cursors ds) ++ ")"
  | dict entries => "\x7b" ++ ", ".intercalate (shownEntries lists cursors entries) ++ "\x7d"
  | range start stop => "range(" ++ toString start ++ ", " ++ toString stop ++ ")"
  | ok d => "Ok(value=" ++ shownBy lists cursors d ++ ")"
  | err d => "Err(error=" ++ shownBy lists cursors d ++ ")"
  | some d => "Some(value=" ++ shownBy lists cursors d ++ ")"
  | list r => lists r
  | cursor r => cursors r

def shownRow (lists : ListRef → String) (cursors : CursorRef → String) :
    List Datum → List String
  | [] => []
  | d :: ds => shownBy lists cursors d :: shownRow lists cursors ds

def shownEntries (lists : ListRef → String) (cursors : CursorRef → String) :
    List (Datum × Datum) → List String
  | [] => []
  | (k, v) :: es =>
    (shownBy lists cursors k ++ ": " ++ shownBy lists cursors v) ::
      shownEntries lists cursors es

end

def shownCursor (s : Store) (r : CursorRef) : String := "<" ++ (s.cursorAt r).kind ++ ">"

def shownList (s : Store) : (depth : Nat) → (outer : List ListRef) → ListRef → String
  | 0, _, _ => "[...]"
  | depth + 1, outer, r =>
    if outer.contains r then "[...]"
    else
      let items := shownRow (shownList s depth (r :: outer)) (shownCursor s) (s.listAt r)
      "[" ++ ", ".intercalate items ++ "]"

def shown (s : Store) (d : Datum) : String :=
  shownBy (shownList s (s.lists.length + 1) []) (shownCursor s) d

def plain (s : Store) : Datum → String
  | str t => t
  | d => d.shown s

/-- The plain form, with truth values as items write them. -/
def display (s : Store) : Datum → String
  | bool b => if b then "true" else "false"
  | d => d.plain s

/-! ## Filling templates with data -/

open Format (Spec Misfit Field Piece Step)

/-! ## Parts of data -/

/-- The element at an index; a negative one counts from the end. -/
def elementAt? (items : List Datum) (index : Int) : Option Datum :=
  let i := if index < 0 then index + items.length else index
  if i < 0 then Option.none else items[i.toNat]?

def rangeAt? (start stop index : Int) : Option Datum :=
  let n : Int := rangeLength start stop
  let i := if index < 0 then index + n else index
  if 0 ≤ i && i < n then Option.some (int (start + i)) else Option.none

/-- The element of a sequence at an index, or the fault that there is none. -/
def sequenceAt? (s : Store) (d : Datum) (index : Int) : Option (Except Fault Datum) :=
  let found (o : Option Datum) : Option (Except Fault Datum) := match o with
    | Option.some e => Option.some (.ok e)
    | Option.none => Option.some (.error .noSuchIndex)
  match d with
  | list r => found (elementAt? (s.listAt r) index)
  | tuple items => found (elementAt? items index)
  | str t => found (elementAt? (t.toList.map fun c => str c.toString) index)
  | range start stop => found (rangeAt? start stop index)
  | _ => Option.none

def item (s : Store) (d key : Datum) : Except Fault Datum :=
  match d with
  | dict entries =>
    if !key.isHashable then .error .wrongType
    else
      match valueAt? s entries key with
      | Option.some v => .ok v
      | Option.none => .error .noSuchKey
  | d =>
    match key.integer? with
    | Option.some index => (sequenceAt? s d index).getD (.error .wrongType)
    | Option.none => .error .wrongType

def attr (d : Datum) (name : String) : Except Fault Datum :=
  match d, name with
  | ok v, "value" | some v, "value" | err v, "error" => .ok v
  | range start _, "start" => .ok (int start)
  | range _ stop, "stop" => .ok (int stop)
  | range .., "step" => .ok (int 1)
  | float x, "real" => .ok (float x)
  | nan m, "real" => .ok (nan m)
  | float _, "imag" | nan _, "imag" => .ok (float 0.0)
  | d, name =>
    match d.integer?, name with
    | Option.some n, "real" | Option.some n, "numerator" => .ok (int n)
    | Option.some _, "imag" => .ok (int 0)
    | Option.some _, "denominator" => .ok (int 1)
    | _, _ => .error .noSuchAttribute

/-- The value of a number in a field's name, unless it is no number; a number may be too great. -/
def indexOf (name : List Char) : Except Fault (Option Nat) :=
  match Format.readSize name with
  | Option.none => .error .wrongValue
  | Option.some (Option.some n, []) => .ok (Option.some n)
  | Option.some _ => .ok Option.none

/-- Takes one step into a datum. -/
def follow (s : Store) (d : Datum) : Step → Except Fault Datum
  | .broken => .error .wrongValue
  | .attr name => d.attr (String.ofList name)
  | .item key => do
    match ← indexOf key with
    | Option.some n => d.item s (int n)
    | Option.none => d.item s (str (String.ofList key))

/-! ## One field -/

def formatted (s : Store) (d : Datum) (spec : List Char) : Except Fault (List Char) :=
  if spec.isEmpty then .ok (d.plain s).toList
  else
    let fit (o : Spec → Except Misfit (List Char)) : Except Fault (List Char) :=
      match Spec.read? spec with
      | Option.none => .error .wrongValue
      | Option.some p =>
        match o p with
        | .ok cs => .ok cs
        | .error .spec => .error .wrongValue
        | .error .overflow => .error .overflow
    match d with
    | str t => fit fun p => match p.text? t.toList with
      | Option.some cs => .ok cs
      | Option.none => .error .spec
    | d =>
      match d.number? with
      | Option.some (.int n) => fit (·.integer n)
      | Option.some (.float x) => fit (·.float x)
      | Option.none => .error .wrongType

/-- A text with its characters beyond the ASCII range written by their code points. -/
def asciiOnly (cs : List Char) : List Char :=
  cs.flatMap fun c => if c.toNat < 0x80 then [c] else Text.codePointEscape c.toNat

def converted (s : Store) (d : Datum) : Option Char → Except Fault Datum
  | Option.none => .ok d
  | Option.some 'r' => .ok (str (d.shown s))
  | Option.some 's' => .ok (str (d.plain s))
  | Option.some 'a' => .ok (str (String.ofList (asciiOnly (d.shown s).toList)))
  | Option.some _ => .error .wrongValue

/-- How the fields of a template choose their arguments. -/
inductive Numbering
  | unset | counting (next : Nat) | explicit
deriving DecidableEq, Repr

/-- The argument that a field begins with, and how the next fields choose theirs. -/
def argument (args : List Datum) (numbering : Numbering) (first : List Char) :
    Except Fault (Datum × Numbering) := do
  let arg (n : Nat) : Except Fault Datum := match args[n]? with
    | Option.some d => .ok d
    | Option.none => .error .noSuchIndex
  match ← indexOf first, numbering with
  | Option.some _, .counting _ => throw .wrongValue
  | Option.some n, _ => return (← arg n, .explicit)
  | Option.none, numbering =>
    if !first.isEmpty then throw .noSuchKey
    match numbering with
    | .explicit => throw .wrongValue
    | .unset => return (← arg 0, .counting 1)
    | .counting n => return (← arg n, .counting (n + 1))

/-! ## Templates -/

/-- Fills the pieces of a template, given how to fill the specification of a field. -/
def fillPieces (s : Store) (args : List Datum)
    (inner : Numbering → List Char → Except Fault (List Char × Numbering)) :
    Numbering → List Piece → Except Fault (List Char × Numbering)
  | numbering, [] => return ([], numbering)
  | _, .broken :: _ => throw .wrongValue
  | numbering, .char c :: ps => do
    let (rest, numbering) ← fillPieces s args inner numbering ps
    return (c :: rest, numbering)
  | numbering, .field f :: ps => do
    let (first, steps) := Format.splitName f.name
    let (d, numbering) ← argument args numbering first
    let d ← steps.foldlM (follow s) d
    let d ← converted s d f.conversion
    let (spec, numbering) ←
      if f.spec.contains '\x7b' then inner numbering f.spec else pure (f.spec, numbering)
    let text ← formatted s d spec
    let (rest, numbering) ← fillPieces s args inner numbering ps
    return (text ++ rest, numbering)

def fillTo (s : Store) (args : List Datum) :
    (depth : Nat) → Numbering → List Char → Except Fault (List Char × Numbering)
  | 0, _, _ => throw .wrongValue
  | depth + 1, numbering, template =>
    fillPieces s args (fillTo s args depth) numbering (Format.pieces template)

/-- A template with its debugging holes written as conversions. -/
def debugHoles : List Char → List Char
  | '\x7b' :: ':' :: '?' :: '\x7d' :: cs => '\x7b' :: '!' :: 'r' :: '\x7d' :: debugHoles cs
  | c :: cs => c :: debugHoles cs
  | [] => []

/-- A truth value as the text that items write for it. -/
def worded : Datum → Datum
  | bool b => str (if b then "true" else "false")
  | d => d

/-- Fills a template.  Specifications may hold fields themselves, but no deeper than one level. -/
def fill (s : Store) (template : List Char) (args : List Datum) : Except Fault (List Char) := do
  let (cs, _) ← fillTo s (args.map worded) 2 .unset (debugHoles template)
  return cs

end Yielding.Datum
