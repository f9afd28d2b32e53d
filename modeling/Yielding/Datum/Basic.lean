import Yielding.Decimal
import Yielding.Text.Quoted

/-!
# Datum/Basic — the values that generated code computes with

A **datum** is a dynamic value.  Lists are shared: whoever holds a list sees what is pushed to it,
so a datum only refers to its list, and the list itself is kept in the **store**.  The same holds
for **cursors**, which go through the elements of something and remember how far they are.
-/

namespace Yielding

/-- A list, by its place in the store. -/
structure ListRef where
  index : Nat
deriving DecidableEq, Repr

/-- A cursor, by its place in the store. -/
structure CursorRef where
  index : Nat
deriving DecidableEq, Repr

/-- Dynamic values.  Two values that are not a number are the same only if they have the same
mark. -/
inductive Datum
  | none
  | bool (value : Bool)
  | int (value : Int)
  | float (value : Float)
  | nan (mark : Nat)
  | str (value : String)
  | tuple (items : List Datum)
  | dict (entries : List (Datum × Datum))
  | range (start stop : Int)
  | ok (payload : Datum)
  | err (payload : Datum)
  | some (payload : Datum)
  | list (ref : ListRef)
  | cursor (ref : CursorRef)
deriving Repr

/-- How a cursor goes on. -/
inductive Walk
  /-- Up a shared list. -/
  | forward (list : ListRef) (index : Nat)
  /-- Down a shared list: that many elements are left. -/
  | backward (list : ListRef) (left : Nat)
  /-- Through elements that cannot change any more. -/
  | through (rest : List Datum)
  /-- Through integers, `step` apart. -/
  | numbers (next : Int) (left : Nat) (step : Int)
  /-- Through what another cursor gives, after some elements and up to a limit. -/
  | slice (source : CursorRef) (skip : Nat) (limit : Option Nat)
  /-- It is at its end, and stays there. -/
  | ended
deriving Repr

/-- A cursor: the name of its kind, and how it goes on. -/
structure Cursor where
  kind : String
  walk : Walk
deriving Repr

/-- The shared lists and cursors, and the number of marks given out. -/
structure Store where
  lists : List (List Datum)
  cursors : List Cursor
  marks : Nat
deriving Repr, Inhabited

namespace Store

def empty : Store := ⟨[], [], 0⟩

def listAt (s : Store) (r : ListRef) : List Datum := s.lists.getD r.index []

def setList (s : Store) (r : ListRef) (items : List Datum) : Store :=
  { s with lists := s.lists.set r.index items }

def cursorAt (s : Store) (r : CursorRef) : Cursor := s.cursors.getD r.index ⟨"", .ended⟩

def setWalk (s : Store) (r : CursorRef) (walk : Walk) : Store :=
  { s with cursors := s.cursors.modify r.index fun c => { c with walk } }

end Store

/-! ## Faults and actions -/

/-- Why an operation fails. -/
inductive Fault
  /-- The program gives up, with a message. -/
  | panic (message : String)
  /-- `?` is used on what is no outcome. -/
  | notOutcome (kind : String)
  /-- A residual is asked of an outcome that has none. -/
  | notResidual (shown : String)
  | wrongType
  | wrongValue
  | overflow
  | divisionByZero
  | noSuchIndex
  | noSuchKey
  | noSuchAttribute
deriving DecidableEq, Repr

def Fault.message? : Fault → Option String
  | panic message => some message
  | notOutcome kind => some ("`?` needs a Result or an Option, got " ++ kind)
  | notResidual shown => some (shown ++ " is not a residual")
  | _ => none

/-- An action on the store that may fail.  What it did before it failed stays done. -/
abbrev Act := ExceptT Fault (StateM Store)

def newList (items : List Datum) : Act ListRef :=
  modifyGet fun s => (⟨s.lists.length⟩, { s with lists := s.lists ++ [items] })

def newCursor (kind : String) (walk : Walk) : Act CursorRef :=
  modifyGet fun s => (⟨s.cursors.length⟩, { s with cursors := s.cursors ++ [⟨kind, walk⟩] })

def ofFloat (x : Float) : Act Datum :=
  if x.isNaN then modifyGet fun s => (.nan s.marks, { s with marks := s.marks + 1 })
  else return .float x

/-! ## Classification -/

namespace Datum

def kind (s : Store) : Datum → String
  | none => "NoneType"
  | bool _ => "bool"
  | int _ => "int"
  | float _ | nan _ => "float"
  | str _ => "str"
  | tuple _ => "tuple"
  | dict _ => "dict"
  | range .. => "range"
  | ok _ => "Ok"
  | err _ => "Err"
  | some _ => "Some"
  | list _ => "list"
  | cursor r => (s.cursorAt r).kind

def rangeLength (start stop : Int) : Nat := (stop - start).toNat

/-- Whether a datum counts as true: zero, nothing and what is empty do not. -/
def isTruthy (s : Store) : Datum → Bool
  | none => false
  | bool b => b
  | int n => n ≠ 0
  | float x => x != 0.0
  | str t => t ≠ ""
  | tuple items => !items.isEmpty
  | dict entries => !entries.isEmpty
  | range start stop => rangeLength start stop ≠ 0
  | list r => !(s.listAt r).isEmpty
  | nan _ | ok _ | err _ | some _ | cursor _ => true

mutual

/-- Whether a datum can be the key of a dictionary. -/
def isHashable : Datum → Bool
  | list _ | dict _ => false
  | tuple items => allHashable items
  | ok d | err d | some d => isHashable d
  | _ => true

def allHashable : List Datum → Bool
  | [] => true
  | d :: ds => isHashable d && allHashable ds

end

/-- A number, whole or not. -/
inductive Number
  | int (value : Int)
  | float (value : Float)
deriving Repr

/-- The number that a datum stands for; truth values count as zero and one. -/
def number? : Datum → Option Number
  | bool b => Option.some (.int (if b then 1 else 0))
  | int n => Option.some (.int n)
  | float x => Option.some (.float x)
  | nan _ => Option.some (.float (0.0 / 0.0))
  | _ => Option.none

/-- The integer that a datum stands for; truth values count as zero and one. -/
def integer? : Datum → Option Int
  | bool b => Option.some (if b then 1 else 0)
  | int n => Option.some n
  | _ => Option.none

end Datum

end Yielding
