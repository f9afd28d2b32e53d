import Yielding.Datum.Cursor
import Yielding.Datum.Format

/-!
# Datum/Operation — the operations that generated code calls

Every operation takes a row of arguments.  A row that an operation does not take is of a wrong
type.
-/

namespace Yielding

/-!
## Division and remainder

Integers divide toward zero, and the remainder has the sign of the dividend.  All other numbers
divide as floating-point numbers, where the remainder is exact.
-/

def quotient (a b : Int) : Int :=
  let q : Int := a.natAbs / b.natAbs
  if 0 ≤ a ↔ 0 ≤ b then q else -q

def remainder (a b : Int) : Int := a - b * quotient a b

/-- The exact remainder of finite floating-point numbers, `y` not zero; it has the sign of `x`. -/
def floatRemainder (x y : Float) : Float :=
  let a := floatRatio x
  let b := floatRatio y
  let r := (⟨a.num * b.den % (b.num * a.den), a.den * b.den⟩ : Decimal.Ratio).toFloat
  if isNegative x then -r else r

namespace Datum

def Number.toFloat : Number → Act Float
  | .float x => return x
  | .int n => do
    let x := floatOfInt n
    if x.isInf then throw .overflow
    return x

/-- The integers of a division that stays among them: the dividend must be an integer proper. -/
def integers? : Datum → Datum → Option (Int × Int)
  | int a, b => b.integer?.map (a, ·)
  | _, _ => Option.none

def integerRatio (a b : Int) : Act Datum := do
  if b = 0 then throw .divisionByZero
  let x := (⟨a.natAbs, b.natAbs⟩ : Decimal.Ratio).toFloat
  if x.isInf then throw .overflow
  return float (if a < 0 ↔ b < 0 then x else -x)

def floatQuotient (a b : Datum) : Act Datum := do
  match a.number?, b.number? with
  | Option.some (.int a), Option.some (.int b) => integerRatio a b
  | Option.some a, Option.some b =>
    let x ← a.toFloat
    let y ← b.toFloat
    if y == 0.0 then throw .divisionByZero
    ofFloat (x / y)
  | _, _ => throw .wrongType

/-- Division, of whole numbers towards zero. -/
def div (a b : Datum) : Act Datum :=
  match integers? a b with
  | Option.some (a, b) =>
    if b = 0 then throw (.panic "attempt to divide by zero") else return int (quotient a b)
  | Option.none => floatQuotient a b

def asFloat (d : Datum) : Act Float :=
  match d.number? with
  | Option.some n => n.toFloat
  | Option.none => throw .wrongType

/-- The remainder of floating-point numbers.  There is none by zero, nor of what is infinite; by
what is infinite everything is left over. -/
def floatRem (x y : Float) : Act Datum :=
  if x.isNaN || y.isNaN then ofFloat (0.0 / 0.0)
  else if x.isInf || y == 0.0 then throw .wrongValue
  else if y.isInf then return float x
  else return float (floatRemainder x y)

/-- The remainder of this division. -/
def rem (a b : Datum) : Act Datum :=
  match integers? a b with
  | Option.some (a, b) =>
    if b = 0 then throw (.panic "attempt to calculate the remainder with a divisor of zero")
    else return int (remainder a b)
  | Option.none => do
    let x ← a.asFloat
    floatRem x (← b.asFloat)

end Datum

/-!
## Deep copies

A deep copy shares no list and no cursor with what it was made from.  Inside the copy, sharing is
kept: what was one list is one list again.
-/

/-- What was copied so far, with the copies. -/
structure Copies where
  lists : List (ListRef × ListRef)
  cursors : List (CursorRef × CursorRef)

abbrev Copying := StateT Copies Act

/-- How lists and cursors are copied. -/
structure Copier where
  list : ListRef → Copying ListRef
  cursor : CursorRef → Copying CursorRef

namespace Copier

mutual

def datum (c : Copier) : Datum → Copying Datum
  | .tuple items => do return .tuple (← row c items)
  | .dict es => do return .dict (← entries c es)
  | .ok d => do return .ok (← datum c d)
  | .err d => do return .err (← datum c d)
  | .some d => do return .some (← datum c d)
  | .list r => do return .list (← c.list r)
  | .cursor r => do return .cursor (← c.cursor r)
  | d => return d

def row (c : Copier) : List Datum → Copying (List Datum)
  | [] => return []
  | d :: ds => do
    let d ← datum c d
    return d :: (← row c ds)

def entries (c : Copier) : List (Datum × Datum) → Copying (List (Datum × Datum))
  | [] => return []
  | (k, v) :: es => do
    let k ← datum c k
    let v ← datum c v
    return (k, v) :: (← entries c es)

end

def copyList (c : Copier) (r : ListRef) : Copying ListRef := do
  match (← get).lists.lookup r with
  | some copy => return copy
  | none =>
    let copy ← newList []
    modify fun m => { m with lists := (r, copy) :: m.lists }
    let items ← c.row ((← getThe Store).listAt r)
    modifyThe Store (·.setList copy items)
    return copy

/-- The copy of how a cursor goes on.  Going down a list that has become shorter begins at its
end. -/
def copyWalk (c : Copier) : Walk → Copying Walk
  | .forward list index => do return .forward (← c.list list) index
  | .backward list left => do
    let s ← getThe Store
    return .backward (← c.list list) (min left (s.listAt list).length)
  | .through rest => do return .through (← c.row rest)
  | .slice source skip limit => do return .slice (← c.cursor source) skip limit
  | w => return w

/-- The copy of a cursor: the same for every reference to it. -/
def copyCursor (c : Copier) (r : CursorRef) : Copying CursorRef := do
  match (← get).cursors.lookup r with
  | some copy => return copy
  | none =>
    let cursor := (← getThe Store).cursorAt r
    let walk ← c.copyWalk cursor.walk
    let copy ← newCursor cursor.kind walk
    modify fun m => { m with cursors := (r, copy) :: m.cursors }
    return copy

def ofDepth : (depth : Nat) → Copier
  | 0 => ⟨pure, pure⟩
  | depth + 1 => ⟨copyList (ofDepth depth), copyCursor (ofDepth depth)⟩

end Copier

/-- A deep copy.  References are nested no deeper than there are lists and cursors. -/
def Datum.clone (d : Datum) : Act Datum := do
  let s ← get
  let (copy, _) ← ((Copier.ofDepth (s.lists.length + s.cursors.length + 1)).datum d).run ⟨[], []⟩
  return copy

end Yielding

namespace Yielding.Datum

/-!
## Results and options

`Ok` and `Some` carry an **output**; `Err` and nothing are **residuals**, which `?` hands on.
Everything else is no outcome.
-/

/-- What `?` finds in a datum. -/
inductive Outcome
  | output (payload : Datum)
  | failed (error : Datum)
  | absent

def outcome? : Datum → Option Outcome
  | ok v | some v => Option.some (.output v)
  | err e => Option.some (.failed e)
  | none => Option.some .absent
  | _ => Option.none

def outcome (d : Datum) : Act Outcome := do
  match d.outcome? with
  | Option.some o => return o
  | Option.none => throw (.notOutcome (d.kind (← get)))

/-- Whether `?` hands the datum on. -/
def isResidual (d : Datum) : Act Bool := do
  match ← d.outcome with
  | .output _ => return false
  | .failed _ | .absent => return true

/-- What `?` hands on. -/
def residual (d : Datum) : Act Datum := do
  if ← d.isResidual then return d else throw (.notResidual (d.shown (← get)))

/-- The value of a successful `?`. -/
def output (d : Datum) : Act Datum := do
  match d.outcome? with
  | Option.some (.output v) => return v
  | _ => throw (.notOutcome (d.kind (← get)))

/-- The output, or a panic. -/
def unwrap (d : Datum) : Act Datum := do
  match ← d.outcome with
  | .output v => return v
  | .absent => throw (.panic "called `Option::unwrap()` on a `None` value")
  | .failed e =>
    throw (.panic ("called `Result::unwrap()` on an `Err` value: " ++ e.shown (← get)))

/-- The output, or a panic with the given message. -/
def expect (d message : Datum) : Act Datum := do
  let s ← get
  match ← d.outcome with
  | .output v => return v
  | .absent => throw (.panic (message.plain s))
  | .failed e => throw (.panic (message.plain s ++ ": " ++ e.shown s))

/-- The output, or something else. -/
def unwrapOr (d otherwise : Datum) : Act Datum := do
  match ← d.outcome with
  | .output v => return v
  | .failed _ | .absent => return otherwise

/-! ## The operations that generated code calls -/

/-- Takes the last element away from a list.  What counts as false has none. -/
def pop (d : Datum) : Act Datum := do
  let s ← get
  if !d.isTruthy s then return none
  match d with
  | list r =>
    let items := s.listAt r
    set (s.setList r items.dropLast)
    return (items.getLast?).elim none some
  | dict _ => throw .wrongType
  | _ => throw .noSuchAttribute

/-- The part of a datum at a key, if it is there. -/
def get (d key : Datum) : Act Datum := do
  match d.item (← MonadState.get) key with
  | .ok v => return some v
  | .error .noSuchIndex | .error .noSuchKey => return none
  | .error fault => throw fault

/-- The integer that a datum is turned into.  Fractions are cut off. -/
def toInteger (d : Datum) : Act Int := do
  match d with
  | bool b => return if b then 1 else 0
  | int n => return n
  | nan _ => throw .wrongValue
  | float x =>
    if x.isInf then throw .overflow
    let n : Int := (floatRatio x).floor
    return if isNegative x then -n else n
  | str t =>
    match Text.readInteger? t with
    | Option.some n => return n
    | Option.none => throw .wrongValue
  | _ => throw .wrongType

/-- A lower and an upper bound from exactly two elements.  The upper one may be an option. -/
def sizeHint (d : Datum) : Act Datum := do
  match ← drawMany (← d.cursorOn) 3 [] with
  | [lower, upper] =>
    let upper := match upper with
      | some v => v
      | v => v
    return tuple [int (← lower.toInteger), upper]
  | _ => throw .wrongValue

def format (template : Datum) (args : List Datum) : Act String := do
  match template with
  | str t =>
    match fill (← MonadState.get) t.toList args with
    | .ok cs => return String.ofList cs
    | .error fault => throw fault
  | _ => throw .wrongType

/-- Gives up, with the message of a template. -/
def panic : List Datum → Act Datum
  | [] | none :: _ => throw (.panic "explicit panic")
  | template :: args => do throw (.panic (← template.format args))

/-- Gives up unless a condition holds. -/
def assert (condition : Datum) (message : List Datum) : Act Datum := do
  if condition.isTruthy (← MonadState.get) then return none
  match message with
  | [] | none :: _ => throw (.panic "assertion failed")
  | template :: args => throw (.panic (← template.format args))

/-- The operations that generated code relies on. -/
inductive Operation
  | isResidual | residual | output | isSome | isNone | isOk | isErr | unwrap | expect | unwrapOr
  | sizeHint | div | rem | clone | toText | nextItem | pop | get | rev | take | skip | count
  | format | panic | assert
deriving DecidableEq, Repr

namespace Operation

def all : List Operation :=
  [isResidual, residual, output, isSome, isNone, isOk, isErr, unwrap, expect, unwrapOr, sizeHint,
   div, rem, clone, toText, nextItem, pop, get, rev, take, skip, count, format, panic, assert]

/-- The name by which generated code calls an operation. -/
def name : Operation → String
  | isResidual => "is_residual"
  | residual => "residual"
  | output => "output"
  | isSome => "is_some"
  | isNone => "is_none"
  | isOk => "is_ok"
  | isErr => "is_err"
  | unwrap => "unwrap"
  | expect => "expect"
  | unwrapOr => "unwrap_or"
  | sizeHint => "size_hint"
  | div => "div"
  | rem => "rem"
  | clone => "clone"
  | toText => "to_string"
  | nextItem => "next_item"
  | pop => "pop"
  | get => "get"
  | rev => "rev"
  | take => "take"
  | skip => "skip"
  | count => "count"
  | format => "fmt"
  | panic => "panic"
  | assert => "assert_"

def ofName? (s : String) : Option Operation := all.find? (·.name == s)

def apply : Operation → List Datum → Act Datum
  | isResidual, [d] => do return .bool (← d.isResidual)
  | residual, [d] => d.residual
  | output, [d] => d.output
  | isSome, [d] => return .bool (d matches .some _)
  | isNone, [d] => return .bool (d matches .none)
  | isOk, [d] => return .bool (d matches .ok _)
  | isErr, [d] => return .bool (d matches .err _)
  | unwrap, [d] => d.unwrap
  | expect, [d, message] => d.expect message
  | unwrapOr, [d, otherwise] => d.unwrapOr otherwise
  | sizeHint, [d] => d.sizeHint
  | div, [a, b] => a.div b
  | rem, [a, b] => a.rem b
  | clone, [d] => d.clone
  | toText, [d] => do return .str (d.display (← MonadState.get))
  | nextItem, [d] => d.nextItem
  | pop, [d] => d.pop
  | get, [d, key] => d.get key
  | rev, [d] => d.reversed
  | take, [d, n] => d.take n
  | skip, [d, n] => d.skip n
  | count, [d] => do return .int (← d.count)
  | format, template :: args => do return .str (← template.format args)
  | panic, args => Datum.panic args
  | assert, condition :: message => condition.assert message
  | _, _ => throw .wrongType

end Operation

end Yielding.Datum
