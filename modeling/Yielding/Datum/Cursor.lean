import Yielding.Datum.Basic

/-!
# Datum/Cursor — going through elements

A cursor gives its elements one by one and then stays at its end.  A cursor on a shared list sees
what happens to the list in the meantime.  A **slice** draws from another cursor only as many
elements as it needs.
-/

namespace Yielding

/-! ## One step -/

/-- Draws elements and drops them; whether all of them were there. -/
def dropDrawn (draw : StateM Store (Option Datum)) : Nat → StateM Store Bool
  | 0 => return true
  | n + 1 => do
    match ← draw with
    | some _ => dropDrawn draw n
    | none => return false

/-- Draws the next element from a cursor.  A slice draws from a cursor that is older than itself, so
the chain of sources is no longer than `depth`. -/
def draw : (depth : Nat) → CursorRef → StateM Store (Option Datum)
  | 0, _ => return none
  | depth + 1, r => do
    let s ← get
    let stop : StateM Store (Option Datum) := do
      modify (·.setWalk r .ended)
      return none
    let give (d : Datum) (walk : Walk) : StateM Store (Option Datum) := do
      modify (·.setWalk r walk)
      return some d
    match (s.cursorAt r).walk with
    | .ended => return none
    | .forward list index =>
      match (s.listAt list)[index]? with
      | some d => give d (.forward list (index + 1))
      | none => stop
    | .backward _ 0 => stop
    | .backward list (left + 1) =>
      match (s.listAt list)[left]? with
      | some d => give d (.backward list left)
      | none => stop
    | .through [] => stop
    | .through (d :: rest) => give d (.through rest)
    | .numbers _ 0 _ => stop
    | .numbers next (left + 1) step => give (.int next) (.numbers (next + step) left step)
    | .slice source skip limit =>
      if !(← dropDrawn (draw depth source) skip) then stop
      else
        match limit with
        | some 0 => stop
        | limit =>
          match ← draw depth source with
          | some d => give d (.slice source 0 (limit.map (· - 1)))
          | none => stop

def next (r : CursorRef) : Act (Option Datum) := do
  let s ← get
  draw s.cursors.length r

/-! ## All steps -/

/-- No more elements than this are left of a cursor, as long as no list grows. -/
def Store.leftAtMost (s : Store) : (depth : Nat) → CursorRef → Nat
  | 0, _ => 0
  | depth + 1, r =>
    match (s.cursorAt r).walk with
    | .ended => 0
    | .forward list index => (s.listAt list).length - index
    | .backward _ left => left
    | .through rest => rest.length
    | .numbers _ left _ => left
    | .slice source _ none => s.leftAtMost depth source
    | .slice source _ (some n) => min n (s.leftAtMost depth source)

/-- Draws up to `n` elements, after those that were drawn before, the last of them first. -/
def drawMany (r : CursorRef) : (n : Nat) → (drawn : List Datum) → Act (List Datum)
  | 0, drawn => return drawn.reverse
  | n + 1, drawn => do
    match ← next r with
    | none => return drawn.reverse
    | some d => drawMany r n (d :: drawn)

def drain (r : CursorRef) : Act (List Datum) := do
  let s ← get
  drawMany r (s.leftAtMost s.cursors.length r + 1) []

/-! ## Cursors on data -/

namespace Datum

/-- The elements of a sequence that cannot change. -/
def fixedElements? : Datum → Option (List Datum)
  | tuple items => Option.some items
  | str t => Option.some (t.toList.map fun c => str c.toString)
  | dict entries => Option.some (entries.map Prod.fst)
  | _ => Option.none

/-- A cursor on the elements of a datum.  A cursor is its own. -/
def cursorOn : Datum → Act CursorRef
  | list r => newCursor "list_iterator" (.forward r 0)
  | range start stop => newCursor "range_iterator" (.numbers start (rangeLength start stop) 1)
  | cursor r => return r
  | d =>
    match d.fixedElements? with
    | Option.some items => newCursor "iterator" (.through items)
    | Option.none => throw .wrongType

def elements (d : Datum) : Act (List Datum) := do drain (← d.cursorOn)

def count : Datum → Act Nat
  | range start stop => return rangeLength start stop
  | d => do return (← d.elements).length

def nextItem : Datum → Act Datum
  | cursor r => do
    match ← next r with
    | Option.some d => return some d
    | Option.none => return none
  | _ => throw .wrongType

/-- A cursor on the elements of a datum in reverse.  That on a list begins at the element that is
the last one now; other cursors are used up first. -/
def reversed : Datum → Act Datum
  | list r => do
    let s ← get
    return cursor (← newCursor "list_reverseiterator" (.backward r (s.listAt r).length))
  | range start stop => do
    let n := rangeLength start stop
    return cursor (← newCursor "range_iterator" (.numbers (start + n - 1) n (-1)))
  | d@(dict _) => do
    let items := (d.fixedElements?).getD []
    return cursor (← newCursor "dict_reversekeyiterator" (.through items.reverse))
  | d@(tuple _) | d@(str _) => do
    let items := (d.fixedElements?).getD []
    return cursor (← newCursor "reversed" (.through items.reverse))
  | d => do
    let items ← d.elements
    return cursor (← newCursor "list_reverseiterator" (.through items.reverse))

/-- The greatest number of elements that a slice can be told. -/
def mostElements : Int := 0x7fffffffffffffff

/-- The number of elements that a slice is told; nothing means none in particular. -/
def sliceBound : Datum → Act (Option Nat)
  | none => return Option.none
  | d =>
    match d.integer? with
    | Option.some n =>
      if 0 ≤ n && n ≤ mostElements then return Option.some n.toNat else throw .wrongValue
    | Option.none => throw .wrongValue

def take (d n : Datum) : Act Datum := do
  let limit ← n.sliceBound
  return cursor (← newCursor "islice" (.slice (← d.cursorOn) 0 limit))

def skip (d n : Datum) : Act Datum := do
  let n ← n.sliceBound
  return cursor (← newCursor "islice" (.slice (← d.cursorOn) (n.getD 0) Option.none))

end Datum

end Yielding
