import Yielding.Datum.Operation

/-!
# Datum/Session — operations on named data, one after the other

A **session** keeps a store and names for data in it.  Its **commands** write data by shapes, which
may refer to names, and answer by shapes again.  A command that fails leaves behind what it did
before.
-/

namespace Yielding

/-- A datum as it is written down.  `iter` is a fresh cursor on a list; in an answer it shows what
was left of one. -/
inductive Shape
  | none
  | bool (value : Bool)
  | int (value : Int)
  | float (value : Float)
  | str (value : String)
  | list (items : List Shape)
  | tuple (items : List Shape)
  | dict (entries : List (Shape × Shape))
  | range (start stop : Int)
  | ok (payload : Shape)
  | err (payload : Shape)
  | some (payload : Shape)
  | iter (items : List Shape)
  | var (name : String)
deriving Repr

namespace Shape

/-- The named data of a session, the last binding of a name first. -/
abbrev Variables := List (String × Datum)

mutual

def eval (vars : Variables) : Shape → Act Datum
  | none => return .none
  | bool b => return .bool b
  | int n => return .int n
  | float x => ofFloat x
  | str s => return .str s
  | list items => do return .list (← newList (← evalRow vars items))
  | tuple items => do return .tuple (← evalRow vars items)
  | dict entries => do return .dict (← evalEntries vars [] entries)
  | range start stop => return .range start stop
  | ok v => do return .ok (← eval vars v)
  | err v => do return .err (← eval vars v)
  | some v => do return .some (← eval vars v)
  | iter items => do
    let items ← newList (← evalRow vars items)
    return .cursor (← (Datum.list items).cursorOn)
  | var name =>
    match vars.lookup name with
    | Option.some d => return d
    | Option.none => throw .noSuchKey

def evalRow (vars : Variables) : List Shape → Act (List Datum)
  | [] => return []
  | f :: fs => do
    let d ← eval vars f
    return d :: (← evalRow vars fs)

def evalEntries (vars : Variables) (done : List (Datum × Datum)) :
    List (Shape × Shape) → Act (List (Datum × Datum))
  | [] => return done
  | (k, v) :: es => do
    let k ← eval vars k
    let v ← eval vars v
    if !k.isHashable then throw .wrongType
    evalEntries vars (Datum.putEntry (← get) done k v) es

end

/-! ## Answers -/

/-- How lists and cursors are shown. -/
structure Revealer where
  list : ListRef → Act Shape
  cursor : CursorRef → Act Shape

mutual

def revealBy (r : Revealer) : Datum → Act Shape
  | .none => return none
  | .bool b => return bool b
  | .int n => return int n
  | .float x => return float x
  | .nan _ => return float (0.0 / 0.0)
  | .str s => return str s
  | .tuple items => do return tuple (← revealRow r items)
  | .dict entries => do return dict (← revealEntries r entries)
  | .range start stop => return range start stop
  | .ok v => do return ok (← revealBy r v)
  | .err v => do return err (← revealBy r v)
  | .some v => do return some (← revealBy r v)
  | .list ref => r.list ref
  | .cursor ref => r.cursor ref

def revealRow (r : Revealer) : List Datum → Act (List Shape)
  | [] => return []
  | d :: ds => do
    let f ← revealBy r d
    return f :: (← revealRow r ds)

def revealEntries (r : Revealer) : List (Datum × Datum) → Act (List (Shape × Shape))
  | [] => return []
  | (k, v) :: es => do
    let k ← revealBy r k
    let v ← revealBy r v
    return (k, v) :: (← revealEntries r es)

end

/-- Shows references as deep as `depth`. -/
def Revealer.ofDepth : (depth : Nat) → Revealer
  | 0 => ⟨fun _ => return none, fun _ => return none⟩
  | depth + 1 =>
    let inner := Revealer.ofDepth depth
    { list := fun ref => do return Shape.list (← revealRow inner ((← get).listAt ref))
      cursor := fun ref => do return Shape.iter (← revealRow inner (← drain ref)) }

def reveal (d : Datum) : Act Shape := do
  let s ← get
  revealBy (.ofDepth (s.lists.length + s.cursors.length + 1)) d

end Shape

/-! ## Commands -/

/-- One step of a session. -/
inductive Command
  /-- Gives a name to a datum. -/
  | name (name : String) (value : Shape)
  /-- Puts an element at the end of a list. -/
  | push (name : String) (value : Shape)
  /-- Shows a named datum. -/
  | look (name : String)
  | equal (left right : Shape)
  | text (value : Shape)
  /-- Applies an operation, and shows the result or gives it a name. -/
  | apply (operation : Datum.Operation) (args : List Shape) (result : Option String)

/-- A store and the names for data in it. -/
structure Session where
  store : Store
  names : Shape.Variables

namespace Session

def empty : Session := ⟨.empty, []⟩

/-- What a command does, and the name that it gives, if it gives one. -/
def perform (vars : Shape.Variables) : Command → Act (Shape × Shape.Variables)
  | .name name value => do return (.none, (name, ← value.eval vars) :: vars)
  | .push name value => do
    match vars.lookup name with
    | none => throw .noSuchKey
    | some (.list r) =>
      let d ← value.eval vars
      modify fun s => s.setList r (s.listAt r ++ [d])
      return (.none, vars)
    | some _ => throw .noSuchAttribute
  | .look name => do
    match vars.lookup name with
    | none => throw .noSuchKey
    | some d => return (← Shape.reveal d, vars)
  | .equal left right => do
    let a ← left.eval vars
    let b ← right.eval vars
    return (.bool (a.equal (← get) b), vars)
  | .text value => do
    let d ← value.eval vars
    return (.str (d.shown (← get)), vars)
  | .apply operation args result => do
    let d ← operation.apply (← Shape.evalRow vars args)
    match result with
    | none => return (← Shape.reveal d, vars)
    | some name => return (.none, (name, d) :: vars)

def run (c : Command) (session : Session) : Except Fault Shape × Session :=
  match (perform session.names c).run.run session.store with
  | (.ok (shape, vars), store) => (.ok shape, ⟨store, vars⟩)
  | (.error fault, store) => (.error fault, { session with store })

def runAll : List Command → Session → List (Except Fault Shape)
  | [], _ => []
  | c :: cs, session =>
    let (answer, session) := session.run c
    answer :: runAll cs session

end Session

end Yielding
