import Yielding.Diagnostic
import Yielding.Typing.Infer

/-!
# Borrow/Walk — which bindings hold borrows of which

The walk goes through an item in program order and gives every event a position: a binding, a borrow
that a binding comes to hold (a **taint**), a `yield`, a use of a name.  A taint names the
**lenders**, the bindings whose storage is borrowed.  Loops record the positions they span.
-/

namespace Yielding.Borrow

/-! ## What well-known methods do with borrows -/

/-- Methods whose result borrows from the receiver. -/
def borrowing : List String :=
  ["iter", "iter_mut", "chars", "char_indices", "bytes", "lines", "split", "split_whitespace",
   "as_str", "as_slice", "as_ref", "as_mut", "windows", "chunks", "keys", "values", "values_mut",
   "drain", "get", "get_mut", "first", "last", "peek", "borrow", "borrow_mut"]

/-- Methods whose result carries what the receiver and the arguments already borrow, without
borrowing the receiver itself. -/
def forwarding : List String :=
  ["next", "next_back", "take", "replace", "unwrap", "unwrap_or", "unwrap_or_default", "expect",
   "ok", "err", "pop", "pop_front", "pop_back", "into_iter", "map", "filter", "filter_map",
   "flat_map", "flatten", "rev", "enumerate", "zip", "chain", "skip", "skip_while", "take_while",
   "step_by", "peekable", "cloned", "copied", "find", "nth", "min", "max"]

/-- Methods that store their arguments inside the receiver. -/
def storing : List String :=
  ["push", "push_back", "push_front", "insert", "extend", "append", "add", "set", "replace", "put",
   "get_or_insert"]

/-- Methods whose result never borrows, even from a receiver that does. -/
def owning : List String :=
  ["clone", "to_string", "to_owned", "to_vec", "collect", "count", "sum", "product", "len",
   "is_empty", "is_some", "is_none", "is_ok", "is_err", "contains", "starts_with", "ends_with",
   "eq", "ne", "abs", "pow", "powi", "powf", "sqrt", "signum", "checked_add", "checked_sub",
   "checked_mul", "checked_div", "wrapping_add", "wrapping_sub", "wrapping_mul",
   "saturating_add", "saturating_sub", "to_uppercase", "to_lowercase", "to_ascii_uppercase",
   "to_ascii_lowercase", "to_digit", "is_alphabetic", "is_numeric", "is_whitespace",
   "is_ascii_digit", "parse", "position", "any", "all", "cmp", "partial_cmp"]

/-! ## Which bindings hold borrows of which -/

/-- A set of bindings, by number; no number occurs twice. -/
abbrev Lenders := List Nat

def Lenders.union (a b : Lenders) : Lenders := a ++ b.filter fun i => !a.contains i

/-- What a binding comes to point into at a position. -/
structure Taint where
  pos : Nat
  lenders : Lenders
  region : Region
deriving DecidableEq, Repr, Inhabited

/-- A binding of a name.  What is borrowed through a binding that is not `owned` belongs to the
caller. -/
structure Binding where
  name : String
  pos : Nat
  owned : Bool
  taints : List Taint
deriving DecidableEq, Repr

def Binding.lenders (b : Binding) : Lenders :=
  b.taints.foldl (fun found t => found.union t.lenders) []

/-- A use of a binding, with the loops around it from the outermost to the innermost. -/
structure Use where
  binding : Nat
  pos : Nat
  loops : List Nat
  region : Region
deriving DecidableEq, Repr

/-- A place where the item suspends. -/
structure Suspension where
  pos : Nat
  region : Region
deriving DecidableEq, Repr

/-- The positions that a loop covers. -/
structure LoopRange where
  first : Nat
  last : Nat
deriving DecidableEq, Repr

/-- What the walk has noted of an item so far. -/
structure Trace where
  pos : Nat := 0
  bindings : Array Binding := #[]
  /-- The bindings in scope, the innermost first. -/
  scope : List (String × Nat) := []
  loops : Array LoopRange := #[]
  /-- The loops around the current place, from the outermost to the innermost. -/
  around : List Nat := []
  suspensions : Array Suspension := #[]
  uses : Array Use := #[]
  diagnostics : List Diagnostic := []

namespace Trace

def tick (t : Trace) : Trace := { t with pos := t.pos + 1 }

def lookup? (t : Trace) (name : String) : Option Nat := t.scope.lookup name

def lendersOf (t : Trace) (i : Nat) : Lenders := ((t.bindings[i]?).map Binding.lenders).getD []

def bind (t : Trace) (name : String) (owned : Bool) (taints : Nat → List Taint) : Trace :=
  let t := t.tick
  { t with
    bindings := t.bindings.push ⟨name, t.pos, owned, taints t.pos⟩
    scope := (name, t.bindings.size) :: t.scope }

def bindPattern (t : Trace) (p : Pattern) (lenders : Lenders) (region : Region)
    (owned : Bool := true) : Trace :=
  p.bindings.foldl
    (fun t (name, _) =>
      t.bind name owned fun pos => if lenders.isEmpty then [] else [⟨pos, lenders, region⟩])
    t

/-- Lets a binding hold more borrows from the next position on. -/
def taint (t : Trace) (i : Nat) (lenders : Lenders) (region : Region) : Trace :=
  if lenders.isEmpty then t
  else
    let t := t.tick
    { t with bindings := t.bindings.modify i fun b =>
        { b with taints := b.taints ++ [⟨t.pos, lenders, region⟩] } }

/-- Runs a part of the walk and then forgets the names it has bound. -/
def within (t : Trace) (walk : Trace → Trace) : Trace := { walk t with scope := t.scope }

end Trace

/-! ## Borrows of values -/

/-- The name at the root of a place: fields, elements and dereferences belong to what they are taken
from. -/
def rootName? : Expr → Option String
  | .name _ x => some x
  | .field _ value _ | .tupleField _ value _ | .index _ value _ | .unary _ .deref value =>
    rootName? value
  | _ => none

/-- The binding at the root of a place. -/
def root? (t : Trace) (place : Expr) : Option Nat := (rootName? place).bind t.lookup?

/-- What a borrow of a place points into: its root, if the item owns it, and all that its root holds
borrows of. -/
def placeLenders (t : Trace) (place : Expr) : Lenders :=
  match root? t place with
  | none => []
  | some i =>
    match t.bindings[i]? with
    | none => []
    | some b => if b.owned then b.lenders.union [i] else b.lenders

mutual

/-- The bindings whose storage the value of an expression may point into. -/
def lenders (fns : FnTypes) (t : Trace) : Expr → Lenders
  | .borrow _ value _ => placeLenders t value
  | .name _ ident => ((t.lookup? ident).map t.lendersOf).getD []
  | e@(.field ..) | e@(.tupleField ..) | e@(.index ..) => ((root? t e).map t.lendersOf).getD []
  | .methodCall _ receiver method args =>
    if borrowing.contains method then
      if (root? t receiver).isSome then placeLenders t receiver else lenders fns t receiver
    else if owning.contains method then []
    else
      let passed := rowLenders fns t args
      if forwarding.contains method || (root? t receiver).isNone then
        (lenders fns t receiver).union passed
      else (placeLenders t receiver).union passed
  | .tuple _ elements | .array _ elements => rowLenders fns t elements
  | .call _ func args =>
    let owned := match func with
      | .name _ ident => match fns.lookup ident with
        | some result => !result.mayBorrow
        | none => false
      | _ => false
    if owned then [] else rowLenders fns t args
  | .attempt _ operand => lenders fns t operand
  | _ => []

def rowLenders (fns : FnTypes) (t : Trace) : List Expr → Lenders
  | [] => []
  | e :: es => (lenders fns t e).union (rowLenders fns t es)

end

/-! ## The walk -/

/-- What an expression does after its parts: a name is used, a `yield` suspends, and a storing
method lets its receiver hold what its arguments borrow. -/
def visit (fns : FnTypes) (e : Expr) (t : Trace) : Trace :=
  match e with
  | .name r ident =>
    match t.lookup? ident with
    | none => t
    | some i =>
      let t := t.tick
      { t with uses := t.uses.push ⟨i, t.pos, t.around, r⟩ }
  | .yield r _ =>
    let t := t.tick
    { t with suspensions := t.suspensions.push ⟨t.pos, r⟩ }
  | .methodCall r receiver method args =>
    if storing.contains method then
      match root? t receiver with
      | none => t
      | some i => t.taint i (rowLenders fns t args) r
    else t
  | _ => t

mutual

def walkExpr (fns : FnTypes) (t : Trace) : Expr → Trace
  | e@(.literal ..) | e@(.name ..) | e@(.path ..) | e@(.yield _ none) => visit fns e t
  | e@(.call _ func args) => visit fns e (walkRow fns (walkExpr fns t func) args)
  | e@(.methodCall _ receiver _ args) => visit fns e (walkRow fns (walkExpr fns t receiver) args)
  | e@(.field _ value _) | e@(.tupleField _ value _) | e@(.borrow _ value _) | e@(.await _ value)
  | e@(.unary _ _ value) | e@(.attempt _ value) | e@(.yield _ (some value)) =>
    visit fns e (walkExpr fns t value)
  | e@(.index _ left right) | e@(.binary _ _ left right) | e@(.range _ left right _) =>
    visit fns e (walkExpr fns (walkExpr fns t left) right)
  | e@(.tuple _ row) | e@(.array _ row) | e@(.macroCall _ _ row) | e@(.helper _ _ row) =>
    visit fns e (walkRow fns t row)

def walkRow (fns : FnTypes) (t : Trace) : List Expr → Trace
  | [] => t
  | e :: es => walkRow fns (walkExpr fns t e) es

end

def walkOptional (fns : FnTypes) (t : Trace) : Option Expr → Trace
  | none => t
  | some e => walkExpr fns t e

def walkCondition (fns : FnTypes) (t : Trace) : Condition → Trace
  | .test e => walkExpr fns t e
  | .letMatch _ p value =>
    let t := walkExpr fns t value
    t.bindPattern p (lenders fns t value) value.region

mutual

def stmtYields : Stmt → Bool
  | .letIn _ _ _ value none => value.yields
  | .letIn _ _ _ value (some b) => value.yields || blockYields b
  | .assign _ target value _ => target.yields || value.yields
  | .expr _ value => value.yields
  | .ret _ value => value.any Expr.yields
  | .ifElse _ c a none => c.value.yields || blockYields a
  | .ifElse _ c a (some b) => c.value.yields || blockYields a || blockYields b
  | .whileDo _ c b => c.value.yields || blockYields b
  | .loop _ b | .block _ b => blockYields b
  | .forIn _ _ iterable b => iterable.yields || blockYields b
  | .matchOn _ subject arms => subject.yields || armsYield arms
  | _ => false

def rowYields : List Stmt → Bool
  | [] => false
  | s :: ss => stmtYields s || rowYields ss

def blockYields : Block → Bool
  | .mk stmts _ tail => rowYields stmts || tail.any Expr.yields

def armsYield : List Arm → Bool
  | [] => false
  | .mk _ _ guard b :: arms => guard.any Expr.yields || blockYields b || armsYield arms

end

def names (t : Trace) (ls : Lenders) : String :=
  ", ".intercalate ((ls.mergeSort (· ≤ ·)).map fun i =>
    "`" ++ ((t.bindings[i]?).map Binding.name).getD "" ++ "`")

/-- The error of a loop whose hidden iterator holds a borrow while its body suspends. -/
def loopError (file : Option String) (t : Trace) (iterable : Expr) (ls : Lenders) : Diagnostic :=
  .ofCheck .escapingSelfReference
    ("`for` loop iterator borrows " ++ names t ls ++ " across a `yield` in the loop body")
    (.ofRegion file iterable.region)
    ["the loop keeps the iterator alive while the computation is suspended",
     "iterate over an owned value (e.g. `.clone().into_iter()` or indices) instead"]

def walkLoop (t : Trace) (inside : Trace → Trace) : Trace :=
  let t := t.tick
  let loop := t.loops.size
  let start : LoopRange := ⟨t.pos, 0⟩
  let entered := { t with loops := t.loops.push start, around := t.around ++ [loop] }
  let left := (entered.within inside).tick
  { left with
    around := t.around
    loops := left.loops.modify loop fun range => { range with last := left.pos } }

/-- Whether a declared type leaves the binding owned by the item. -/
def ownedBy (type : Option Ty) : Bool := type.all fun t => !t.isRef

mutual

def walkStmt (file : Option String) (fns : FnTypes) (t : Trace) : Stmt → Trace
  | .letIn _ p type value none =>
    let t := walkExpr fns t value
    let held := if type.all Ty.mayBorrow then lenders fns t value else []
    t.bindPattern p held value.region (ownedBy type)
  | .letIn _ p type value (some b) =>
    let t := walkExpr fns t value
    let held := if type.all Ty.mayBorrow then lenders fns t value else []
    let t := walkBlock file fns t b
    t.bindPattern p held value.region (ownedBy type)
  | .assign _ target value _ =>
    let t := walkExpr fns t value
    let t := match target with
      | .name .. => t
      | _ => walkExpr fns t target
    match root? t target with
    | none => t
    | some i => t.taint i ((lenders fns t value).filter (· ≠ i)) value.region
  | .expr _ value => walkExpr fns t value
  | .ret _ value => walkOptional fns t value
  | .ifElse _ c a none =>
    t.within fun t => walkBlock file fns (walkCondition fns t c) a
  | .ifElse _ c a (some b) =>
    walkBlock file fns (t.within fun t => walkBlock file fns (walkCondition fns t c) a) b
  | .whileDo _ c b => walkLoop t fun t => walkBlock file fns (walkCondition fns t c) b
  | .loop _ b => walkLoop t fun t => walkBlock file fns t b
  | .forIn _ p iterable b =>
    let t := walkExpr fns t iterable
    let held := lenders fns t iterable
    let escapes := !held.isEmpty && blockYields b
    let t :=
      if escapes then
        { t with diagnostics := t.diagnostics ++ [loopError file t iterable held] }
      else t
    let held := if escapes then [] else held
    walkLoop t fun t => walkBlock file fns (t.bindPattern p held iterable.region) b
  | .block _ b => walkBlock file fns t b
  | .matchOn _ subject arms =>
    let t := walkExpr fns t subject
    walkArms file fns t (lenders fns t subject) subject.region arms
  | _ => t

def walkStmts (file : Option String) (fns : FnTypes) (t : Trace) : List Stmt → Trace
  | [] => t
  | s :: ss => walkStmts file fns (walkStmt file fns t s) ss

def walkBlock (file : Option String) (fns : FnTypes) (t : Trace) : Block → Trace
  | .mk stmts _ tail => t.within fun t => walkOptional fns (walkStmts file fns t stmts) tail

def walkArms (file : Option String) (fns : FnTypes) (t : Trace) (held : Lenders)
    (region : Region) : List Arm → Trace
  | [] => t
  | .mk _ p guard b :: arms =>
    let t := t.within fun t =>
      walkBlock file fns (walkOptional fns (t.bindPattern p held region) guard) b
    walkArms file fns t held region arms

end

def bindParams (t : Trace) (ps : List Param) : Trace :=
  ps.foldl
    (fun t p =>
      match p.kind with
      | .receiver kind => t.bind "self" (kind = .value) fun _ => []
      | .typed type => t.bind p.name (!type.isRef) fun _ => [])
    t

/-- The trace of a whole item: its parameters, its prelude, its body. -/
def trace (file : Option String) (d : Definition) : Trace :=
  walkBlock file d.fnTypes (walkStmts file d.fnTypes (bindParams {} d.params) d.prelude) d.body

/-!
## No borrow of a local outlives a suspension

A suspended computation keeps its locals.  A binding that holds a borrow of one of them must not be
used after a suspension that follows the borrow.  Inside a loop that the binding outlives, every
suspension of the loop counts as one that comes before the use.
-/

def suspensionBetween? (t : Trace) (first last : Nat) : Option Suspension :=
  t.suspensions.toList.find? fun y => first < y.pos && y.pos < last

/-- The suspension between a taint and a later use of its binding, if there is one. -/
def suspensionBefore? (t : Trace) (use : Use) (bindingPos taintPos : Nat) : Option Suspension :=
  suspensionBetween? t taintPos use.pos <|>
    use.loops.findSome? fun loop =>
      match t.loops[loop]? with
      | none => none
      | some range =>
        if bindingPos > range.first || taintPos > range.last then none
        else suspensionBetween? t range.first range.last

def useError (file : Option String) (t : Trace) (b : Binding) (use : Use) (taint : Taint)
    (y : Suspension) : Diagnostic :=
  let place (what : String) (p : Pos) : String :=
    what ++ " at line " ++ toString p.line ++ ", column " ++ toString p.column
  .ofCheck .escapingSelfReference
    ("`" ++ b.name ++ "` holds a borrow of " ++ names t taint.lenders ++
      " and is used after a `yield`")
    (.ofRegion file use.region)
    [place "borrow taken" taint.region.start,
     place "the computation suspends" y.region.start,
     "a suspended computation cannot hold references into its own locals"]

/-- The error that a use of a binding shows, if any. -/
def escape? (file : Option String) (t : Trace) (use : Use) : Option Diagnostic :=
  match t.bindings[use.binding]? with
  | none => none
  | some b => b.taints.findSome? fun taint =>
    (suspensionBefore? t use b.pos taint.pos).map (useError file t b use taint)

/-- The errors of the uses, one for each binding at most; `reported` holds the bindings done. -/
def escapes (file : Option String) (t : Trace) : (reported : List Nat) → List Use → List Diagnostic
  | _, [] => []
  | reported, use :: uses =>
    if reported.contains use.binding then escapes file t reported uses
    else
      match escape? file t use with
      | none => escapes file t reported uses
      | some d => d :: escapes file t (use.binding :: reported) uses

/-- The reports on borrows that outlive a suspension. -/
def checkEscapes (file : Option String) (d : Definition) : List Diagnostic :=
  let t := trace file d
  t.diagnostics ++ escapes file t [] t.uses.toList

end Yielding.Borrow
