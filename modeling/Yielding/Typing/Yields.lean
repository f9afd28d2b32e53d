import Yielding.Diagnostic
import Yielding.Typing.Infer

/-!
# Typing/Yields — all yields of an item have one type

Every `yield` shows the type of its operand, and where `?` yields residuals, every `?` shows the
type of its residual.  What is shown is unified in source order, beginning with the declared type;
each **observation** that does not unify is reported.
-/

namespace Yielding.Typing

/-- What shows a type. -/
inductive Source
  | yield | attempt
deriving DecidableEq, Repr

/-- A type that the body shows, with its place. -/
structure Observation where
  type : Ty
  region : Region
  source : Source
deriving DecidableEq, Repr

/-- The residual type of an operand of `?`. -/
def residualOf? (operand : Ty) : Option Ty :=
  match Ty.canonicalName operand.name with
  | "Option" => some (.option .unknown)
  | "Result" => some (.result .unknown (operand.args[1]?.getD .unknown))
  | _ => none

/-- What the walk through a body knows of its item. -/
structure Setting where
  fns : FnTypes
  yieldsResidual : Bool

/-- What one expression shows, without its parts. -/
def observe (k : Setting) (s : Scope) : Expr → Option Observation
  | .yield r none => some ⟨.unit, r, .yield⟩
  | .yield r (some value) => some ⟨value.type k.fns s, r, .yield⟩
  | .attempt r operand =>
    if k.yieldsResidual then
      (residualOf? (operand.type k.fns s)).map fun t => ⟨t, r, .attempt⟩
    else none
  | _ => none

/-- What an expression and everything inside it shows. -/
def observeExpr (k : Setting) (s : Scope) (e : Expr) : List Observation :=
  e.walk.filterMap (observe k s)

def observeOptional (k : Setting) (s : Scope) : Option Expr → List Observation
  | none => []
  | some e => observeExpr k s e

/-- The scope in which the body of an `if` or `while` runs. -/
def conditionScope (k : Setting) (s : Scope) : Condition → Scope
  | .test _ => s
  | .letMatch _ p value => s.bindPattern p (value.type k.fns s)

mutual

/-- What a statement shows, and the scope after it. -/
def observeStmt (k : Setting) (s : Scope) : Stmt → List Observation × Scope
  | .letIn _ p type value none =>
    (observeExpr k s value, s.bindPattern p (type.getD (value.type k.fns s)))
  | .letIn _ p type value (some b) =>
    (observeExpr k s value ++ observeBlock k s b,
      s.bindPattern p (type.getD (value.type k.fns s)))
  | .assign _ target value _ => (observeExpr k s target ++ observeExpr k s value, s)
  | .expr _ value => (observeExpr k s value, s)
  | .ret _ value => (observeOptional k s value, s)
  | .ifElse _ c a none =>
    (observeExpr k s c.value ++ observeBlock k (conditionScope k s c) a, s)
  | .ifElse _ c a (some b) =>
    (observeExpr k s c.value ++ observeBlock k (conditionScope k s c) a ++ observeBlock k s b, s)
  | .whileDo _ c b => (observeExpr k s c.value ++ observeBlock k (conditionScope k s c) b, s)
  | .loop _ b | .block _ b => (observeBlock k s b, s)
  | .forIn _ p iterable b =>
    (observeExpr k s iterable ++
      observeBlock k (s.bindPattern p (iterable.type k.fns s).elementType) b, s)
  | .matchOn _ subject arms =>
    (observeExpr k s subject ++ observeArms k s (subject.type k.fns s) arms, s)
  | _ => ([], s)

/-- What a row of statements shows, and the scope after it. -/
def observeStmts (k : Setting) (s : Scope) : List Stmt → List Observation × Scope
  | [] => ([], s)
  | stmt :: stmts =>
    let (first, s) := observeStmt k s stmt
    let (rest, s) := observeStmts k s stmts
    (first ++ rest, s)

/-- What a block shows. -/
def observeBlock (k : Setting) (s : Scope) : Block → List Observation
  | .mk stmts _ tail =>
    let (found, s) := observeStmts k s stmts
    found ++ observeOptional k s tail

/-- What the arms of a match on a value of type `t` show. -/
def observeArms (k : Setting) (s : Scope) (t : Ty) : List Arm → List Observation
  | [] => []
  | .mk _ p guard b :: arms =>
    let inner := s.bindPattern p t
    observeOptional k inner guard ++ observeBlock k inner b ++ observeArms k s t arms

end

/-- Everything that the body of an item shows, in source order. -/
def observations (d : Definition) : List Observation :=
  observeBlock ⟨d.fnTypes, d.residual?.isSome⟩ d.scope d.body

/-- A mismatch with the type `current`, which was fixed at `fixedAt` or declared. -/
def mismatch (file : Option String) (d : Definition) (current : Ty) (fixedAt : Option Region)
    (o : Observation) : Diagnostic :=
  let note := match fixedAt with
    | none => "`" ++ d.name ++ "` is declared to yield `" ++ d.yielded.format ++ "`"
    | some r =>
      "the element type was fixed to `" ++ current.format ++ "` at line " ++
        toString r.start.line ++ ", column " ++ toString r.start.column
  let what := match o.source with
    | .yield => "`yield` yields"
    | .attempt => "`?` would yield the residual"
  .ofCheck .multipleYieldedTypes
    ("mismatched yielded type: " ++ what ++ " `" ++ o.type.format ++ "`, expected `" ++
      current.format ++ "`")
    (.ofRegion file o.region) [note]

/-- Unifies the observations with `current` one by one. -/
def mismatches (file : Option String) (d : Definition) :
    (current : Ty) → (fixedAt : Option Region) → List Observation → List Diagnostic
  | _, _, [] => []
  | current, fixedAt, o :: os =>
    if o.type.isUnknown then mismatches file d current fixedAt os
    else
      match current.unify o.type with
      | none => mismatch file d current fixedAt o :: mismatches file d current fixedAt os
      | some merged =>
        mismatches file d merged (if merged = current then fixedAt else some o.region) os

/-- The yields of an item that conflict with its element type. -/
def checkYields (file : Option String) (d : Definition) : List Diagnostic :=
  mismatches file d d.yielded none (observations d)

/-!
## A `return` only stops the sequence

A `return` of an item carries no value but `()`, and the expression that ends its body is an
implicit return.  Nested functions are not concerned.
-/

/-- Whether the expression is `()`, written as a literal or as an empty tuple. -/
def isUnitValue : Expr → Bool
  | .literal _ .unit => true
  | .tuple _ [] => true
  | _ => false

mutual

/-- The values that `return` statements inside a statement carry, in order. -/
def returnsOf : Stmt → List (Option Expr)
  | .ret _ value => [value]
  | .letIn _ _ _ _ (some b) => returnsOfBlock b
  | .ifElse _ _ a none => returnsOfBlock a
  | .ifElse _ _ a (some b) => returnsOfBlock a ++ returnsOfBlock b
  | .whileDo _ _ b | .loop _ b | .forIn _ _ _ b | .block _ b => returnsOfBlock b
  | .matchOn _ _ arms => returnsOfArms arms
  | _ => []

/-- The values returned in a row of statements. -/
def returnsOfRow : List Stmt → List (Option Expr)
  | [] => []
  | s :: ss => returnsOf s ++ returnsOfRow ss

/-- The values returned in a block. -/
def returnsOfBlock : Block → List (Option Expr)
  | .mk stmts _ _ => returnsOfRow stmts

/-- The values returned in the arms of a match. -/
def returnsOfArms : List Arm → List (Option Expr)
  | [] => []
  | .mk _ _ _ b :: arms => returnsOfBlock b ++ returnsOfArms arms

end

def returnHelp : String := "returning in an iterator is only meant for stopping the iterator"

/-- The error of a `return` with a value. -/
def valueReturned (file : Option String) (value : Expr) : Diagnostic :=
  .ofCheck .nonUnitReturn "iterator items can't return a non-`()` value"
    (.ofRegion file value.region)
    [returnHelp, "use `yield` to produce the value, then `return;`"]

/-- The error of a body that ends in an expression of type `t`. -/
def valueAtEnd (file : Option String) (tail : Expr) (t : Ty) : Diagnostic :=
  .ofCheck .nonUnitReturn
    ("iterator items can't return a non-`()` value (the tail expression has type `" ++ t.format ++
      "`)")
    (.ofRegion file tail.region)
    [returnHelp, "add `;` after the expression to discard it"]

/-- The check of the expression that ends the body: its type is `()` or not known. -/
def checkTail (file : Option String) (d : Definition) : List Diagnostic :=
  match d.body.tail with
  | none => []
  | some tail =>
    if isUnitValue tail || tail.isYield then []
    else
      let scope := Definition.bindLets d.fnTypes d.scope d.body.stmts
      let t := tail.type d.fnTypes scope
      if t.isUnknown || t = .unit then [] else [valueAtEnd file tail t]

/-- The returns of an item that carry a value. -/
def checkReturns (file : Option String) (d : Definition) : List Diagnostic :=
  ((returnsOfBlock d.body).filterMap fun
    | some value => if isUnitValue value then none else some (valueReturned file value)
    | none => none) ++ checkTail file d

end Yielding.Typing
