import Yielding.Diagnostic
import Yielding.Syntax.Stmt

/-!
# Legality/Flow — what may stand where in an item

The rules on statements that the grammar cannot express: what can be assigned to, where loops can be
left, where the body can suspend, and that the `else` of a `let` **diverges**, so that control never
reaches its end.
-/

namespace Yielding

/-- Whether an expression names a place that can be assigned to. -/
def Expr.isAssignable : Expr → Bool
  | .name .. => true
  | .field _ value _ | .tupleField _ value _ | .index _ value _ => value.isAssignable
  | .unary _ .deref _ => true
  | _ => false

def Expr.isPanic : Expr → Bool
  | .macroCall _ .panic _ => true
  | _ => false

mutual

/-- Whether control never reaches the end of the statement. -/
def Stmt.diverges : Stmt → Bool
  | .ret .. | .breakLoop _ | .continueLoop _ | .terminate _ => true
  | .expr _ value => value.isPanic
  | .block _ b => b.diverges
  | .ifElse _ _ a (some b) => a.diverges && b.diverges
  | .matchOn _ _ (a :: arms) => armsDiverge (a :: arms)
  | _ => false

/-- Whether the last statement of a row diverges. -/
def lastDiverges : List Stmt → Bool
  | [] => false
  | [s] => s.diverges
  | _ :: ss => lastDiverges ss

def Block.diverges : Block → Bool
  | .mk _ _ (some tail) => tail.isPanic
  | .mk stmts _ none => lastDiverges stmts

def armsDiverge : List Arm → Bool
  | [] => true
  | .mk _ _ _ b :: arms => b.diverges && armsDiverge arms

end

namespace Legality

/-- What surrounds a statement. -/
structure Context where
  inLoop : Bool := false
  inNestedFn : Bool := false
  /-- Before the `gen` block of a function. -/
  inPrelude : Bool := false
deriving DecidableEq, Repr

/-- The item that is checked, and its file. -/
structure Setting where
  file : Option String
  definition : Definition

def Setting.error (k : Setting) (region : Region) (message : String) (notes : List String := []) :
    Diagnostic :=
  .ofCheck .malformedBody message (.ofRegion k.file region) notes

theorem hasErrors_error (k : Setting) (r : Region) (message : String) (notes : List String) :
    hasErrors [k.error r message notes] = true := rfl

def checkNode (k : Setting) (c : Context) (e : Expr) : List Diagnostic :=
  let outside (what : String) : List Diagnostic :=
    [k.error e.region (what ++ " outside of the `gen` block")
      ["statements before the `gen` block run eagerly when the function is called"]]
  match e with
  | .yield .. =>
    if c.inPrelude then outside "`yield`"
    else if c.inNestedFn then
      [k.error e.region "`yield` inside a nested `fn` item"
        ["only the body of the iterator item itself can suspend"]]
    else []
  | .attempt .. => if c.inPrelude then outside "`?`" else []
  | .await .. =>
    if c.inPrelude then outside "`.await`"
    else if c.inNestedFn then [k.error e.region "`.await` inside a nested `fn` item"]
    else if !k.definition.isAsync then
      [k.error e.region "`.await` is only allowed inside `async` iterator items"
        ["declare the item as `async " ++ k.definition.form.text ++ " " ++ k.definition.name ++
          "`"]]
    else []
  | .name _ "self" =>
    if c.inNestedFn || k.definition.receiver?.isNone then
      [k.error e.region "`self` is not available here"
        ["add a `self` receiver as the first parameter"]]
    else []
  | _ => []

def checkExpr (k : Setting) (c : Context) (e : Expr) : List Diagnostic :=
  e.walk.flatMap (checkNode k c)

def checkOptional (k : Setting) (c : Context) : Option Expr → List Diagnostic
  | none => []
  | some e => checkExpr k c e

/-- The rules on the guard of an arm, which cannot suspend. -/
def checkGuard (k : Setting) (c : Context) : Option Expr → List Diagnostic
  | none => []
  | some e =>
    checkExpr k c e ++ (e.walk.filter fun sub => sub.isYield || sub.isTry).map fun sub =>
      k.error sub.region "match guards cannot suspend or propagate errors"

def checkLeave (k : Setting) (c : Context) (region : Region) (word : String) : List Diagnostic :=
  if c.inLoop then [] else [k.error region ("`" ++ word ++ "` outside of a loop")]

mutual

def checkStmt (k : Setting) (c : Context) : Stmt → List Diagnostic
  | .letIn _ _ _ value (some b) =>
    checkExpr k c value ++ checkBlock k c b ++
      (if b.diverges then []
      else
        [k.error b.region "`else` clause of `let...else` does not diverge"
          ["end the `else` block with `return`, `break`, `continue` or `panic!`"]])
  | .letIn _ p _ value none =>
    checkExpr k c value ++
      (if p.isRefutable then
        [k.error p.region "refutable pattern in local binding"
          ["use `let ... else \x7b ... \x7d;` or `if let` to handle the other case"]]
      else [])
  | .assign _ target value _ =>
    (if target.isAssignable then []
    else [k.error target.region "invalid left-hand side of assignment"]) ++
      checkExpr k c target ++ checkExpr k c value
  | .expr _ value => checkExpr k c value
  | .ret region value =>
    (if c.inPrelude then
      [k.error region "`return` before the `gen` block"
        ["the function must end with its `gen \x7b ... \x7d` block"]]
    else []) ++ checkOptional k c value
  | .breakLoop region => checkLeave k c region "break"
  | .continueLoop region => checkLeave k c region "continue"
  | .ifElse _ condition a none => checkExpr k c condition.value ++ checkBlock k c a
  | .ifElse _ condition a (some b) =>
    checkExpr k c condition.value ++ checkBlock k c a ++ checkBlock k c b
  | .whileDo _ condition b =>
    checkExpr k c condition.value ++ checkBlock k { c with inLoop := true } b
  | .loop _ b => checkBlock k { c with inLoop := true } b
  | .forIn _ p iterable b =>
    (if p.isRefutable then [k.error p.region "refutable pattern in `for` loop binding"] else []) ++
      checkExpr k c iterable ++ checkBlock k { c with inLoop := true } b
  | .block _ b => checkBlock k c b
  | .matchOn _ subject arms => checkExpr k c subject ++ checkArms k c arms
  | .fn _ _ _ _ b => checkBlock k { inNestedFn := true } b
  | .suspend .. | .terminate .. => []

def checkStmts (k : Setting) (c : Context) : List Stmt → List Diagnostic
  | [] => []
  | s :: ss => checkStmt k c s ++ checkStmts k c ss

def checkBlock (k : Setting) (c : Context) : Block → List Diagnostic
  | .mk stmts _ tail => checkStmts k c stmts ++ checkOptional k c tail

def checkArms (k : Setting) (c : Context) : List Arm → List Diagnostic
  | [] => []
  | .mk _ _ guard b :: arms => checkGuard k c guard ++ checkBlock k c b ++ checkArms k c arms

end

/-- The attributes with a meaning. -/
def knownAttrs : List String := ["size_hint"]

/-- The rules on an attribute: an unknown one is ignored with a warning. -/
def checkAttr (k : Setting) (a : Attr) : List Diagnostic :=
  if knownAttrs.contains a.name then
    (a.args.flatMap Expr.walk).filterMap fun sub =>
      if sub.isYield || sub.isTry || sub.isAwait then
        some (.ofCheck .malformedSignature
          ("`#[" ++ a.name ++ "]` arguments cannot suspend or propagate errors")
          (.ofRegion k.file sub.region) [])
      else none
  else
    [{ message := "attribute `#[" ++ a.name ++
        "]` has no effect on iterator items and is ignored"
       phase := some "validate"
       severity := "warning"
       span := .ofRegion k.file a.region }]

/-- The reports on the structure of an item. -/
def check (file : Option String) (d : Definition) : List Diagnostic :=
  let k : Setting := ⟨file, d⟩
  d.attrs.flatMap (checkAttr k) ++ checkStmts k { inPrelude := true } d.prelude ++
    checkBlock k {} d.body

end Legality

end Yielding
