import Yielding.Script.Code
import Yielding.Script.Names

/-!
# Script/Body — code of lowered bodies

The code of a lowered body, given by recursion on its statements.  What the names of the generated
function are is up to a **naming**; items are written with the naming `byScope`, which keeps track
of the bindings in scope.  The functions of a block come first in its code, since they are visible
in the whole block.
-/

namespace Yielding.Script

/-- Why no code is written. -/
inductive Failure
  /-- A number of the source is too long to be read. -/
  | oversized
  /-- A text was to be made from nothing. -/
  | emptyConversion
  /-- A `yield` or `?` was left, which lowering removes wherever it can. -/
  | notLowered
deriving DecidableEq, Repr

/-! ## Namings -/

/-- A way to name things in the generated function, with a state of its own. -/
structure Naming (σ : Type) where
  /-- Binds a name, and gives its name in the generated function. -/
  bind : (name : String) → (isFn : Bool) → σ → String × σ
  /-- A name for the subject of a match. -/
  subject : σ → String × σ
  /-- A name where it is used. -/
  term : (ident : String) → σ → Term × σ
  /-- The name of a nested function where it is defined. -/
  fnTarget : (name : String) → σ → String
  push : (isBarrier : Bool) → σ → σ
  pop : σ → σ
  /-- Keeps names from being taken. -/
  reserve : List String → σ → σ
  /-- The names that the body takes over from the function around it. -/
  inputs : σ → List String

/-- A name where it is used. -/
def Names.term (ns : Names) (ident : String) : Term × Names :=
  if ident = "None" then (.name "None", ns)
  else
    match ns.resolve ident with
    | some target => (.name target, ns)
    | none =>
      if (Variant.ofName? ident).isSome then (.support ident, ns)
      else (.name (avoidKeyword ident), ns.noteFree ident)

/-- Names by the scopes of the source. -/
def byScope : Naming Names where
  bind name isFn ns := ns.bind name isFn
  subject := Names.subject
  term ident ns := ns.term ident
  fnTarget name ns := (ns.resolve name).getD name
  push isBarrier ns := ns.push isBarrier
  pop := Names.pop
  reserve names ns := { ns with used := names ++ ns.used }
  inputs := Names.inputs

abbrev Emit (σ : Type) := StateT σ (Except Failure)

variable {σ : Type} (N : Naming σ)

def bindName (name : String) : Emit σ String := modifyGet (N.bind name false)

def bindFnName (name : String) : Emit σ String := modifyGet (N.bind name true)

def freshSubject : Emit σ String := modifyGet N.subject

def within {α : Type} (isBarrier : Bool) (act : Emit σ α) : Emit σ α := do
  modify (N.push isBarrier)
  let a ← act
  modify N.pop
  return a

/-! ## Expressions -/

def macroTerm (name : MacroName) (args : List Term) : Term :=
  let formatted := Term.applySupport "fmt" args
  match name with
  | .format => formatted
  | .println => .apply "print" (if args.isEmpty then [] else [formatted])
  | .print => .apply "print" [formatted, .option "end" (.literal "\"\"")]
  | .panic => .applySupport "panic" args
  | .assert => .applySupport "assert_" args

def binaryTerm (op : BinaryOp) (left right : Term) : Term :=
  match op with
  | .div => .applySupport "div" [left, right]
  | .rem => .applySupport "rem" [left, right]
  | .or => .pair .or left right
  | .and => .pair .and left right
  | .eq => .pair .eq left right
  | .ne => .pair .ne left right
  | .lt => .pair .lt left right
  | .le => .pair .le left right
  | .gt => .pair .gt left right
  | .ge => .pair .ge left right
  | .add => .pair .add left right
  | .sub => .pair .sub left right
  | .mul => .pair .mul left right

/-- The form of the known function that an expression names. -/
def knownFunction? : Expr → Option FunctionForm
  | .path _ segments => knownFunctions.lookup ("::".intercalate segments)
  | _ => none

mutual

def emitExpr : Expr → Emit σ Term
  | .literal _ value => return .ofLiteral value
  | .name _ ident => modifyGet (N.term ident)
  | .path _ segments => return .dotted segments
  | .call _ func args => do
    let args ← emitRow args
    match knownFunction? func with
    | some form =>
      match form.term? args with
      | some term => return term
      | none => throw .emptyConversion
    | none => return .call (← emitExpr func) args
  | .methodCall _ receiver method args => do
    let receiver ← emitExpr receiver
    let args ← emitRow args
    match knownMethod? method args.length with
    | some form => return form.term receiver args
    | none => return .call (.attr receiver (avoidKeyword method)) args
  | .field _ value attr => do return .attr (← emitExpr value) (avoidKeyword attr)
  | .tupleField _ value index => do return .component (← emitExpr value) index
  | .index _ value index => do
    let value ← emitExpr value
    return .item value (← emitExpr index)
  | .unary _ op operand => do
    let operand ← emitExpr operand
    match op with
    | .deref => return operand
    | .not => return .group .not operand
    | .neg => return .group .neg operand
  | .borrow _ value _ => emitExpr value
  | .binary _ op left right => do
    let left ← emitExpr left
    return binaryTerm op left (← emitExpr right)
  | .range _ start stop inclusive => do
    let start ← emitExpr start
    let stop ← emitExpr stop
    return .apply "range" [start, if inclusive then .next stop else stop]
  | .tuple _ elements => do return .tuple (← emitRow elements)
  | .array _ elements => do return .list (← emitRow elements)
  | .macroCall _ name args => do return macroTerm name (← emitRow args)
  | .await _ value => do return .group .await (← emitExpr value)
  | .helper _ name args => do return .applySupport name.text (← emitRow args)
  | .yield .. | .attempt .. => throw .notLowered

def emitRow : List Expr → Emit σ (List Term)
  | [] => return []
  | e :: es => do
    let term ← emitExpr e
    return term :: (← emitRow es)

end

/-! ## Patterns -/

mutual

/-- Binds the names of a pattern that matches a value, each to the part of the value that it
takes. -/
def bindPattern : Pattern → Term → Emit σ (List Code)
  | .bind _ name _, subject => do
    return [.line (.assign (.name (← bindName N name)) subject)]
  | .variant _ v inner, subject => bindPattern inner (.attr subject (payloadName v))
  | .tuple _ items, subject => bindRow items (Pattern.places items) subject
  | _, _ => return []

/-- Binds the names of a row of patterns at the components that their places give. -/
def bindRow : List Pattern → List (Option Int) → Term → Emit σ (List Code)
  | p :: ps, some i :: is, subject => do
    let code ← bindPattern p (.component subject i)
    return code ++ (← bindRow ps is subject)
  | _ :: ps, none :: is, subject => bindRow ps is subject
  | _, _, _ => return []

end

mutual

/-- The target that takes a value apart like an irrefutable pattern; binds its names. -/
def patternTarget : Pattern → Emit σ Target
  | .bind _ name _ => do return .name (← bindName N name)
  | .tuple _ items => do return .tuple (← rowTargets items)
  | .rest _ => return .rest
  | _ => return .skip

def rowTargets : List Pattern → Emit σ (List Target)
  | [] => return []
  | p :: ps => do
    let target ← patternTarget p
    return target :: (← rowTargets ps)

end

mutual

/-- The case of a pattern; binds its names. -/
def patternCase : Pattern → Emit σ Case
  | .bind _ name _ => do return .bind (← bindName N name)
  | .literal _ value => return .literal value
  | .rest _ => return .rest
  | .noneVariant _ | .tuple _ [] => return .none
  | .variant _ v inner => do return .variant v (← patternCase inner)
  | .tuple _ (p :: ps) => do
    let case ← patternCase p
    return .tuple (case :: (← rowCases ps))
  | .wildcard _ => return .skip

def rowCases : List Pattern → Emit σ (List Case)
  | [] => return []
  | p :: ps => do
    let case ← patternCase p
    return case :: (← rowCases ps)

end

/-- Whether a value is only evaluated, since its pattern neither tests nor binds. -/
def discards : Pattern → Bool
  | .wildcard _ | .tuple _ [] => true
  | _ => false

/-- Whether a pattern matches every value. -/
def catchesAll : Pattern → Bool
  | .bind .. | .wildcard _ => true
  | _ => false

/-! ## Statements -/

/-- Whether the subject of a match needs no line of its own. -/
def isBareName : Expr → Term → Bool
  | .name .., .name _ => true
  | _, _ => false

/-- The value that is matched, with the line that keeps it.  A name needs no such line. -/
def emitSubject (value : Expr) : Emit σ (List Code × Term) := do
  let term ← emitExpr N value
  if isBareName value term then return ([], term)
  else
    let subject ← freshSubject N
    return ([.line (.assign (.name subject) term)], .name subject)

/-- What comes before a decision, the decision, and the bindings that follow when it is made. -/
def emitDecision : Condition → Emit σ (List Code × Decision × List Code)
  | .test e => do return ([], .holds (← emitExpr N e), [])
  | .letMatch _ p value => do
    let (before, subject) ← emitSubject N value
    return (before, .all (patternTests p subject), ← bindPattern N p subject)

def storeLine (target : Term) (value : Term) : AssignOp → Line
  | .div => .store target .set (.applySupport "div" [target, value])
  | .rem => .store target .set (.applySupport "rem" [target, value])
  | op => .store target op value

/-- A loop that only ends from within. -/
def forever (body : List Code) : Code := .block (.whileDo (.literal "True")) body

def emitTail (returnsTail : Bool) : Option Expr → Emit σ (List Code)
  | none => return []
  | some tail => do
    let term ← emitExpr N tail
    return [.line (if returnsTail then .ret (some term) else .eval term)]

def emitGuard : Option Expr → Emit σ (Option Term)
  | none => return none
  | some guard => do return some (← emitExpr N guard)

def bindFns : List String → Emit σ Unit
  | [] => return ()
  | name :: names => do
    let _ ← bindFnName N name
    bindFns names

def bindParams : List Param → Emit σ (List String)
  | [] => return []
  | p :: ps => do
    let target ← bindName N p.name
    return target :: (← bindParams ps)

/-- The branch of an `if` that is taken when its condition holds. -/
def emitBranch (chained : Bool) (condition : Condition) (body : Emit σ (List Code)) :
    Emit σ (List Code) :=
  within N false do
    let (before, decision, bindings) ← emitDecision N condition
    let body ← within N false body
    let header := if chained then Header.elifDo decision else .ifDo decision
    return before ++ [.block header (bindings ++ body)]

def emitArm (p : Pattern) (guard : Option Expr) (body : Emit σ (List Code)) : Emit σ Code :=
  within N false do
    let pattern ← patternCase N p
    let written ← emitGuard N guard
    return .block (.caseOf pattern written) (← within N false body)

def emitFn (target : String) (params : List Param) (body : Emit σ (List Code)) : Emit σ Code :=
  within N true do
    let params ← bindParams N params
    return .block (.fn false target params none) (← within N false body)

/-- The code of a block from its parts: all functions are bound before any of them is written. -/
def assemble (fnNames : List String) (fns stmts tail : Emit σ (List Code)) :
    Emit σ (List Code) := do
  bindFns N fnNames
  let fns ← fns
  let stmts ← stmts
  return fns ++ stmts ++ (← tail)

/-- Whether the block after `else` is a single `if` that continues the chain. -/
def continuesChain : List Stmt → Option Expr → Bool
  | [.ifElse _ (.test _) _ _], none => true
  | _, _ => false

mutual

/-- The code of a statement; functions apart, whose code stands at the top of their block.  An `if`
may continue a chain. -/
def emitStmt (chained : Bool) : Stmt → Emit σ (List Code)
  | .letIn _ p _ value none => do
    let value ← emitExpr N value
    if discards p then return [.line (.eval value)]
    return [.line (.assign (← patternTarget N p) value)]
  | .letIn _ p _ value (some b) => do
    let value ← emitExpr N value
    let subject ← freshSubject N
    let otherwise ← within N false (emitContents false b)
    let bindings ← bindPattern N p (.name subject)
    return .line (.assign (.name subject) value) ::
      .block (.ifDo (.notAll (patternTests p (.name subject)))) otherwise :: bindings
  | .assign _ target value op => do
    let value ← emitExpr N value
    let target ← emitExpr N target
    return [.line (storeLine target value op)]
  | .expr _ value => do return [.line (.eval (← emitExpr N value))]
  | .suspend _ value => do return [.line (.yield (some (← emitExpr N value)))]
  | .terminate _ | .ret _ none => return [.line (.ret none)]
  | .ret _ (some value) => do return [.line (.ret (some (← emitExpr N value)))]
  | .breakLoop _ => return [.line .breakLoop]
  | .continueLoop _ => return [.line .continueLoop]
  | .ifElse _ condition a none => emitBranch N chained condition (emitContents false a)
  | .ifElse _ condition a (some b) => do
    let branch ← emitBranch N chained condition (emitContents false a)
    return branch ++ (← emitElse b)
  | .whileDo _ (.test e) b => do
    let value ← emitExpr N e
    return [.block (.whileDo value) (← within N false (emitContents false b))]
  | .whileDo _ (.letMatch _ p value) b => do
    let body ← within N false do
      let (before, subject) ← emitSubject N value
      let bindings ← bindPattern N p subject
      let body ← within N false (emitContents false b)
      let leave := Code.block (.ifDo (.notAll (patternTests p subject))) [.line .breakLoop]
      return before ++ leave :: (bindings ++ body)
    return [forever body]
  | .loop _ b => do return [forever (← within N false (emitContents false b))]
  | .forIn _ p iterable b => do
    let iterable ← emitExpr N iterable
    within N false do
      let target ← patternTarget N p
      return [.block (.forIn target iterable) (← within N false (emitContents false b))]
  | .block _ b => within N false (emitContents false b)
  | .matchOn _ subject arms => do
    let subject ← emitExpr N subject
    if arms.isEmpty then return [.line (.eval subject)]
    return [.block (.matchOn subject) (← emitArms arms)]
  | .fn .. => return []

def emitStmts (chained : Bool) : List Stmt → Emit σ (List Code)
  | [] => return []
  | s :: ss => do
    let code ← emitStmt chained s
    return code ++ (← emitStmts chained ss)

def emitFns : List Stmt → Emit σ (List Code)
  | [] => return []
  | .fn _ name params _ b :: ss => do
    let target := N.fnTarget name (← get)
    let fn ← emitFn N target params (emitContents true b)
    return fn :: (← emitFns ss)
  | _ :: ss => emitFns ss

def emitContents (returnsTail : Bool) : Block → Emit σ (List Code)
  | .mk stmts _ tail =>
    assemble N (fnNames stmts) (emitFns stmts) (emitStmts false stmts)
      (emitTail N returnsTail tail)

def emitElse : Block → Emit σ (List Code)
  | .mk stmts _ tail => do
    if continuesChain stmts tail then emitStmts true stmts
    else
      let body ← within N false
        (assemble N (fnNames stmts) (emitFns stmts) (emitStmts false stmts)
          (emitTail N false tail))
      return [.block .elseDo body]

/-- The code of the arms of a match, up to the first that always applies. -/
def emitArms : List Arm → Emit σ (List Code)
  | [] => return []
  | .mk _ p guard b :: arms => do
    let arm ← emitArm N p guard (emitContents false b)
    if guard.isNone && catchesAll p then return [arm]
    return arm :: (← emitArms arms)

end

/-- A nested function has no code where it stands. -/
theorem emitStmt_fn (chained : Bool) (r : Region) (name : String) (params : List Param)
    (result : Option Ty) (b : Block) :
    emitStmt N chained (.fn r name params result b) = pure [] := by
  rw [emitStmt]

theorem emitFns_cons {s : Stmt} (h : s.isFn = false) (ss : List Stmt) :
    emitFns N (s :: ss) = emitFns N ss := by
  cases s with
  | fn => simp [Stmt.isFn] at h
  | _ => simp only [emitFns]

end Yielding.Script
