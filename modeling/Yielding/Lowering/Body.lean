import Yielding.Lowering.Basic

/-!
# Lowering/Body — suspension points as statements

    yield E          before(E); suspend E'                                value ()
    E?               let t = E'; if is_residual(t) { leave }              value output(t)
    return           terminate, unless in a nested function
    P.take()         let t = P; P = None                                  value t
    P.replace(E)     let t = P; P = Some(E')                              value t
    A && B           let t = A'; if t { before(B); t = B' }               value t

`leave` suspends with the residual where residuals are yielded, and then terminates; in a nested
function it returns the residual.  A `while` whose condition needs statements becomes a `loop`.
-/

namespace Yielding.Lowering

/-- The literal `()` in place of the expression at `r`. -/
def unitAt (r : Region) : Expr := .literal r .unit

def onResidual (c : Context) (r : Region) (t : Expr) : List Stmt :=
  let residual := Expr.helper r .residual [t]
  if c.inFn then [.ret r (some residual)]
  else if c.yieldsResidual then [.suspend r residual, .terminate r]
  else [.terminate r]

def lowerTry (c : Context) (r : Region) (operand : Lowered) : Fresh Lowered := do
  let (kept, t) ← Temp.outcome.keep operand.value
  let check := Stmt.ifElse r (.test (.helper r .isResidual [t]))
    (.mk (onResidual c r t) r none) none
  return ⟨operand.before ++ [kept, check], .helper r .output [t]⟩

def lowerYield (r : Region) (value : Lowered) : Lowered :=
  ⟨value.before ++ [.suspend r value.value], unitAt r⟩

/-- `&&` and `||` on lowered operands.  What runs before the right operand only runs when the left
one does not decide. -/
def lowerLazy (r : Region) (op : BinaryOp) (a b : Lowered) : Fresh Lowered := do
  if !b.isPending then return ⟨a.before, .binary r op a.value b.value⟩
  else
    let (kept, t) ← Temp.choice.keep a.value
    let undecided := if op = .and then t else .unary r .not t
    let evaluate := Stmt.ifElse r (.test undecided)
      (.mk (b.before ++ [.assign r t b.value .set]) r none) none
    return ⟨a.before ++ [kept, evaluate], t⟩

/-- Whether a method takes a value out of its place. -/
def isSwap (method : String) (arity : Nat) : Bool :=
  (method == "take" && arity == 0) || (method == "replace" && arity == 1)

def lowerSwap (r : Region) (method : String) (place : Lowered) (args : List Lowered) :
    Fresh Lowered := do
  let before := place.before ++ args.flatMap Lowered.before
  let values := args.map Lowered.value
  if !isPlace place.value then return ⟨before, .methodCall r place.value method values⟩
  else
    let (kept, t) ← Temp.operand.keep place.value
    let stored := if method == "take" then Expr.name r "None" else .call r (.name r "Some") values
    return ⟨before ++ [kept, .assign r place.value stored .set], t⟩

mutual

def lowerExpr (c : Context) : Expr → Fresh Lowered
  | .yield r none => return lowerYield r ⟨[], unitAt r⟩
  | .yield r (some value) => do return lowerYield r (← lowerExpr c value)
  | .attempt r operand => do lowerTry c r (← lowerExpr c operand)
  | e@(.literal ..) | e@(.name ..) | e@(.path ..) => return ⟨[], e⟩
  | .binary r op left right => do
    let a ← lowerExpr c left
    let b ← lowerExpr c right
    if op.isLazy then lowerLazy r op a b else spillPair c a b (.binary r op)
  | .methodCall r receiver method args => do
    let a ← lowerExpr c receiver
    let bs ← lowerRow c args
    if isSwap method args.length then lowerSwap r method a bs
    else spillCons c a bs fun receiver args => .methodCall r receiver method args
  | .call r func args => do
    let a ← lowerExpr c func
    let bs ← lowerRow c args
    spillCons c a bs (.call r)
  | .field r value attr => do return (← lowerExpr c value).map (.field r · attr)
  | .tupleField r value index => do return (← lowerExpr c value).map (.tupleField r · index)
  | .borrow r value mutable => do return (← lowerExpr c value).map (.borrow r · mutable)
  | .await r value => do return (← lowerExpr c value).map (.await r)
  | .unary r op operand => do return (← lowerExpr c operand).map (.unary r op)
  | .index r value index => do
    let a ← lowerExpr c value
    let b ← lowerExpr c index
    spillPair c a b (.index r)
  | .range r start stop inclusive => do
    let a ← lowerExpr c start
    let b ← lowerExpr c stop
    spillPair c a b (.range r · · inclusive)
  | .tuple r elements => do
    let (before, values) ← spill c (← lowerRow c elements)
    return ⟨before, .tuple r values⟩
  | .array r elements => do
    let (before, values) ← spill c (← lowerRow c elements)
    return ⟨before, .array r values⟩
  | .macroCall r name args => do
    let (before, values) ← spill c (← lowerRow c args)
    return ⟨before, .macroCall r name values⟩
  | .helper r name args => do
    let (before, values) ← spill c (← lowerRow c args)
    return ⟨before, .helper r name values⟩

def lowerRow (c : Context) : List Expr → Fresh (List Lowered)
  | [] => return []
  | e :: es => do return (← lowerExpr c e) :: (← lowerRow c es)

end

def lowerCondition (c : Context) : Condition → Fresh (List Stmt × Condition)
  | .test e => do
    let l ← lowerExpr c e
    return (l.before, .test l.value)
  | .letMatch r p value => do
    let l ← lowerExpr c value
    return (l.before, .letMatch r p l.value)

/-- Lowers the guard of an arm.  A guard only runs once its pattern has matched, so one that needs
statements before it stays as it is. -/
def lowerGuard (c : Context) : Option Expr → Fresh (Option Expr)
  | none => return none
  | some guard => do
    let l ← lowerExpr c guard
    return some (if l.isPending then guard else l.value)

def lowerTail (c : Context) : Option Expr → Fresh (List Stmt × Option Expr)
  | none => return ([], none)
  | some tail => do
    let l ← lowerExpr c tail
    return (l.before, if l.value.isUnit then none else some l.value)

def lowerWhile (r : Region) (before : List Stmt) (condition : Condition) (body : Block) : Stmt :=
  if before.isEmpty then .whileDo r condition body
  else
    let exit := Block.mk [.breakLoop r] r none
    match condition with
    | .letMatch .. =>
      .loop r (.mk (before ++ [.ifElse r condition body (some exit)]) body.region none)
    | .test e =>
      let leave := Stmt.ifElse r (.test (.unary e.region .not e)) exit none
      .loop r (.mk (before ++ [leave] ++ body.stmts) body.region body.tail)

mutual

def lowerStmt (c : Context) : Stmt → Fresh (List Stmt)
  | .letIn r p type value none => do
    let l ← lowerExpr c value
    return l.before ++ [.letIn r p type l.value none]
  | .letIn r p type value (some b) => do
    let l ← lowerExpr c value
    let b ← lowerBlock c b
    return l.before ++ [.letIn r p type l.value (some b)]
  | .assign r target value op => do
    let v ← lowerExpr c value
    let t ← lowerExpr c target
    let p ← protect c t.isPending v.value
    return v.before ++ p.before ++ t.before ++ [.assign r t.value p.value op]
  | .expr r value => do
    let l ← lowerExpr c value
    return l.before ++ if l.value.isUnit then [] else [.expr r l.value]
  | .ret r none => return if c.inFn then [.ret r none] else [.terminate r]
  | .ret r (some value) => do
    let l ← lowerExpr c value
    return l.before ++ if c.inFn then [.ret r (some l.value)] else [.terminate r]
  | .ifElse r condition a none => do
    let (before, condition) ← lowerCondition c condition
    let a ← lowerBlock c a
    return before ++ [.ifElse r condition a none]
  | .ifElse r condition a (some b) => do
    let (before, condition) ← lowerCondition c condition
    let a ← lowerBlock c a
    let b ← lowerBlock c b
    return before ++ [.ifElse r condition a (some b)]
  | .whileDo r condition b => do
    let (before, condition) ← lowerCondition c condition
    let b ← lowerBlock c b
    return [lowerWhile r before condition b]
  | .loop r b => do return [.loop r (← lowerBlock c b)]
  | .forIn r p iterable b => do
    let l ← lowerExpr c iterable
    let b ← lowerBlock c b
    return l.before ++ [.forIn r p l.value b]
  | .block r b => do return [.block r (← lowerBlock c b)]
  | .fn r name params result b => do
    return [.fn r name params result (← lowerBlock { c with inFn := true } b)]
  | .matchOn r subject arms => do
    let l ← lowerExpr c subject
    let arms ← lowerArms c arms
    return l.before ++ [.matchOn r l.value arms]
  | s@(.breakLoop _) | s@(.continueLoop _) | s@(.suspend ..) | s@(.terminate _) => return [s]

def lowerStmts (c : Context) : List Stmt → Fresh (List Stmt)
  | [] => return []
  | s :: ss => do return (← lowerStmt c s) ++ (← lowerStmts c ss)

def lowerBlock (c : Context) : Block → Fresh Block
  | .mk stmts r tail => do
    let stmts ← lowerStmts c stmts
    let (before, tail) ← lowerTail c tail
    return .mk (stmts ++ before) r tail

def lowerArms (c : Context) : List Arm → Fresh (List Arm)
  | [] => return []
  | .mk r p guard b :: arms => do
    let guard ← lowerGuard c guard
    let b ← lowerBlock c b
    return .mk r p guard b :: (← lowerArms c arms)

end

end Yielding.Lowering

namespace Yielding

/-- Lowers an item: its prelude like the body of a function, then its body. -/
def Definition.lower (d : Definition) : Definition :=
  let c : Lowering.Context := ⟨d.residual?.isSome, false, Lowering.mutables d⟩
  let lowered : Lowering.Fresh (List Stmt × Block) := do
    let prelude ← Lowering.lowerStmts { c with inFn := true } d.prelude
    let body ← Lowering.lowerBlock c d.body
    return (prelude, body)
  let ((prelude, body), _) := lowered.run 0
  { d with prelude := prelude, body := body }

end Yielding
