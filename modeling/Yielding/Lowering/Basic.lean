import Yielding.Typing.Infer

/-!
# Lowering/Basic — temporaries and spilled operands

Lowering turns an expression into the statements that have to run **before** it and a value that
needs no suspension.  Operands are evaluated once and in order: when a later operand has something
to run before it, an earlier one is kept in a temporary first, unless evaluating it later makes no
difference.
-/

namespace Yielding.Lowering

/-- An expression after lowering: what runs before it, and its value. -/
structure Lowered where
  before : List Stmt
  value : Expr

/-- What lowering knows of the place of a statement. -/
structure Context where
  /-- Whether `?` yields its residual before it finishes the sequence. -/
  yieldsResidual : Bool
  /-- Whether the place is in a nested function or in a prelude. -/
  inFn : Bool
  /-- The names that the item binds `mut`. -/
  mutables : List String
deriving DecidableEq, Repr, Inhabited

abbrev Fresh := StateM Nat

/-- The kinds of temporaries. -/
inductive Temp
  | operand | outcome | choice
deriving DecidableEq, Repr

def Temp.stem : Temp → String
  | operand => "__v"
  | outcome => "__try"
  | choice => "__cond"

def Temp.fresh (t : Temp) : Fresh String := do
  modify (· + 1)
  return t.stem ++ toString (← get)

/-- A `let` that keeps a value in a fresh temporary, and the name to read it by. -/
def Temp.keep (t : Temp) (value : Expr) : Fresh (Stmt × Expr) := do
  let name ← t.fresh
  let r := value.region
  return (.letIn r (.bind r name true) none value none, .name r name)

/-- Whether evaluating the expression later makes no difference. -/
def isStable (c : Context) : Expr → Bool
  | .name _ ident => !c.mutables.contains ident
  | .literal .. | .path .. => true
  | _ => false

/-- Whether the expression names a place that can be read and then written, with the same
meaning. -/
def isPlace : Expr → Bool
  | .name _ ident => ident ≠ "None"
  | .field _ value _ | .tupleField _ value _ => isPlace value
  | .index _ value (.literal ..) | .index _ value (.name ..) => isPlace value
  | _ => false

/-- Keeps a value in a temporary if something is `pending` after it and evaluating it later would
make a difference. -/
def protect (c : Context) (pending : Bool) (value : Expr) : Fresh Lowered := do
  if pending && !isStable c value then
    let (kept, name) ← Temp.operand.keep value
    return ⟨[kept], name⟩
  else return ⟨[], value⟩

def Lowered.isPending (l : Lowered) : Bool := !l.before.isEmpty

/-- Puts a row of lowered operands in a row, in order. -/
def spill (c : Context) : List Lowered → Fresh (List Stmt × List Expr)
  | [] => return ([], [])
  | l :: ls => do
    let p ← protect c (ls.any Lowered.isPending) l.value
    let (stmts, values) ← spill c ls
    return (l.before ++ p.before ++ stmts, p.value :: values)

def spillPair (c : Context) (a b : Lowered) (build : Expr → Expr → Expr) : Fresh Lowered := do
  let p ← protect c b.isPending a.value
  return ⟨a.before ++ p.before ++ b.before, build p.value b.value⟩

def spillCons (c : Context) (a : Lowered) (bs : List Lowered) (build : Expr → List Expr → Expr) :
    Fresh Lowered := do
  let p ← protect c (bs.any Lowered.isPending) a.value
  let (stmts, values) ← spill c bs
  return ⟨a.before ++ p.before ++ stmts, build p.value values⟩

/-- Changes the value, which needs nothing more to run before it. -/
def Lowered.map (l : Lowered) (f : Expr → Expr) : Lowered := ⟨l.before, f l.value⟩

/-! ## Names bound `mut` -/

def conditionMutables : Condition → List String
  | .test _ => []
  | .letMatch _ p _ => p.mutableNames

mutual

def stmtMutables : Stmt → List String
  | .letIn _ p _ _ none => p.mutableNames
  | .letIn _ p _ _ (some b) => p.mutableNames ++ blockMutables b
  | .ifElse _ c a none => conditionMutables c ++ blockMutables a
  | .ifElse _ c a (some b) => conditionMutables c ++ blockMutables a ++ blockMutables b
  | .whileDo _ c b => conditionMutables c ++ blockMutables b
  | .forIn _ p _ b => p.mutableNames ++ blockMutables b
  | .loop _ b | .block _ b | .fn _ _ _ _ b => blockMutables b
  | .matchOn _ _ arms => armMutables arms
  | _ => []

def rowMutables : List Stmt → List String
  | [] => []
  | s :: ss => stmtMutables s ++ rowMutables ss

def blockMutables : Block → List String
  | .mk stmts _ _ => rowMutables stmts

def armMutables : List Arm → List String
  | [] => []
  | .mk _ p _ b :: arms => p.mutableNames ++ blockMutables b ++ armMutables arms

end

/-- The names that an item binds `mut`: by its parameters, and by the patterns of its prelude and
its body.  A receiver behind an exclusive reference counts. -/
def mutables (d : Definition) : List String :=
  (d.params.filter fun p => p.mutable || p.receiver? = some .exclusive).map Param.name ++
    rowMutables d.prelude ++ blockMutables d.body

end Yielding.Lowering
