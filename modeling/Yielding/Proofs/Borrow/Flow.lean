import Mathlib.Data.Set.Insert
import Yielding.Borrow.Walk

/-!
# Proofs/Borrow/Flow — paths through bodies of borrows and copies

A body of `let`, assignments of variables, addresses and calls, `yield`, calls, blocks, `if`, `loop`
and `break` is read as a **flow**: its steps in the order of the text, with every name resolved to
the variable it refers to.  Variables are numbered in the order of their declarations.  A **path**
goes through a flow with any choices and any number of rounds, and may be observed up to any step.
-/

namespace Yielding.Borrow

/-! ## Flows -/

/-- What a variable is given: the address of a variable, what another variable holds, or nothing
that points to a variable.  The region is that of the name. -/
inductive Content
  | address (region : Region) (x : ℕ) | copy (region : Region) (y : ℕ) | other

/-- What a step does to variables, or a suspension. -/
inductive Op
  /-- A declaration of the variable `v`. -/
  | bind (v : ℕ) (c : Content) (name : String) (owned : Bool) (region : Region)
  | store (v : ℕ) (c : Content) (region : Region)
  | read (region : Region) (v : ℕ)
  | suspend (region : Region)

/-- Steps one after the other, choices and loops; each with what comes after it. -/
inductive Flow
  | done
  | op (o : Op) (rest : Flow)
  | branch (a b rest : Flow)
  | loop (body rest : Flow)
  | leave (rest : Flow)

def Content.mentions : Content → Option ℕ
  | address _ x => some x
  | copy _ y => some y
  | other => none

/-- The variable that a step reads, if there is one.  Taking an address counts. -/
def Op.reads : Op → Option ℕ
  | bind _ c .. | store _ c _ => c.mentions
  | read _ v => some v
  | suspend _ => none

def Op.writes : Op → Option (ℕ × Content)
  | bind v c .. | store v c _ => some (v, c)
  | read .. | suspend _ => none

def Op.target (o : Op) : Option ℕ := o.writes.map Prod.fst

/-- A step, or one end of a loop. -/
inductive Token
  | op (o : Op) | enter | exit

namespace Flow

/-- The steps in the order of the text. -/
def text : Flow → List Token
  | done => []
  | op o rest => .op o :: rest.text
  | branch a b rest => a.text ++ b.text ++ rest.text
  | loop body rest => .enter :: body.text ++ .exit :: rest.text
  | leave rest => rest.text

def size (f : Flow) : ℕ := f.text.length

@[simp] theorem size_op (o : Op) (rest : Flow) : (op o rest).size = rest.size + 1 := rfl

@[simp] theorem size_branch (a b rest : Flow) :
    (branch a b rest).size = a.size + b.size + rest.size := by simp [size, text, Nat.add_assoc]

@[simp] theorem size_loop (body rest : Flow) :
    (loop body rest).size = body.size + rest.size + 2 := by simp [size, text]; omega

@[simp] theorem length_text (f : Flow) : f.text.length = f.size := rfl

def append : Flow → Flow → Flow
  | done, g => g
  | op o rest, g => op o (rest.append g)
  | branch a b rest, g => branch a b (rest.append g)
  | loop body rest, g => loop body (rest.append g)
  | leave rest, g => leave (rest.append g)

theorem text_append (f g : Flow) : (f.append g).text = f.text ++ g.text := by
  induction f with
  | done => rfl
  | op o rest ih => simp [append, text, ih]
  | branch a b rest _ _ ih => simp [append, text, ih]
  | loop body rest _ ih => simp [append, text, ih]
  | leave rest ih => simp [append, text, ih]

def ofOps (os : List Op) : Flow := os.foldr op done

theorem text_ofOps (os : List Op) : (ofOps os).text = os.map Token.op := by
  induction os with
  | nil => rfl
  | cons o os ih => simpa [ofOps, text] using ih

end Flow

/-! ## Reading a body as a flow -/

/-- Names in scope with their variables, the innermost first. -/
abbrev Names := List (String × ℕ)

def calleeOps? (Γ : Names) : Expr → Option (List Op)
  | .name r f => some ((Γ.lookup f).elim [] fun v => [.read r v])
  | .path .. => some []
  | _ => none

/-- A value that can be kept in a variable: what is read first, and its content. -/
def content? (Γ : Names) : Expr → Option (List Op × Content)
  | .name r y => some ([], (Γ.lookup y).elim .other (.copy r))
  | .borrow _ (.name r x) _ => some ([], (Γ.lookup x).elim .other (.address r))
  | .call _ func [] => (calleeOps? Γ func).map (·, .other)
  | .literal .. => some ([], .other)
  | _ => none

def Content.ops : Content → List Op
  | address r x => [.read r x]
  | copy r y => [.read r y]
  | other => []

/-- The steps of evaluating an expression for its effects: a call with at most one argument, or a
`yield`. -/
def effectOps? (Γ : Names) : Expr → Option (List Op)
  | .yield r none => some [.suspend r]
  | .yield r (some value) => do
    let (before, c) ← content? Γ value
    return before ++ c.ops ++ [.suspend r]
  | .call _ func [] => calleeOps? Γ func
  | .call _ func [arg] => do
    let callee ← calleeOps? Γ func
    let (before, c) ← content? Γ arg
    return callee ++ before ++ c.ops
  | _ => none

/-- The flow of a `let`, with the names in scope and the number of variables after it. -/
def letFlow? (Γ : Names) (m : ℕ) (value : Expr) :
    Pattern → Option Ty → Option Block → Option (Flow × Names × ℕ)
  | .bind _ name _, none, none => do
    let (before, c) ← content? Γ value
    let bind := Op.bind m c name true value.region
    return ((Flow.ofOps before).append (.ofOps [bind]), (name, m) :: Γ, m + 1)
  | _, _, _ => none

def assignFlow? (Γ : Names) (value : Expr) : Expr → AssignOp → Option Flow
  | .name _ x, .set => do
    let (before, c) ← content? Γ value
    let store := (Γ.lookup x).elim c.ops fun v => [.store v c value.region]
    return (Flow.ofOps before).append (.ofOps store)
  | _, _ => none

def conditionOps? (Γ : Names) : Condition → Option (List Op)
  | .test (.call _ func []) => calleeOps? Γ func
  | _ => none

mutual

/-- The flow of a statement, with the names in scope and the number of variables after it. -/
def stmtFlow? (Γ : Names) (m : ℕ) : Stmt → Option (Flow × Names × ℕ)
  | .letIn _ p type value otherwise => letFlow? Γ m value p type otherwise
  | .assign _ target value op => do return (← assignFlow? Γ value target op, Γ, m)
  | .expr _ value => do return (.ofOps (← effectOps? Γ value), Γ, m)
  | .ifElse _ c a none => do
    let before ← conditionOps? Γ c
    let (a, m) ← blockFlow? Γ m a
    return ((Flow.ofOps before).append (.branch a .done .done), Γ, m)
  | .ifElse _ c a (some b) => do
    let before ← conditionOps? Γ c
    let (a, m) ← blockFlow? Γ m a
    let (b, m) ← blockFlow? Γ m b
    return ((Flow.ofOps before).append (.branch a b .done), Γ, m)
  | .loop _ b => do
    let (b, m) ← blockFlow? Γ m b
    return (.loop b .done, Γ, m)
  | .block _ b => do
    let (b, m) ← blockFlow? Γ m b
    return (b, Γ, m)
  | .breakLoop _ => some (.leave .done, Γ, m)
  | _ => none

def rowFlow? (Γ : Names) (m : ℕ) : List Stmt → Option (Flow × Names × ℕ)
  | [] => some (.done, Γ, m)
  | s :: ss => do
    let (f, Γ, m) ← stmtFlow? Γ m s
    let (g, Γ, m) ← rowFlow? Γ m ss
    return (f.append g, Γ, m)

def blockFlow? (Γ : Names) (m : ℕ) : Block → Option (Flow × ℕ)
  | .mk stmts _ none => do
    let (f, _, m) ← rowFlow? Γ m stmts
    return (f, m)
  | .mk _ _ (some _) => none

end

/-- The name of a parameter, and whether it belongs to the item.  What is passed by reference
belongs to the caller. -/
def paramBinding (p : Param) : String × Bool :=
  match p.kind with
  | .receiver kind => ("self", kind = .value)
  | .typed type => (p.name, !type.isRef)

/-- The declarations of the parameters, from the variable `m` on, and the names they bring. -/
def paramOps (Γ : Names) (m : ℕ) : List Param → List Op × Names × ℕ
  | [] => ([], Γ, m)
  | p :: ps =>
    let (name, owned) := paramBinding p
    let (os, Γ, k) := paramOps ((name, m) :: Γ) (m + 1) ps
    (.bind m .other name owned p.region :: os, Γ, k)

/-- What an item does to its variables, if that can be told. -/
def itemFlow? (d : Definition) : Option Flow := do
  let (params, Γ, m) := paramOps [] 0 d.params
  let (before, Γ, m) ← rowFlow? Γ m d.prelude
  let (body, _) ← blockFlow? Γ m d.body
  return (Flow.ofOps params).append (before.append body)

/-! ## Paths -/

/-- How a path through a flow ends: at its end, by leaving the loop around it, or it is observed no
further. -/
inductive Out
  | next | left | halted
deriving DecidableEq

/-- A step of a run, by its place in the text. -/
abbrev Step := ℕ × Op

/-- The paths through a flow whose text begins at `n`. -/
inductive Path : Flow → ℕ → List Step → Out → Prop
  | halt {f n} : Path f n [] .halted
  | done {n} : Path .done n [] .next
  | op {o rest n π out} : Path rest (n + 1) π out → Path (.op o rest) n ((n, o) :: π) out
  | leave {rest n} : Path (.leave rest) n [] .left
  | first {a b rest n π π' out} : Path a n π .next → Path rest (n + a.size + b.size) π' out →
    Path (.branch a b rest) n (π ++ π') out
  | firstOut {a b rest n π out} : Path a n π out → out ≠ .next → Path (.branch a b rest) n π out
  | second {a b rest n π π' out} : Path b (n + a.size) π .next →
    Path rest (n + a.size + b.size) π' out → Path (.branch a b rest) n (π ++ π') out
  | secondOut {a b rest n π out} : Path b (n + a.size) π out → out ≠ .next →
    Path (.branch a b rest) n π out
  | again {body rest n π π' out} : Path body (n + 1) π .next → Path (.loop body rest) n π' out →
    Path (.loop body rest) n (π ++ π') out
  | exit {body rest n π π' out} : Path body (n + 1) π .left →
    Path rest (n + body.size + 2) π' out → Path (.loop body rest) n (π ++ π') out
  | within {body rest n π} : Path body (n + 1) π .halted → Path (.loop body rest) n π .halted

end Yielding.Borrow
