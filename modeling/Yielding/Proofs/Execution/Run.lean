import Mathlib.Logic.Function.Basic
import Yielding.Syntax.Stmt

/-!
# Proofs/Execution/Run — what running a body does

A run executes a body, lowered or not, and keeps a **log** of everything it asks of the world:
calls, reads and writes inside values, operators, suspensions.  An **oracle** answers from the log
so far. Names live in an environment; a block puts back what its bindings have covered.  Nested
functions are visible in their whole block, and calling one is a call like any other.

What a value is stays open (`Values`): a run only tests truth, takes patterns apart, and tells the
residual of an outcome from its output.
-/

namespace Yielding.Execution

/-! ## Values -/

/-- What `?` makes of a value. -/
inductive Verdict (V : Type)
  | output (value : V)
  | residual (value : V)
  | neither

/-- Values, as far as a run makes them and looks into them. -/
structure Values (V : Type) where
  literal : Literal → V
  path : List String → V
  /-- The value of a nested function. -/
  fn : Region → String → V
  tuple : List V → V
  array : List V → V
  range : V → V → Bool → V
  isTrue : V → Bool
  verdict : V → Verdict V
  parts : V → Option (List V)
  payload : Variant → V → Option V
  isNone : V → Bool
  equals : V → Literal → Bool
  isTrue_bool : ∀ b, isTrue (literal (.bool b)) = b

attribute [simp] Values.isTrue_bool

section Patterns

variable {V : Type}

mutual

/-- The names that a pattern binds when it matches a value, with what they are bound to. -/
def Values.matches? (k : Values V) : Pattern → V → Option (List (String × V))
  | .bind _ name _, v => some [(name, v)]
  | .wildcard _, _ | .rest _, _ => some []
  | .tuple _ items, v => (k.parts v).bind (k.matchRow? items)
  | .noneVariant _, v => if k.isNone v then some [] else none
  | .variant _ variant inner, v => (k.payload variant v).bind (k.matches? inner)
  | .literal _ l, v => if k.equals v l then some [] else none

/-- The same for the items of a tuple; `..` takes what the items after it leave. -/
def Values.matchRow? (k : Values V) : List Pattern → List V → Option (List (String × V))
  | [], [] => some []
  | [], _ :: _ => none
  | .rest _ :: ps, vs => k.matchRow? ps (vs.drop (vs.length - ps.length))
  | _ :: _, [] => none
  | p :: ps, v :: vs => do return (← k.matches? p v) ++ (← k.matchRow? ps vs)

end

end Patterns

/-! ## Logs -/

/-- Where in a value something is read or written. -/
inductive Location
  | field (name : String) | component (index : Nat) | item | target
deriving DecidableEq

/-- The place that an expression names inside a value, with the expressions that it depends on. -/
def place? : Expr → Option (Location × List Expr)
  | .field _ value attr => some (.field attr, [value])
  | .tupleField _ value index => some (.component index, [value])
  | .index _ value index => some (.item, [value, index])
  | .unary _ .deref operand => some (.target, [operand])
  | _ => none

/-- What a run does that its surroundings can tell. -/
inductive Action
  | call | method (name : String) | macroCall (name : MacroName) | await
  | borrow (mutable : Bool) | negate | operator (op : BinaryOp)
  | read (place : Location) | write (place : Location) | next | suspend
deriving DecidableEq

/-- An action with its operands. -/
structure Event (V : Type) where
  action : Action
  operands : List V
deriving DecidableEq

/-- What has happened so far. -/
abbrev Log (V : Type) := List (Event V)

/-- How a run ends: the sequence is finished, something failed, or the rounds of a loop were used
up. -/
inductive Exit
  | finished | raised | cut
deriving DecidableEq

/-- Running with a log.  An exit carries the log that it leaves. -/
abbrev Run (V : Type) := StateT (Log V) (Except (Exit × Log V))

/-- Everything a run depends on besides the environment.  An oracle without an answer fails. -/
structure Machine (V : Type) where
  values : Values V
  oracle : Log V → Option V
  /-- Whether `?` yields its residual before it finishes the sequence. -/
  yieldsResidual : Bool

/-- The values of the variables. -/
abbrev Env (V : Type) := String → V

section

variable {V : Type}

def stop {α : Type} (e : Exit) : Run V α := do throw (e, ← get)

def note (action : Action) (operands : List V) : Run V Unit := modify (· ++ [⟨action, operands⟩])

def suspend (v : V) : Run V Unit := note .suspend [v]

namespace Machine

variable (m : Machine V)

def ask (action : Action) (operands : List V) : Run V V := do
  note action operands
  match m.oracle (← get) with
  | some v => return v
  | none => stop .raised

def unit : V := m.values.literal .unit

def bool (b : Bool) : V := m.values.literal (.bool b)

/-- Leaves the body with a residual. -/
def leave {α : Type} (residual : V) : Run V α := do
  if m.yieldsResidual then suspend residual
  stop .finished

def help (h : Helper) (operands : List V) : Run V V :=
  match h, operands.map m.values.verdict with
  | .isResidual, [.residual _] => return m.bool true
  | .isResidual, [.output _] => return m.bool false
  | .residual, [.residual r] => return r
  | .output, [.output w] => return w
  | _, _ => stop .raised

/-! ## Expressions -/

/-- Whether `&&` or `||` needs its right operand, by the truth of the left one. -/
def needsRight (op : BinaryOp) (left : Bool) : Bool := if op = .and then left else !left

mutual

/-- Evaluates an expression: its operands once and in order, then what it does itself. -/
def eval (σ : Env V) : Expr → Run V V
  | .literal _ value => return m.values.literal value
  | .name _ ident => return σ ident
  | .path _ segments => return m.values.path segments
  | .call _ func args => do
    let f ← eval σ func
    let vs ← evalRow σ args
    m.ask .call (f :: vs)
  | .methodCall _ receiver method args => do
    let r ← eval σ receiver
    let vs ← evalRow σ args
    m.ask (.method method) (r :: vs)
  | .field _ value attr => do m.ask (.read (.field attr)) [← eval σ value]
  | .tupleField _ value index => do m.ask (.read (.component index)) [← eval σ value]
  | .index _ value index => do
    let a ← eval σ value
    let b ← eval σ index
    m.ask (.read .item) [a, b]
  | .unary _ .deref operand => do m.ask (.read .target) [← eval σ operand]
  | .unary _ .neg operand => do m.ask .negate [← eval σ operand]
  | .unary _ .not operand => do return m.bool (!m.values.isTrue (← eval σ operand))
  | .borrow _ value mutable => do m.ask (.borrow mutable) [← eval σ value]
  | .binary _ op left right => do
    let a ← eval σ left
    if op.isLazy then
      if needsRight op (m.values.isTrue a) then eval σ right else return a
    else
      let b ← eval σ right
      m.ask (.operator op) [a, b]
  | .range _ start last inclusive => do
    let a ← eval σ start
    let b ← eval σ last
    return m.values.range a b inclusive
  | .tuple _ elements => do return m.values.tuple (← evalRow σ elements)
  | .array _ elements => do return m.values.array (← evalRow σ elements)
  | .macroCall _ name args => do m.ask (.macroCall name) (← evalRow σ args)
  | .yield _ none => do
    suspend m.unit
    return m.unit
  | .yield _ (some value) => do
    suspend (← eval σ value)
    return m.unit
  | .attempt _ operand => do
    let v ← eval σ operand
    match m.values.verdict v with
    | .output w => return w
    | .residual r => m.leave r
    | .neither => stop .raised
  | .await _ value => do m.ask .await [← eval σ value]
  | .helper _ name args => do m.help name (← evalRow σ args)

def evalRow (σ : Env V) : List Expr → Run V (List V)
  | [] => return []
  | e :: es => do
    let v ← eval σ e
    let vs ← evalRow σ es
    return v :: vs

end

end Machine

end

/-! ## Statements -/

/-- Where control goes after a statement. -/
inductive Flow
  | next | leave | again
deriving DecidableEq

/-- What a statement leaves behind.  The **covered** values are those that its bindings hide, the
latest first. -/
structure After (V : Type) where
  env : Env V
  covered : List (String × V)
  flow : Flow

section

variable {V : Type}

/-- The environment with one more binding. -/
def After.bind (a : After V) (b : String × V) : After V :=
  { a with env := Function.update a.env b.1 b.2, covered := (b.1, a.env b.1) :: a.covered }

def bindAll (σ : Env V) (bs : List (String × V)) : After V := bs.foldl After.bind ⟨σ, [], .next⟩

def restore (covered : List (String × V)) (σ : Env V) : Env V :=
  covered.foldl (fun σ c => Function.update σ c.1 c.2) σ

def close (a : After V) : After V := ⟨restore a.covered a.env, [], a.flow⟩

def operator? : AssignOp → Option BinaryOp
  | .set => none
  | .add => some .add
  | .sub => some .sub
  | .mul => some .mul
  | .div => some .div
  | .rem => some .rem

/-- Goes through a loop round by round until it is left; at most `n` rounds. -/
def rounds : (n : Nat) → (round : Env V → Run V (After V)) → Env V → Run V (After V)
  | 0, _, _ => stop .cut
  | n + 1, round, σ => do
    let a ← round σ
    match a.flow with
    | .leave => return ⟨a.env, [], .next⟩
    | .next | .again => rounds n round a.env

namespace Machine

variable (m : Machine V)

def fnBindings (stmts : List Stmt) : List (String × V) :=
  stmts.filterMap fun
    | .fn region name .. => some (name, m.values.fn region name)
    | _ => none

def combine (op : AssignOp) (old : Run V V) (v : V) : Run V V :=
  match operator? op with
  | none => return v
  | some b => do m.ask (.operator b) [← old, v]

def assign (σ : Env V) (target : Expr) (op : AssignOp) (v : V) : Run V (Env V) :=
  match target with
  | .name _ ident => do return Function.update σ ident (← m.combine op (return σ ident) v)
  | target =>
    match place? target with
    | some (place, parts) => do
      let vs ← m.evalRow σ parts
      let new ← m.combine op (m.ask (.read place) vs) v
      let _ ← m.ask (.write place) (vs ++ [new])
      return σ
    | none => stop .raised

def decide? (σ : Env V) : Condition → Run V (Option (List (String × V)))
  | .test e => do return if m.values.isTrue (← m.eval σ e) then some [] else none
  | .letMatch _ p value => do return m.values.matches? p (← m.eval σ value)

def evalOptional (σ : Env V) : Option Expr → Run V Unit
  | none => return
  | some e => do let _ ← m.eval σ e

/-- Whether the guard of an arm lets it apply. -/
def guardHolds (σ : Env V) : Option Expr → Run V Bool
  | none => return true
  | some e => do return m.values.isTrue (← m.eval σ e)

def skip (σ : Env V) : Run V (After V) := return ⟨σ, [], .next⟩

/-- Carries on after a statement if control reaches its end. -/
def andThen (a : After V) (rest : Env V → Run V (After V)) : Run V (After V) :=
  match a.flow with
  | .next => do
    let b ← rest a.env
    return ⟨b.env, b.covered ++ a.covered, b.flow⟩
  | .leave | .again => return a

def evalTail (tail : Option Expr) (a : After V) : Run V Unit :=
  match a.flow with
  | .next => m.evalOptional a.env tail
  | .leave | .again => return

mutual

/-- Executes a statement; a loop goes through at most `n` rounds each time it is reached. -/
def exec (n : Nat) (σ : Env V) : Stmt → Run V (After V)
  | .letIn _ p _ value none => do
    match m.values.matches? p (← m.eval σ value) with
    | some bs => return bindAll σ bs
    | none => stop .raised
  | .letIn _ p _ value (some b) => do
    match m.values.matches? p (← m.eval σ value) with
    | some bs => return bindAll σ bs
    | none => do
      let a ← execBlock n σ [] b
      if a.flow = .next then stop .raised else return a
  | .assign _ target value op => do
    let v ← m.eval σ value
    return ⟨← m.assign σ target op v, [], .next⟩
  | .expr _ value => do
    let _ ← m.eval σ value
    skip σ
  | .ret _ value => do
    m.evalOptional σ value
    stop .finished
  | .breakLoop _ => return ⟨σ, [], .leave⟩
  | .continueLoop _ => return ⟨σ, [], .again⟩
  | .ifElse _ condition a none => do
    match ← m.decide? σ condition with
    | some bs => execBlock n σ bs a
    | none => skip σ
  | .ifElse _ condition a (some b) => do
    match ← m.decide? σ condition with
    | some bs => execBlock n σ bs a
    | none => execBlock n σ [] b
  | .whileDo _ condition b =>
    rounds n (fun σ => do
      match ← m.decide? σ condition with
      | some bs => execBlock n σ bs b
      | none => return ⟨σ, [], .leave⟩) σ
  | .loop _ b => rounds n (fun σ => execBlock n σ [] b) σ
  | .forIn _ p iterable b => do
    let it ← m.eval σ iterable
    rounds n (fun σ => do
      match m.values.payload .some (← m.ask .next [it]) with
      | some v =>
        match m.values.matches? p v with
        | some bs => execBlock n σ bs b
        | none => stop .raised
      | none => return ⟨σ, [], .leave⟩) σ
  | .block _ b => execBlock n σ [] b
  | .fn .. => skip σ
  | .matchOn _ subject arms => do execArms n σ (← m.eval σ subject) arms
  | .suspend _ value => do
    suspend (← m.eval σ value)
    skip σ
  | .terminate _ => stop .finished

def execRow (n : Nat) (σ : Env V) : List Stmt → Run V (After V)
  | [] => skip σ
  | s :: ss => do andThen (← exec n σ s) fun σ => execRow n σ ss

/-- Executes a block after binding names: its functions are visible from its beginning. -/
def execBlock (n : Nat) (σ : Env V) (bs : List (String × V)) : Block → Run V (After V)
  | .mk stmts _ tail => do
    let entered := bindAll σ (bs ++ m.fnBindings stmts)
    let a ← andThen entered fun σ => execRow n σ stmts
    m.evalTail tail a
    return close a

/-- Executes the first arm that applies to a value. -/
def execArms (n : Nat) (σ : Env V) (v : V) : List Arm → Run V (After V)
  | [] => skip σ
  | .mk _ p guard b :: arms => do
    match m.values.matches? p v with
    | some bs =>
      if ← m.guardHolds (bindAll σ bs).env guard then execBlock n σ bs b
      else execArms n σ v arms
    | none => execArms n σ v arms

end

/-! ## Runs of bodies -/

/-- The end of the run of a body with at most `n` rounds for each loop, and its log. -/
def run (n : Nat) (σ : Env V) (body : Block) : Exit × Log V :=
  match (m.execBlock n σ [] body).run [] with
  | .ok (_, log) => (.finished, log)
  | .error e => e

/-- The run of a body gets as far as the log. -/
def Produces (σ : Env V) (body : Block) (log : Log V) : Prop := ∃ n, log <+: (m.run n σ body).2

/-- The run of a body ends, with the log. -/
def Ends (σ : Env V) (body : Block) (e : Exit) (log : Log V) : Prop :=
  e ≠ .cut ∧ ∃ n, m.run n σ body = (e, log)

end Machine

end

end Yielding.Execution
