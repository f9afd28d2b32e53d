import Yielding.Proofs.Borrow.Ledger
import Yielding.Proofs.Every

/-!
# Proofs/Borrow/Acts — the walk as a sequence of acts

The walk through an item takes its **acts** one by one: an expression is visited, what a value
points into is held until a pattern is bound to it, scopes and loops are opened and closed.  The
acts are read off the syntax alone (`acts`), in the order of the walk, and performing them gives the
trace of the item (`trace_eq_perform`).  To the trace an act adds **notes** (`Act.trace_step`), so
what every note keeps is kept along the walk.
-/

namespace Yielding.Borrow

open List

/-- One step of the walk through an item. -/
inductive Act
  /-- Does what the expression does after its parts. -/
  | visit (e : Expr)
  /-- Holds what the value points into, unless its declared type rules that out. -/
  | hold (value : Expr) (type : Option Ty)
  /-- Forgets what was held last. -/
  | drop
  | param (p : Param)
  /-- Binds a pattern to a value of the declared type. -/
  | bind (p : Pattern) (type : Option Ty) (value : Expr)
  /-- Binds a pattern to an element of the iterable. -/
  | next (p : Pattern) (iterable : Expr)
  | store (target value : Expr)
  /-- Hands the iterable to a loop whose body yields or does not. -/
  | iterate (iterable : Expr) (yields : Bool)
  | openScope
  | closeScope
  | enter
  | leave

/-! ## The acts of an item -/

mutual

def exprActs : Expr → List Act
  | e@(.literal ..) | e@(.name ..) | e@(.path ..) | e@(.yield _ none) => [.visit e]
  | e@(.call _ first row) | e@(.methodCall _ first _ row) =>
    exprActs first ++ exprRowActs row ++ [.visit e]
  | e@(.field _ value _) | e@(.tupleField _ value _) | e@(.borrow _ value _) | e@(.await _ value)
  | e@(.unary _ _ value) | e@(.attempt _ value) | e@(.yield _ (some value)) =>
    exprActs value ++ [.visit e]
  | e@(.index _ left right) | e@(.binary _ _ left right) | e@(.range _ left right _) =>
    exprActs left ++ exprActs right ++ [.visit e]
  | e@(.tuple _ row) | e@(.array _ row) | e@(.macroCall _ _ row) | e@(.helper _ _ row) =>
    exprRowActs row ++ [.visit e]

def exprRowActs : List Expr → List Act
  | [] => []
  | e :: es => exprActs e ++ exprRowActs es

end

theorem exprActs_eq (e : Expr) : exprActs e = exprRowActs e.operands ++ [.visit e] := by
  cases e with
  | yield r value => cases value <;> simp [exprActs, exprRowActs, Expr.operands]
  | _ => simp [exprActs, exprRowActs, Expr.operands]

def optionalActs : Option Expr → List Act
  | none => []
  | some e => exprActs e

def conditionActs : Condition → List Act
  | .test e => exprActs e
  | .letMatch _ p value => exprActs value ++ [.hold value none, .bind p none value, .drop]

/-- The acts of what is stored to; a name is not read. -/
def targetActs : Expr → List Act
  | .name .. => []
  | e => exprActs e

mutual

def stmtActs : Stmt → List Act
  | .letIn _ p type value none =>
    exprActs value ++ [.hold value type, .bind p type value, .drop]
  | .letIn _ p type value (some b) =>
    exprActs value ++ .hold value type :: blockActs b ++ [.bind p type value, .drop]
  | .assign _ target value _ => exprActs value ++ targetActs target ++ [.store target value]
  | .expr _ value => exprActs value
  | .ret _ value => optionalActs value
  | .ifElse _ c a none => .openScope :: conditionActs c ++ blockActs a ++ [.closeScope]
  | .ifElse _ c a (some b) =>
    .openScope :: conditionActs c ++ blockActs a ++ .closeScope :: blockActs b
  | .whileDo _ c b =>
    .enter :: .openScope :: conditionActs c ++ blockActs b ++ [.closeScope, .leave]
  | .loop _ b => .enter :: .openScope :: blockActs b ++ [.closeScope, .leave]
  | .forIn _ p iterable b =>
    exprActs iterable ++ .hold iterable none :: .iterate iterable (blockYields b) ::
      .enter :: .openScope :: .next p iterable :: blockActs b ++ [.closeScope, .leave, .drop]
  | .block _ b => blockActs b
  | .matchOn _ subject arms =>
    exprActs subject ++ .hold subject none :: armActs subject arms ++ [.drop]
  | _ => []

def rowActs : List Stmt → List Act
  | [] => []
  | s :: ss => stmtActs s ++ rowActs ss

def blockActs : Block → List Act
  | .mk stmts _ tail => .openScope :: rowActs stmts ++ optionalActs tail ++ [.closeScope]

def armActs (subject : Expr) : List Arm → List Act
  | [] => []
  | .mk _ p guard b :: arms =>
    .openScope :: .bind p none subject :: optionalActs guard ++ blockActs b ++
      .closeScope :: armActs subject arms

end

theorem rowActs_append (ss ss' : List Stmt) : rowActs (ss ++ ss') = rowActs ss ++ rowActs ss' := by
  induction ss with
  | nil => rfl
  | cons s ss ih => simp [rowActs, ih]

theorem armActs_append (subject : Expr) (arms arms' : List Arm) :
    armActs subject (arms ++ arms') = armActs subject arms ++ armActs subject arms' := by
  induction arms with
  | nil => rfl
  | cons arm arms ih =>
    obtain ⟨r, p, guard, b⟩ := arm
    simp [armActs, ih]

/-- The acts of an item: its parameters, its prelude, its body. -/
def acts (d : Definition) : List Act :=
  d.params.map .param ++ rowActs d.prelude ++ blockActs d.body

/-! ## Performing acts -/

/-- How far the walk has come: its trace and what it will go back to. -/
structure Progress where
  trace : Trace := {}
  /-- What the values hold that are still to be bound, the last one first. -/
  held : List Lenders := []
  /-- The scopes to go back to, the innermost first. -/
  scopes : List (List (String × ℕ)) := []
  /-- For each loop that is open, the loops around it and its number, the innermost first. -/
  outside : List (List ℕ × ℕ) := []

namespace Progress

def withTrace (w : Progress) (t : Trace) : Progress := { w with trace := t }

/-- What the value holds that is bound next. -/
def top (w : Progress) : Lenders := w.held.headD []

end Progress

/-- What a parameter binds. -/
def bindParam (t : Trace) (p : Param) : Trace :=
  match p.kind with
  | .receiver kind => t.bind "self" (kind = .value) fun _ => []
  | .typed type => t.bind p.name (!type.isRef) fun _ => []

/-- What a store lets its target hold. -/
def storeInto (fns : FnTypes) (t : Trace) (target value : Expr) : Trace :=
  match root? t target with
  | none => t
  | some i => t.taint i ((lenders fns t value).filter (· ≠ i)) value.region

/-- The loop with the given number ends; `around` are the loops around it. -/
def Trace.leaveTo (t : Trace) (around : List ℕ) (loop : ℕ) : Trace :=
  { t.tick with
    around := around
    loops := t.loops.modify loop fun range => { range with last := t.pos + 1 } }

section Perform

variable (file : Option String) (fns : FnTypes)

def Act.step (w : Progress) : Act → Progress
  | visit e => w.withTrace (Borrow.visit fns e w.trace)
  | hold value type =>
    { w with held := (if type.all Ty.mayBorrow then lenders fns w.trace value else []) :: w.held }
  | drop => { w with held := w.held.tail }
  | param p => w.withTrace (bindParam w.trace p)
  | bind p type value => w.withTrace (w.trace.bindPattern p w.top value.region (ownedBy type))
  | next p iterable => w.withTrace (w.trace.bindPattern p w.top iterable.region)
  | store target value => w.withTrace (storeInto fns w.trace target value)
  | iterate iterable yields =>
    let escapes := !w.top.isEmpty && yields
    { w with
      trace :=
        if escapes then
          { w.trace with
            diagnostics := w.trace.diagnostics ++ [loopError file w.trace iterable w.top] }
        else w.trace
      held := (if escapes then [] else w.top) :: w.held.tail }
  | openScope => { w with scopes := w.trace.scope :: w.scopes }
  | closeScope =>
    { w with trace := { w.trace with scope := w.scopes.headD [] }, scopes := w.scopes.tail }
  | enter =>
    { w with trace := w.trace.enter, outside := (w.trace.around, w.trace.loops.size) :: w.outside }
  | leave =>
    let (around, loop) := w.outside.headD ([], 0)
    { w with trace := w.trace.leaveTo around loop, outside := w.outside.tail }

def perform (w : Progress) (as : List Act) : Progress := as.foldl (Act.step file fns) w

variable {file fns}

@[simp] theorem perform_nil (w : Progress) : perform file fns w [] = w := rfl

@[simp] theorem perform_cons (w : Progress) (a : Act) (as : List Act) :
    perform file fns w (a :: as) = perform file fns (a.step file fns w) as := rfl

@[simp] theorem perform_append (w : Progress) (as bs : List Act) :
    perform file fns w (as ++ bs) = perform file fns (perform file fns w as) bs := foldl_append

/-! ## The walk performs the acts -/

theorem walkExpr_eq (t : Trace) (e : Expr) :
    walkExpr fns t e = visit fns e (walkRow fns t e.operands) := by
  cases e with
  | yield r value => cases value <;> rfl
  | _ => rfl

theorem perform_exprActs (e : Expr) (w : Progress) :
    perform file fns w (exprActs e) = w.withTrace (walkExpr fns w.trace e) := by
  induction e using Expr.operandInduction generalizing w with
  | h e ih =>
    have hrow : perform file fns w (exprRowActs e.operands) =
        w.withTrace (walkRow fns w.trace e.operands) := by
      generalize e.operands = es at ih
      induction es generalizing w with
      | nil => rfl
      | cons o es ihrow =>
        rw [forall_mem_cons] at ih
        rw [exprRowActs, perform_append, ih.1, ihrow _ ih.2]
        rfl
    rw [exprActs_eq, walkExpr_eq, perform_append, hrow]
    rfl

theorem perform_optionalActs (e : Option Expr) (w : Progress) :
    perform file fns w (optionalActs e) = w.withTrace (walkOptional fns w.trace e) := by
  cases e with
  | none => rfl
  | some e => exact perform_exprActs e w

theorem perform_conditionActs (c : Condition) (w : Progress) :
    perform file fns w (conditionActs c) = w.withTrace (walkCondition fns w.trace c) := by
  cases c with
  | test e => exact perform_exprActs e w
  | letMatch _ p value =>
    rw [conditionActs, perform_append, perform_exprActs value]
    rfl

theorem perform_assign (r : Region) (target value : Expr) (op : AssignOp) (w : Progress) :
    perform file fns w (stmtActs (.assign r target value op)) =
      w.withTrace (walkStmt file fns w.trace (.assign r target value op)) := by
  rw [stmtActs, perform_append, perform_append, perform_exprActs value]
  cases target with
  | name => rfl
  | _ =>
    rw [targetActs, perform_exprActs]
    · rfl
    · simp

mutual

theorem perform_stmtActs : ∀ (s : Stmt) (w : Progress),
    perform file fns w (stmtActs s) = w.withTrace (walkStmt file fns w.trace s)
  | .letIn _ p type value none, w => by
    rw [stmtActs, perform_append, perform_exprActs value]
    rfl
  | .letIn _ _ _ value (some b), w | .forIn _ _ value b, w => by
    simp only [stmtActs, append_assoc, cons_append, perform_append, perform_cons,
      perform_exprActs value, perform_blockActs b]
    rfl
  | .assign r target value op, w => perform_assign r target value op w
  | .expr _ value, w => perform_exprActs value w
  | .ret _ value, w => perform_optionalActs value w
  | .ifElse _ c b none, w | .whileDo _ c b, w => by
    simp only [stmtActs, cons_append, perform_append, perform_cons, perform_conditionActs c,
      perform_blockActs b]
    rfl
  | .ifElse _ c a (some b), w => by
    simp only [stmtActs, cons_append, perform_append, perform_cons, perform_conditionActs c,
      perform_blockActs a, perform_blockActs b]
    rfl
  | .loop _ b, w => by
    simp only [stmtActs, cons_append, perform_append, perform_cons, perform_blockActs b]
    rfl
  | .block _ b, w => perform_blockActs b w
  | .matchOn _ subject arms, w => by
    simp only [stmtActs, append_assoc, cons_append, perform_append, perform_cons,
      perform_exprActs subject, perform_armActs subject arms]
    rfl
  | .breakLoop _, _ | .continueLoop _, _ | .fn .., _ | .suspend .., _ | .terminate _, _ => rfl

theorem perform_rowActs : ∀ (ss : List Stmt) (w : Progress),
    perform file fns w (rowActs ss) = w.withTrace (walkStmts file fns w.trace ss)
  | [], _ => rfl
  | s :: ss, w => by
    rw [rowActs, perform_append, perform_stmtActs s, perform_rowActs ss]
    rfl

theorem perform_blockActs : ∀ (b : Block) (w : Progress),
    perform file fns w (blockActs b) = w.withTrace (walkBlock file fns w.trace b)
  | .mk stmts _ tail, w => by
    simp only [blockActs, cons_append, perform_append, perform_cons, perform_rowActs stmts,
      perform_optionalActs tail]
    rfl

theorem perform_armActs (subject : Expr) : ∀ (arms : List Arm) (w : Progress),
    perform file fns w (armActs subject arms) =
      w.withTrace (walkArms file fns w.trace w.top subject.region arms)
  | [], _ => rfl
  | .mk _ p guard b :: arms, w => by
    simp only [armActs, cons_append, append_assoc, perform_append, perform_cons,
      perform_optionalActs guard, perform_blockActs b, perform_armActs subject arms]
    rfl

end

theorem perform_params (ps : List Param) (w : Progress) :
    perform file fns w (ps.map .param) = w.withTrace (bindParams w.trace ps) := by
  induction ps generalizing w with
  | nil => rfl
  | cons p ps ih =>
    rw [map_cons, perform_cons, ih]
    rfl

/-- **The trace of an item is what its acts leave behind.** -/
theorem trace_eq_perform (file : Option String) (d : Definition) :
    perform file d.fnTypes {} (acts d) = { trace := trace file d } := by
  rw [acts, perform_append, perform_append, perform_params, perform_rowActs, perform_blockActs]
  rfl

end Perform

/-! ## Notes -/

/-- What an act can add to a trace. -/
inductive Note
  | touch (region : Region) (v : ℕ)
  | suspend (region : Region)
  | bind (name : String) (owned : Bool) (held : Lenders) (region : Region)
  | taint (v : ℕ) (held : Lenders) (region : Region)
  | enter
  | leave (around : List ℕ) (loop : ℕ)
  | scope (names : List (String × ℕ))
  | report (error : Diagnostic)

def Trace.note (t : Trace) : Note → Trace
  | .touch r v => t.touch r v
  | .suspend r => t.suspend r
  | .bind name owned held r =>
    { t.declare name owned held r with scope := (name, t.bindings.size) :: t.scope }
  | .taint v held r => t.taint v held r
  | .enter => t.enter
  | .leave around loop => t.leaveTo around loop
  | .scope names => { t with scope := names }
  | .report error => { t with diagnostics := t.diagnostics ++ [error] }

/-- The notes of a pattern, all of whose names hold the same. -/
def patternNotes (p : Pattern) (held : Lenders) (region : Region) (owned : Bool) : List Note :=
  p.bindings.map fun x => .bind x.1 owned held region

/-- The notes of what an expression does after its parts. -/
def visitNotes (fns : FnTypes) (t : Trace) : Expr → List Note
  | .name r x => ((t.lookup? x).map (.touch r)).toList
  | .yield r _ => [.suspend r]
  | .methodCall r receiver method args =>
    if storing.contains method then
      ((root? t receiver).map (.taint · (rowLenders fns t args) r)).toList
    else []
  | _ => []

def Act.notes (file : Option String) (fns : FnTypes) (w : Progress) : Act → List Note
  | visit e => visitNotes fns w.trace e
  | param p => [.bind (paramBinding p).1 (paramBinding p).2 [] default]
  | bind p type value => patternNotes p w.top value.region (ownedBy type)
  | next p iterable => patternNotes p w.top iterable.region true
  | store target value => ((root? w.trace target).map fun i =>
      .taint i ((lenders fns w.trace value).filter (· ≠ i)) value.region).toList
  | iterate iterable yields =>
    if !w.top.isEmpty && yields then [.report (loopError file w.trace iterable w.top)] else []
  | closeScope => [.scope (w.scopes.headD [])]
  | enter => [.enter]
  | leave => [.leave (w.outside.headD ([], 0)).1 (w.outside.headD ([], 0)).2]
  | hold .. | drop | openScope => []

/-- **An act adds its notes.** -/
theorem Act.trace_step (file : Option String) (fns : FnTypes) (w : Progress) (a : Act) :
    (a.step file fns w).trace = (a.notes file fns w).foldl Trace.note w.trace := by
  cases a with
  | visit e =>
    cases e with
    | name r x =>
      simp only [step, Progress.withTrace, notes, visitNotes, Borrow.visit]
      cases w.trace.lookup? x <;> rfl
    | methodCall r receiver method args =>
      simp only [step, Progress.withTrace, notes, visitNotes, Borrow.visit]
      split
      · cases root? w.trace receiver <;> rfl
      · rfl
    | _ => rfl
  | param p =>
    simp only [step, Progress.withTrace, notes, bindParam, paramBinding]
    cases p.kind <;> rfl
  | bind p type value =>
    simp only [step, Progress.withTrace, notes, patternNotes, Trace.bindPattern, foldl_map]
    rfl
  | next p iterable =>
    simp only [step, Progress.withTrace, notes, patternNotes, Trace.bindPattern, foldl_map]
    rfl
  | store target value =>
    simp only [step, Progress.withTrace, notes, storeInto]
    cases root? w.trace target <;> rfl
  | iterate iterable yields =>
    simp only [step, notes]
    split <;> rfl
  | hold | drop | openScope | closeScope | enter | leave => rfl

theorem note_induction {P : Trace → Prop} (note : ∀ t n, P t → P (t.note n)) (file : Option String)
    (fns : FnTypes) (as : List Act) {w : Progress} (h : P w.trace) :
    P (perform file fns w as).trace := by
  induction as generalizing w with
  | nil => exact h
  | cons a as ih =>
    refine ih ?_
    rw [a.trace_step]
    exact foldlRecOn (motive := P) _ _ h fun t ht n _ => note t n ht

end Yielding.Borrow
