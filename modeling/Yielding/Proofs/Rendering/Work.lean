import Yielding.Proofs.Flow.Items
import Yielding.Proofs.Rendering.Marks
import Yielding.Proofs.Rendering.Statements

/-!
# Proofs/Rendering/Work — how often work is written

The **work** of an item is its calls, of methods and macros too, and its awaits.  Code holds each of
them once, with two exceptions: what a known function ignores of its arguments is dropped, and what
stands in the target of `/=` or `%=` is repeated (`itemCode_work`,
`target_of_division_is_repeated`).  Work is followed into code by marks.
-/

namespace Yielding

open List Script

/-! ## Work that is dropped and repeated -/

mutual

/-- The parts of an expression that its term does not show: what a known function ignores, and its
own path. -/
def Expr.dropped : Expr → List Expr
  | .literal .. | .name .. | .path .. | .yield _ none => []
  | .call _ func args =>
    match knownFunction? func with
    | none => func.dropped ++ Expr.droppedRow args
    | some (.extremum _) => func.walk ++ Expr.droppedRow args
    | some .toText => func.walk ++ Expr.droppedAfterHead args
    | some .emptyText | some .emptyList => func.walk ++ Expr.walkRow args
  | .methodCall _ receiver _ args => receiver.dropped ++ Expr.droppedRow args
  | .field _ value _ | .tupleField _ value _ | .borrow _ value _ | .await _ value | .unary _ _ value
  | .attempt _ value | .yield _ (some value) => value.dropped
  | .index _ left right | .binary _ _ left right
  | .range _ left right _ => left.dropped ++ right.dropped
  | .tuple _ row | .array _ row | .macroCall _ _ row | .helper _ _ row => Expr.droppedRow row

def Expr.droppedRow : List Expr → List Expr
  | [] => []
  | e :: es => e.dropped ++ Expr.droppedRow es

def Expr.droppedAfterHead : List Expr → List Expr
  | [] => []
  | e :: es => e.dropped ++ Expr.walkRow es

end

section Operands

attribute [local simp] Expr.dropped Expr.droppedRow

theorem Expr.dropped_eq {e : Expr} (h : ∀ r func args, e ≠ .call r func args) :
    e.dropped = Expr.droppedRow e.operands := by
  cases e with
  | call r func args => exact (h r func args rfl).elim
  | yield r value => cases value <;> simp [operands]
  | _ => simp [operands]

end Operands

namespace Use

def expr : Use → Expr
  | value e | subject _ e | target _ e => e

def repeated : Use → List Expr
  | target op e => if op.repeatsTarget then e.shown else []
  | _ => []

def marked (p : Expr → Bool) : Use → Use
  | value e => value (e.marked p)
  | subject q e => subject q (e.marked p)
  | target op e => target op (e.marked p)

end Use

namespace Definition

/-- All that the item uses, with its parts. -/
def parts (d : Definition) : List Expr := d.uses.flatMap (·.expr.walk)

/-- What the code of the item leaves out. -/
def dropped (d : Definition) : List Expr := d.uses.flatMap (·.expr.dropped)

/-- What the code of the item does once more. -/
def repeated (d : Definition) : List Expr := d.uses.flatMap Use.repeated

end Definition

/-- How much work is chosen. -/
def workAmong (p : Expr → Bool) (es : List Expr) : Nat := es.countP fun e => e.isWork && p e

section Counting

variable (p : Expr → Bool)

@[simp]
theorem workAmong_nil : workAmong p [] = 0 := rfl

@[simp]
theorem workAmong_cons (e : Expr) (es : List Expr) :
    workAmong p (e :: es) = (if e.isWork && p e then 1 else 0) + workAmong p es := by
  rw [workAmong, countP_cons, add_comm]
  rfl

@[simp]
theorem workAmong_append (es es' : List Expr) :
    workAmong p (es ++ es') = workAmong p es + workAmong p es' :=
  countP_append

theorem workAmong_walkRow {es : List Expr}
    (h : ∀ e ∈ es, workAmong p e.walk = workAmong p e.shown + workAmong p e.dropped) :
    workAmong p (Expr.walkRow es) = workAmong p (Expr.shownRow es) +
      workAmong p (Expr.droppedRow es) := by
  induction es with
  | nil => simp [Expr.walkRow, Expr.shownRow, Expr.droppedRow]
  | cons e es ih =>
    have h := forall_mem_cons.1 h
    have hes := ih h.2
    simp only [Expr.walkRow, Expr.shownRow, Expr.droppedRow, workAmong_append]
    omega

theorem workAmong_walk (e : Expr) :
    workAmong p e.walk = workAmong p e.shown + workAmong p e.dropped := by
  induction e using Expr.operandInduction with
  | h e ih =>
    have hrow := workAmong_walkRow p ih
    by_cases hcall : ∃ r func args, e = .call r func args
    · obtain ⟨r, func, args, rfl⟩ := hcall
      have ih := forall_mem_cons.1 ih
      have hargs := workAmong_walkRow p ih.2
      rw [Expr.walk, Expr.shown, Expr.dropped]
      cases knownFunction? func with
      | none =>
        simp only [workAmong_cons, workAmong_append]
        omega
      | some form =>
        cases form with
        | emptyText | emptyList => simp
        | extremum _ =>
          simp only [workAmong_cons, workAmong_append]
          omega
        | toText =>
          cases args with
          | nil => simp [Expr.walkRow, Expr.shownHead, Expr.droppedAfterHead]
          | cons arg args =>
            have harg := ih.2 arg (.head _)
            simp only [Expr.walkRow, Expr.shownHead, Expr.droppedAfterHead, workAmong_cons,
              workAmong_append]
            omega
    · have hcall : ∀ r func args, e ≠ .call r func args := fun r func args h =>
        hcall ⟨r, func, args, h⟩
      rw [Expr.walk_eq, Expr.shown_eq hcall, Expr.dropped_eq hcall, workAmong_cons,
        workAmong_cons, hrow, add_assoc]

end Counting

/-! ## Marks of expressions -/

namespace Script

open Scoping Yielding.Flow

def byMarks : Weights Nat where
  name _ := 0
  attr x := if x = mark then 1 else 0
  path _ := 0
  base _ := 0
  store _ := 0

def rowMarks (code : List Code) : Nat := Code.weighRow byMarks code

theorem byMarks_light : byMarks.Light where
  name _ := rfl
  payload v := by cases v <;> decide
  support _ := rfl
  empty := rfl

theorem held_byMarks (e : Expr) : byMarks.held e = 0 := by
  rw [Weights.held]
  cases e.literal? <;> rfl

section Marking

variable (p : Expr → Bool)

theorem total_markIf (chosen : Bool) (e : Expr) :
    byMarks.total (e.markIf chosen).shown = (if chosen then 1 else 0) + byMarks.total e.shown := by
  cases chosen with
  | false => simp [Expr.markIf]
  | true =>
    have hnode : byMarks.node (.field e.region e mark) = 1 := by
      rw [Weights.node, held_byMarks]
      decide
    rw [Expr.markIf, if_pos rfl, Expr.shown, Weights.total_cons, hnode, if_pos rfl]

theorem node_withOperands {e : Expr} {es : List Expr} (hes : es.length = e.operands.length) :
    byMarks.node (e.withOperands es) = byMarks.node e := by
  fun_cases Expr.withOperands e es with
  | case2 r receiver method args =>
    rw [Weights.node, Weights.node, held_byMarks, held_byMarks, Nat.succ.inj hes]
  | case3 => rw [Weights.node, Weights.node, held_byMarks, held_byMarks]
  | _ => rfl

theorem total_markedRow {es : List Expr} (h : ∀ e ∈ es,
    byMarks.total (e.marked p).shown = byMarks.total e.shown + workAmong p e.shown) :
    byMarks.total (Expr.shownRow (Expr.markedRow p es)) =
      byMarks.total (Expr.shownRow es) + workAmong p (Expr.shownRow es) := by
  induction es with
  | nil => simp [Expr.markedRow, Expr.shownRow]
  | cons e es ih =>
    have h := forall_mem_cons.1 h
    have hes := ih h.2
    simp only [Expr.markedRow, Expr.shownRow, Weights.total_append, workAmong_append]
    omega

theorem total_marked (e : Expr) :
    byMarks.total (e.marked p).shown = byMarks.total e.shown + workAmong p e.shown := by
  induction e using Expr.operandInduction with
  | h e ih =>
    have hrow := total_markedRow p ih
    have hlength := Expr.length_markedRow p e.operands
    rw [Expr.marked_eq, total_markIf]
    by_cases hcall : ∃ r func args, e = .call r func args
    · obtain ⟨r, func, args, rfl⟩ := hcall
      have ih := forall_mem_cons.1 ih
      have hargs := total_markedRow p ih.2
      rw [Expr.operands, Expr.markedRow, Expr.withOperands, Expr.shown, Expr.shown,
        knownFunction_marked]
      cases knownFunction? func with
      | none =>
        simp only [Weights.total_cons, Weights.total_append, workAmong_cons, workAmong_append,
          Weights.node, ih.1]
        omega
      | some form =>
        cases form with
        | emptyText | emptyList => simp [Weights.node]
        | extremum _ =>
          simp only [Weights.total_cons, workAmong_cons, Weights.node]
          omega
        | toText =>
          cases args with
          | nil => simp [Expr.markedRow, Expr.shownHead, Weights.node]
          | cons arg args =>
            have harg := ih.2 arg (.head _)
            simp only [Expr.markedRow, Expr.shownHead, Weights.total_cons, workAmong_cons,
              Weights.node]
            omega
    · have hcall : ∀ r func args, e ≠ .call r func args := fun r func args h =>
        hcall ⟨r, func, args, h⟩
      have hcall' :
          ∀ r func args, e.withOperands (Expr.markedRow p e.operands) ≠ .call r func args := by
        fun_cases Expr.withOperands e (Expr.markedRow p e.operands) <;> simp_all
      rw [Expr.shown_eq hcall, Expr.shown_eq hcall', Expr.operands_withOperands hlength,
        Weights.total_cons, Weights.total_cons, workAmong_cons, node_withOperands hlength, hrow]
      omega

/-! ## Marks of items -/

theorem shownAsSubject_of_ne_name {e : Expr} (he : ∀ r x, e ≠ .name r x) (n : Nat) :
    e.shownAsSubject n = e.shown := by
  cases e with
  | name r x => exact (he r x rfl).elim
  | _ => rfl

theorem use_marked (u : Use) :
    byMarks.use 0 (u.marked p) + workAmong p u.expr.dropped =
      byMarks.use 0 u + workAmong p u.expr.walk + workAmong p u.repeated := by
  have hmarks := total_marked p u.expr
  have hwalk := workAmong_walk p u.expr
  cases u <;> simp only [Weights.use, Use.marked, Use.shown, Use.target?, Use.expr, Use.repeated,
    Option.elim_none, Option.elim_some, Pi.zero_apply, workAmong_nil] at hmarks hwalk ⊢
  case value => omega
  case target op e => cases op.repeatsTarget <;> simp <;> omega
  case subject q e =>
    by_cases he : ∃ r x, e = .name r x
    · obtain ⟨r, x, rfl⟩ := he
      simp [Expr.marked, Expr.walk, Expr.dropped, Expr.isWork]
    · have hname : ∀ r x, e ≠ .name r x := fun r x h => he ⟨r, x, h⟩
      rw [shownAsSubject_of_ne_name hname, shownAsSubject_of_ne_name (e.marked_ne_name p hname)]
      omega

theorem usesOption_marked (e : Option Expr) :
    usesOption (e.map (Expr.marked p)) = (usesOption e).map (Use.marked p) := by
  cases e <;> rfl

theorem use_condition_marked (condition : Condition) :
    (condition.marked p).use = condition.use.marked p := by
  cases condition <;> rfl

mutual

theorem uses_marked : ∀ s : Stmt, (s.marked p).uses = s.uses.map (Use.marked p)
  | .letIn _ _ _ _ none | .assign .. | .expr .. | .ret .. | .suspend .. | .breakLoop _
  | .continueLoop _ | .terminate _ => by simp [Stmt.marked, Stmt.uses, Use.marked,
    usesOption_marked]
  | .letIn _ _ _ _ (some b) | .forIn _ _ _ b | .ifElse _ _ b none | .whileDo _ _ b | .loop _ b
  | .block _ b | .fn _ _ _ _ b => by
    simp [Stmt.marked, Stmt.uses, Use.marked, use_condition_marked, blockUses_marked b]
  | .ifElse _ _ a (some b) => by
    simp [Stmt.marked, Stmt.uses, use_condition_marked, blockUses_marked a, blockUses_marked b]
  | .matchOn _ _ arms => by simp [Stmt.marked, Stmt.uses, Use.marked, usesArms_marked arms]

theorem usesRow_marked :
    ∀ ss : List Stmt, usesRow (markedStmts p ss) = (usesRow ss).map (Use.marked p)
  | [] => by simp [markedStmts]
  | s :: ss => by
    rw [markedStmts, usesRow_cons, usesRow_cons, map_append, uses_marked s, usesRow_marked ss]

theorem blockUses_marked : ∀ b : Block, (b.marked p).uses = b.uses.map (Use.marked p)
  | .mk ss _ tail => by
    rw [Block.marked, Block.uses, Block.uses, map_append, usesRow_marked ss, usesOption_marked]

theorem usesArms_marked :
    ∀ arms : List Arm, usesArms (markedArms p arms) = (usesArms arms).map (Use.marked p)
  | [] => by simp [markedArms, usesArms]
  | .mk _ q guard b :: arms => by
    rw [markedArms, usesArms, usesArms, Option.isNone_map, usesOption_marked, blockUses_marked b,
      usesArms_marked arms]
    split <;> simp

end

theorem definitionUses_marked (d : Definition) : (d.marked p).uses = d.uses.map (Use.marked p) := by
  have hprelude : usesRow (d.marked p).prelude = _ := usesRow_marked p d.prelude
  have hbody : (d.marked p).body.uses = _ := blockUses_marked p d.body
  rw [Definition.uses, hprelude, hbody, d.sizeHint_marked, usesOption_marked, Definition.uses]
  simp

theorem load_marked (us : List Use) :
    byMarks.load 0 (us.map (Use.marked p)) + workAmong p (us.flatMap (·.expr.dropped)) =
      byMarks.load 0 us + workAmong p (us.flatMap (·.expr.walk)) +
        workAmong p (us.flatMap Use.repeated) := by
  induction us with
  | nil => simp
  | cons u us ih =>
    have hu := use_marked p u
    simp only [map_cons, flatMap_cons, Weights.load_cons, workAmong_append]
    omega

theorem itemCode_byMarks {d : Definition} {className : String} {code : List Code}
    (h : itemCode d className = .ok code) : ∃ params result body body',
      code = [wrapper d className (valueHint d), .line .blank, .line .blank,
        .block (.fn false d.name params (some result)) body] ∧
      itemCode (d.marked p) className = .ok [wrapper d className (valueHint d), .line .blank,
        .line .blank, .block (.fn false d.name params (some result)) body'] ∧
      Forall₂ Code.Marked body body' ∧
      rowMarks body' + workAmong p d.dropped =
        rowMarks body + workAmong p d.parts + workAmong p d.repeated := by
  have hT : byMarks.Stores 0 := fun e =>
    (emitExpr_weigh byMarks_light e).mono fun _ _ => rfl
  obtain ⟨params, result, body, rfl, -, hbody⟩ := itemCode_weigh byMarks_light hT h
  obtain ⟨body', hcode', hmarked⟩ := itemCode_marked p h
  obtain ⟨_, _, _, heq, -, hbody'⟩ := itemCode_weigh byMarks_light hT hcode'
  simp only [List.cons.injEq, Code.block.injEq, and_true, true_and] at heq
  obtain ⟨-, -, rfl⟩ := heq
  refine ⟨params, result, body, body', rfl, hcode', hmarked, ?_⟩
  have hload := load_marked p d.uses
  rw [rowMarks, rowMarks, hbody, hbody', definitionUses_marked]
  exact hload

end Marking

/-- **Work is written once, unless a known function drops it or a division repeats it.**  Mark any
of the calls, method calls, macro calls and awaits of an item that passes the checks, after it is
lowered.  Then the function of the item has the same code, but for the marks.  Arms of a match that
come after one that always applies have no code; of all other work that is marked, there is one mark
in the code for each that is not dropped and one more for each that is repeated.  No code is written
only if a text is to be made from nothing. -/
theorem itemCode_work (p : Expr → Bool) (file : Option String) (d : Definition) (className : String)
    (hw : d.Under (written True)) (hv : hasErrors (d.validate file) = false) :
    (∃ params result body body',
      itemCode d.lower className = .ok [wrapper d.lower className (valueHint d), .line .blank,
        .line .blank, .block (.fn false d.name params (some result)) body] ∧
      itemCode (d.lower.marked p) className = .ok [wrapper d.lower className (valueHint d),
        .line .blank, .line .blank, .block (.fn false d.name params (some result)) body'] ∧
      List.Forall₂ Code.Marked body body' ∧
      rowMarks body' + workAmong p d.lower.dropped =
        rowMarks body + workAmong p d.lower.parts + workAmong p d.lower.repeated) ∨
    itemCode d.lower className = .error .emptyConversion := by
  obtain ⟨itemHint, function, hcode, -⟩ | hf := itemCode_checked className hw hv
  · obtain ⟨params, result, body, body', hfunction, hrest⟩ := itemCode_byMarks p hcode
    exact .inl ⟨params, result, body, body', hfunction ▸ hcode, hrest⟩
  · exact .inr hf

/-- `let x = g(String::from(a(), b()), v.push(k())); println!(x); yield x;` -/
def wasteful : Definition :=
  numbers [] [
    .letIn default (.bind default "x" false) none
      (.call default (.name default "g")
        [.call default (.path default ["String", "from"])
          [.call default (.name default "a") [], .call default (.name default "b") []],
        .methodCall default (.name default "v") "push" [.call default (.name default "k") []]])
          none,
    .expr default (.macroCall default .println [.name default "x"]),
    .expr default (.yield default (some (.name default "x")))]

theorem wasteful_work :
    wasteful.Under (written True) ∧ hasErrors (wasteful.validate none) = false ∧
    workAmong (fun _ => true) wasteful.lower.parts = 7 ∧
    ∃ params result body body',
      itemCode wasteful.lower "_FIteratorItem" =
        .ok [wrapper wasteful.lower "_FIteratorItem" (valueHint wasteful), .line .blank,
          .line .blank,
          .block (.fn false "f" params (some result)) body] ∧
      List.Forall₂ Code.Marked body body' ∧ rowMarks body' = rowMarks body + 6 := by
  have hw : wasteful.Under (written True) :=
    ⟨trivial, ⟨⟨⟨trivial, fun _ _ _ => trivial⟩, ⟨trivial, fun _ _ _ => trivial⟩,
      ⟨trivial, fun _ _ _ => trivial⟩, trivial⟩, nofun⟩, nofun⟩
  have hv : hasErrors (wasteful.validate none) = false := by decide
  have hparts : workAmong (fun _ => true) wasteful.lower.parts = 7 := by decide
  have hdropped : workAmong (fun _ => true) wasteful.lower.dropped = 1 := by decide +kernel
  have hrepeated : workAmong (fun _ => true) wasteful.lower.repeated = 0 := by decide
  refine ⟨hw, hv, hparts, ?_⟩
  have hok : (itemCode wasteful.lower "_FIteratorItem").toBool = true := by decide
  obtain ⟨params, result, body, body', hcode, -, hmarked, hmarks⟩ | hf :=
    itemCode_work (fun _ => true) none wasteful "_FIteratorItem" hw hv
  · exact ⟨params, result, body, body', hcode, hmarked, by omega⟩
  · rw [hf] at hok
    cases hok

/-- `v[g()] /= 2; yield 1;` -/
def dividing : Definition :=
  numbers [] [
    .assign default (.index default (.name default "v") (.call default (.name default "g") []))
      (.literal default (.int 2 none)) .div,
    yieldOne]

/-- **A call in the target of `/=` is written twice.** -/
theorem target_of_division_is_repeated :
    dividing.Under (written True) ∧ hasErrors (dividing.validate none) = false ∧
    workAmong (fun _ => true) dividing.lower.parts = 1 ∧
    ∃ params result body body',
      itemCode dividing.lower "_FIteratorItem" =
        .ok [wrapper dividing.lower "_FIteratorItem" (valueHint dividing), .line .blank,
          .line .blank,
          .block (.fn false "f" params (some result)) body] ∧
      itemCode (dividing.lower.marked fun _ => true) "_FIteratorItem" =
        .ok [wrapper dividing.lower "_FIteratorItem" (valueHint dividing), .line .blank,
          .line .blank,
          .block (.fn false "f" params (some result)) body'] ∧
      List.Forall₂ Code.Marked body body' ∧ rowMarks body' = rowMarks body + 2 := by
  have hparts : workAmong (fun _ => true) dividing.lower.parts = 1 := by decide
  have hdropped : workAmong (fun _ => true) dividing.lower.dropped = 0 := by decide
  have hrepeated : workAmong (fun _ => true) dividing.lower.repeated = 1 := by decide
  refine ⟨⟨trivial, ⟨⟨⟨trivial, fun _ _ _ => trivial, fun _ _ _ => trivial⟩,
    ⟨trivial, fun _ _ _ => trivial⟩, trivial⟩, nofun⟩, nofun⟩, by decide, hparts, ?_⟩
  have hok : (itemCode dividing.lower "_FIteratorItem").toBool = true := by decide +kernel
  cases hcode : itemCode dividing.lower "_FIteratorItem" with
  | error f =>
    rw [hcode] at hok
    cases hok
  | ok code =>
    obtain ⟨params, result, body, body', rfl, hcode', hmarked, hmarks⟩ :=
      itemCode_byMarks (fun _ => true) hcode
    exact ⟨params, result, body, body', rfl, hcode', hmarked, by omega⟩

end Script

end Yielding
