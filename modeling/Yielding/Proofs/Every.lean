import Yielding.Syntax.Stmt

/-!
# Proofs/Every — properties of all parts of a body

`Every P Q` says that all statements of a body have the property `P` and all its expressions the
property `Q`.  The bodies of nested functions do not count: they are bodies of their own.
-/

namespace Yielding

open List

/-! ## Parts of expressions -/

namespace Expr

theorem walk_eq (e : Expr) : e.walk = e :: walkRow e.operands := by
  cases e with
  | yield r value => cases value <;> simp [walk, operands, walkRow]
  | _ => simp [walk, operands, walkRow]

theorem mem_walk_self (e : Expr) : e ∈ e.walk := by
  rw [walk_eq]
  exact mem_cons_self

theorem mem_walkRow {x : Expr} : ∀ {es : List Expr}, x ∈ walkRow es ↔ ∃ e ∈ es, x ∈ e.walk
  | [] => by simp [walkRow]
  | e :: es => by simp [walkRow, @mem_walkRow x es]

theorem mem_walk_of_mem_operands {e o : Expr} (h : o ∈ e.operands) : o ∈ e.walk := by
  rw [walk_eq]
  exact mem_cons_of_mem _ (mem_walkRow.2 ⟨o, h, o.mem_walk_self⟩)

theorem forall_mem_walk {P : Expr → Prop} {e : Expr} :
    (∀ x ∈ e.walk, P x) ↔ P e ∧ ∀ o ∈ e.operands, ∀ x ∈ o.walk, P x := by
  rw [walk_eq, forall_mem_cons]
  refine and_congr_right fun _ => ⟨fun h o ho x hx => h x (mem_walkRow.2 ⟨o, ho, hx⟩), ?_⟩
  intro h x hx
  obtain ⟨o, ho, hx⟩ := mem_walkRow.1 hx
  exact h o ho x hx

mutual

/-- **Induction on expressions**, by their operands. -/
theorem operandInduction {P : Expr → Prop} (h : ∀ e : Expr, (∀ o ∈ e.operands, P o) → P e) :
    ∀ e : Expr, P e
  | .literal .. | .name .. | .path .. | .yield _ none => h _ (by simp [operands])
  | .call _ a row | .methodCall _ a _ row =>
    h _ (forall_mem_cons.2 ⟨operandInduction h a, rowOperandInduction h row⟩)
  | .field _ a _ | .tupleField _ a _ | .borrow _ a _ | .await _ a | .unary _ _ a | .attempt _ a
  | .yield _ (some a) => h _ (forall_mem_singleton.2 (operandInduction h a))
  | .index _ a b | .binary _ _ a b | .range _ a b _ =>
    h _ (forall_mem_cons.2 ⟨operandInduction h a, forall_mem_singleton.2 (operandInduction h b)⟩)
  | .tuple _ row | .array _ row | .macroCall _ _ row | .helper _ _ row =>
    h _ (rowOperandInduction h row)

theorem rowOperandInduction {P : Expr → Prop} (h : ∀ e : Expr, (∀ o ∈ e.operands, P o) → P e) :
    ∀ es : List Expr, ∀ e ∈ es, P e
  | [] => nofun
  | e :: es => forall_mem_cons.2 ⟨operandInduction h e, rowOperandInduction h es⟩

end

/-- What is inside a part of an expression is inside the expression. -/
theorem walk_trans {x y : Expr} (hy : y ∈ x.walk) {e : Expr} (hx : x ∈ e.walk) : y ∈ e.walk := by
  induction e using operandInduction with
  | h e ih =>
    rw [walk_eq, mem_cons, mem_walkRow] at hx
    rcases hx with rfl | ⟨o, ho, hx⟩
    · exact hy
    · rw [walk_eq]
      exact mem_cons_of_mem _ (mem_walkRow.2 ⟨o, ho, ih o ho hx⟩)

/-- The expression with other operands in the place of its own. -/
def withOperands : Expr → List Expr → Expr
  | call r _ _, func :: args => call r func args
  | methodCall r _ method _, receiver :: args => methodCall r receiver method args
  | field r _ attr, [value] => field r value attr
  | tupleField r _ i, [value] => tupleField r value i
  | borrow r _ mutable, [value] => borrow r value mutable
  | await r _, [value] => await r value
  | unary r op _, [operand] => unary r op operand
  | attempt r _, [operand] => attempt r operand
  | yield r (some _), [value] => yield r (some value)
  | index r _ _, [left, right] => index r left right
  | binary r op _ _, [left, right] => binary r op left right
  | range r _ _ inclusive, [start, stop] => range r start stop inclusive
  | tuple r _, elements => tuple r elements
  | array r _, elements => array r elements
  | macroCall r x _, args => macroCall r x args
  | helper r x _, args => helper r x args
  | e, _ => e

theorem region_withOperands (e : Expr) (vs : List Expr) :
    (e.withOperands vs).region = e.region := by
  fun_cases withOperands e vs <;> rfl

theorem withOperands_operands (e : Expr) : e.withOperands e.operands = e := by
  cases e with
  | yield r value => cases value <;> rfl
  | _ => rfl

theorem operands_withOperands {e : Expr} {vs : List Expr} (h : vs.length = e.operands.length) :
    (e.withOperands vs).operands = vs := by
  cases e with
  | literal | name | path => exact (eq_nil_of_length_eq_zero h).symm
  | yield r value =>
    cases value with
    | none => exact (eq_nil_of_length_eq_zero h).symm
    | some value =>
      obtain ⟨v, rfl⟩ := length_eq_one_iff.1 h
      rfl
  | field | tupleField | borrow | await | unary | attempt =>
    obtain ⟨v, rfl⟩ := length_eq_one_iff.1 h
    rfl
  | index | binary | range =>
    match vs, h with
    | [_, _], _ => rfl
  | call | methodCall =>
    cases vs with
    | nil => cases h
    | cons v vs => rfl
  | tuple | array | macroCall | helper => rfl

end Expr

/-! ## Parts of bodies -/

namespace Stmt

/-- The expressions that stand in a statement itself, not in the blocks inside it. -/
def heads : Stmt → List Expr
  | letIn _ _ _ value _ | expr _ value | suspend _ value => [value]
  | assign _ target value _ => [target, value]
  | ret _ value => value.toList
  | ifElse _ condition _ _ | whileDo _ condition _ => [condition.value]
  | forIn _ _ iterable _ => [iterable]
  | matchOn _ subject _ => [subject]
  | loop .. | block .. | fn .. | breakLoop _ | continueLoop _ | terminate _ => []

/-- The blocks of a statement, without the blocks inside them. -/
def children : Stmt → List Block
  | letIn _ _ _ _ otherwise => otherwise.toList
  | ifElse _ _ a b => a :: b.toList
  | whileDo _ _ b | loop _ b | forIn _ _ _ b | block _ b | fn _ _ _ _ b => [b]
  | matchOn _ _ arms => arms.map Arm.body
  | assign .. | expr .. | ret .. | suspend .. | breakLoop _ | continueLoop _ | terminate _ => []

/-- The guards of the arms of a match. -/
def guards : Stmt → List Expr
  | matchOn _ _ arms => arms.filterMap Arm.guard
  | _ => []

/-- The blocks of a statement that are part of the same function. -/
def inner (s : Stmt) : List Block := if s.isFn then [] else s.children

theorem mem_children {s : Stmt} {b : Block} (h : b ∈ s.inner) : b ∈ s.children := by
  rw [inner] at h
  split at h
  · cases h
  · exact h

end Stmt

variable (P : Stmt → Prop) (Q : Expr → Prop)

mutual

def Stmt.Every : Stmt → Prop
  | s@(.letIn _ _ _ value none) | s@(.expr _ value) | s@(.suspend _ value) => P s ∧ Q value
  | s@(.letIn _ _ _ value (some b)) => P s ∧ Q value ∧ b.Every
  | s@(.assign _ target value _) => P s ∧ Q target ∧ Q value
  | s@(.ret _ value) => P s ∧ ∀ e ∈ value, Q e
  | s@(.ifElse _ cond a none) => P s ∧ Q cond.value ∧ a.Every
  | s@(.ifElse _ cond a (some b)) => P s ∧ Q cond.value ∧ a.Every ∧ b.Every
  | s@(.whileDo _ cond b) => P s ∧ Q cond.value ∧ b.Every
  | s@(.loop _ b) | s@(.block _ b) => P s ∧ b.Every
  | s@(.forIn _ _ iterable b) => P s ∧ Q iterable ∧ b.Every
  | s@(.matchOn _ subject arms) => P s ∧ Q subject ∧ everyArm arms
  | s@(.fn ..) | s@(.breakLoop _) | s@(.continueLoop _) | s@(.terminate _) => P s

def everyStmt : List Stmt → Prop
  | [] => True
  | s :: ss => s.Every ∧ everyStmt ss

def Block.Every : Block → Prop
  | .mk stmts _ tail => everyStmt stmts ∧ ∀ e ∈ tail, Q e

def everyArm : List Arm → Prop
  | [] => True
  | .mk _ _ guard b :: arms => (∀ e ∈ guard, Q e) ∧ b.Every ∧ everyArm arms

end

/-! ## Bodies by their parts -/

section Induction

variable {M : Stmt → Prop} {B : Block → Prop}

mutual

/-- **Induction on bodies**: statements by their blocks, and blocks by their statements. -/
theorem Stmt.bodyInduction (hM : ∀ s : Stmt, (∀ b ∈ s.children, B b) → M s)
    (hB : ∀ b : Block, (∀ s ∈ b.stmts, M s) → B b) :
    ∀ s : Stmt, M s
  | .letIn _ _ _ _ none | .assign .. | .expr .. | .ret .. | .suspend .. | .breakLoop _
  | .continueLoop _ | .terminate _ => hM _ (forall_mem_nil _)
  | .letIn _ _ _ _ (some b) | .ifElse _ _ b none | .whileDo _ _ b | .loop _ b | .forIn _ _ _ b
  | .block _ b | .fn _ _ _ _ b => hM _ (forall_mem_singleton.2 (Block.bodyInduction hM hB b))
  | .ifElse _ _ a (some b) => hM _ (forall_mem_cons.2
    ⟨Block.bodyInduction hM hB a, forall_mem_singleton.2 (Block.bodyInduction hM hB b)⟩)
  | .matchOn _ _ arms => hM _ (armInduction hM hB arms)

theorem rowInduction (hM : ∀ s : Stmt, (∀ b ∈ s.children, B b) → M s)
    (hB : ∀ b : Block, (∀ s ∈ b.stmts, M s) → B b) :
    ∀ ss : List Stmt, ∀ s ∈ ss, M s
  | [] => forall_mem_nil _
  | s :: ss => forall_mem_cons.2 ⟨Stmt.bodyInduction hM hB s, rowInduction hM hB ss⟩

theorem Block.bodyInduction (hM : ∀ s : Stmt, (∀ b ∈ s.children, B b) → M s)
    (hB : ∀ b : Block, (∀ s ∈ b.stmts, M s) → B b) :
    ∀ b : Block, B b
  | .mk stmts _ _ => hB _ (rowInduction hM hB stmts)

theorem armInduction (hM : ∀ s : Stmt, (∀ b ∈ s.children, B b) → M s)
    (hB : ∀ b : Block, (∀ s ∈ b.stmts, M s) → B b) :
    ∀ arms : List Arm, ∀ b ∈ arms.map Arm.body, B b
  | [] => forall_mem_nil _
  | .mk _ _ _ b :: arms => forall_mem_cons.2 ⟨Block.bodyInduction hM hB b, armInduction hM hB arms⟩

end

end Induction

section Every

variable {P P' P'' : Stmt → Prop} {Q Q' Q'' : Expr → Prop}

theorem everyStmt_iff {ss : List Stmt} : everyStmt P Q ss ↔ ∀ s ∈ ss, s.Every P Q := by
  induction ss with
  | nil => simp [everyStmt]
  | cons s ss ih => simp [everyStmt, ih]

theorem everyArm_iff {arms : List Arm} : everyArm P Q arms ↔
    (∀ e ∈ arms.filterMap Arm.guard, Q e) ∧ ∀ b ∈ arms.map Arm.body, b.Every P Q := by
  induction arms with
  | nil => simp [everyArm]
  | cons arm arms ih =>
    obtain ⟨r, p, guard, b⟩ := arm
    cases guard <;> simp [everyArm, ih, Arm.guard, Arm.body, and_left_comm, and_assoc]

theorem Block.every_iff {b : Block} :
    b.Every P Q ↔ (∀ s ∈ b.stmts, s.Every P Q) ∧ ∀ e ∈ b.tail, Q e := by
  cases b
  rw [Every, everyStmt_iff]
  rfl

theorem Stmt.every_iff {s : Stmt} : s.Every P Q ↔
    P s ∧ (∀ e ∈ s.heads ++ s.guards, Q e) ∧ ∀ b ∈ s.inner, b.Every P Q := by
  cases s with
  | letIn _ _ _ _ b | ifElse _ _ _ b =>
    cases b <;> simp [Every, heads, guards, inner, children, isFn]
  | ret _ value => cases value <;> simp [Every, heads, guards, inner, children, isFn]
  | matchOn => simp [Every, heads, guards, inner, children, isFn, everyArm_iff, and_assoc]
  | _ => simp [Every, heads, guards, inner, children, isFn]

/-- **What passes to the parts of a body** and gives the properties there, gives them of all. -/
theorem Block.every_of {S : Stmt → Prop} {R : Block → Prop}
    (hS : ∀ s, S s → P s ∧ (∀ e ∈ s.heads ++ s.guards, Q e) ∧ ∀ b ∈ s.inner, R b)
    (hR : ∀ b, R b → (∀ s ∈ b.stmts, S s) ∧ ∀ e ∈ b.tail, Q e) {b : Block} (h : R b) :
    b.Every P Q := by
  induction b using Block.bodyInduction (M := fun s => S s → s.Every P Q) with
  | hM s ih h =>
    obtain ⟨hs, he, hb⟩ := hS s h
    exact Stmt.every_iff.2 ⟨hs, he, fun b hmem => ih b (Stmt.mem_children hmem) (hb b hmem)⟩
  | hB b ih =>
    obtain ⟨hs, he⟩ := hR b h
    exact Block.every_iff.2 ⟨fun s hmem => ih s hmem (hs s hmem), he⟩

theorem Block.Every.zip (hP : ∀ s, P s → P' s → P'' s) (hQ : ∀ e, Q e → Q' e → Q'' e) {b : Block}
    (h : b.Every P Q) (h' : b.Every P' Q') : b.Every P'' Q'' := by
  refine Block.every_of (S := fun s => s.Every P Q ∧ s.Every P' Q')
    (R := fun b => b.Every P Q ∧ b.Every P' Q') ?_ ?_ ⟨h, h'⟩
  · rintro s ⟨h, h'⟩
    rw [Stmt.every_iff] at h h'
    exact ⟨hP s h.1 h'.1, fun e he => hQ e (h.2.1 e he) (h'.2.1 e he),
      fun b hb => ⟨h.2.2 b hb, h'.2.2 b hb⟩⟩
  · rintro b ⟨h, h'⟩
    rw [Block.every_iff] at h h'
    exact ⟨fun s hs => ⟨h.1 s hs, h'.1 s hs⟩, fun e he => hQ e (h.2 e he) (h'.2 e he)⟩

end Every

/-! ## Samples -/

/-- An item `f` that yields numbers. -/
def numbers (params : List Param) (stmts : List Stmt) : Definition :=
  { (default : Definition) with
    name := "f", params := params, yielded := .ofName "i32", form := .star
    body := .mk stmts default none }

/-- `yield 1;` -/
def yieldOne : Stmt := .expr default (.yield default (some (.literal default (.int 1 none))))

/-! ## Names and bounds that are written -/

/-- The name that an expression is. -/
def Expr.name? : Expr → Option String
  | name _ ident => some ident
  | _ => none

/-- The names that an expression reads. -/
def Expr.names (e : Expr) : List String := e.walk.filterMap name?

/-- The bounds that an item is given. -/
def Definition.sizeHint? (d : Definition) : Option Expr :=
  (d.attr? "size_hint").bind (·.args.head?)

end Yielding
