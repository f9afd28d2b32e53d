import Mathlib.Tactic.ByContra
import Yielding.Legality.Flow
import Yielding.Proofs.Every
import Yielding.Script.Body

/-!
# Proofs/Flow/Laws — what may stand where

A **law** says of each part of a body whether it may stand at its place: in the opening of the
function, in its generator or in a nested function, inside a loop of that function or not.  There
are two laws: `checked` for items that pass the checks, `lowered` for what lowering makes of them.
What a law forbids in an expression is what keeps code from being written, so both take the failures
that are to be expected as a parameter.
-/

namespace Yielding.Flow

/-- Which function of the code a statement belongs to. -/
inductive Place
  /-- The function of the item, before its generator. -/
  | opening
  | generator
  | nested
deriving DecidableEq, Repr

/-- What is allowed at a place, inside a loop or not: of statements, without their parts, of
expressions, and of the guards of arms. -/
structure Law where
  stmt : Place → (inLoop : Bool) → Stmt → Prop
  expr : Place → Expr → Prop
  guard : Place → Expr → Prop

end Flow

open Yielding.Flow

variable (L : Law)

mutual

/-- The statement and all its parts may stand where they stand. -/
def Stmt.Under : Flow.Place → Bool → Stmt → Prop
  | p, l, s@(.letIn _ _ _ value none) | p, l, s@(.expr _ value) | p, l, s@(.suspend _ value) =>
    L.stmt p l s ∧ L.expr p value
  | p, l, s@(.letIn _ _ _ value (some b)) => L.stmt p l s ∧ L.expr p value ∧ b.Under p l
  | p, l, s@(.assign _ target value _) => L.stmt p l s ∧ L.expr p target ∧ L.expr p value
  | p, l, s@(.ret _ value) => L.stmt p l s ∧ ∀ e ∈ value, L.expr p e
  | p, l, s@(.ifElse _ condition a none) =>
    L.stmt p l s ∧ L.expr p condition.value ∧ a.Under p l
  | p, l, s@(.ifElse _ condition a (some b)) =>
    L.stmt p l s ∧ L.expr p condition.value ∧ a.Under p l ∧ b.Under p l
  | p, l, s@(.whileDo _ condition b) => L.stmt p l s ∧ L.expr p condition.value ∧ b.Under p true
  | p, l, s@(.loop _ b) => L.stmt p l s ∧ b.Under p true
  | p, l, s@(.forIn _ _ iterable b) => L.stmt p l s ∧ L.expr p iterable ∧ b.Under p true
  | p, l, s@(.block _ b) => L.stmt p l s ∧ b.Under p l
  | p, l, s@(.matchOn _ subject arms) => L.stmt p l s ∧ L.expr p subject ∧ armsUnder p l arms
  | p, l, s@(.fn _ _ _ _ b) => L.stmt p l s ∧ b.Under .nested false
  | p, l, s@(.breakLoop _) | p, l, s@(.continueLoop _) | p, l, s@(.terminate _) => L.stmt p l s

def rowUnder : Flow.Place → Bool → List Stmt → Prop
  | _, _, [] => True
  | p, l, s :: ss => s.Under p l ∧ rowUnder p l ss

def Block.Under : Flow.Place → Bool → Block → Prop
  | p, l, .mk stmts _ tail => rowUnder p l stmts ∧ ∀ e ∈ tail, L.expr p e

def armsUnder : Flow.Place → Bool → List Arm → Prop
  | _, _, [] => True
  | p, l, .mk _ _ guard b :: arms => (∀ e ∈ guard, L.guard p e) ∧ b.Under p l ∧ armsUnder p l arms

end

/-- An item is under a law when its prelude, its body and the argument of its `size_hint` are, each
at its place. -/
structure Definition.Under (d : Definition) : Prop where
  prelude : rowUnder L .opening false d.prelude
  body : d.body.Under L .generator false
  bounds : ∀ e ∈ d.sizeHint?, L.expr .opening e

variable {L}

theorem rowUnder_iff {p : Flow.Place} {l : Bool} {ss : List Stmt} :
    rowUnder L p l ss ↔ ∀ s ∈ ss, s.Under L p l := by
  induction ss with
  | nil => simp [rowUnder]
  | cons s ss ih => simp [rowUnder, ih]

theorem rowUnder_append {p : Flow.Place} {l : Bool} {ss ss' : List Stmt} :
    rowUnder L p l (ss ++ ss') ↔ rowUnder L p l ss ∧ rowUnder L p l ss' := by
  simp only [rowUnder_iff, List.forall_mem_append]

theorem rowUnder_singleton {p : Flow.Place} {l : Bool} {s : Stmt} :
    rowUnder L p l [s] ↔ s.Under L p l := by
  simp [rowUnder]

/-- The place of the blocks of a statement, and whether they stand inside a loop. -/
def Stmt.within (p : Flow.Place) (l : Bool) : Stmt → Flow.Place × Bool
  | .whileDo .. | .loop .. | .forIn .. => (p, true)
  | .fn .. => (.nested, false)
  | _ => (p, l)

theorem Block.under_iff {p : Flow.Place} {l : Bool} {b : Block} :
    b.Under L p l ↔ (∀ s ∈ b.stmts, s.Under L p l) ∧ ∀ e ∈ b.tail, L.expr p e := by
  cases b
  rw [Under, rowUnder_iff]
  rfl

theorem armsUnder_iff {p : Flow.Place} {l : Bool} {arms : List Arm} : armsUnder L p l arms ↔
    (∀ e ∈ arms.filterMap Arm.guard, L.guard p e) ∧ ∀ b ∈ arms.map Arm.body, b.Under L p l := by
  induction arms with
  | nil => simp [armsUnder]
  | cons arm arms ih =>
    obtain ⟨r, q, guard, b⟩ := arm
    cases guard <;> simp [armsUnder, ih, Arm.guard, Arm.body, and_left_comm, and_assoc]

/-- **A statement is under a law** when the law allows it, its expressions and its guards, and its
blocks are under it where they stand. -/
theorem Stmt.under_iff {p : Flow.Place} {l : Bool} {s : Stmt} : s.Under L p l ↔
    L.stmt p l s ∧ (∀ e ∈ s.heads, L.expr p e) ∧ (∀ e ∈ s.guards, L.guard p e) ∧
      ∀ b ∈ s.children, b.Under L (s.within p l).1 (s.within p l).2 := by
  cases s with
  | letIn _ _ _ _ b | ifElse _ _ _ b =>
    cases b <;> simp [Under, heads, guards, children, within]
  | ret _ value => cases value <;> simp [Under, heads, guards, children]
  | matchOn => simp [Under, heads, guards, children, within, armsUnder_iff]
  | _ => simp [Under, heads, guards, children, within]

/-! ## Laws about the same parts -/

/-- What two laws allow together, the third allows. -/
structure Flow.Law.Joins (L L' L'' : Law) : Prop where
  stmt : ∀ {p l s}, L.stmt p l s → L'.stmt p l s → L''.stmt p l s
  expr : ∀ {p e}, L.expr p e → L'.expr p e → L''.expr p e
  guard : ∀ {p e}, L.guard p e → L'.guard p e → L''.guard p e

section Zip

variable {L L' L'' : Law}

theorem Block.Under.zip (hL : L.Joins L' L'') {p : Flow.Place} {l : Bool} {b : Block}
    (h : b.Under L p l) (h' : b.Under L' p l) : b.Under L'' p l := by
  induction b using Block.bodyInduction (M := fun s => ∀ p l, s.Under L p l → s.Under L' p l →
    s.Under L'' p l) generalizing p l with
  | hM s ih p l h h' =>
    rw [Stmt.under_iff] at h h' ⊢
    exact ⟨hL.stmt h.1 h'.1, fun e he => hL.expr (h.2.1 e he) (h'.2.1 e he),
      fun e he => hL.guard (h.2.2.1 e he) (h'.2.2.1 e he),
      fun b hb => ih b hb (h.2.2.2 b hb) (h'.2.2.2 b hb)⟩
  | hB b ih =>
    rw [Block.under_iff] at h h' ⊢
    exact ⟨fun s hs => ih s hs p l (h.1 s hs) (h'.1 s hs),
      fun e he => hL.expr (h.2 e he) (h'.2 e he)⟩

theorem rowUnder_zip (hL : L.Joins L' L'') {p : Flow.Place} {l : Bool} {ss : List Stmt}
    (h : rowUnder L p l ss) (h' : rowUnder L' p l ss) : rowUnder L'' p l ss :=
  have h : (Block.mk ss default none).Under L p l := ⟨h, nofun⟩
  (h.zip hL ⟨h', nofun⟩).1

/-- **An item under two laws is under each that they imply together.** -/
theorem Definition.Under.zip (hL : L.Joins L' L'') {d : Definition} (h : d.Under L)
    (h' : d.Under L') : d.Under L'' where
  prelude := rowUnder_zip hL h.prelude h'.prelude
  body := h.body.zip hL h'.body
  bounds e he := hL.expr (h.bounds e he) (h'.bounds e he)

/-- **An item under a law is under each that it implies.** -/
theorem Definition.Under.mono {d : Definition} (h : d.Under L)
    (hstmt : ∀ {p l s}, L.stmt p l s → L'.stmt p l s) (hexpr : ∀ {p e}, L.expr p e → L'.expr p e)
    (hguard : ∀ {p e}, L.guard p e → L'.guard p e) : d.Under L' :=
  h.zip ⟨fun hs _ => hstmt hs, fun he _ => hexpr he, fun he _ => hguard he⟩ h

end Zip

section Every

variable {L : Law} {P : Stmt → Prop} {Q : Expr → Prop}

/-- The law allows only what has the properties, whatever the place. -/
structure Flow.Law.Forces (L : Law) (P : Stmt → Prop) (Q : Expr → Prop) : Prop where
  stmt : ∀ {p l s}, L.stmt p l s → P s
  expr : ∀ {p e}, L.expr p e → Q e
  guard : ∀ {p e}, L.guard p e → Q e

theorem Block.Under.every (hL : L.Forces P Q) {p : Flow.Place} {l : Bool} {b : Block}
    (h : b.Under L p l) : b.Every P Q := by
  refine Block.every_of (S := fun s => ∃ p l, s.Under L p l) (R := fun b => ∃ p l, b.Under L p l)
    ?_ ?_ ⟨p, l, h⟩
  · rintro s ⟨p, l, h⟩
    obtain ⟨hs, he, hg, hb⟩ := Stmt.under_iff.1 h
    exact ⟨hL.stmt hs, List.forall_mem_append.2
      ⟨fun e hmem => hL.expr (he e hmem), fun e hmem => hL.guard (hg e hmem)⟩,
      fun b hmem => ⟨_, _, hb b (Stmt.mem_children hmem)⟩⟩
  · rintro b ⟨p, l, h⟩
    obtain ⟨hs, he⟩ := Block.under_iff.1 h
    exact ⟨fun s hmem => ⟨p, l, hs s hmem⟩, fun e hmem => hL.expr (he e hmem)⟩

theorem everyStmt_of_under (hL : L.Forces P Q) {p : Flow.Place} {l : Bool} {ss : List Stmt}
    (h : rowUnder L p l ss) : everyStmt P Q ss :=
  have h : (Block.mk ss default none).Under L p l := ⟨h, nofun⟩
  (h.every hL).1

end Every

/-! ## What the checks say of the parts -/

namespace Legality

variable {k : Setting} {c : Context}

/-- Where the blocks of a statement stand. -/
def Context.inside (c : Context) : Stmt → Context
  | .whileDo .. | .loop .. | .forIn .. => { c with inLoop := true }
  | .fn .. => { inNestedFn := true }
  | _ => c

theorem of_checkBlock {b : Block} (h : hasErrors (checkBlock k c b) = false) :
    (∀ s ∈ b.stmts, hasErrors (checkStmt k c s) = false) ∧
      ∀ e ∈ b.tail, hasErrors (checkExpr k c e) = false := by
  obtain ⟨ss, r, tail⟩ := b
  rw [checkBlock, hasErrors_append, Bool.or_eq_false_iff] at h
  refine ⟨?_, ?_⟩
  · replace h := h.1
    induction ss with
    | nil => exact List.forall_mem_nil _
    | cons s ss ih =>
      rw [checkStmts, hasErrors_append, Bool.or_eq_false_iff] at h
      exact List.forall_mem_cons.2 ⟨h.1, ih h.2⟩
  · rintro e rfl
    exact h.2

theorem of_checkArms {arms : List Arm} (h : hasErrors (checkArms k c arms) = false) :
    (∀ e ∈ arms.filterMap Arm.guard, hasErrors (checkGuard k c (some e)) = false) ∧
      ∀ b ∈ arms.map Arm.body, hasErrors (checkBlock k c b) = false := by
  induction arms with
  | nil => exact ⟨List.forall_mem_nil _, List.forall_mem_nil _⟩
  | cons arm arms ih =>
    obtain ⟨r, p, guard, b⟩ := arm
    simp only [checkArms, hasErrors_append, Bool.or_eq_false_iff] at h
    refine ⟨?_, List.forall_mem_cons.2 ⟨h.1.2, (ih h.2).2⟩⟩
    cases guard with
    | none => exact (ih h.2).1
    | some e => exact List.forall_mem_cons.2 ⟨h.1.1, (ih h.2).1⟩

/-- **The blocks and guards of a statement without errors have none**, and neither have the
expressions that the checks reach. -/
theorem of_checkStmt {s : Stmt} (h : hasErrors (checkStmt k c s) = false) :
    (∀ b ∈ s.children, hasErrors (checkBlock k (c.inside s) b) = false) ∧
      (∀ e ∈ s.guards, hasErrors (checkGuard k c (some e)) = false) ∧
      ((∀ r e, s ≠ .suspend r e) → ∀ e ∈ s.heads, hasErrors (checkExpr k c e) = false) := by
  cases s with
  | letIn _ _ _ _ b | ifElse _ _ _ b =>
    cases b <;> simp_all [checkStmt, hasErrors_append, Stmt.children, Stmt.guards, Stmt.heads,
      Context.inside]
  | ret _ value =>
    cases value <;> simp_all [checkStmt, hasErrors_append, Stmt.children, Stmt.guards, Stmt.heads,
      checkOptional]
  | matchOn =>
    simp only [checkStmt, hasErrors_append, Bool.or_eq_false_iff] at h
    exact ⟨(of_checkArms h.2).2, (of_checkArms h.2).1, fun _ => List.forall_mem_singleton.2 h.1⟩
  | _ => simp_all [checkStmt, hasErrors_append, Stmt.children, Stmt.guards, Stmt.heads,
      Context.inside]

theorem isAssignable_of_check {r : Region} {target value : Expr} {op : AssignOp}
    (h : hasErrors (checkStmt k c (.assign r target value op)) = false) :
    target.isAssignable = true := by
  by_contra hne
  simp only [checkStmt, if_neg hne, hasErrors_append, hasErrors_error, Bool.true_or] at h
  cases h

end Legality

namespace Flow

open Script (Failure knownFunction?)

variable (F : Failure → Prop) (isAsync : Bool)

/-! ## The laws -/

def IsEmptyConversion : Expr → Prop
  | .call _ func args => args = [] ∧ knownFunction? func = some .toText
  | _ => False

def IsWritten : Stmt → Prop
  | .suspend .. | .terminate _ => False
  | _ => True

/-- The law of items as they are written; `E` says whether they may make texts from nothing. -/
def written (E : Prop) : Law where
  stmt _ _ := IsWritten
  expr _ e := ∀ x ∈ e.walk, IsEmptyConversion x → E
  guard _ e := ∀ x ∈ e.walk, IsEmptyConversion x → E

/-- What a check allows of an expression, without its parts. -/
def CheckedNode (p : Place) : Expr → Prop
  | .yield .. => p = .generator
  | .attempt .. => p ≠ .opening
  | .await .. => p = .generator ∧ isAsync = true
  | e => IsEmptyConversion e → F .emptyConversion

/-- What a check allows of a statement, without its parts. -/
def CheckedStmt (p : Place) (inLoop : Bool) : Stmt → Prop
  | .suspend .. | .terminate _ => False
  | .breakLoop _ | .continueLoop _ => inLoop = true
  | .ret .. => p ≠ .opening
  | .assign _ target _ _ => target.isAssignable = true
  | .letIn _ _ _ _ (some b) => b.diverges = true
  | _ => True

/-- The law of items that pass the checks. -/
def checked : Law where
  stmt := CheckedStmt
  expr p e := ∀ x ∈ e.walk, CheckedNode F isAsync p x
  guard p e := ∀ x ∈ e.walk, CheckedNode F isAsync p x ∧ x.isYield = false ∧ x.isTry = false

/-- What lowering leaves of an expression, without its parts. -/
def LoweredNode (p : Place) : Expr → Prop
  | .yield .. | .attempt .. => F .notLowered
  | .await .. => p = .generator ∧ isAsync = true
  | e => IsEmptyConversion e → F .emptyConversion

def LoweredStmt (p : Place) (inLoop : Bool) : Stmt → Prop
  | .suspend .. | .terminate _ => p = .generator
  | .breakLoop _ | .continueLoop _ => inLoop = true
  | .ret .. => p = .nested
  | .assign _ target _ _ => target.isAssignable = true
  | _ => True

def lowered : Law where
  stmt := LoweredStmt
  expr p e := ∀ x ∈ e.walk, LoweredNode F isAsync p x
  guard p e := ∀ x ∈ e.walk, LoweredNode F isAsync p x

/-! ## What the checks say -/

/-- The context in which the checks meet what stands at a place. -/
def Place.context (p : Place) (inLoop : Bool) : Legality.Context where
  inLoop := inLoop
  inNestedFn := p = .nested
  inPrelude := p = .opening

variable {F} {E : Prop} {k : Legality.Setting} {p : Place} {l : Bool}

section

variable (hE : E → F .emptyConversion)

include hE

theorem checkedNode_of_check {x : Expr} (hw : IsEmptyConversion x → E)
    (h : hasErrors (Legality.checkNode k (p.context l) x) = false) :
    CheckedNode F k.definition.isAsync p x := by
  cases x with
  | yield r value =>
    cases p with
    | generator => rfl
    | opening | nested => simp [Legality.checkNode, Place.context, Legality.hasErrors_error] at h
  | attempt r operand =>
    rintro rfl
    simp [Legality.checkNode, Place.context, Legality.hasErrors_error] at h
  | await r value =>
    cases p with
    | opening | nested => simp [Legality.checkNode, Place.context, Legality.hasErrors_error] at h
    | generator =>
      refine ⟨rfl, ?_⟩
      by_contra hsync
      rw [Bool.not_eq_true] at hsync
      simp [Legality.checkNode, Place.context, hsync, Legality.hasErrors_error] at h
  | _ => exact fun hx => hE (hw hx)

theorem checkedExpr_of_check {e : Expr} (hw : (written E).expr p e)
    (h : hasErrors (Legality.checkExpr k (p.context l) e) = false) :
    (checked F k.definition.isAsync).expr p e := by
  rw [Legality.checkExpr, hasErrors_flatMap, List.any_eq_false] at h
  intro x hx
  exact checkedNode_of_check hE (hw x hx) (Bool.eq_false_iff.2 (h x hx))

theorem checkedGuard_of_check {e : Expr} (hw : (written E).guard p e)
    (h : hasErrors (Legality.checkGuard k (p.context l) (some e)) = false) :
    (checked F k.definition.isAsync).guard p e := by
  intro x hx
  rw [Legality.checkGuard, hasErrors_append, Bool.or_eq_false_iff] at h
  refine ⟨checkedExpr_of_check hE hw h.1 x hx, ?_⟩
  rw [← Bool.or_eq_false_iff]
  by_contra hsuspends
  rw [Bool.not_eq_false] at hsuspends
  have hmem : x ∈ e.walk.filter fun sub => sub.isYield || sub.isTry :=
    List.mem_filter.2 ⟨hx, hsuspends⟩
  exact List.any_eq_false.1 h.2 _ (List.mem_map_of_mem hmem) rfl

end

theorem inLoop_of_checkLeave {r : Region} {word : String}
    (h : hasErrors (Legality.checkLeave k (p.context l) r word) = false) : l = true := by
  cases l with
  | true => rfl
  | false => simp [Legality.checkLeave, Place.context, Legality.hasErrors_error] at h

theorem checkedStmt_of_check {s : Stmt} (hw : IsWritten s)
    (h : hasErrors (Legality.checkStmt k (p.context l) s) = false) : CheckedStmt p l s := by
  cases s with
  | letIn r q ty value b =>
    cases b with
    | none => trivial
    | some b =>
      show b.diverges = true
      by_contra hne
      simp only [Legality.checkStmt, if_neg hne, hasErrors_append, Legality.hasErrors_error,
        Bool.or_true] at h
      cases h
  | assign => exact Legality.isAssignable_of_check h
  | ret =>
    rintro rfl
    rw [Legality.checkStmt, hasErrors_append, Bool.or_eq_false_iff] at h
    exact absurd h.1 (by simp [Place.context, Legality.hasErrors_error])
  | breakLoop | continueLoop => exact inLoop_of_checkLeave h
  | suspend | terminate => exact hw.elim
  | _ => trivial

theorem context_within {s : Stmt} :
    (s.within p l).1.context (s.within p l).2 = (p.context l).inside s := by
  cases s <;> rfl

variable (k)

theorem checked_of_checkBlock (hE : E → F .emptyConversion) {b : Block}
    (hw : b.Under (written E) p l)
    (h : hasErrors (Legality.checkBlock k (p.context l) b) = false) :
    b.Under (checked F k.definition.isAsync) p l := by
  induction b using Block.bodyInduction (M := fun s => ∀ p l, s.Under (written E) p l →
    hasErrors (Legality.checkStmt k (p.context l) s) = false →
    s.Under (checked F k.definition.isAsync) p l) generalizing p l with
  | hM s ih p l hw h =>
    rw [Stmt.under_iff] at hw ⊢
    obtain ⟨hblocks, hguards, hheads⟩ := Legality.of_checkStmt h
    refine ⟨checkedStmt_of_check hw.1 h, fun e he => ?_, fun e he => ?_, fun b hb => ?_⟩
    · refine checkedExpr_of_check hE (hw.2.1 e he) (hheads ?_ e he)
      rintro r e rfl
      exact hw.1
    · exact checkedGuard_of_check hE (hw.2.2.1 e he) (hguards e he)
    · exact ih b hb (hw.2.2.2 b hb) (context_within ▸ hblocks b hb)
  | hB b ih =>
    rw [Block.under_iff] at hw ⊢
    obtain ⟨hstmts, htail⟩ := Legality.of_checkBlock h
    exact ⟨fun s hs => ih s hs p l (hw.1 s hs) (hstmts s hs),
      fun e he => checkedExpr_of_check hE (hw.2 e he) (htail e he)⟩

theorem checked_of_checkStmts (hE : E → F .emptyConversion) {ss : List Stmt}
    (hw : rowUnder (written E) p l ss)
    (h : hasErrors (Legality.checkStmts k (p.context l) ss) = false) :
    rowUnder (checked F k.definition.isAsync) p l ss :=
  have hw : (Block.mk ss default none).Under (written E) p l := ⟨hw, nofun⟩
  (checked_of_checkBlock k hE hw (by simpa [Legality.checkBlock, Legality.checkOptional] using h)).1

theorem checked_bounds_of_check (hE : E → F .emptyConversion) {e : Expr}
    (he : e ∈ k.definition.sizeHint?) (hw : (written E).expr .opening e)
    (h : hasErrors (k.definition.attrs.flatMap (Legality.checkAttr k)) = false) :
    (checked F k.definition.isAsync).expr .opening e := by
  obtain ⟨a, ha, hhead⟩ := Option.bind_eq_some_iff.1 he
  have hname : a.name = "size_hint" := by simpa using List.find?_some ha
  have hknown : Legality.knownAttrs.contains a.name = true := by simp [hname, Legality.knownAttrs]
  rw [hasErrors_flatMap, List.any_eq_false] at h
  have hattr := Bool.eq_false_iff.2 (h a (List.mem_of_find?_eq_some ha))
  rw [Legality.checkAttr, if_pos hknown] at hattr
  intro x hx
  have hxa : x ∈ a.args.flatMap Expr.walk :=
    List.mem_flatMap.2 ⟨e, List.mem_of_mem_head? hhead, hx⟩
  have hcalm : (x.isYield || x.isTry || x.isAwait) = false := by
    by_contra hx
    rw [Bool.not_eq_false] at hx
    exact List.any_eq_false.1 hattr _ (List.mem_filterMap.2 ⟨x, hxa, if_pos hx⟩) rfl
  cases x with
  | yield | attempt | await => cases hcalm
  | _ => exact fun hx => hE (hw _ ‹_› hx)

/-- **An item that passes the checks is under their law.** -/
theorem definition_checked {d : Definition} {file : Option String} (hE : E → F .emptyConversion)
    (hw : d.Under (written E)) (h : hasErrors (Legality.check file d) = false) :
    d.Under (checked F d.isAsync) := by
  simp only [Legality.check, hasErrors_append, Bool.or_eq_false_iff] at h
  exact
    { prelude := checked_of_checkStmts ⟨file, d⟩ hE hw.prelude h.1.2
      body := checked_of_checkBlock ⟨file, d⟩ hE hw.body h.2
      bounds := fun e he => checked_bounds_of_check ⟨file, d⟩ hE he (hw.bounds e he) h.1.1 }

end Flow

end Yielding
