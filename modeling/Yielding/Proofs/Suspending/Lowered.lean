import Mathlib.Algebra.BigOperators.Group.List.Basic
import Mathlib.Algebra.Order.Group.Multiset
import Yielding.Proofs.Flow.Laws
import Yielding.Proofs.Lowering.Rows

/-!
# Proofs/Suspending/Lowered — where a lowered body suspends

A body **suspends at** each `yield`, and at each `?` where residuals are yielded; nested functions
do not count.  Lowering splits expressions, keeps parts of them in temporaries and throws others
away, yet it suspends once for each of those places and nowhere else (`lower_suspensions`).
-/

namespace Yielding

/-! ## Suspensions of statements -/

mutual

/-- The regions of the suspensions in a statement, nested functions apart. -/
def Stmt.suspensions : Stmt → Multiset Region
  | .suspend r _ => {r}
  | .letIn _ _ _ _ (some b) => b.suspensions
  | .ifElse _ _ a none => a.suspensions
  | .ifElse _ _ a (some b) => a.suspensions + b.suspensions
  | .whileDo _ _ b | .loop _ b | .forIn _ _ _ b | .block _ b => b.suspensions
  | .matchOn _ _ arms => armSuspensions arms
  | .letIn _ _ _ _ none | .assign .. | .expr .. | .ret .. | .breakLoop _ | .continueLoop _ | .fn ..
  | .terminate _ => 0

def rowSuspensions : List Stmt → Multiset Region
  | [] => 0
  | s :: ss => s.suspensions + rowSuspensions ss

def Block.suspensions : Block → Multiset Region
  | .mk stmts _ _ => rowSuspensions stmts

def armSuspensions : List Arm → Multiset Region
  | [] => 0
  | .mk _ _ _ b :: arms => b.suspensions + armSuspensions arms

end

section Rows

attribute [local simp] Stmt.suspensions rowSuspensions

@[simp]
theorem rowSuspensions_nil : rowSuspensions [] = 0 := rfl

@[simp]
theorem rowSuspensions_cons (s : Stmt) (ss : List Stmt) :
    rowSuspensions (s :: ss) = s.suspensions + rowSuspensions ss := rfl

@[simp]
theorem rowSuspensions_append (ss ss' : List Stmt) :
    rowSuspensions (ss ++ ss') = rowSuspensions ss + rowSuspensions ss' := by
  induction ss with
  | nil => simp
  | cons s ss ih => simp [ih, add_assoc]

end Rows

/-! ## What is written -/

mutual

/-- Everything that is written in a statement and its expressions, in source order, nested functions
apart. -/
def Stmt.walk : Stmt → List Expr
  | .letIn _ _ _ value none | .expr _ value | .ret _ (some value) => value.walk
  | .letIn _ _ _ value (some b) => value.walk ++ b.walk
  | .assign _ target value _ => target.walk ++ value.walk
  | .ifElse _ condition a none => condition.value.walk ++ a.walk
  | .ifElse _ condition a (some b) => condition.value.walk ++ a.walk ++ b.walk
  | .whileDo _ condition b => condition.value.walk ++ b.walk
  | .loop _ b | .block _ b => b.walk
  | .forIn _ _ iterable b => iterable.walk ++ b.walk
  | .matchOn _ subject arms => subject.walk ++ armWalk arms
  | .ret _ none | .breakLoop _ | .continueLoop _ | .fn .. | .suspend .. | .terminate _ => []

def rowWalk : List Stmt → List Expr
  | [] => []
  | s :: ss => s.walk ++ rowWalk ss

def Block.walk : Block → List Expr
  | .mk stmts _ none => rowWalk stmts
  | .mk stmts _ (some tail) => rowWalk stmts ++ tail.walk

def armWalk : List Arm → List Expr
  | [] => []
  | .mk _ _ none b :: arms => b.walk ++ armWalk arms
  | .mk _ _ (some guard) b :: arms => guard.walk ++ b.walk ++ armWalk arms

end

/-- The regions of the expressions among the given ones that suspend: each `yield`, and each `?`
where residuals are yielded. -/
def suspendedAt (yieldsResidual : Bool) (es : List Expr) : Multiset Region :=
  ((es.filter Expr.isYield).map Expr.region : List Region) +
    if yieldsResidual then
      (((es.filter Expr.isTry).map Expr.region : List Region) : Multiset Region)
    else 0

section SuspendedAt

variable {m : Bool}

@[simp]
theorem suspendedAt_nil : suspendedAt m [] = 0 := by cases m <;> rfl

@[simp]
theorem suspendedAt_append (es es' : List Expr) :
    suspendedAt m (es ++ es') = suspendedAt m es + suspendedAt m es' := by
  simp only [suspendedAt, List.filter_append, List.map_append, ← Multiset.coe_add]
  split
  · exact add_add_add_comm _ _ _ _
  · simp only [add_zero]

@[simp]
theorem suspendedAt_walkRow_cons (e : Expr) (es : List Expr) :
    suspendedAt m (Expr.walkRow (e :: es)) =
      suspendedAt m e.walk + suspendedAt m (Expr.walkRow es) := by
  rw [Expr.walkRow, suspendedAt_append]

@[simp]
theorem suspendedAt_walkRow_nil : suspendedAt m (Expr.walkRow []) = 0 := by
  rw [Expr.walkRow, suspendedAt_nil]

theorem suspendedAt_walk (e : Expr) : suspendedAt m e.walk =
    suspendedAt m [e] + suspendedAt m (Expr.walkRow e.operands) := by
  rw [Expr.walk_eq, ← List.singleton_append, suspendedAt_append]

theorem suspendedAt_eq_zero {es : List Expr} (h : ∀ e ∈ es, e.isYield = false ∧ e.isTry = false) :
    suspendedAt m es = 0 := by
  have hyields : es.filter Expr.isYield = [] :=
    List.filter_eq_nil_iff.2 fun e he => by simp [h e he]
  have htries : es.filter Expr.isTry = [] :=
    List.filter_eq_nil_iff.2 fun e he => by simp [h e he]
  simp [suspendedAt, hyields, htries]

theorem suspendedAt_operands {e : Expr} (hyield : e.isYield = false) (htry : e.isTry = false) :
    suspendedAt m e.walk = suspendedAt m (Expr.walkRow e.operands) := by
  rw [suspendedAt_walk, suspendedAt_eq_zero (by simp [hyield, htry]), zero_add]

theorem suspendedAt_yield (r : Region) (value : Option Expr) :
    suspendedAt m [.yield r value] = {r} := by
  cases m <;> rfl

theorem suspendedAt_attempt (r : Region) (operand : Expr) :
    suspendedAt m [.attempt r operand] = if m then {r} else 0 := by
  cases m <;> rfl

end SuspendedAt

/-- No guard of the statement, if it is a match, suspends. -/
def Stmt.QuietGuards : Stmt → Prop
  | .matchOn _ _ arms =>
    ∀ a ∈ arms, ∀ g ∈ a.guard, ∀ e ∈ g.walk, e.isYield = false ∧ e.isTry = false
  | _ => True

/-- A body as it can be written, and all guards of its matches are quiet. -/
def Block.Quiet (b : Block) : Prop :=
  b.Every (fun s => Flow.IsWritten s ∧ s.QuietGuards) fun _ => True

namespace Lowering

variable {c : Context} {n : ℕ}

/-! ## Operands -/

def Lowered.suspensions (l : Lowered) : Multiset Region := rowSuspensions l.before

def allSuspensions (ls : List Lowered) : Multiset Region := (ls.map Lowered.suspensions).sum

@[simp]
theorem Lowered.suspensions_mk (before : List Stmt) (value : Expr) :
    Lowered.suspensions ⟨before, value⟩ = rowSuspensions before := rfl

theorem Lowered.suspensions_of_not_pending {l : Lowered} (h : l.isPending = false) :
    l.suspensions = 0 := by
  have hempty : l.before = [] := by simpa [Lowered.isPending] using h
  rw [Lowered.suspensions, hempty, rowSuspensions_nil]

@[simp]
theorem kept_suspensions (t : Temp) (i : ℕ) (e : Expr) : (t.kept i e).suspensions = 0 := by
  rw [Temp.kept, Stmt.suspensions]

theorem protect_suspensions {pending : Bool} {e : Expr} :
    Gives (protect c pending e) n fun p _ => rowSuspensions p.before = 0 := by
  unfold protect
  split
  · exact gives_bind.2 (gives_keep.2 (gives_pure.2 (by simp)))
  · exact gives_pure.2 rowSuspensions_nil

theorem spill_suspensions : ∀ {n : ℕ} (ls : List Lowered),
    Gives (spill c ls) n fun q _ => rowSuspensions q.1 = allSuspensions ls
  | _, [] => gives_pure.2 rowSuspensions_nil
  | _, l :: ls => by
    refine protect_suspensions.bind fun p _ hp => (spill_suspensions ls).bind fun q _ hq =>
      gives_pure.2 ?_
    simp [hp, hq, allSuspensions, Lowered.suspensions]

theorem rowSuspensions_flatMap (ls : List Lowered) :
    rowSuspensions (ls.flatMap Lowered.before) = allSuspensions ls := by
  induction ls with
  | nil => simp [allSuspensions]
  | cons l ls ih =>
    rw [List.flatMap_cons, rowSuspensions_append, ih]
    simp [allSuspensions, Lowered.suspensions]

theorem lowerSwap_suspensions {r : Region} {method : String} (a : Lowered) (bs : List Lowered) :
    Gives (lowerSwap r method a bs) n fun l _ =>
      l.suspensions = a.suspensions + allSuspensions bs := by
  unfold lowerSwap
  split
  · exact gives_pure.2 (by simp [rowSuspensions_flatMap, Lowered.suspensions])
  · refine gives_bind.2 (gives_keep.2 (gives_pure.2 ?_))
    simp [rowSuspensions_flatMap, Lowered.suspensions, Stmt.suspensions]

theorem lowerLazy_suspensions {r : Region} {op : BinaryOp} (a b : Lowered) :
    Gives (lowerLazy r op a b) n fun l _ => l.suspensions = a.suspensions + b.suspensions := by
  unfold lowerLazy
  split
  · next hpending =>
    rw [Bool.not_eq_true'] at hpending
    refine gives_pure.2 ?_
    rw [Lowered.suspensions_of_not_pending hpending, add_zero]
    rfl
  · refine gives_bind.2 (gives_keep.2 (gives_pure.2 ?_))
    simp [Lowered.suspensions, Stmt.suspensions, Block.suspensions]

theorem lowerTry_suspensions {r : Region} (hc : c.inFn = false) (a : Lowered) :
    Gives (lowerTry c r a) n fun l _ =>
      l.suspensions = (if c.yieldsResidual then {r} else 0) + a.suspensions := by
  refine gives_bind.2 (gives_keep.2 (gives_pure.2 ?_))
  cases hm : c.yieldsResidual <;>
    simp [Lowered.suspensions, Stmt.suspensions, Block.suspensions, onResidual, hc, hm, add_comm]

theorem lowerYield_suspensions (r : Region) (a : Lowered) :
    (lowerYield r a).suspensions = {r} + a.suspensions := by
  simp [lowerYield, Lowered.suspensions, Stmt.suspensions, add_comm]

/-! ## Expressions -/

theorem Row.suspensions {m : Bool} {es : List Expr} {ls : List Lowered} {k : ℕ}
    (h : Row (fun e _ l _ => l.suspensions = suspendedAt m e.walk) es n ls k) :
    allSuspensions ls = suspendedAt m (Expr.walkRow es) := by
  induction h with
  | nil => exact suspendedAt_walkRow_nil.symm
  | cons he _ ih =>
    rw [suspendedAt_walkRow_cons, ← he, ← ih]
    rfl

theorem suspension_cases (hc : c.inFn = false) :
    Cases c fun e _ l _ => l.suspensions = suspendedAt c.yieldsResidual e.walk where
  strict {e n ls k} hstrict hls := by
    have hquiet : e.isYield = false ∧ e.isTry = false := by
      cases e <;> first | exact ⟨rfl, rfl⟩ | cases hstrict
    refine (spill_suspensions ls).mono fun q _ hq _ => ?_
    rw [Lowered.suspensions_mk, hq, hls.suspensions, suspendedAt_operands hquiet.1 hquiet.2]
  pause {r n} := by
    rw [lowerYield_suspensions, suspendedAt_walk]
    simp [suspendedAt_yield, Expr.operands, Lowered.suspensions]
  yield {r e n l k} hl := by
    rw [lowerYield_suspensions, hl, suspendedAt_walk (.yield r (some e))]
    simp [suspendedAt_yield, Expr.operands]
  attempt {r e n l k} hl := by
    refine (lowerTry_suspensions hc l).mono fun l' _ hl' => ?_
    rw [hl', hl, suspendedAt_walk (.attempt r e)]
    simp [suspendedAt_attempt, Expr.operands]
  decide {r op e₁ e₂ n l₁ k l₂ m} _ h₁ h₂ := by
    refine (lowerLazy_suspensions l₁ l₂).mono fun l _ hl => ?_
    rw [hl, h₁, h₂, suspendedAt_operands (e := .binary r op e₁ e₂) rfl rfl]
    simp [Expr.operands]
  swap {r e method es n l k ls m} _ hl hls := by
    refine (lowerSwap_suspensions l ls).mono fun l' _ hl' => ?_
    rw [hl', hl, hls.suspensions, suspendedAt_operands (e := .methodCall r e method es) rfl rfl]
    simp [Expr.operands]

/-- **What runs before a lowered expression suspends where the expression does.** -/
theorem lowerExpr_suspensions (hc : c.inFn = false) (e : Expr) :
    Gives (lowerExpr c e) n fun l _ => l.suspensions = suspendedAt c.yieldsResidual e.walk :=
  (suspension_cases hc).lowerExpr e n

/-! ## Parts of statements -/

section Parts

variable (hc : c.inFn = false)

include hc

theorem lowerCondition_suspensions (condition : Condition) :
    Gives (lowerCondition c condition) n fun q _ =>
      rowSuspensions q.1 = suspendedAt c.yieldsResidual condition.value.walk := by
  cases condition with
  | test e | letMatch r p e =>
    exact (lowerExpr_suspensions hc e).bind fun l _ hl => gives_pure.2 hl

theorem lowerTail_suspensions (stmts : List Stmt) (r : Region) (tail : Option Expr) :
    Gives (lowerTail c tail) n fun q _ =>
      suspendedAt c.yieldsResidual (Block.mk stmts r tail).walk =
      suspendedAt c.yieldsResidual (rowWalk stmts) + rowSuspensions q.1 := by
  cases tail with
  | none => exact gives_pure.2 (by simp [Block.walk])
  | some e =>
    refine (lowerExpr_suspensions hc e).bind fun l _ hl => gives_pure.2 ?_
    rw [Block.walk, suspendedAt_append, ← hl]
    rfl

end Parts

theorem lowerWhile_suspensions (r : Region) (before : List Stmt) (condition : Condition)
    (b : Block) :
    (lowerWhile r before condition b).suspensions = rowSuspensions before + b.suspensions := by
  obtain ⟨stmts, region, tail⟩ := b
  unfold lowerWhile
  split
  · next hempty =>
    rw [List.isEmpty_iff.1 hempty]
    simp [Stmt.suspensions]
  · cases condition with
    | letMatch | test =>
      simp [Stmt.suspensions, Block.suspensions, Block.stmts]

/-! ## Statements -/

mutual

/-- **What lowering makes of a statement suspends where the statement does.** -/
theorem lowerStmt_suspensions (hc : c.inFn = false) : ∀ {n : ℕ} (s : Stmt),
    s.Every (fun s => Flow.IsWritten s ∧ s.QuietGuards) (fun _ => True) →
    Gives (lowerStmt c s) n fun ss _ => rowSuspensions ss = suspendedAt c.yieldsResidual s.walk
  | _, .letIn r p type value none, _ => by
    refine (lowerExpr_suspensions hc value).bind fun l _ hl => gives_pure.2 ?_
    rw [Stmt.walk, ← hl]
    simp [Stmt.suspensions, Lowered.suspensions]
  | _, .letIn _ _ _ value (some b), h | _, .forIn _ _ value b, h => by
    refine (lowerExpr_suspensions hc value).bind fun l _ hl =>
      (lowerBlock_suspensions hc b h.2.2).bind fun b' _ hb => gives_pure.2 ?_
    rw [Stmt.walk, suspendedAt_append, ← hl, ← hb]
    simp [Stmt.suspensions, Lowered.suspensions]
  | _, .assign r target value op, _ => by
    refine (lowerExpr_suspensions hc value).bind fun v _ hv =>
      (lowerExpr_suspensions hc target).bind fun t _ ht =>
      protect_suspensions.bind fun p _ hp => gives_pure.2 ?_
    -- the value is evaluated first, and the target is written first
    rw [Stmt.walk, suspendedAt_append, ← hv, ← ht, add_comm]
    simp [Stmt.suspensions, Lowered.suspensions, hp]
  | _, .expr r value, _ => by
    refine (lowerExpr_suspensions hc value).bind fun l _ hl => gives_pure.2 ?_
    rw [Stmt.walk, ← hl]
    split <;> simp [Stmt.suspensions, Lowered.suspensions]
  | _, .ret r none, _ => by
    rw [lowerStmt, hc]
    exact gives_pure.2 (by simp [Stmt.suspensions, Stmt.walk])
  | _, .ret r (some value), _ => by
    refine (lowerExpr_suspensions hc value).bind fun l _ hl => gives_pure.2 ?_
    rw [Stmt.walk, ← hl, hc]
    simp [Stmt.suspensions, Lowered.suspensions]
  | _, .ifElse r condition a none, h => by
    refine (lowerCondition_suspensions hc condition).bind fun q _ hq =>
      (lowerBlock_suspensions hc a h.2.2).bind fun a' _ ha => gives_pure.2 ?_
    rw [Stmt.walk, suspendedAt_append, ← hq, ← ha]
    simp [Stmt.suspensions]
  | _, .ifElse r condition a (some b), h => by
    refine (lowerCondition_suspensions hc condition).bind fun q _ hq =>
      (lowerBlock_suspensions hc a h.2.2.1).bind fun a' _ ha =>
      (lowerBlock_suspensions hc b h.2.2.2).bind fun b' _ hb => gives_pure.2 ?_
    rw [Stmt.walk, suspendedAt_append, suspendedAt_append, ← hq, ← ha, ← hb]
    simp [Stmt.suspensions, add_assoc]
  | _, .whileDo r condition b, h => by
    refine (lowerCondition_suspensions hc condition).bind fun q _ hq =>
      (lowerBlock_suspensions hc b h.2.2).bind fun b' _ hb => gives_pure.2 ?_
    rw [Stmt.walk, suspendedAt_append, ← hq, ← hb, rowSuspensions_cons, lowerWhile_suspensions,
      rowSuspensions_nil, add_zero]
  | _, .loop r b, h | _, .block r b, h => by
    refine (lowerBlock_suspensions hc b h.2).bind fun b' _ hb => gives_pure.2 ?_
    rw [Stmt.walk, ← hb]
    simp [Stmt.suspensions]
  | _, .fn r name params result b, _ => by
    rw [lowerStmt, Stmt.walk, suspendedAt_nil]
    refine Gives.bind (P := fun _ _ => True) trivial fun b' _ _ => gives_pure.2 ?_
    simp [Stmt.suspensions]
  | _, .matchOn r subject arms, h => by
    refine (lowerExpr_suspensions hc subject).bind fun l _ hl =>
      (lowerArms_suspensions hc arms h.1.2 h.2.2).bind fun arms' _ harms => gives_pure.2 ?_
    rw [Stmt.walk, suspendedAt_append, ← hl, ← harms]
    simp [Stmt.suspensions, Lowered.suspensions]
  | _, .breakLoop _, _ | _, .continueLoop _, _ =>
    gives_pure.2 (by simp [Stmt.suspensions, Stmt.walk])
  | _, .suspend .., h => h.1.1.elim
  | _, .terminate _, h => h.1.elim

theorem lowerStmts_suspensions (hc : c.inFn = false) : ∀ {n : ℕ} (ss : List Stmt),
    everyStmt (fun s => Flow.IsWritten s ∧ s.QuietGuards) (fun _ => True) ss →
    Gives (lowerStmts c ss) n fun ss' _ =>
      rowSuspensions ss' = suspendedAt c.yieldsResidual (rowWalk ss)
  | _, [], _ => by
    rw [lowerStmts, rowWalk, suspendedAt_nil]
    exact gives_pure.2 rowSuspensions_nil
  | _, s :: ss, h => by
    refine (lowerStmt_suspensions hc s h.1).bind fun a _ ha =>
      (lowerStmts_suspensions hc ss h.2).bind fun b _ hb => gives_pure.2 ?_
    rw [rowWalk, suspendedAt_append, rowSuspensions_append, ha, hb]

theorem lowerBlock_suspensions (hc : c.inFn = false) : ∀ {n : ℕ} (b : Block), b.Quiet →
    Gives (lowerBlock c b) n fun b' _ => b'.suspensions = suspendedAt c.yieldsResidual b.walk
  | _, .mk stmts r tail, h => by
    refine (lowerStmts_suspensions hc stmts h.1).bind fun a _ ha =>
      (lowerTail_suspensions hc stmts r tail).bind fun q _ hq => gives_pure.2 ?_
    rw [hq, ← ha, Block.suspensions, rowSuspensions_append]

theorem lowerArms_suspensions (hc : c.inFn = false) : ∀ {n : ℕ} (arms : List Arm),
    (∀ a ∈ arms, ∀ g ∈ a.guard, ∀ e ∈ g.walk, e.isYield = false ∧ e.isTry = false) →
    everyArm (fun s => Flow.IsWritten s ∧ s.QuietGuards) (fun _ => True) arms →
    Gives (lowerArms c arms) n fun arms' _ =>
      armSuspensions arms' = suspendedAt c.yieldsResidual (armWalk arms)
  | _, [], _, _ => by
    rw [lowerArms, armWalk]
    exact gives_pure.2 (by rw [armSuspensions, suspendedAt_nil])
  | _, .mk r p guard b :: arms, hquiet, h => by
    obtain ⟨hguard, hquiet⟩ := List.forall_mem_cons.1 hquiet
    have hwalk : suspendedAt c.yieldsResidual (armWalk (.mk r p guard b :: arms)) =
        suspendedAt c.yieldsResidual b.walk + suspendedAt c.yieldsResidual (armWalk arms) := by
      cases guard with
      | none => rw [armWalk, suspendedAt_append]
      | some g => rw [armWalk, suspendedAt_append, suspendedAt_append,
        suspendedAt_eq_zero (hguard g rfl), zero_add]
    rw [lowerArms, hwalk]
    refine gives_after fun g _ =>
      (lowerBlock_suspensions hc b h.2.1).bind fun b' _ hb =>
      (lowerArms_suspensions hc arms hquiet h.2.2).bind fun arms' _ harms => gives_pure.2 ?_
    rw [armSuspensions, hb, harms]

end

end Lowering

open Lowering in
/-- **A lowered body suspends where the body does**, once for each place. -/
theorem Definition.lower_suspensions {d : Definition} (h : d.body.Quiet) :
    d.lower.body.suspensions = suspendedAt d.residual?.isSome d.body.walk :=
  lowerBlock_suspensions (c := ⟨_, false, mutables d⟩) (n := ((lowerStmts ⟨_, true, _⟩ d.prelude).run 0).2)
    rfl d.body h

end Yielding
