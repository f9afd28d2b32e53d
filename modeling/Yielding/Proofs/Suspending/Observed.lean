import Yielding.Proofs.Suspending.Lowered
import Yielding.Typing.Yields

/-!
# Proofs/Suspending/Observed — the check of yielded types sees every suspension

The check of the yielded types and lowering go through a body independently, the one to find the
types that are yielded, the other to make the suspensions.  They agree (`suspensions_observed`):
lowering suspends once for each `yield`, and for each `?` where residuals are yielded; the check
observes each such `yield` once, and each such `?` once if its operand is an `Option` or a `Result`.
-/

namespace Yielding.Typing

open List

/-! ## Expressions in their scopes -/

def inScope (s : Scope) (e : Expr) : List (Scope × Expr) := e.walk.map (s, ·)

mutual

/-- Everything that is written in a statement, with the scope that it is in. -/
def scopedStmt (k : Setting) (s : Scope) : Stmt → List (Scope × Expr)
  | .letIn _ _ _ value none | .expr _ value | .ret _ (some value) => inScope s value
  | .letIn _ _ _ value (some b) => inScope s value ++ scopedBlock k s b
  | .assign _ target value _ => inScope s target ++ inScope s value
  | .ifElse _ c a none => inScope s c.value ++ scopedBlock k (conditionScope k s c) a
  | .ifElse _ c a (some b) =>
    inScope s c.value ++ scopedBlock k (conditionScope k s c) a ++ scopedBlock k s b
  | .whileDo _ c b => inScope s c.value ++ scopedBlock k (conditionScope k s c) b
  | .loop _ b | .block _ b => scopedBlock k s b
  | .forIn _ p iterable b =>
    inScope s iterable ++
      scopedBlock k (s.bindPattern p (iterable.type k.fns s).elementType) b
  | .matchOn _ subject arms => inScope s subject ++ scopedArms k s (subject.type k.fns s) arms
  | .ret _ none | .breakLoop _ | .continueLoop _ | .fn .. | .suspend .. | .terminate _ => []

/-- The same for a row of statements; each is in the scope of the `let`s before it. -/
def scopedRow (k : Setting) (s : Scope) : List Stmt → List (Scope × Expr)
  | [] => []
  | stmt :: stmts =>
    scopedStmt k s stmt ++ scopedRow k (Definition.bindLets k.fns s [stmt]) stmts

def scopedBlock (k : Setting) (s : Scope) : Block → List (Scope × Expr)
  | .mk stmts _ none => scopedRow k s stmts
  | .mk stmts _ (some tail) =>
    scopedRow k s stmts ++ inScope (Definition.bindLets k.fns s stmts) tail

def scopedArms (k : Setting) (s : Scope) (t : Ty) : List Arm → List (Scope × Expr)
  | [] => []
  | .mk _ p none b :: arms => scopedBlock k (s.bindPattern p t) b ++ scopedArms k s t arms
  | .mk _ p (some guard) b :: arms =>
    inScope (s.bindPattern p t) guard ++ scopedBlock k (s.bindPattern p t) b ++
      scopedArms k s t arms

end

section Scoped

variable (k : Setting)

@[simp]
theorem map_snd_inScope (s : Scope) (e : Expr) : (inScope s e).map Prod.snd = e.walk := by
  simp [inScope, Function.comp_def]

mutual

theorem map_snd_scopedStmt : ∀ (s : Scope) (stmt : Stmt),
    (scopedStmt k s stmt).map Prod.snd = stmt.walk
  | _, .letIn _ _ _ _ none | _, .expr .. | _, .ret _ (some _) | _, .assign .. | _, .ret _ none
  | _, .breakLoop _ | _, .continueLoop _ | _, .fn .. | _, .suspend .. | _, .terminate _ => by
    simp [scopedStmt, Stmt.walk]
  | _, .letIn _ _ _ _ (some b) | _, .ifElse _ _ b none | _, .whileDo _ _ b | _, .forIn _ _ _ b
  | _, .loop _ b | _, .block _ b => by simp [scopedStmt, Stmt.walk, map_snd_scopedBlock _ b]
  | _, .ifElse _ _ a (some b) => by
    simp [scopedStmt, Stmt.walk, map_snd_scopedBlock _ a, map_snd_scopedBlock _ b]
  | _, .matchOn _ _ arms => by simp [scopedStmt, Stmt.walk, map_snd_scopedArms _ _ arms]

theorem map_snd_scopedRow : ∀ (s : Scope) (stmts : List Stmt),
    (scopedRow k s stmts).map Prod.snd = rowWalk stmts
  | _, [] => by rw [scopedRow, rowWalk, map_nil]
  | _, stmt :: stmts => by
    rw [scopedRow, rowWalk, map_append, map_snd_scopedStmt _ stmt, map_snd_scopedRow _ stmts]

/-- **The expressions in their scopes are all the expressions of a block**, each once. -/
theorem map_snd_scopedBlock : ∀ (s : Scope) (b : Block),
    (scopedBlock k s b).map Prod.snd = b.walk
  | _, .mk stmts _ none => by rw [scopedBlock, Block.walk, map_snd_scopedRow _ stmts]
  | _, .mk stmts _ (some _) => by
    rw [scopedBlock, Block.walk, map_append, map_snd_scopedRow _ stmts, map_snd_inScope]

theorem map_snd_scopedArms : ∀ (s : Scope) (t : Ty) (arms : List Arm),
    (scopedArms k s t arms).map Prod.snd = armWalk arms
  | _, _, [] => by rw [scopedArms, armWalk, map_nil]
  | _, _, .mk _ _ none b :: arms => by
    rw [scopedArms, armWalk, map_append, map_snd_scopedBlock _ b, map_snd_scopedArms _ _ arms]
  | _, _, .mk _ _ (some _) b :: arms => by
    rw [scopedArms, armWalk, map_append, map_append, map_snd_inScope,
      map_snd_scopedBlock _ b, map_snd_scopedArms _ _ arms]

end

/-! ## Observations -/

def observeAt (x : Scope × Expr) : Option Observation := observe k x.1 x.2

theorem observeExpr_eq (s : Scope) (e : Expr) :
    observeExpr k s e = (inScope s e).filterMap (observeAt k) := by
  rw [observeExpr, inScope, filterMap_map]
  rfl

mutual

theorem observeStmt_eq : ∀ (s : Scope) (stmt : Stmt), observeStmt k s stmt =
    ((scopedStmt k s stmt).filterMap (observeAt k), Definition.bindLets k.fns s [stmt])
  | _, .letIn _ _ _ _ none | _, .expr .. | _, .ret _ (some _) | _, .assign .. | _, .ret _ none
  | _, .breakLoop _ | _, .continueLoop _ | _, .fn .. | _, .suspend .. | _, .terminate _ => by
    simp only [observeStmt, scopedStmt, observeOptional, observeExpr_eq, filterMap_append]
    rfl
  | _, .letIn _ _ _ _ (some b) | _, .ifElse _ _ b none | _, .whileDo _ _ b | _, .forIn _ _ _ b
  | _, .loop _ b | _, .block _ b => by
    simp only [observeStmt, scopedStmt, observeExpr_eq, observeBlock_eq _ b, filterMap_append]
    rfl
  | _, .ifElse _ _ a (some b) => by
    rw [observeStmt, scopedStmt, observeExpr_eq, observeBlock_eq _ a, observeBlock_eq _ b,
      filterMap_append, filterMap_append]
    rfl
  | _, .matchOn _ _ arms => by
    rw [observeStmt, scopedStmt, observeExpr_eq, observeArms_eq _ _ arms, filterMap_append]
    rfl

theorem observeStmts_eq : ∀ (s : Scope) (stmts : List Stmt), observeStmts k s stmts =
    ((scopedRow k s stmts).filterMap (observeAt k), Definition.bindLets k.fns s stmts)
  | s, [] => by
    rw [observeStmts, scopedRow]
    rfl
  | s, stmt :: stmts => by
    rw [observeStmts, scopedRow, observeStmt_eq s stmt]
    simp only [observeStmts_eq _ stmts, filterMap_append]
    rfl

/-- **The check observes what the expressions of a block show in their scopes.** -/
theorem observeBlock_eq : ∀ (s : Scope) (b : Block),
    observeBlock k s b = (scopedBlock k s b).filterMap (observeAt k)
  | s, .mk stmts _ none => by
    rw [observeBlock, scopedBlock, observeStmts_eq s stmts]
    simp [observeOptional]
  | s, .mk stmts _ (some tail) => by
    rw [observeBlock, scopedBlock, observeStmts_eq s stmts, filterMap_append]
    simp [observeOptional, observeExpr_eq]

theorem observeArms_eq : ∀ (s : Scope) (t : Ty) (arms : List Arm),
    observeArms k s t arms = (scopedArms k s t arms).filterMap (observeAt k)
  | _, _, [] => by rw [observeArms, scopedArms, filterMap_nil]
  | s, t, .mk _ _ none b :: arms => by
    rw [observeArms, scopedArms, filterMap_append, ← observeBlock_eq _ b,
      ← observeArms_eq s t arms]
    simp [observeOptional]
  | s, t, .mk _ _ (some _) b :: arms => by
    rw [observeArms, scopedArms, filterMap_append, filterMap_append, ← observeBlock_eq _ b,
      ← observeArms_eq s t arms, ← observeExpr_eq]
    rfl

end

/-- The expression is a `?` whose operand is an `Option` or a `Result`. -/
def attemptsOutcome (fns : FnTypes) (x : Scope × Expr) : Bool :=
  match x.2 with
  | .attempt _ operand => (operand.type fns x.1).isOutcome
  | _ => false

theorem residualOf_isSome (t : Ty) : (residualOf? t).isSome = t.isOutcome := by
  unfold residualOf? Ty.isOutcome
  split <;> simp_all

def isObserved (source : Source) (x : Scope × Expr) : Bool :=
  match source with
  | .yield => x.2.isYield
  | .attempt => k.yieldsResidual && attemptsOutcome k.fns x

theorem observeAt_source (source : Source) (x : Scope × Expr) :
    (((observeAt k x).filter (·.source = source)).map Observation.region) =
      if isObserved k source x then some x.2.region else none := by
  obtain ⟨s, e⟩ := x
  cases e with
  | yield r value =>
    cases value <;> cases source <;> simp [observeAt, observe, isObserved, Expr.isYield,
      Expr.region, attemptsOutcome]
  | attempt r operand =>
    have houtcome := residualOf_isSome (operand.type k.fns s)
    cases source <;> cases hm : k.yieldsResidual <;>
      cases ht : residualOf? (operand.type k.fns s) <;>
      simp_all [observeAt, observe, isObserved, Expr.isYield, Expr.region, attemptsOutcome]
  | _ => cases source <;> simp [observeAt, observe, isObserved, Expr.isYield, attemptsOutcome]

/-- **Each expression that is observed is observed once**, in source order. -/
theorem filterMap_observeAt (source : Source) (xs : List (Scope × Expr)) :
    ((xs.filterMap (observeAt k)).filter (·.source = source)).map Observation.region =
      (xs.filter (isObserved k source)).map (·.2.region) := by
  rw [filter_filterMap, map_filterMap]
  induction xs with
  | nil => rfl
  | cons x xs ih =>
    rw [filterMap_cons, observeAt_source, ih]
    cases h : isObserved k source x <;> simp [h]

end Scoped

/-- The expressions of a body with their scopes. -/
def scopedBody (d : Definition) : List (Scope × Expr) :=
  scopedBlock ⟨d.fnTypes, d.residual?.isSome⟩ d.scope d.body

/-- Where a source of values is observed. -/
def observedAt (source : Source) (d : Definition) : List Region :=
  ((observations d).filter (·.source = source)).map Observation.region

/-- **The check of the yielded types sees exactly the suspensions that lowering makes.**  In an item
without `yield` and `?` in the guards of its matches, the lowered body suspends once at each `yield`
of the body, and at each `?` where residuals are yielded.  The check observes each `yield` once, and
where residuals are yielded each `?` on an `Option` or a `Result` once and no other. -/
theorem suspensions_observed (d : Definition) (h : d.body.Quiet) :
    d.lower.body.suspensions =
      ((d.body.walk.filter Expr.isYield).map Expr.region : List Region) +
        (if d.residual?.isSome then
          (((d.body.walk.filter Expr.isTry).map Expr.region : List Region) : Multiset Region)
        else 0) ∧
    observedAt .yield d = (d.body.walk.filter Expr.isYield).map Expr.region ∧
    (scopedBody d).map Prod.snd = d.body.walk ∧
    observedAt .attempt d =
      if d.residual?.isSome then
        ((scopedBody d).filter (attemptsOutcome d.fnTypes)).map (·.2.region)
      else [] := by
  have hbody : (scopedBody d).map Prod.snd = d.body.walk := map_snd_scopedBlock _ _ _
  have hobserved (source : Source) : observedAt source d =
      ((scopedBody d).filter (isObserved ⟨d.fnTypes, d.residual?.isSome⟩ source)).map
        (·.2.region) := by
    rw [observedAt, observations, observeBlock_eq, filterMap_observeAt]
    rfl
  refine ⟨d.lower_suspensions h, ?_, hbody, ?_⟩
  · rw [hobserved, ← hbody, filter_map, map_map]
    rfl
  · rw [hobserved]
    cases d.residual?.isSome with
    | false => simp [isObserved]
    | true => rfl

/-- The region of the first column of a line. -/
def firstOf (line : Nat) : Region := ⟨⟨line, 1⟩, ⟨line, 2⟩⟩

/-- An item of type `Option<i32>` with the body

    let x = g(h()?, yield 1);
    a[Some(i)?] = yield;
    fn k() { yield 2; }
    match x { _ if x => { yield 3; } }
-/
def probing : Definition :=
  let number (n : Int) : Expr := .literal default (.int n none)
  let call (name : String) (args : List Expr) : Expr := .call default (.name default name) args
  let x : Expr := .name default "x"
  { (default : Definition) with
    name := "f"
    yielded := .option (.ofName "i32")
    form := .star
    body := .mk [
      .letIn default (.bind default "x" false) none
        (call "g" [.attempt (firstOf 1) (call "h" []), .yield (firstOf 2) (some (number 1))]) none,
      .assign default
        (.index default (.name default "a")
          (.attempt (firstOf 3) (call "Some" [.name default "i"])))
        (.yield (firstOf 4) none) .set,
      .fn default "k" [] none
        (.mk [.expr default (.yield (firstOf 5) (some (number 2)))] default none),
      .matchOn default x [.mk default (.wildcard default) (some x)
        (.mk [.expr default (.yield (firstOf 6) (some (number 3)))] default none)]]
      default none }

theorem probing_observed :
    probing.body.Quiet ∧
    probing.lower.body.suspensions = {firstOf 1, firstOf 2, firstOf 3, firstOf 4, firstOf 6} ∧
    observedAt .yield probing = [firstOf 2, firstOf 4, firstOf 6] ∧
    observedAt .attempt probing = [firstOf 3] := by
  have hquiet : probing.body.Quiet := by
    simp [Block.Quiet, probing, Block.Every, everyStmt, Stmt.Every, everyArm, Flow.IsWritten,
      Stmt.QuietGuards, Arm.guard, Expr.walk, Expr.isYield, Expr.isTry]
  obtain ⟨hsuspensions, hyields, -, htries⟩ := suspensions_observed probing hquiet
  exact ⟨hquiet, hsuspensions.trans (by decide), hyields.trans (by decide),
    htries.trans (by decide)⟩

end Yielding.Typing
