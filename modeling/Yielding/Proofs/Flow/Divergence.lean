import Yielding.Proofs.Flow.Laws

/-!
# Proofs/Flow/Divergence — what diverges is left before its end

A run of a block **leaves** it by a `return`, by a `break` or `continue` of a loop around it, or by
a panic, and otherwise reaches its end.  Which runs there are is left open by every condition, and
by every match as far as no arm of it always applies.  A block that diverges is left by every run,
except where the last thing to run is a match none of whose arms applied (`bindings_follow_match`),
as for `guarded`.
-/

namespace Yielding

namespace Flow

/-- How a run through a statement ends. -/
inductive RunEnd
  | next
  /-- Like `next`, but after a match none of whose arms applied. -/
  | missed
  | returned | broken | continued | panicked
deriving DecidableEq, Repr

/-- Whether what stands behind is not reached. -/
def RunEnd.leaves : RunEnd → Bool
  | next | missed => false
  | _ => true

end Flow

open Yielding.Flow

mutual

/-- The statement has a run to the ending.  Wherever an expression is evaluated this may panic, or
return from a `?` in it. -/
inductive Stmt.Runs : Stmt → RunEnd → Prop
  | panics {s : Stmt} : s.Runs .panicked
  | residual {s : Stmt} : s.Runs .returned
  | bind {r p type value otherwise} : Stmt.Runs (.letIn r p type value otherwise) .next
  | otherwise {r p type value b e} : Block.Runs b e → Stmt.Runs (.letIn r p type value (some b)) e
  | assign {r target value op} : Stmt.Runs (.assign r target value op) .next
  | expr {r} {value : Expr} : value.isPanic = false → Stmt.Runs (.expr r value) .next
  | ret {r value} : Stmt.Runs (.ret r value) .returned
  | breakLoop {r} : Stmt.Runs (.breakLoop r) .broken
  | continueLoop {r} : Stmt.Runs (.continueLoop r) .continued
  | thenDo {r condition a b e} : Block.Runs a e → Stmt.Runs (.ifElse r condition a b) e
  | elseDo {r condition a b e} : Block.Runs b e → Stmt.Runs (.ifElse r condition a (some b)) e
  | skip {r condition a} : Stmt.Runs (.ifElse r condition a none) .next
  | whileDo {r condition b e} : Block.Rounds true b e → Stmt.Runs (.whileDo r condition b) e
  | loop {r b e} : Block.Rounds false b e → Stmt.Runs (.loop r b) e
  | forIn {r p iterable b e} : Block.Rounds true b e → Stmt.Runs (.forIn r p iterable b) e
  | block {r b e} : Block.Runs b e → Stmt.Runs (.block r b) e
  | fn {r name params result b} : Stmt.Runs (.fn r name params result b) .next
  | matchOn {r subject arms e} : armsRun arms e → Stmt.Runs (.matchOn r subject arms) e
  | suspend {r value} : Stmt.Runs (.suspend r value) .next
  | terminate {r} : Stmt.Runs (.terminate r) .returned

/-- The row has a run to the ending; the first ending is that of what stands before it. -/
inductive rowRuns : RunEnd → List Stmt → RunEnd → Prop
  | nil {e} : rowRuns e [] e
  | leave {e₀ s ss e} : Stmt.Runs s e → e.leaves = true → rowRuns e₀ (s :: ss) e
  | cons {e₀ s ss e₁ e} : Stmt.Runs s e₁ → e₁.leaves = false → rowRuns e₁ ss e →
    rowRuns e₀ (s :: ss) e

/-- The block has a run to the ending. -/
inductive Block.Runs : Block → RunEnd → Prop
  | stmts {ss r e} : rowRuns .next ss e → Block.Runs (.mk ss r none) e
  | leave {ss r tail e} : rowRuns .next ss e → e.leaves = true → Block.Runs (.mk ss r (some tail)) e
  | tail {ss r tail e₁ e} : rowRuns .next ss e₁ → e₁.leaves = false → Stmt.Runs (.expr r tail) e →
    Block.Runs (.mk ss r (some tail)) e

/-- The rounds of a loop have a run to the ending; the condition of some loops can end them. -/
inductive Block.Rounds : (ends : Bool) → Block → RunEnd → Prop
  | ends {b} : Block.Rounds true b .next
  | leave {ends b} : Block.Runs b .broken → Block.Rounds ends b .next
  | out {ends b e} : Block.Runs b e → e = .returned ∨ e = .panicked → Block.Rounds ends b e
  | again {ends b e₁ e} : Block.Runs b e₁ → e₁.leaves = false ∨ e₁ = .continued →
    Block.Rounds ends b e → Block.Rounds ends b e

/-- The match has a run to the ending through its arms. -/
inductive armsRun : List Arm → RunEnd → Prop
  | nil : armsRun [] .missed
  | applies {r p guard b arms e} : Block.Runs b e → armsRun (.mk r p guard b :: arms) e
  | passes {r p guard b arms e} : (guard.isNone && Script.catchesAll p) = false → armsRun arms e →
    armsRun (.mk r p guard b :: arms) e

end

/-! ## Runs of what diverges -/

mutual

theorem Stmt.Runs.ne_next : ∀ {s : Stmt} {e : RunEnd}, s.Runs e → s.diverges = true → e ≠ .next
  | .ret .., _, h, _ | .breakLoop _, _, h, _ | .continueLoop _, _, h, _
  | .terminate _, _, h, _ => by
    cases h <;> exact nofun
  | .expr .., _, h, hd => by
    cases h with
    | panics | residual => exact nofun
    | expr hpanic => exact absurd hd (by simp [Stmt.diverges, hpanic])
  | .block _ b, _, h, hd => by
    cases h with
    | panics | residual => exact nofun
    | block h => exact h.ne_next hd
  | .ifElse _ _ a (some b), _, h, hd => by
    have hd := Bool.and_eq_true_iff.1 hd
    cases h with
    | panics | residual => exact nofun
    | thenDo h => exact h.ne_next hd.1
    | elseDo h => exact h.ne_next hd.2
  | .matchOn _ _ (a :: arms), _, h, hd => by
    cases h with
    | panics | residual => exact nofun
    | matchOn h => exact armsRun_ne_next h hd

theorem rowRuns_ne_next : ∀ {ss : List Stmt} {e₀ e : RunEnd}, rowRuns e₀ ss e →
    lastDiverges ss = true → e ≠ .next
  | [s], _, _, h, hd => by
    cases h with
    | leave h _ => exact h.ne_next hd
    | cons h _ hnil =>
      cases hnil
      exact h.ne_next hd
  | s :: s' :: ss, _, _, h, hd => by
    cases h with
    | leave _ hleaves =>
      rintro rfl
      cases hleaves
    | cons _ _ h => exact rowRuns_ne_next h hd

/-- **No run of a block that diverges comes to its end as its last statement does.** -/
theorem Block.Runs.ne_next : ∀ {b : Block} {e : RunEnd}, b.Runs e → b.diverges = true → e ≠ .next
  | .mk ss _ none, _, h, hd => by
    cases h with
    | stmts h => exact rowRuns_ne_next h hd
  | .mk ss _ (some tail), _, h, hd => by
    cases h with
    | leave _ hleaves =>
      rintro rfl
      cases hleaves
    | tail _ _ h => exact h.ne_next hd

theorem armsRun_ne_next : ∀ {arms : List Arm} {e : RunEnd}, armsRun arms e →
    armsDiverge arms = true → e ≠ .next
  | [], _, h, _ => by
    cases h
    exact nofun
  | .mk _ _ _ b :: arms, _, h, hd => by
    have hd := Bool.and_eq_true_iff.1 hd
    cases h with
    | applies h => exact h.ne_next hd.1
    | passes _ h => exact armsRun_ne_next h hd.2

end

/-! ## Bindings with an `else` -/

/-- The bindings of the `let` can be made: after a match, or else after its `else` block ended. -/
inductive Stmt.Binds : Stmt → Option RunEnd → Prop
  | matched {r p type value otherwise} : Binds (.letIn r p type value otherwise) none
  | unmatched {r p type value b e} : Block.Runs b e → e.leaves = false →
    Binds (.letIn r p type value (some b)) (some e)

/-- The law of items whose bindings are only made after a match, as long as an arm of each match
applies. -/
def Flow.bound : Law where
  stmt _ _ s := ∀ how, s.Binds how → how = none ∨ how = some .missed
  expr _ _ := True
  guard _ _ := True

theorem Stmt.Binds.of_checked {F : Script.Failure → Prop} {isAsync l : Bool} {p : Flow.Place}
    {s : Stmt} {how : Option RunEnd} (h : s.Binds how) (hs : (checked F isAsync).stmt p l s) :
    how = none ∨ how = some .missed := by
  cases h with
  | matched => exact .inl rfl
  | unmatched hruns hleaves =>
    have hne := hruns.ne_next hs
    exact .inr (by cases ‹RunEnd› <;> first | rfl | exact absurd rfl hne | cases hleaves)

/-- **What diverges is left before its end**, unless the last thing to run is a match none of whose
arms applied.  Hence, with that exception, **an item that passes the checks only makes the bindings
of a `let` after its pattern matched**. -/
theorem Flow.bindings_follow_match (file : Option String) (d : Definition) :
    (∀ (b : Block) (e : RunEnd), b.diverges = true → b.Runs e → e.leaves = true ∨ e = .missed) ∧
    (d.Under (written True) → hasErrors (Legality.check file d) = false → d.Under bound) := by
  refine ⟨fun b e hd h => ?_, fun hw hv => ?_⟩
  · have hne := h.ne_next hd
    cases e <;> first | exact .inl rfl | exact .inr rfl | exact absurd rfl hne
  · have hchecked := definition_checked (F := fun _ => True) (fun _ => trivial) hw hv
    exact hchecked.mono (fun hs _ h => h.of_checked hs) (fun _ => trivial) fun _ => trivial

/-- The block `{ match h() { 1 => { return; } } }`, left only if the arm applies. -/
def returnOnOne : Block :=
  .mk [.matchOn default (.call default (.name default "h") [])
    [.mk default (.literal default (.int 1 none)) none (.mk [.ret default none] default none)]]
      default none

/-- The item `let Some(x) = g() else { match h() { 1 => { return; } } }; yield x;`. -/
def guarded : Definition :=
  { (default : Definition) with
    body := .mk [
      .letIn default (.variant default .some (.bind default "x" false)) none
        (.call default (.name default "g") []) (some returnOnOne),
      .expr default (.yield default (some (.name default "x")))] default none }

theorem guarded_bound : guarded.Under (written True) ∧
    hasErrors (Legality.check none guarded) = false ∧ guarded.Under bound := by
  have hw : guarded.Under (written True) :=
    ⟨trivial, ⟨⟨⟨trivial, fun _ _ _ => trivial, ⟨⟨trivial, fun _ _ _ => trivial, nofun,
      ⟨⟨⟨trivial, nofun⟩, trivial⟩, nofun⟩, trivial⟩, trivial⟩, nofun⟩,
        ⟨trivial, fun _ _ _ => trivial⟩, trivial⟩,
      nofun⟩, nofun⟩
  have hv : hasErrors (Legality.check none guarded) = false := by decide
  exact ⟨hw, hv, (bindings_follow_match none guarded).2 hw hv⟩

/-- **A block that diverges may be run to its end**: the check does not ask that an arm of a match
always applies, so the bindings of an item that passes it may be made from a value that did not
match. -/
theorem guarded_binds_unmatched : returnOnOne.diverges = true ∧ returnOnOne.Runs .missed ∧
    hasErrors (Legality.check none guarded) = false ∧
      ∃ s ∈ guarded.body.stmts, s.Binds (some .missed) := by
  have hmatch : Stmt.Runs (.matchOn default (.call default (.name default "h") [])
      [.mk default (.literal default (.int 1 none)) none (.mk [.ret default none] default none)])
        .missed :=
    .matchOn (.passes rfl .nil)
  have hruns : returnOnOne.Runs .missed := .stmts (.cons hmatch rfl .nil)
  exact ⟨rfl, hruns, by decide, _, List.mem_cons_self, .unmatched hruns rfl⟩

end Yielding
