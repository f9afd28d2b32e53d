import Yielding.Proofs.Flow.Laws
import Yielding.Proofs.Lowering.Bodies

/-!
# Proofs/Lowering/Preservation — lowering keeps every run

An item that passes the checks runs as before once it is lowered: `lower_preserves_runs`.  There is
one exception.  A `while` whose test suspends becomes a loop with the test inside the block of the
body, where the functions of the body are visible; one of them may hide a name of the test
(`captured_name_changes_run`).
-/

namespace Yielding.Lowering

open Execution

/-! ## What the checks say of each statement -/

theorem assignsPlace_of_check {k : Legality.Setting} {c : Legality.Context} {b : Block}
    (h : hasErrors (Legality.checkBlock k c b) = false) : b.Every AssignsPlace fun _ => True := by
  refine Block.every_of (S := fun s => ∃ c, hasErrors (Legality.checkStmt k c s) = false)
    (R := fun b => ∃ c, hasErrors (Legality.checkBlock k c b) = false) ?_ ?_ ⟨c, h⟩
  · rintro s ⟨c, h⟩
    have hblocks := (Legality.of_checkStmt h).1
    refine ⟨?_, fun _ _ => trivial, fun b hb => ⟨_, hblocks b (Stmt.mem_children hb)⟩⟩
    cases s with
    | assign => exact Legality.isAssignable_of_check h
    | _ => trivial
  · rintro b ⟨c, h⟩
    exact ⟨fun s hs => ⟨c, (Legality.of_checkBlock h).1 s hs⟩, fun _ _ => trivial⟩

def AllUnit (values : List (Option Expr)) : Prop :=
  ∀ v ∈ values, ∀ e ∈ v, Typing.isUnitValue e = true

theorem allUnit_append {vs ws : List (Option Expr)} :
    AllUnit (vs ++ ws) ↔ AllUnit vs ∧ AllUnit ws := List.forall_mem_append

mutual

theorem returnsUnit_of_returns : ∀ (s : Stmt),
    AllUnit (Typing.returnsOf s) → s.Every ReturnsUnit fun _ => True
  | .letIn _ _ _ _ none, _ | .expr .., _ | .suspend .., _ => ⟨trivial, trivial⟩
  | .letIn _ _ _ _ (some b), h | .ifElse _ _ b none, h | .whileDo _ _ b, h
  | .forIn _ _ _ b, h => ⟨trivial, trivial, returnsUnit_of_returnsBlock b h⟩
  | .assign .., _ => ⟨trivial, trivial, trivial⟩
  | .ret _ value, h => ⟨h value (List.mem_singleton_self value), fun _ _ => trivial⟩
  | .breakLoop _, _ | .continueLoop _, _ | .terminate _, _ | .fn .., _ => trivial
  | .ifElse _ _ a (some b), h =>
    have h := allUnit_append.mp h
    ⟨trivial, trivial, returnsUnit_of_returnsBlock a h.1, returnsUnit_of_returnsBlock b h.2⟩
  | .loop _ b, h | .block _ b, h => ⟨trivial, returnsUnit_of_returnsBlock b h⟩
  | .matchOn _ _ arms, h => ⟨trivial, trivial, returnsUnit_of_returnsArms arms h⟩

theorem returnsUnit_of_returnsRow : ∀ (ss : List Stmt),
    AllUnit (Typing.returnsOfRow ss) → everyStmt ReturnsUnit (fun _ => True) ss
  | [], _ => trivial
  | s :: ss, h =>
    have h := allUnit_append.mp h
    ⟨returnsUnit_of_returns s h.1, returnsUnit_of_returnsRow ss h.2⟩

theorem returnsUnit_of_returnsBlock : ∀ (b : Block),
    AllUnit (Typing.returnsOfBlock b) → b.Every ReturnsUnit fun _ => True
  | .mk stmts _ _, h => ⟨returnsUnit_of_returnsRow stmts h, fun _ _ => trivial⟩

theorem returnsUnit_of_returnsArms : ∀ (arms : List Arm),
    AllUnit (Typing.returnsOfArms arms) → everyArm ReturnsUnit (fun _ => True) arms
  | [], _ => trivial
  | .mk _ _ _ b :: arms, h =>
    have h := allUnit_append.mp h
    ⟨fun _ _ => trivial, returnsUnit_of_returnsBlock b h.1, returnsUnit_of_returnsArms arms h.2⟩

end

theorem allUnit_of_checkReturns {file : Option String} {d : Definition}
    (h : hasErrors (Typing.checkReturns file d) = false) :
    AllUnit (Typing.returnsOfBlock d.body) := by
  intro v hv e he
  obtain rfl : v = some e := he
  rw [Typing.checkReturns, hasErrors_append, Bool.or_eq_false_iff] at h
  by_contra hunit
  have herror := List.any_eq_false.mp h.1 (Typing.valueReturned file e)
    (List.mem_filterMap.mpr ⟨some e, hv, by simp [hunit]⟩)
  exact herror rfl

/-! ## Runs -/

/-- The expression takes a value out of its place. -/
def IsSwap : Expr → Prop
  | .methodCall _ _ method args => isSwap method args.length = true
  | _ => False

variable {V : Type}

/-- The machine that runs an item. -/
def machine (d : Definition) (k : Values V) (oracle : Log V → Option V) : Machine V :=
  ⟨k, oracle, d.residual?.isSome⟩

theorem lower_follows {d : Definition} (h : d.body.Every LowerableStmt Ordinary) (k : Values V)
    (oracle : Log V → Option V) : Follows (machine d k oracle) d.body d.lower.body := by
  have hc : Context.Suits ⟨d.residual?.isSome, false, mutables d⟩ (machine d k oracle) := ⟨rfl, rfl⟩
  exact lowerBlock_follows hc d.body h ((lowerStmts ⟨_, true, _⟩ d.prelude).run 0).2

theorem Follows.run_eq {m : Machine V} {b b' : Block} (h : Follows m b b') (n : ℕ) (σ : Env V) :
    m.run n σ b' = m.run n σ b := by
  rw [Machine.run, Machine.run]
  obtain ⟨_, _, _, _, hx, hy, -, rfl⟩ | ⟨e, hx, hy⟩ :=
    (h.execBlock n (Similar.refl σ) [] [] [] rfl).cases
  all_goals rw [hx, hy]

/-- **Lowering preserves runs.**  An item that passes the checks on its structure and its returns,
swaps no option in its place, uses no name of a temporary, and whose loops keep the names of their
tests, produces the same logs before and after lowering and ends the same way. -/
theorem lower_preserves_runs (file : Option String) (d : Definition)
    (hlegal : hasErrors (Legality.check file d) = false)
    (hreturns : hasErrors (Typing.checkReturns file d) = false)
    (hswaps : d.body.Every (fun _ => True) fun e => ∀ x ∈ e.walk, ¬IsSwap x)
    (hnames : d.body.Every (fun _ => True) fun e => ∀ x ∈ e.names, ¬IsTemp x)
    (hfns : d.body.Every KeepsNames fun _ => True)
    (k : Values V) (oracle : Log V → Option V) (σ : Env V) :
    (∀ log, (machine d k oracle).Produces σ d.lower.body log ↔
      (machine d k oracle).Produces σ d.body log) ∧
    ∀ e log, (machine d k oracle).Ends σ d.lower.body e log ↔
      (machine d k oracle).Ends σ d.body e log := by
  have hassigns : d.body.Every AssignsPlace fun _ => True := by
    simp only [Legality.check, hasErrors_append, Bool.or_eq_false_iff] at hlegal
    exact assignsPlace_of_check hlegal.2
  have hunit := returnsUnit_of_returnsBlock d.body (allUnit_of_checkReturns hreturns)
  have hordinary : d.body.Every (fun _ => True) Ordinary := by
    refine hswaps.zip (fun _ _ _ => trivial) (fun e hs hn x hx => ?_) hnames
    cases x with
    | methodCall r receiver method args => exact Bool.eq_false_iff.mpr (hs _ hx)
    | name r y => exact hn y (List.mem_filterMap.mpr ⟨_, hx, rfl⟩)
    | _ => trivial
  have hchecked : d.body.Every (fun s => AssignsPlace s ∧ ReturnsUnit s) fun _ => True :=
    hassigns.zip (fun _ h h' => ⟨h, h'⟩) (fun _ _ _ => trivial) hunit
  have hstmts : d.body.Every LowerableStmt fun _ => True :=
    hchecked.zip (fun _ h h' => ⟨h.1, h.2, h'⟩) (fun _ _ _ => trivial) hfns
  have hlowerable := hstmts.zip (fun _ h _ => h) (fun _ _ h => h) hordinary
  have hrun := (lower_follows hlowerable k oracle).run_eq
  refine ⟨fun log => ?_, fun e log => ?_⟩
  · simp only [Machine.Produces, hrun]
  · simp only [Machine.Ends, hrun]

/-! ## Examples -/

theorem head_of_isTemp {x : String} (h : IsTemp x) : x.toList.head? = some '_' := by
  obtain ⟨t, i, -, rfl⟩ := h
  cases t <;> simp [Temp.name, Temp.stem, String.toList_append]

theorem not_isTemp_of_names {e : Expr}
    (h : e.names.all (fun x => x.toList.head? != some '_') = true) :
    ∀ x ∈ e.names, ¬IsTemp x := by
  intro x hx ht
  have hhead := List.all_eq_true.mp h x hx
  rw [head_of_isTemp ht] at hhead
  exact absurd hhead (by decide)

/-- Truth values, with functions true and every other value false. -/
def truths : Values Bool where
  literal
    | .bool b => b
    | _ => false
  path _ := false
  fn _ _ := true
  tuple _ := false
  array _ := false
  range _ _ _ := false
  isTrue v := v
  verdict v := if v then .output v else .residual v
  parts _ := none
  payload _ v := if v then some v else none
  isNone v := !v
  equals _ _ := false
  isTrue_bool _ := rfl

/-- `while g(x, yield x) && h()? { fn k() {} x = k(); }` and `return;`. -/
def busy : Definition :=
  numbers [] [
    .whileDo default
      (.test (.binary default .and
        (.call default (.name default "g")
          [.name default "x", .yield default (some (.name default "x"))])
        (.attempt default (.call default (.name default "h") []))))
      (.mk [.fn default "k" [] none (.mk [] default none),
        .assign default (.name default "x") (.call default (.name default "k") []) .set]
        default none),
    .ret default none]

/-- The answers of the world to `busy`: the fourth event and those after it fail. -/
def waning (log : Log Bool) : Option Bool := some (log.length < 4)

theorem busy_lower_run :
    hasErrors (Legality.check none busy) = false ∧
    hasErrors (Typing.checkReturns none busy) = false ∧
    (busy.body.Every (fun _ => True) fun e => ∀ x ∈ e.walk, ¬IsSwap x) ∧
    (busy.body.Every (fun _ => True) fun e => ∀ x ∈ e.names, ¬IsTemp x) ∧
    (busy.body.Every KeepsNames fun _ => True) ∧
    (machine busy truths waning).Ends (fun _ => true) busy.lower.body .finished
      [⟨.suspend, [true]⟩, ⟨.call, [true, true, false]⟩, ⟨.call, [true]⟩, ⟨.call, [true]⟩,
        ⟨.suspend, [false]⟩, ⟨.call, [true, false, false]⟩] := by
  have hswaps : busy.body.Every (fun _ => True) fun e => ∀ x ∈ e.walk, ¬IsSwap x := by
    simp [busy, numbers, Block.Every, everyStmt, Stmt.Every, Condition.value, Expr.walk,
      Expr.walkRow, IsSwap]
  have hnames : busy.body.Every (fun _ => True) fun e => ∀ x ∈ e.names, ¬IsTemp x :=
    ⟨⟨⟨trivial, not_isTemp_of_names rfl,
      ⟨trivial, ⟨trivial, not_isTemp_of_names rfl, not_isTemp_of_names rfl⟩, trivial⟩, by simp⟩,
      ⟨trivial, by simp⟩, trivial⟩, by simp⟩
  have hfns : busy.body.Every KeepsNames fun _ => True :=
    ⟨⟨⟨fun _ => by decide, trivial, ⟨trivial, ⟨trivial, trivial, trivial⟩, trivial⟩, by simp⟩,
      ⟨trivial, by simp⟩, trivial⟩, by simp⟩
  refine ⟨rfl, rfl, hswaps, hnames, hfns, ?_⟩
  have hrun := (lower_preserves_runs none busy rfl rfl hswaps hnames hfns truths waning
    fun _ => true).2
  exact (hrun .finished _).mpr ⟨by decide, 2, rfl⟩

/-- `while g()? { fn g() {} yield (); }`, where the test means the `g` around it. -/
def capturing : Definition :=
  numbers [] [
    .whileDo default
      (.test (.attempt default (.call default (.name default "g") [])))
      (.mk [.fn default "g" [] none (.mk [] default none),
        .expr default (.yield default none)] default none)]

/-- **A name that a function of the body hides changes the run**: once lowered, the test calls that
function. -/
theorem captured_name_changes_run :
    hasErrors (Legality.check none capturing) = false ∧
    hasErrors (Typing.checkReturns none capturing) = false ∧
    (capturing.body.Every (fun _ => True) fun e => ∀ x ∈ e.walk, ¬IsSwap x) ∧
    (capturing.body.Every (fun _ => True) fun e => ∀ x ∈ e.names, ¬IsTemp x) ∧
    (machine capturing truths fun _ => none).Produces (fun _ => false) capturing.body
      [⟨.call, [false]⟩] ∧
    ¬(machine capturing truths fun _ => none).Produces (fun _ => false) capturing.lower.body
      [⟨.call, [false]⟩] := by
  refine ⟨rfl, rfl, ?_, ?_, ⟨1, List.prefix_rfl⟩, ?_⟩
  · simp [capturing, numbers, Block.Every, everyStmt, Stmt.Every, Condition.value, Expr.walk,
      Expr.walkRow, IsSwap]
  · exact ⟨⟨⟨trivial, not_isTemp_of_names rfl,
      ⟨trivial, ⟨trivial, not_isTemp_of_names rfl⟩, trivial⟩, by simp⟩, trivial⟩, by simp⟩
  · rintro ⟨n, hn⟩
    have hlog : (machine capturing truths fun _ => none).run n (fun _ => false)
        capturing.lower.body = (.cut, []) ∨ (machine capturing truths fun _ => none).run n
        (fun _ => false) capturing.lower.body = (.raised, [⟨.call, [true]⟩]) := by
      cases n with
      | zero => exact .inl rfl
      | succ n => exact .inr rfl
    rcases hlog with h | h <;> rw [h] at hn <;> revert hn <;> decide

end Yielding.Lowering
