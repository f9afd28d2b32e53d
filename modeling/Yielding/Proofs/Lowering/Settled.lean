import Yielding.Proofs.Flow.Lowered

/-!
# Proofs/Lowering/Settled — lowering again changes nothing

An item is **settled** when it holds nothing that lowering changes: neither `yield` nor `?`, no swap
at a place, no `return` from the generator, and no `()` as a statement or at the end of a block.
Lowering an item as it can be written makes it settled (`written_leads`), and gives back what is
settled (`lowerBlock_settled`).  Hence lowering an item again gives it back (`lower_lower`).
-/

namespace Yielding

namespace Flow

open List Lowering

variable {p : Place} {l : Bool} {c : Context} {n : ℕ} {e : Expr}

/-- An expression that is given back if its parts are. -/
def SettledNode : Expr → Prop
  | .yield .. | .attempt .. => False
  | .methodCall _ receiver method args => isSwap method args.length = true →
    isPlace receiver = false
  | _ => True

def SettledStmt (p : Place) : Stmt → Prop
  | .ret .. => p ≠ .generator
  | .expr _ value => value.isUnit = false
  | s => ∀ b ∈ s.children, Trim b

def settled : Law where
  stmt p _ := SettledStmt p
  expr _ e := ∀ x ∈ e.walk, SettledNode x
  guard _ _ := True

theorem settled_expr_iff : settled.expr p e ↔ SettledNode e ∧ ∀ o ∈ e.operands, settled.expr p o :=
  Expr.forall_mem_walk

theorem settledNode_of_isStrict (h : isStrict e = true) : SettledNode e := by
  cases e with
  | yield | attempt => cases h
  | methodCall => exact fun hswap => by simp [isStrict, hswap] at h
  | _ => trivial

theorem written_leads : Leads (written True) settled (fun _ x => IsEmptyConversion x → True)
    fun _ => SettledNode where
  source := Iff.rfl
  target := Iff.rfl
  guard _ := trivial
  made {_ e} h := by
    cases e with
    | methodCall => exact fun _ => by simpa using (Bool.and_eq_true_iff.1 h).2
    | yield | attempt => cases h
    | _ => trivial
  strict {_ e vs} hstrict _ hvs := by
    refine settledNode_of_isStrict (Eq.trans ?_ hstrict)
    fun_cases Expr.withOperands e vs with
    | case2 => rw [isStrict, isStrict, (forall₂_cons.1 hvs).2.length_eq]
    | _ => rfl
  written := id
  plain {_ _ s} h hs := by cases s <;> first | exact hs | cases h
  assign _ _ := nofun
  store _ := nofun
  expr := id
  yield _ := nofun
  attempt _ := id
  ret _ := id
  suspend := nofun
  terminate := nofun
  exit := nofun
  breakLoop _ := nofun
  continueLoop _ := nofun

/-! ## Expressions -/

theorem spill_settled (es : List Expr) : spill c (es.map (Lowered.mk [])) = pure ([], es) := by
  induction es with
  | nil => rw [map_nil, spill]
  | cons e es ih =>
    have hpending :
      (es.map (Lowered.mk [])).any Lowered.isPending = false := by simp [Lowered.isPending]
    simp [spill, protect, hpending, ih]

theorem settled_row {es : List Expr} {ls : List Lowered}
    (h : Forall₂ (fun e l => settled.expr p e → l = ⟨[], e⟩) es ls)
    (hes : ∀ e ∈ es, settled.expr p e) : ls = es.map (Lowered.mk []) := by
  induction h with
  | nil => rfl
  | cons he _ ih =>
    obtain ⟨hhead, hes⟩ := forall_mem_cons.1 hes
    rw [he hhead, ih hes, map_cons]

theorem settled_cases : Cases c fun e _ a _ => settled.expr p e → a = ⟨[], e⟩ where
  strict {e _ ls k} _ hrow := by
    intro hoperands he
    rw [settled_row hrow.forall₂ (settled_expr_iff.1 he).2, spill_settled] at hoperands ⊢
    exact congrArg (Lowered.mk []) e.withOperands_operands
  pause he := (settled_expr_iff.1 he).1.elim
  yield _ he := (settled_expr_iff.1 he).1.elim
  attempt _ he := (settled_expr_iff.1 he).1.elim
  decide {r op _ _ _ a _ b _} _ ha hb he := by
    have ho := forall_mem_cons.1 (settled_expr_iff.1 he).2
    rw [ha ho.1, hb (ho.2 _ (mem_singleton_self _))]
    rfl
  swap {r e method es _ a _ bs _} hm ha hbs he := by
    obtain ⟨hnode, ho⟩ := settled_expr_iff.1 he
    have ho := forall_mem_cons.1 ho
    have hbefore : (es.map (Lowered.mk [])).flatMap Lowered.before = [] := by simp
    have hsame : lowerSwap r method ⟨[], e⟩ (es.map (Lowered.mk [])) =
        pure ⟨[], .methodCall r e method es⟩ := by
      simp [lowerSwap, hnode hm, Function.comp_def, hbefore]
    rw [ha ho.1, settled_row hbs.forall₂ ho.2, hsame]
    rfl

theorem lowerExpr_settled (e : Expr) (he : settled.expr p e) :
    Gives (lowerExpr c e) n fun a _ => a = ⟨[], e⟩ :=
  settled_cases.lowerExpr e n he

/-! ## Statements -/

theorem lowerCondition_settled {condition : Condition} (he : settled.expr p condition.value) :
    Gives (lowerCondition c condition) n fun q _ => q = ([], condition) := by
  cases condition with
  | test e | letMatch r pat e => exact (lowerExpr_settled e he).known fun _ => gives_pure.2 rfl

theorem lowerTail_settled {tail : Option Expr} (he : ∀ e ∈ tail, settled.expr p e)
    (hunit : ∀ e ∈ tail, e.isUnit = false) :
    Gives (lowerTail c tail) n fun q _ => q = ([], tail) := by
  cases tail with
  | none => exact gives_pure.2 rfl
  | some e =>
    refine (lowerExpr_settled e (he e rfl)).known fun _ => gives_pure.2 ?_
    rw [hunit e rfl]
    rfl

mutual

/-- **Lowering gives back a settled statement.** -/
theorem lowerStmt_settled : ∀ {p l c n} (s : Stmt),
    c.inFn = decide (p ≠ .generator) → s.Under settled p l →
      Gives (lowerStmt c s) n fun ss _ => ss = [s]
  | _, _, _, _, .letIn _ _ _ value none, _, h =>
    (lowerExpr_settled value h.2).known fun _ => gives_pure.2 rfl
  | _, _, _, _, .letIn _ _ _ value (some b), hc, h | _, _, _, _, .forIn _ _ value b, hc, h =>
    (lowerExpr_settled value h.2.1).known fun _ =>
      (lowerBlock_settled b hc h.2.2 (h.1 b (mem_singleton_self b))).known fun _ => gives_pure.2 rfl
  | _, _, _, _, .assign _ target value _, _, h =>
    (lowerExpr_settled value h.2.2).known fun _ =>
      (lowerExpr_settled target h.2.1).known fun _ => rfl
  | _, _, _, _, .expr r value, _, h => by
    refine (lowerExpr_settled value h.2).known fun _ => gives_pure.2 ?_
    have hunit : value.isUnit = false := h.1
    rw [hunit]
    rfl
  | _, _, _, _, .ret r none, hc, h => by
    rw [lowerStmt, hc.trans (decide_eq_true h.1)]
    exact gives_pure.2 rfl
  | _, _, _, _, .ret r (some value), hc, h => by
    rw [lowerStmt, hc.trans (decide_eq_true h.1)]
    exact (lowerExpr_settled value (h.2 value rfl)).known fun _ => gives_pure.2 rfl
  | _, _, _, _, .ifElse _ _ b none, hc, h | _, _, _, _, .whileDo _ _ b, hc, h =>
    (lowerCondition_settled h.2.1).known fun _ =>
      (lowerBlock_settled b hc h.2.2 (h.1 b (mem_singleton_self b))).known fun _ => gives_pure.2 rfl
  | _, _, _, _, .ifElse _ _ a (some b), hc, h => by
    have htrim := forall_mem_cons.1 h.1
    exact (lowerCondition_settled h.2.1).known fun _ =>
      (lowerBlock_settled a hc h.2.2.1 htrim.1).known fun _ =>
      (lowerBlock_settled b hc h.2.2.2 (htrim.2 b (mem_singleton_self b))).known fun _ =>
        gives_pure.2 rfl
  | _, _, _, _, .loop _ b, hc, h | _, _, _, _, .block _ b, hc, h =>
    (lowerBlock_settled b hc h.2 (h.1 b (mem_singleton_self b))).known fun _ => gives_pure.2 rfl
  | _, _, _, _, .fn _ _ _ _ b, _, h =>
    (lowerBlock_settled b rfl h.2 (h.1 b (mem_singleton_self b))).known fun _ => gives_pure.2 rfl
  | _, _, _, _, .matchOn _ subject arms, hc, h =>
    (lowerExpr_settled subject h.2.1).known fun _ =>
      (lowerArms_settled arms hc h.2.2 h.1).known fun _ => gives_pure.2 rfl
  | _, _, _, _, .breakLoop _, _, _ | _, _, _, _, .continueLoop _, _, _
  | _, _, _, _, .suspend .., _, _
  | _, _, _, _, .terminate _, _, _ => gives_pure.2 rfl

theorem lowerStmts_settled : ∀ {p l c n} (ss : List Stmt),
    c.inFn = decide (p ≠ .generator) → rowUnder settled p l ss →
      Gives (lowerStmts c ss) n fun ss' _ => ss' = ss
  | _, _, _, _, [], _, _ => gives_pure.2 rfl
  | _, _, _, _, s :: ss, hc, h =>
    (lowerStmt_settled s hc h.1).known fun _ => (lowerStmts_settled ss hc h.2).known fun _ =>
      gives_pure.2 rfl

theorem lowerBlock_settled : ∀ {p l c n} (b : Block),
    c.inFn = decide (p ≠ .generator) → b.Under settled p l → Trim b →
      Gives (lowerBlock c b) n fun b' _ => b' = b
  | _, _, _, _, .mk stmts r tail, hc, h, htrim => by
    refine (lowerStmts_settled stmts hc h.1).known fun _ =>
      (lowerTail_settled h.2 htrim).known fun _ =>
      gives_pure.2 ?_
    rw [append_nil]

theorem lowerArms_settled : ∀ {p l c n} (arms : List Arm),
    c.inFn = decide (p ≠ .generator) → armsUnder settled p l arms →
      (∀ b ∈ arms.map Arm.body, Trim b) →
    Gives (lowerArms c arms) n fun arms' _ => arms' = arms
  | _, _, _, _, [], _, _, _ => gives_pure.2 rfl
  | _, _, _, _, .mk r pat guard b :: arms, hc, h, htrim => by
    have htrim := forall_mem_cons.1 htrim
    exact (lowerGuard_same guard).known fun _ =>
      (lowerBlock_settled b hc h.2.1 htrim.1).known fun _ =>
      (lowerArms_settled arms hc h.2.2 htrim.2).known fun _ => gives_pure.2 rfl

end

end Flow

open Yielding.Flow in
/-- **A lowered item is its own lowering**, if the item is as it can be written. -/
theorem Definition.lower_lower {d : Definition} (h : d.Under (written True)) :
    d.lower.lower = d.lower := by
  obtain ⟨hprelude, hbody, htrim⟩ := written_leads.lower h
  exact congrArg₂ (fun prelude body => { d.lower with prelude := prelude, body := body })
    (lowerStmts_settled (c := ⟨_, true, _⟩) _ rfl hprelude)
      (lowerBlock_settled (c := ⟨_, false, _⟩) _ rfl hbody htrim)

/-- The body `while slot.take()? { yield slot.take()?; } return;`, which lowering changes
throughout. -/
def draining : Definition :=
  let taken : Expr := .attempt default (.methodCall default (.name default "slot") "take" [])
  { (default : Definition) with
    body := .mk [
      .whileDo default (.test taken)
        (.mk [.expr default (.yield default (some taken))] default none),
      .ret default none] default none }

open Yielding.Flow in
theorem draining_lower_lower :
    draining.Under (written True) ∧ draining.lower.lower = draining.lower := by
  have hw : draining.Under (written True) :=
    ⟨trivial, ⟨⟨⟨trivial, fun _ _ _ => trivial, ⟨⟨trivial, fun _ _ _ => trivial⟩, trivial⟩, nofun⟩,
      ⟨trivial, nofun⟩, trivial⟩, nofun⟩, nofun⟩
  exact ⟨hw, Definition.lower_lower hw⟩

end Yielding
