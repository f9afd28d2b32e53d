import Yielding.Proofs.Flow.Laws
import Yielding.Proofs.Lowering.Rows

/-!
# Proofs/Flow/Lowered — lowering leads from one law to another

What lowering makes of an item under one law is under another, at the same places, if the other law
allows what lowering makes up (`Leads`).  For an expression this is a statement about two things,
the statements that run before it and its value (`Clean`); the value names a known function only if
the expression does, so no call becomes one that makes a text from nothing.  So lowering leads from
the law `checked` to the law `lowered` (`lower_under`).
-/

namespace Yielding.Flow

open List Lowering Script

variable {p : Place} {l : Bool} {c : Context} {n : ℕ} {e : Expr} {r : Region}

/-- What lowering makes up, or leaves as it is where it needs nothing before it. -/
def isMade : Expr → Bool
  | .name .. | .literal .. | .helper .. | .unary .. | .call _ (.name ..) _ => true
  | .binary _ op _ _ => op.isLazy
  | .methodCall _ receiver method args => isSwap method args.length && !isPlace receiver
  | _ => false

/-- The value names no function that the expression does not name, and what can be assigned to stays
so. -/
structure Stays (e v : Expr) : Prop where
  known : ∀ f, knownFunction? v = some f → knownFunction? e = some f
  place : e.isAssignable = true → v.isAssignable = true

/-- What a block ends with is not `()`. -/
def Trim (b : Block) : Prop := ∀ e ∈ b.tail, e.isUnit = false

/-- Whether lowering only changes the parts of the statement. -/
def isPlain : Stmt → Bool
  | .letIn .. | .ifElse .. | .whileDo .. | .loop .. | .forIn .. | .block .. | .fn ..
  | .matchOn .. => true
  | _ => false

/-- **What lowering makes of items under the law `L` may stand under the law `L'`.**  The laws look
at the nodes of expressions by `N` and `N'`. -/
structure Leads (L L' : Law) (N N' : Place → Expr → Prop) : Prop where
  source : ∀ {p e}, L.expr p e ↔ ∀ x ∈ e.walk, N p x
  target : ∀ {p e}, L'.expr p e ↔ ∀ x ∈ e.walk, N' p x
  guard : ∀ {p e}, L.guard p e → L'.guard p e
  made : ∀ {p e}, isMade e = true → N' p e
  strict : ∀ {p e vs}, isStrict e = true → N p e → Forall₂ Stays e.operands vs →
    N' p (e.withOperands vs)
  written : ∀ {p l s}, L.stmt p l s → IsWritten s
  plain : ∀ {p l s}, isPlain s = true → (∀ b ∈ s.children, Trim b) → L'.stmt p l s
  assign : ∀ {p l r t v op t' v'}, L.stmt p l (.assign r t v op) → Stays t t' →
    L'.stmt p l (.assign r t' v' op)
  store : ∀ {p l r t v op}, t.isAssignable = true → L'.stmt p l (.assign r t v op)
  expr : ∀ {p l r v}, v.isUnit = false → L'.stmt p l (.expr r v)
  yield : ∀ {p l r v v'}, N p (.yield r v) → L'.stmt p l (.suspend r v')
  attempt : ∀ {p l r e v}, N p (.attempt r e) → p ≠ .generator → L'.stmt p l (.ret r v)
  ret : ∀ {p l r v v'}, L.stmt p l (.ret r v) → p ≠ .generator → L'.stmt p l (.ret r v')
  suspend : ∀ {l r v}, L'.stmt .generator l (.suspend r v)
  terminate : ∀ {l r}, L'.stmt .generator l (.terminate r)
  exit : ∀ {p r}, L'.stmt p true (.breakLoop r)
  breakLoop : ∀ {p l r}, L.stmt p l (.breakLoop r) → L'.stmt p l (.breakLoop r)
  continueLoop : ∀ {p l r}, L.stmt p l (.continueLoop r) → L'.stmt p l (.continueLoop r)

variable {L L' : Law} {N N' : Place → Expr → Prop}

section Parts

variable (h : Leads L L' N N')

include h

/-! ## Expressions under the laws -/

theorem Leads.operands (he : L.expr p e) : N p e ∧ ∀ o ∈ e.operands, L.expr p o := by
  simp only [h.source] at he ⊢
  exact Expr.forall_mem_walk.1 he

theorem Leads.build (hnode : N' p e) (ho : ∀ o ∈ e.operands, L'.expr p o) : L'.expr p e := by
  simp only [h.target] at ho ⊢
  exact Expr.forall_mem_walk.2 ⟨hnode, ho⟩

theorem Leads.name (x : String) : L'.expr p (.name r x) := h.build (h.made rfl) nofun

theorem Leads.unit : L'.expr p (unitAt r) := h.build (h.made rfl) nofun

theorem Leads.helper (he : L'.expr p e) (f : Helper) : L'.expr p (.helper r f [e]) :=
  h.build (h.made rfl) (forall_mem_singleton.2 he)

theorem Leads.unary (he : L'.expr p e) (op : UnaryOp) : L'.expr p (.unary r op e) :=
  h.build (h.made rfl) (forall_mem_singleton.2 he)

/-! ## What lowering makes of operands -/

omit h in
theorem stays_refl (e : Expr) : Stays e e := ⟨fun _ => id, id⟩

omit h in
theorem stays_name (e : Expr) (x : String) : Stays e (.name r x) := ⟨nofun, fun _ => rfl⟩


/-- What lowering makes of an expression: all of it may stand at the place. -/
structure Clean (L' : Law) (p : Place) (e : Expr) (a : Lowered) : Prop where
  before : ∀ inLoop, rowUnder L' p inLoop a.before
  value : L'.expr p a.value
  stays : Stays e a.value

variable {e' : Expr} {es : List Expr} {a b : Lowered} {bs : List Lowered}

theorem Leads.kept {t : Temp} {i : ℕ} {v : Expr} (hv : L'.expr p v) : (t.kept i v).Under L' p l :=
  ⟨h.plain rfl nofun, hv⟩

theorem Leads.protect {pending : Bool} (ha : Clean L' p e a) :
    Gives (protect c pending a.value) n fun q _ =>
      Clean L' p e ⟨a.before ++ q.before, q.value⟩ := by
  unfold Lowering.protect
  split
  · refine gives_bind.2 (gives_keep.2 (gives_pure.2 ⟨fun inLoop => ?_, h.name _, stays_name e _⟩))
    exact rowUnder_append.2 ⟨ha.before inLoop, rowUnder_singleton.2 (h.kept ha.value)⟩
  · exact gives_pure.2 ⟨fun inLoop => rowUnder_append.2 ⟨ha.before inLoop, trivial⟩,
      ha.value, ha.stays⟩

theorem Leads.spill (hbs : Forall₂ (Clean L' p) es bs) : Gives (spill c bs) n fun q _ =>
    (∀ inLoop, rowUnder L' p inLoop q.1) ∧ (∀ v ∈ q.2, L'.expr p v) ∧ Forall₂ Stays es q.2 := by
  induction hbs generalizing n with
  | nil => exact gives_pure.2 ⟨fun _ => trivial, nofun, .nil⟩
  | cons ha _ ih =>
    refine (h.protect ha).bind fun q m hq => ih.bind fun r k hr => gives_pure.2
      ⟨fun inLoop => ?_, forall_mem_cons.2 ⟨hq.value, hr.2.1⟩, .cons hq.stays hr.2.2⟩
    exact rowUnder_append.2 ⟨hq.before inLoop, hr.1 inLoop⟩

omit h in
theorem stays_withOperands {vs : List Expr} (hvs : Forall₂ Stays e.operands vs) :
    Stays e (e.withOperands vs) := by
  constructor
  · fun_cases Expr.withOperands e vs <;> exact fun _ => id
  · fun_cases Expr.withOperands e vs
    all_goals try exact id
    all_goals try simpa [Expr.isAssignable] using (forall₂_cons.1 hvs).1.place
    · next op _ _ => cases op <;> exact id

/-! ## Suspensions, choices and swaps -/

theorem Leads.lowerYield {value : Option Expr} (hnode : N p (.yield r value))
    (ha : Clean L' p e a) : Clean L' p (.yield r value) (lowerYield r a) := by
  refine ⟨fun inLoop => rowUnder_append.2 ⟨ha.before inLoop, ?_⟩, h.unit, nofun, nofun⟩
  exact rowUnder_singleton.2 ⟨h.yield hnode, ha.value⟩

omit h in
theorem isAssignable_of_isPlace (he : isPlace e = true) : e.isAssignable = true := by
  fun_induction isPlace e with
  | case1 => rfl
  | case2 _ _ _ ih | case3 _ _ _ ih | case4 _ _ _ _ ih | case5 _ _ _ _ ih =>
    exact ih he
  | case6 => cases he

theorem Leads.lowerLazy {op : BinaryOp} (hop : op.isLazy = true) (ha : Clean L' p e a)
    (hb : Clean L' p e' b) :
    Gives (lowerLazy r op a b) n fun q _ => Clean L' p (.binary r op e e') q := by
  unfold Lowering.lowerLazy
  split
  · refine gives_pure.2 ⟨ha.before, h.build (h.made hop) ?_, nofun, nofun⟩
    exact forall_mem_cons.2 ⟨ha.value, forall_mem_singleton.2 hb.value⟩
  · refine gives_bind.2 (gives_keep.2 (gives_pure.2 ⟨fun inLoop => ?_, h.name _, nofun, nofun⟩))
    refine rowUnder_append.2 ⟨ha.before inLoop, h.kept ha.value,
      ⟨h.plain rfl ?_, ?_, ?_, nofun⟩, trivial⟩
    · exact forall_mem_singleton.2 nofun
    · split
      · exact h.name _
      · exact h.unary (h.name _) _
    · refine rowUnder_append.2 ⟨hb.before inLoop, rowUnder_singleton.2 ?_⟩
      exact ⟨h.store rfl, h.name _, hb.value⟩

omit h in
theorem clean_row (hbs : Forall₂ (Clean L' p) es bs) :
    (∀ inLoop, rowUnder L' p inLoop (bs.flatMap Lowered.before)) ∧
      ∀ v ∈ bs.map Lowered.value, L'.expr p v := by
  induction hbs with
  | nil => exact ⟨fun _ => trivial, nofun⟩
  | cons ha _ ih =>
    exact ⟨fun inLoop => rowUnder_append.2 ⟨ha.before inLoop, ih.1 inLoop⟩,
      forall_mem_cons.2 ⟨ha.value, ih.2⟩⟩

theorem Leads.lowerSwap {method : String} (hm : isSwap method es.length = true)
    (ha : Clean L' p e a) (hbs : Forall₂ (Clean L' p) es bs) :
    Gives (lowerSwap r method a bs) n fun q _ => Clean L' p (.methodCall r e method es) q := by
  obtain ⟨hrow, hvalues⟩ := clean_row hbs
  have hbefore (inLoop : Bool) := rowUnder_append.2 ⟨ha.before inLoop, hrow inLoop⟩
  unfold Lowering.lowerSwap
  split
  · next hplace =>
    refine gives_pure.2 ⟨hbefore, h.build (h.made ?_) (forall_mem_cons.2 ⟨ha.value, hvalues⟩),
      nofun, nofun⟩
    rw [isMade, length_map, ← hbs.length_eq, hm, hplace]
    rfl
  · next hplace =>
    have hassignable : a.value.isAssignable = true :=
      isAssignable_of_isPlace (by simpa using hplace)
    refine gives_bind.2 (gives_keep.2 (gives_pure.2 ⟨fun inLoop => ?_, h.name _, nofun, nofun⟩))
    refine rowUnder_append.2 ⟨hbefore inLoop, h.kept ha.value,
      ⟨h.store hassignable, ha.value, ?_⟩, trivial⟩
    split
    · exact h.name _
    · exact h.build (h.made rfl) (forall_mem_cons.2 ⟨h.name _, hvalues⟩)

variable (hc : c.inFn = decide (p ≠ .generator))

include hc

omit h in
theorem place_cases : p = .generator ∧ c.inFn = false ∨ p ≠ .generator ∧ c.inFn = true := by
  by_cases hp : p = .generator
  · exact .inl ⟨hp, hc.trans (by simp [hp])⟩
  · exact .inr ⟨hp, hc.trans (by simp [hp])⟩

theorem Leads.onResidual (hnode : N p (.attempt r e)) {t : Expr} (ht : L'.expr p t) :
    rowUnder L' p l (onResidual c r t) := by
  have hresidual : L'.expr p (.helper r .residual [t]) := h.helper ht _
  rw [Lowering.onResidual]
  obtain ⟨rfl, hfn⟩ | ⟨hp, hfn⟩ := place_cases hc
  · rw [hfn, if_neg Bool.false_ne_true]
    split
    · exact ⟨⟨h.suspend, hresidual⟩, h.terminate, trivial⟩
    · exact ⟨h.terminate, trivial⟩
  · rw [hfn, if_pos rfl]
    exact rowUnder_singleton.2 ⟨h.attempt hnode hp, by rintro _ ⟨⟩; exact hresidual⟩

theorem Leads.lowerTry (hnode : N p (.attempt r e)) (ha : Clean L' p e a) :
    Gives (lowerTry c r a) n fun q _ => Clean L' p (.attempt r e) q := by
  refine gives_bind.2
    (gives_keep.2 (gives_pure.2 ⟨fun inLoop => ?_, h.helper (h.name _) _, nofun, nofun⟩))
  refine rowUnder_append.2 ⟨ha.before inLoop, h.kept ha.value, ⟨h.plain rfl ?_, ?_⟩, trivial⟩
  · exact forall_mem_singleton.2 nofun
  · exact ⟨h.helper (h.name _) _, h.onResidual hc hnode (h.name _), nofun⟩

/-! ## Expressions -/

theorem Leads.cases : Cases c fun e _ a _ => L.expr p e → Clean L' p e a where
  strict {e n ls k} hstrict hls hoperands he := by
    obtain ⟨hnode, ho⟩ := h.operands he
    have hclean := (hls.mono fun o hmem _ _ _ hl => hl (ho o hmem)).forall₂
    obtain ⟨hbefore, hvalues, hstays⟩ := h.spill (c := c) (n := k) hclean
    exact ⟨hbefore, h.build (h.strict hstrict hnode hstays) (hoperands.symm ▸ hvalues),
      stays_withOperands hstays⟩
  pause {r n} he :=
    h.lowerYield (e := unitAt r) (h.operands he).1 ⟨fun _ => trivial, h.unit, stays_refl _⟩
  yield hl he := by
    obtain ⟨hnode, ho⟩ := h.operands he
    exact h.lowerYield hnode (hl (ho _ (mem_singleton_self _)))
  attempt hl he := by
    obtain ⟨hnode, ho⟩ := h.operands he
    exact h.lowerTry hc hnode (hl (ho _ (mem_singleton_self _)))
  decide hop ha hb he := by
    have ho := forall_mem_cons.1 (h.operands he).2
    exact h.lowerLazy hop (ha ho.1) (hb (ho.2 _ (mem_singleton_self _)))
  swap hm ha hbs he := by
    have ho := forall_mem_cons.1 (h.operands he).2
    exact h.lowerSwap hm (ha ho.1) (hbs.mono fun o hmem _ _ _ hl => hl (ho.2 o hmem)).forall₂

/-- **What lowering makes of an expression is clean.** -/
theorem Leads.lowerExpr (e : Expr) (he : L.expr p e) :
    Gives (lowerExpr c e) n fun a _ => Clean L' p e a :=
  (h.cases hc).lowerExpr e n he

/-! ## Parts of statements -/

theorem Leads.lowerCondition {condition : Condition} (he : L.expr p condition.value) :
    Gives (lowerCondition c condition) n fun q _ =>
      Clean L' p condition.value ⟨q.1, q.2.value⟩ := by
  cases condition with
  | test e | letMatch r pat e => exact (h.lowerExpr hc e he).bind fun a m ha => gives_pure.2 ha

theorem Leads.lowerTail {tail : Option Expr} (he : ∀ e ∈ tail, L.expr p e) :
    Gives (lowerTail c tail) n fun q _ => (∀ inLoop, rowUnder L' p inLoop q.1) ∧
      ∀ e ∈ q.2, L'.expr p e ∧ e.isUnit = false := by
  cases tail with
  | none => exact gives_pure.2 ⟨fun _ => trivial, nofun⟩
  | some e =>
    refine (h.lowerExpr hc e (he e rfl)).bind fun a m ha => gives_pure.2 ⟨ha.before, ?_⟩
    split
    · exact nofun
    · next hunit =>
      rintro _ ⟨⟩
      exact ⟨ha.value, by simpa using hunit⟩

omit hc

theorem Leads.lowerWhile {before : List Stmt} {condition : Condition} {b : Block}
    (ha : Clean L' p e ⟨before, condition.value⟩) (hb : b.Under L' p true) (htrim : Trim b) :
    (lowerWhile r before condition b).Under L' p l := by
  have hexit : (Block.mk [.breakLoop r] r none).Under L' p true := ⟨⟨h.exit, trivial⟩, nofun⟩
  have hvalue : L'.expr p condition.value := ha.value
  unfold Lowering.lowerWhile
  split
  · exact ⟨h.plain rfl (forall_mem_singleton.2 htrim), hvalue, hb⟩
  · cases condition with
    | letMatch r' pat e =>
      refine ⟨h.plain rfl (forall_mem_singleton.2 nofun),
        rowUnder_append.2 ⟨ha.before true, rowUnder_singleton.2 ?_⟩, nofun⟩
      refine ⟨h.plain rfl ?_, hvalue, hb, hexit⟩
      exact forall_mem_cons.2 ⟨htrim, forall_mem_singleton.2 nofun⟩
    | test e =>
      obtain ⟨stmts, _, tail⟩ := b
      refine ⟨h.plain rfl (forall_mem_singleton.2 htrim),
        rowUnder_append.2 ⟨rowUnder_append.2 ⟨ha.before true, rowUnder_singleton.2 ?_⟩, hb.1⟩, hb.2⟩
      exact ⟨h.plain rfl (forall_mem_singleton.2 nofun), h.unary hvalue _, hexit⟩

omit h in
theorem Clean.andThen (ha : Clean L' p e a) {s : Stmt} (hs : s.Under L' p l) :
    rowUnder L' p l (a.before ++ [s]) :=
  rowUnder_append.2 ⟨ha.before l, rowUnder_singleton.2 hs⟩

theorem Leads.leave {value value' : Option Expr} (hc : c.inFn = decide (p ≠ .generator))
    (hret : L.stmt p l (.ret r value)) (hvalue : ∀ e ∈ value', L'.expr p e) :
    rowUnder L' p l (if c.inFn then [.ret r value'] else [.terminate r]) := by
  obtain ⟨rfl, hfn⟩ | ⟨hp, hfn⟩ := place_cases hc
  · rw [hfn, if_neg Bool.false_ne_true]
    exact rowUnder_singleton.2 h.terminate
  · rw [hfn, if_pos rfl]
    exact rowUnder_singleton.2 ⟨h.ret hret hp, hvalue⟩

end Parts

/-! ## Statements -/

mutual

/-- **What lowering makes of a statement may stand where the statement stands.** -/
theorem Leads.lowerStmt (h : Leads L L' N N') : ∀ {p l c n} (s : Stmt),
    c.inFn = decide (p ≠ .generator) → s.Under L p l →
    Gives (lowerStmt c s) n fun ss _ => rowUnder L' p l ss
  | _, _, _, _, .letIn r pat type value none, hc, hs =>
    (h.lowerExpr hc value hs.2).bind fun a _ ha =>
      gives_pure.2 (ha.andThen ⟨h.plain rfl nofun, ha.value⟩)
  | _, _, _, _, .letIn _ _ _ value (some b), hc, hs | _, _, _, _, .forIn _ _ value b, hc, hs => by
    refine (h.lowerExpr hc value hs.2.1).bind fun a _ ha =>
      (h.lowerBlock b hc hs.2.2).bind fun b _ hb =>
      gives_pure.2 (ha.andThen ⟨h.plain rfl ?_, ha.value, hb.1⟩)
    exact forall_mem_singleton.2 hb.2
  | _, l, _, _, .assign r target value op, hc, hs => by
    refine (h.lowerExpr hc value hs.2.2).bind fun v _ hv =>
      (h.lowerExpr hc target hs.2.1).bind fun t _ ht =>
      (h.protect hv).bind fun q _ hq => gives_pure.2 ?_
    rw [append_assoc]
    exact rowUnder_append.2 ⟨hq.before l, ht.andThen ⟨h.assign hs.1 ht.stays, ht.value, hq.value⟩⟩
  | _, l, _, _, .expr r value, hc, hs => by
    refine (h.lowerExpr hc value hs.2).bind fun a _ ha => gives_pure.2 ?_
    split
    · exact rowUnder_append.2 ⟨ha.before l, trivial⟩
    · next hunit => exact ha.andThen ⟨h.expr (by simpa using hunit), ha.value⟩
  | _, _, _, _, .ret r none, hc, hs => gives_pure.2 (h.leave hc hs.1 nofun)
  | _, l, _, _, .ret r (some value), hc, hs => by
    refine (h.lowerExpr hc value (hs.2 value rfl)).bind fun a _ ha => gives_pure.2 ?_
    refine rowUnder_append.2 ⟨ha.before l, h.leave hc hs.1 ?_⟩
    rintro _ ⟨⟩
    exact ha.value
  | _, _, _, _, .ifElse r condition a none, hc, hs => by
    refine (h.lowerCondition hc hs.2.1).bind fun q _ hq =>
      (h.lowerBlock a hc hs.2.2).bind fun a _ ha =>
      gives_pure.2 (hq.andThen ⟨h.plain rfl ?_, hq.value, ha.1⟩)
    exact forall_mem_singleton.2 ha.2
  | _, _, _, _, .ifElse r condition a (some b), hc, hs => by
    refine (h.lowerCondition hc hs.2.1).bind fun q _ hq =>
      (h.lowerBlock a hc hs.2.2.1).bind fun a _ ha =>
      (h.lowerBlock b hc hs.2.2.2).bind fun b _ hb =>
      gives_pure.2 (hq.andThen ⟨h.plain rfl ?_, hq.value, ha.1, hb.1⟩)
    exact forall_mem_cons.2 ⟨ha.2, forall_mem_singleton.2 hb.2⟩
  | _, _, _, _, .whileDo r condition b, hc, hs =>
    (h.lowerCondition hc hs.2.1).bind fun q _ hq => (h.lowerBlock b hc hs.2.2).bind fun b _ hb =>
      gives_pure.2 (rowUnder_singleton.2 (h.lowerWhile hq hb.1 hb.2))
  | _, _, _, _, .loop r b, hc, hs | _, _, _, _, .block r b, hc, hs => by
    refine (h.lowerBlock b hc hs.2).bind fun b _ hb =>
      gives_pure.2 (rowUnder_singleton.2 ⟨h.plain rfl ?_, hb.1⟩)
    exact forall_mem_singleton.2 hb.2
  | _, _, _, _, .fn r name params result b, _, hs => by
    refine (h.lowerBlock b rfl hs.2).bind fun b _ hb =>
      gives_pure.2 (rowUnder_singleton.2 ⟨h.plain rfl ?_, hb.1⟩)
    exact forall_mem_singleton.2 hb.2
  | _, _, _, _, .matchOn r subject arms, hc, hs =>
    (h.lowerExpr hc subject hs.2.1).bind fun a _ ha =>
      (h.lowerArms arms hc hs.2.2).bind fun arms _ harms =>
      gives_pure.2 (ha.andThen ⟨h.plain rfl harms.2, ha.value, harms.1⟩)
  | _, _, _, _, .breakLoop _, _, hs => gives_pure.2 (rowUnder_singleton.2 (h.breakLoop hs))
  | _, _, _, _, .continueLoop _, _, hs => gives_pure.2 (rowUnder_singleton.2 (h.continueLoop hs))
  | _, _, _, _, .suspend .., _, hs => (h.written hs.1).elim
  | _, _, _, _, .terminate _, _, hs => (h.written hs).elim

theorem Leads.lowerStmts (h : Leads L L' N N') : ∀ {p l c n} (ss : List Stmt),
    c.inFn = decide (p ≠ .generator) → rowUnder L p l ss →
    Gives (lowerStmts c ss) n fun ss _ => rowUnder L' p l ss
  | _, _, _, _, [], _, _ => gives_pure.2 trivial
  | _, _, _, _, s :: ss, hc, hss =>
    (h.lowerStmt s hc hss.1).bind fun _ _ ha => (h.lowerStmts ss hc hss.2).bind fun _ _ hb =>
      gives_pure.2 (rowUnder_append.2 ⟨ha, hb⟩)

theorem Leads.lowerBlock (h : Leads L L' N N') : ∀ {p l c n} (b : Block),
    c.inFn = decide (p ≠ .generator) → b.Under L p l →
    Gives (lowerBlock c b) n fun b _ => b.Under L' p l ∧ Trim b
  | _, l, _, _, .mk stmts _ _, hc, hb =>
    (h.lowerStmts stmts hc hb.1).bind fun _ _ ha => (h.lowerTail hc hb.2).bind fun _ _ hq =>
      gives_pure.2 ⟨⟨rowUnder_append.2 ⟨ha, hq.1 l⟩, fun e he => (hq.2 e he).1⟩,
        fun e he => (hq.2 e he).2⟩

theorem Leads.lowerArms (h : Leads L L' N N') : ∀ {p l c n} (arms : List Arm),
    c.inFn = decide (p ≠ .generator) → armsUnder L p l arms →
    Gives (lowerArms c arms) n fun arms _ => armsUnder L' p l arms ∧ ∀ b ∈ arms.map Arm.body, Trim b
  | _, _, _, _, [], _, _ => gives_pure.2 ⟨trivial, nofun⟩
  | _, _, _, _, .mk r pat guard b :: arms, hc, ha => by
    refine (lowerGuard_same guard).bind fun _ _ hguard =>
      (h.lowerBlock b hc ha.2.1).bind fun b _ hb =>
      (h.lowerArms arms hc ha.2.2).bind fun arms _ harms => gives_pure.2 ⟨⟨?_, hb.1, harms.1⟩, ?_⟩
    · exact fun e he => h.guard (ha.1 e (hguard ▸ he))
    · exact forall_mem_cons.2 ⟨hb.2, harms.2⟩

end

/-- **Lowering leads from one law to the other.** -/
theorem Leads.lower (h : Leads L L' N N') {d : Definition} (hd : d.Under L) :
    rowUnder L' .opening false d.lower.prelude ∧ d.lower.body.Under L' .generator false ∧
      Trim d.lower.body :=
  ⟨h.lowerStmts (c := ⟨_, true, _⟩) d.prelude rfl hd.prelude,
    h.lowerBlock (c := ⟨_, false, _⟩) d.body rfl hd.body⟩

/-! ## From checked to lowered items -/

variable {F : Failure → Prop} {isAsync : Bool}

/-- **An expression is under the law of lowered items when it and its operands are.** -/
theorem lowered_expr_iff {e : Expr} : (lowered F isAsync).expr p e ↔
    LoweredNode F isAsync p e ∧ ∀ o ∈ e.operands, (lowered F isAsync).expr p o :=
  Expr.forall_mem_walk

theorem loweredNode_of_checked (h : CheckedNode F isAsync p e) (hyield : e.isYield = false)
    (htry : e.isTry = false) : LoweredNode F isAsync p e := by
  cases e with
  | yield => cases hyield
  | attempt => cases htry
  | _ => exact h

theorem nested_of_ne (h : p ≠ .opening) (h' : p ≠ .generator) : p = .nested := by
  cases p <;> trivial

theorem checked_leads : Leads (checked F isAsync) (lowered F isAsync) (CheckedNode F isAsync)
    (LoweredNode F isAsync) where
  source := Iff.rfl
  target := Iff.rfl
  guard he x hx := loweredNode_of_checked (he x hx).1 (he x hx).2.1 (he x hx).2.2
  made {_ e} h := by
    cases e with
    | call r func args =>
      cases func with
      | name => exact fun hempty => nomatch hempty.2
      | _ => cases h
    | yield | attempt | await => cases h
    | _ => exact nofun
  strict {_ e vs} hstrict hnode hvs := by
    fun_cases Expr.withOperands e vs
    all_goals try exact hnode
    · obtain ⟨hv, hvs⟩ := forall₂_cons.1 hvs
      rintro ⟨rfl, hf⟩
      exact hnode ⟨forall₂_nil_right_iff.1 hvs, hv.known _ hf⟩
    all_goals try cases hstrict
    · cases e <;> first | exact hnode | cases hstrict
  written {_ _ s} h := by cases s <;> first | exact h | trivial
  plain {_ _ s} h _ := by cases s <;> trivial
  assign h hs := hs.place h
  store := id
  expr _ := trivial
  yield := id
  attempt := nested_of_ne
  ret := nested_of_ne
  suspend := rfl
  terminate := rfl
  exit := rfl
  breakLoop := id
  continueLoop := id

/-- **What lowering makes of a checked item is under the law of lowered items.** -/
theorem lower_under {d : Definition} (h : d.Under (checked F isAsync)) :
    d.lower.Under (lowered F isAsync) where
  prelude := (checked_leads.lower h).1
  body := (checked_leads.lower h).2.1
  bounds e he := by
    intro x hx
    have hnode := h.bounds e he x hx
    cases x with
    | yield => cases hnode
    | attempt => exact absurd rfl hnode
    | _ => exact hnode

end Yielding.Flow
