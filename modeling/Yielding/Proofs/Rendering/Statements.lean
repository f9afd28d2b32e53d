import Yielding.Proofs.Rendering.Expressions

/-!
# Proofs/Rendering/Statements — code weighs as much as what is used

The code of a statement weighs as much as the expressions that the statement uses
(`emitStmt_weigh`), and so does the code of an item (`itemCode_weigh`).  The code of a block puts
the functions first, which does not change the sum.
-/

namespace Yielding.Script

open List Scoping

section Weighing

variable {M : Type} [AddCommMonoid M] {W : Weights M} {T : Expr → M} {k : List String}
  {d : Definition}

/-- What is stored in an expression weighs as the second weights say. -/
def Weights.Stores (W : Weights M) (T : Expr → M) : Prop :=
  ∀ e, Soundly [] (emitExpr byScope e) fun t => W.store t = T e

/-! ## Blocks and rows -/

@[simp]
theorem Weights.use_value (e : Expr) : W.use T (.value e) = W.total e.shown := by
  simp [Weights.use, Use.shown, Use.target?]

theorem assemble_weigh {names : List String} {fns stmts tail : Emit Names (List Code)} {a b c : M}
    (hfns : Soundly names fns fun code => Code.weighRow W code = a)
    (hstmts : Soundly names stmts fun code => Code.weighRow W code = b)
    (htail : Soundly names tail fun code => Code.weighRow W code = c) :
    Soundly [] (assemble byScope names fns stmts tail) fun code =>
      Code.weighRow W code = a + b + c :=
  bindFns_soundly fun _ => hfns.bind fun x hx => hstmts.bind fun y hy => htail.bind fun z hz =>
    soundly_pure (by rw [Code.weighRow_append, Code.weighRow_append, hx, hy, hz])

theorem load_split (ss : List Stmt) :
    W.load T (usesRow (ss.filter Stmt.isFn)) + W.load T (usesRow (ss.filter fun s => !s.isFn)) =
      W.load T (usesRow ss) := by
  induction ss with
  | nil => simp
  | cons s ss ih =>
    rw [usesRow_cons, Weights.load_append, ← ih]
    cases h : s.isFn with
    | true =>
      rw [filter_cons_of_pos h, filter_cons_of_neg (by simp [h]), usesRow_cons,
        Weights.load_append, add_assoc]
    | false =>
      rw [filter_cons_of_neg (by simp [h]), filter_cons_of_pos (by simp [h]), usesRow_cons,
        Weights.load_append]
      abel

theorem isFn_of_continuesChain {stmts : List Stmt} {tail : Option Expr}
    (h : continuesChain stmts tail = true) : stmts.filter Stmt.isFn = [] ∧ tail = none := by
  unfold continuesChain at h
  split at h
  · exact ⟨rfl, rfl⟩
  · cases h

theorem forever_weigh (body : List Code) : (forever body).weigh W = Code.weighRow W body := by
  rw [forever, Code.weigh_block, Header.weigh, Term.weigh, zero_add]

theorem emitParams_soundly (generics : List String) (params : List Param) :
    Soundly k (emitParams byScope generics params) fun texts =>
      Forall₂ (fun p text => ∃ x ∉ keywords, text = paramText generics p.kind x) params texts := by
  induction params with
  | nil => exact soundly_pure .nil
  | cons p params ih =>
    exact (bindName_soundly p.name).bind fun x hx => ih.bind fun _ hs =>
      soundly_pure (.cons ⟨x, hx, rfl⟩ hs)

theorem sound_start (used : List String) : (Names.start used).Sound where
  framed := cons_ne_nil _ _
  targets := by simp [Names.start]

theorem weigh_component (subject : Term) (i : Int) :
    (Term.component subject i).weigh W = subject.weigh W := by
  rw [Term.component, Term.weigh, Term.weigh, add_zero]

theorem Test.weighRow_append (ts ts' : List Test) :
    Test.weighRow W (ts ++ ts') = Test.weighRow W ts + Test.weighRow W ts' := by
  rw [Test.weighRow, map_append, sum_append]
  rfl

/-! ## Patterns -/

variable (hW : W.Light)
include hW

theorem weigh_attr_payload {subject : Term} (hs : subject.held W = 0) (v : Variant) :
    (Term.attr subject (payloadName v)).weigh W = subject.weigh W := by
  rw [Term.weigh, hs, hW.payload, zero_add, add_zero]

omit hW in
mutual

theorem bindPattern_weigh (hW : W.Light) : ∀ (p : Pattern) (subject : Term), subject.held W = 0 →
    Soundly k (bindPattern byScope p subject) fun code =>
      Code.weighRow W code + Test.weighRow W (patternTests p subject) = p.looks • subject.weigh W
  | .bind _ x _, subject, _ => by
    refine (bindName_soundly x).bind fun target htarget => soundly_pure ?_
    rw [Pattern.looks, one_nsmul]
    simp [Line.weigh, Target.weigh, hW.name htarget, patternTests, Test.weighRow]
  | .variant _ v inner, subject, hs => by
    refine (bindPattern_weigh hW inner _ rfl).mono fun code hcode => ?_
    rw [weigh_attr_payload hW hs] at hcode
    have hv : W.path [supportName, v.name] = 0 := hW.support (by cases v <;> decide)
    rw [patternTests, Pattern.looks, succ_nsmul, ← hcode]
    simp only [Test.weighRow, map_cons, sum_cons, Test.weigh, hv]
    abel
  | .tuple _ items, subject, hs => bindRow_weigh hW items _ subject hs
  | .literal .., _, _ | .noneVariant _, _, _ => by
    simp only [bindPattern, Pattern.looks, one_nsmul]
    exact soundly_pure (by simp [patternTests, Test.weighRow, Test.weigh])
  | .wildcard _, _, _ | .rest _, _, _ => by
    simp only [bindPattern]
    exact soundly_pure (by simp [patternTests, Test.weighRow, Pattern.looks])

theorem bindRow_weigh (hW : W.Light) :
    ∀ (ps : List Pattern) (is : List (Option Int)) (subject : Term),
    subject.held W = 0 → Soundly k (bindRow byScope ps is subject) fun code =>
      Code.weighRow W code + Test.weighRow W (rowTests ps is subject) =
        Pattern.rowLooks ps is • subject.weigh W
  | p :: ps, some i :: is, subject, hs => by
    refine (bindPattern_weigh hW p (.component subject i) rfl).bind fun a ha =>
      (bindRow_weigh hW ps is subject hs).bind fun b hb => soundly_pure ?_
    rw [weigh_component] at ha
    rw [rowTests, Pattern.rowLooks, Code.weighRow_append, Test.weighRow_append, add_nsmul,
      ← ha, ← hb]
    abel
  | _ :: ps, none :: is, subject, hs => bindRow_weigh hW ps is subject hs
  | [], _, _, _ | _ :: _, [], _, _ => by
    simp only [bindRow]
    exact soundly_pure (by simp [rowTests, Test.weighRow, Pattern.rowLooks])

end

omit hW in
mutual

theorem patternTarget_weigh (hW : W.Light) : ∀ p : Pattern,
    Soundly k (patternTarget byScope p) fun t => t.weigh W = 0
  | .bind _ x _ =>
    (bindName_soundly x).bind fun _ hx => soundly_pure (by rw [Target.weigh, hW.name hx])
  | .tuple _ items =>
    (rowTargets_weigh hW items).bind fun _ h => soundly_pure (by rw [Target.weigh, h])
  | .rest _ | .literal .. | .noneVariant _ | .wildcard _ | .variant .. => by
    simp only [patternTarget]
    exact soundly_pure (by rw [Target.weigh])

theorem rowTargets_weigh (hW : W.Light) : ∀ ps : List Pattern,
    Soundly k (rowTargets byScope ps) fun ts => Target.weighRow W ts = 0
  | [] => soundly_pure (by rw [Target.weighRow])
  | p :: ps =>
    (patternTarget_weigh hW p).bind fun _ h => (rowTargets_weigh hW ps).bind fun _ hs =>
      soundly_pure (by rw [Target.weighRow, h, hs, add_zero])

end

omit hW in
mutual

theorem patternCase_weigh (hW : W.Light) : ∀ p : Pattern,
    Soundly k (patternCase byScope p) fun c => c.weigh W = 0
  | .bind _ x _ =>
    (bindName_soundly x).bind fun _ hx => soundly_pure (by rw [Case.weigh, hW.name hx])
  | .variant _ v inner => by
    have hv : W.path [supportName, v.name] = 0 := hW.support (by cases v <;> decide)
    rw [patternCase]
    exact (patternCase_weigh hW inner).bind fun _ h =>
      soundly_pure (by rw [Case.weigh, hv, h, add_zero])
  | .tuple _ (p :: ps) =>
    (patternCase_weigh hW p).bind fun _ h => (rowCases_weigh hW ps).bind fun _ hs =>
      soundly_pure (by rw [Case.weigh, Case.weighRow, h, hs, add_zero])
  | .rest _ | .literal .. | .noneVariant _ | .wildcard _ | .tuple _ [] =>
    soundly_pure (by rw [Case.weigh])

theorem rowCases_weigh (hW : W.Light) : ∀ ps : List Pattern,
    Soundly k (rowCases byScope ps) fun cs => Case.weighRow W cs = 0
  | [] => soundly_pure (by rw [Case.weighRow])
  | p :: ps =>
    (patternCase_weigh hW p).bind fun _ h => (rowCases_weigh hW ps).bind fun _ hs =>
      soundly_pure (by rw [Case.weighRow, h, hs, add_zero])

end

/-! ## Parts of statements -/

theorem keepSubject_weigh (t : Term) (n : Nat) :
    Soundly k (do
      let subject ← freshSubject byScope
      return ([Code.line (.assign (.name subject) t)], Term.name subject)) fun q =>
      Code.weighRow W q.1 + n • q.2.weigh W = t.weigh W ∧ q.2.held W = 0 := by
  refine freshSubject_soundly.bind fun x hx => soundly_pure ⟨?_, rfl⟩
  rw [Term.weigh, hW.name hx, nsmul_zero]
  simp [Line.weigh, Target.weigh, hW.name hx]

theorem emitSubject_weigh (value : Expr) (n : Nat) :
    Soundly k (emitSubject byScope value) fun q =>
      Code.weighRow W q.1 + n • q.2.weigh W = W.total (value.shownAsSubject n) ∧
        q.2.held W = 0 := by
  cases value with
  | name r x =>
    have hterm : Soundly k (emitExpr byScope (.name r x)) fun t =>
        t.weigh W = W.node (.name r x) ∧ (x = "None" → t = .name x) := by
      intro ns t ns' hns hk hrun
      obtain ⟨ht, hrest⟩ := emitExpr_weigh hW _ _ _ _ hns hk hrun
      refine ⟨⟨by simpa [Expr.shown] using ht.1, ?_⟩, hrest⟩
      rintro rfl
      rw [emitExpr] at hrun
      exact (Prod.mk.inj (emits_modifyGet.1 hrun)).1.symm
    refine hterm.bind fun t ht => ?_
    rw [Expr.shownAsSubject, Weights.total_replicate, ← ht.1]
    split
    · next hplace =>
      obtain ⟨y, rfl⟩ := eq_name_of_isBareName hplace
      exact soundly_pure ⟨by simp, rfl⟩
    · next hplace =>
      -- only `None` weighs anything, and it is a name
      have hzero : t.weigh W = 0 := by
        rw [ht.1, Weights.node, if_neg fun hx => hplace (by rw [ht.2 hx]; rfl)]
      have hlooks : n • t.weigh W = t.weigh W := by rw [hzero, nsmul_zero]
      rw [hlooks]
      exact keepSubject_weigh hW t n
  | _ =>
    refine (emitExpr_weigh hW _).bind fun t ht => ?_
    rw [Expr.shownAsSubject, ← ht.1]
    · exact keepSubject_weigh hW t n
    · simp

theorem emitDecision_weigh (condition : Condition) :
    Soundly k (emitDecision byScope condition) fun q =>
      Code.weighRow W q.1 + q.2.1.weigh W + Code.weighRow W q.2.2 = W.use T condition.use := by
  cases condition with
  | test e =>
    refine (emitExpr_weigh hW e).bind fun t ht => soundly_pure ?_
    simp [Decision.weigh, ht.1, Condition.use]
  | letMatch r p value =>
    refine (emitSubject_weigh hW value p.looks).bind fun q hq =>
      (bindPattern_weigh hW p q.2 hq.2).bind fun code hcode => soundly_pure ?_
    have huse : W.use T (.subject p value) = W.total (value.shownAsSubject p.looks) := by
      simp [Weights.use, Use.shown, Use.target?]
    rw [Condition.use, huse, ← hq.1, ← hcode, Decision.weigh]
    abel

theorem emitTail_weigh (returnsTail : Bool) (tail : Option Expr) :
    Soundly k (emitTail byScope returnsTail tail) fun code =>
      Code.weighRow W code = W.load T (usesOption tail) := by
  cases tail with
  | none => exact soundly_pure (by simp [usesOption])
  | some e =>
    refine (emitExpr_weigh hW e).bind fun t ht => soundly_pure ?_
    cases returnsTail <;> simp [Line.weigh, Term.weighOption, ht.1, usesOption]

theorem emitGuard_weigh (guard : Option Expr) :
    Soundly k (emitGuard byScope guard) fun g =>
      Term.weighOption W g = W.load T (usesOption guard) := by
  cases guard with
  | none => exact soundly_pure (by simp [Term.weighOption, usesOption])
  | some e =>
    exact (emitExpr_weigh hW e).bind fun t ht =>
      soundly_pure (by simp [Term.weighOption, ht.1, usesOption])

variable {body : Emit Names (List Code)} {m : M}

theorem emitBranch_weigh (chained : Bool) (condition : Condition)
    (hbody : Soundly [] body fun code => Code.weighRow W code = m) :
    Soundly k (emitBranch byScope chained condition body) fun code =>
      Code.weighRow W code = W.use T condition.use + m := by
  refine Soundly.within ((emitDecision_weigh (T := T) hW condition).bind fun q hq =>
    hbody.within.bind fun code hcode => soundly_pure ?_)
  have hheader : (if chained then Header.elifDo q.2.1 else .ifDo q.2.1).weigh W =
      q.2.1.weigh W := by
    cases chained <;> rfl
  simp only [Code.weighRow_append, Code.weighRow_cons, Code.weighRow_nil, Code.weigh_block, hheader,
    hcode, ← hq]
  abel

theorem emitArm_weigh (p : Pattern) (guard : Option Expr)
    (hbody : Soundly [] body fun code => Code.weighRow W code = m) :
    Soundly k (emitArm byScope p guard body) fun code =>
      code.weigh W = W.load T (usesOption guard) + m := by
  refine Soundly.within ((patternCase_weigh hW p).bind fun c hc =>
    (emitGuard_weigh (T := T) hW guard).bind fun g hg => hbody.within.bind fun code hcode =>
      soundly_pure ?_)
  rw [Code.weigh_block, Header.weigh, hc, hg, hcode, zero_add]

theorem bindParams_weigh (params : List Param) :
    Soundly k (bindParams byScope params) fun xs => (xs.map W.name).sum = 0 := by
  induction params with
  | nil => exact soundly_pure rfl
  | cons p params ih =>
    refine (bindName_soundly p.name).bind fun x hx => ih.bind fun xs hxs => soundly_pure ?_
    rw [map_cons, sum_cons, hW.name hx, hxs, add_zero]

theorem emitFn_weigh {target : String} (htarget : target ∉ keywords)
    (params : List Param) (hbody : Soundly [] body fun code => Code.weighRow W code = m) :
    Soundly k (emitFn byScope target params body) fun code => code.weigh W = m := by
  refine Soundly.within ((bindParams_weigh hW params).bind fun xs hxs =>
    hbody.within.bind fun code hcode => soundly_pure ?_)
  rw [Code.weigh_block, Header.weigh, hW.name htarget, hxs, hcode, add_zero, zero_add]

theorem storeLine_weigh (target value : Term) (op : AssignOp) :
    (storeLine target value op).weigh W = W.store target + target.weigh W + value.weigh W +
      if op.repeatsTarget then target.weigh W else 0 := by
  cases op with
  | div | rem =>
    rw [storeLine, Line.weigh, hW.applySupport (by decide), AssignOp.repeatsTarget, if_pos rfl]
    simp only [Term.weighRow_cons, Term.weighRow_nil]
    abel
  | _ =>
    rw [storeLine, Line.weigh, AssignOp.repeatsTarget]
    all_goals simp

theorem emitSizeHint_weigh :
    Soundly k (emitSizeHint byScope d) fun t => t.weigh W = W.load T (usesOption d.sizeHint?) := by
  unfold emitSizeHint
  rw [← Definition.sizeHint?]
  split
  · next e he =>
    refine (emitExpr_weigh hW e).bind fun t ht => soundly_pure ?_
    rw [hW.applySupport (by decide), he]
    simp [ht.1, usesOption]
  · next he =>
    refine soundly_pure ?_
    rw [he]
    simp [Term.weigh, usesOption]

theorem sum_map_name {xs : List String} (h : ∀ x ∈ xs, x ∉ keywords) : (xs.map W.name).sum = 0 := by
  induction xs with
  | nil => rfl
  | cons x xs ih =>
    have h := forall_mem_cons.1 h
    rw [map_cons, sum_cons, hW.name h.1, ih h.2, add_zero]

theorem weighRow_map_name {xs : List String} (h : ∀ x ∈ xs, x ∉ keywords) :
    Term.weighRow W (xs.map .name) = 0 := by
  induction xs with
  | nil => rw [map_nil, Term.weighRow_nil]
  | cons x xs ih =>
    have h := forall_mem_cons.1 h
    rw [map_cons, Term.weighRow_cons, Term.weigh, hW.name h.1, ih h.2, add_zero]

/-! ## Statements -/

variable (hT : W.Stores T)
include hT

omit hW hT in
mutual

/-- **The code of a statement weighs as much as what the statement uses.** -/
theorem emitStmt_weigh (hW : W.Light) (hT : W.Stores T) :
    ∀ {k : List String} (chained : Bool) (s : Stmt), s.isFn = false →
      Soundly k (emitStmt byScope chained s) fun code => Code.weighRow W code = W.load T s.uses
  | _, _, .letIn _ p _ value none, _ => by
    refine (emitExpr_weigh hW value).bind fun t ht => ?_
    split
    · exact soundly_pure (by simp [Line.weigh, ht.1, Stmt.uses])
    · exact (patternTarget_weigh hW p).bind fun target htarget =>
        soundly_pure (by simp [Line.weigh, htarget, ht.1, Stmt.uses])
  | _, _, .letIn _ p _ value (some b), _ => by
    refine (emitExpr_weigh hW value).bind fun t ht => freshSubject_soundly.bind fun x hx =>
      (emitContents_weigh hW hT false b).within.bind fun otherwise hother =>
      (bindPattern_weigh hW p (.name x) rfl).bind fun bindings hbind => soundly_pure ?_
    have hlooks : Code.weighRow W bindings + Test.weighRow W (patternTests p (.name x)) = 0 := by
      rw [hbind, Term.weigh, hW.name hx, nsmul_zero]
    have hcode : Code.weighRow W (.line (.assign (.name x) t) ::
        .block (.ifDo (.notAll (patternTests p (.name x)))) otherwise :: bindings) =
        t.weigh W + Code.weighRow W otherwise +
          (Code.weighRow W bindings + Test.weighRow W (patternTests p (.name x))) := by
      simp only [Code.weighRow_cons, Code.weigh_line, Code.weigh_block, Line.weigh, Target.weigh,
        hW.name hx, Header.weigh, Decision.weigh]
      abel
    rw [hcode, hlooks, add_zero, ht.1, hother, Stmt.uses, Weights.load_cons, Weights.use_value]
  | _, _, .assign _ target value op, _ => by
    refine (emitExpr_weigh hW value).bind fun v hv =>
      ((emitExpr_weigh hW target).and (hT target).of_nil).bind fun t ht => soundly_pure ?_
    rw [Code.weighRow_cons, Code.weighRow_nil, Code.weigh_line, storeLine_weigh hW, ht.2, ht.1.1,
      hv.1, Stmt.uses, Weights.load_cons, Weights.load_cons, Weights.load_nil, Weights.use_value,
      Weights.use, Use.shown, Use.target?]
    cases op.repeatsTarget <;> simp <;> abel
  | _, _, .expr _ value, _ =>
    (emitExpr_weigh hW value).bind fun t ht =>
      soundly_pure (by simp [Line.weigh, ht.1, Stmt.uses])
  | _, _, .suspend _ value, _ =>
    (emitExpr_weigh hW value).bind fun t ht =>
      soundly_pure (by simp [Line.weigh, Term.weighOption, ht.1, Stmt.uses])
  | _, _, .ret _ (some value), _ =>
    (emitExpr_weigh hW value).bind fun t ht =>
      soundly_pure (by simp [Line.weigh, Term.weighOption, ht.1, Stmt.uses, usesOption])
  | _, _, .ret _ none, _ | _, _, .terminate _, _ | _, _, .breakLoop _, _
  | _, _, .continueLoop _, _ =>
    soundly_pure (by simp [Line.weigh, Term.weighOption, Stmt.uses, usesOption])
  | _, chained, .ifElse _ condition a none, _ =>
    emitBranch_weigh hW chained condition (emitContents_weigh hW hT false a)
  | _, chained, .ifElse _ condition a (some b), _ => by
    refine (emitBranch_weigh (T := T) hW chained condition (emitContents_weigh hW hT false a)).bind
      fun x hx =>
      (emitElse_weigh hW hT b).bind fun y hy => soundly_pure ?_
    rw [Code.weighRow_append, hx, hy, Stmt.uses, Weights.load_cons, Weights.load_append, add_assoc]
  | _, _, .whileDo _ (.test e) b, _ => by
    refine (emitExpr_weigh hW e).bind fun t ht =>
      (emitContents_weigh hW hT false b).within.bind fun body hbody => soundly_pure ?_
    simp [Header.weigh, ht.1, hbody, Stmt.uses, Condition.use]
  | _, _, .whileDo _ (.letMatch r p value) b, _ => by
    have huse : W.use T (.subject p value) = W.total (value.shownAsSubject p.looks) := by
      simp [Weights.use, Use.shown, Use.target?]
    rw [emitStmt]
    refine Soundly.bind (P := fun body => Code.weighRow W body =
      W.use T (.subject p value) + W.load T b.uses) (Soundly.within ?_) fun body hbody =>
        soundly_pure ?_
    · refine (emitSubject_weigh hW value p.looks).bind fun q hq =>
        (bindPattern_weigh hW p q.2 hq.2).bind fun bindings hbind =>
        (emitContents_weigh hW hT false b).within.bind fun body hbody => soundly_pure ?_
      rw [huse, ← hq.1, ← hbind]
      simp only [Code.weighRow_append, Code.weighRow_cons, Code.weighRow_nil, Code.weigh_block,
        Code.weigh_line, Line.weigh, Header.weigh, Decision.weigh, hbody]
      abel
    · simp [forever_weigh, hbody, Stmt.uses, Condition.use]
  | _, _, .loop _ b, _ => by
    rw [emitStmt, Stmt.uses]
    refine (emitContents_weigh hW hT false b).within.bind fun body hbody => soundly_pure ?_
    rw [Code.weighRow_cons, Code.weighRow_nil, forever_weigh, hbody, add_zero]
  | _, _, .forIn _ p iterable b, _ => by
    refine (emitExpr_weigh hW iterable).bind fun t ht => Soundly.within
      ((patternTarget_weigh hW p).bind fun target htarget =>
        (emitContents_weigh hW hT false b).within.bind fun body hbody => soundly_pure ?_)
    simp [Header.weigh, htarget, ht.1, hbody, Stmt.uses]
  | _, _, .block _ b, _ => (emitContents_weigh hW hT false b).within
  | _, _, .matchOn _ subject arms, _ => by
    refine (emitExpr_weigh hW subject).bind fun t ht => ?_
    split
    · next hempty =>
      obtain rfl := isEmpty_iff.1 hempty
      exact soundly_pure (by simp [Line.weigh, ht.1, Stmt.uses, usesArms])
    · exact (emitArms_weigh hW hT arms).bind fun body hbody =>
        soundly_pure (by simp [Header.weigh, ht.1, hbody, Stmt.uses])

theorem emitStmts_weigh (hW : W.Light) (hT : W.Stores T) :
    ∀ {k : List String} (chained : Bool) (ss : List Stmt),
      Soundly k (emitStmts byScope chained ss) fun code =>
        Code.weighRow W code = W.load T (usesRow (ss.filter fun s => !s.isFn))
  | _, _, [] => soundly_pure (by simp)
  | k, chained, s :: ss => by
    have hs : Soundly k (emitStmt byScope chained s) fun code =>
        Code.weighRow W code = W.load T (usesRow ([s].filter fun s => !s.isFn)) := by
      cases h : s.isFn with
      | false =>
        refine (emitStmt_weigh hW hT chained s h).mono fun code hcode => ?_
        simp [hcode, h]
      | true =>
        cases s with
        | fn =>
          rw [emitStmt_fn]
          exact soundly_pure (by simp [Stmt.isFn])
        | _ => cases h
    rw [emitStmts]
    refine hs.bind fun a ha => (emitStmts_weigh hW hT chained ss).bind fun b hb => soundly_pure ?_
    have hrow : (s :: ss).filter (fun s => !s.isFn) =
        [s].filter (fun s => !s.isFn) ++ ss.filter fun s => !s.isFn := filter_append [s] ss
    rw [Code.weighRow_append, ha, hb, hrow, usesRow_append, Weights.load_append]

theorem emitFns_weigh (hW : W.Light) (hT : W.Stores T) :
    ∀ {k : List String} (ss : List Stmt), (∀ x ∈ fnNames ss, x ∈ k) →
      Soundly k (emitFns byScope ss) fun code =>
        Code.weighRow W code = W.load T (usesRow (ss.filter Stmt.isFn))
  | _, [], _ => soundly_pure (by simp)
  | k, s :: ss, hk => by
    cases s with
    | fn r name params result b =>
      have hk : name ∈ k ∧ ∀ x ∈ fnNames ss, x ∈ k := forall_mem_cons.1 hk
      rw [emitFns]
      refine get_soundly fun ns hns hholds =>
        (emitFn_weigh hW (hns.fnTarget (hholds name hk.1)) params
          (emitContents_weigh hW hT true b)).bind fun a ha =>
        (emitFns_weigh hW hT ss hk.2).bind fun rest hrest => soundly_pure ?_
      rw [Code.weighRow_cons, ha, hrest, filter_cons_of_pos rfl, usesRow_cons, Stmt.uses,
        Weights.load_append]
    | _ =>
      rw [emitFns_cons _ rfl]
      exact emitFns_weigh hW hT ss hk

theorem emitContents_weigh (hW : W.Light) (hT : W.Stores T) :
    ∀ (returnsTail : Bool) (b : Block),
      Soundly [] (emitContents byScope returnsTail b) fun code =>
        Code.weighRow W code = W.load T b.uses
  | returnsTail, .mk stmts r tail => by
    rw [emitContents, Block.uses, Weights.load_append, ← load_split]
    exact assemble_weigh (emitFns_weigh hW hT stmts fun _ hx => hx)
      (emitStmts_weigh hW hT false stmts) (emitTail_weigh hW returnsTail tail)

theorem emitElse_weigh (hW : W.Light) (hT : W.Stores T) :
    ∀ {k : List String} (b : Block), Soundly k (emitElse byScope b) fun code =>
      Code.weighRow W code = W.load T b.uses
  | _, .mk stmts r tail => by
    rw [emitElse, Block.uses, Weights.load_append, ← load_split]
    split
    · next hchain =>
      obtain ⟨hfns, rfl⟩ := isFn_of_continuesChain hchain
      refine (emitStmts_weigh hW hT true stmts).mono fun code hcode => ?_
      rw [hcode, hfns]
      simp [usesOption]
    · refine Soundly.bind (Soundly.within (assemble_weigh (emitFns_weigh hW hT stmts fun _ hx => hx)
        (emitStmts_weigh hW hT false stmts) (emitTail_weigh (T := T) hW false tail)))
          fun code hcode =>
        soundly_pure ?_
      rw [Code.weighRow_cons, Code.weighRow_nil, Code.weigh_block, Header.weigh, hcode, add_zero,
        zero_add]

theorem emitArms_weigh (hW : W.Light) (hT : W.Stores T) :
    ∀ {k : List String} (arms : List Arm), Soundly k (emitArms byScope arms) fun code =>
      Code.weighRow W code = W.load T (usesArms arms)
  | _, [] => soundly_pure (by simp [usesArms])
  | _, .mk _ p guard b :: arms => by
    rw [emitArms, usesArms]
    refine (emitArm_weigh (T := T) hW p guard (emitContents_weigh hW hT false b)).bind
      fun arm harm => ?_
    split
    · exact soundly_pure (by simp [harm])
    · exact (emitArms_weigh hW hT arms).bind fun rest hrest =>
        soundly_pure (by simp [harm, hrest, add_assoc])

end

/-! ## Items -/

theorem emitGenerator_weigh {inputs : List String}
    (h : ∀ x ∈ inputs, x ∉ keywords) :
    Soundly k (emitGenerator byScope d inputs) fun code => code.weigh W = W.load T d.body.uses := by
  refine (emitContents_weigh hW hT false d.body).within.bind fun body hbody => soundly_pure ?_
  have hending : Code.weighRow W (if blockSuspends d.body then []
      else [.line (.ret none), .line (.yield none)]) = 0 := by
    split <;> simp [Line.weigh, Term.weighOption]
  rw [Code.weigh_block, Header.weigh, hW.name (by decide), sum_map_name hW h, Code.weighRow_append,
    hbody, hending]
  simp

/-- **The function of an item weighs as much as what the item uses**, and the name of the wrapper
that it calls. -/
theorem emitFunction_weigh (className itemHint : String) :
    Soundly [] (emitFunction byScope d className itemHint) fun function => ∃ params result body,
      function = .block (.fn false d.name params (some result)) body ∧
      Forall₂ (fun p text => ∃ x ∉ keywords,
        text = paramText (d.generics.map GenericParam.name) p.kind x) d.params params ∧
      Code.weighRow W body = W.load T d.uses + W.name className := by
  have hreserve : Soundly [] (modify (byScope.reserve [className, d.name]) : Emit Names PUnit)
      fun _ => True := by
    intro ns _ ns' hns _ hrun
    obtain rfl := emits_modify.1 hrun
    exact ⟨trivial, hns.of_frames rfl, .of_frames rfl⟩
  refine hreserve.bind fun _ _ => (emitParams_soundly _ d.params).bind fun params hparams =>
    (emitContents_weigh hW hT false (.mk d.prelude d.region none)).bind fun prelude hprelude =>
    get_soundly fun ns hns _ =>
      (emitGenerator_weigh hW hT hns.inputs).bind fun generator hgenerator =>
    (emitSizeHint_weigh (T := T) hW).bind fun hint hhint =>
      soundly_pure ⟨params, _, _, rfl, hparams, ?_⟩
  have hdocs : Code.weighRow W (if d.docs.isEmpty then [] else [.line (.doc (docString d.docs))]) =
      0 := by
    split <;> simp [Line.weigh]
  have hinputs : ∀ x ∈ byScope.inputs ns, x ∉ keywords := hns.inputs
  have hcreate : (Term.applySupport (if d.isAsync then "create_async" else "create")
      (.name "__body" :: (byScope.inputs ns).map .name)).weigh W = 0 := by
    rw [hW.applySupport (by split <;> decide), Term.weighRow_cons, Term.weigh, hW.name (by decide),
      weighRow_map_name hW hinputs, add_zero]
  rw [Block.uses, usesOption, append_nil] at hprelude
  simp only [Code.weighRow_append, Code.weighRow_cons, Code.weighRow_nil, Code.weigh_line,
    Line.weigh,
    Target.weigh, Term.weighOption, Term.weigh_apply, Term.weighRow_cons, Term.weighRow_nil,
    Term.weigh, hW.name (x := "__size_hint") (by decide), hdocs, hprelude, hgenerator,
      hhint, hcreate,
    Definition.uses, Weights.load_append]
  abel

/-- **The code of an item, if there is any, weighs as much as what the item uses**, and the name of
its wrapper. -/
theorem itemCode_weigh {className : String}
    {code : List Code} (h : itemCode d className = .ok code) : ∃ params result body,
      code = [wrapper d className (valueHint d), .line .blank, .line .blank,
        .block (.fn false d.name params (some result)) body] ∧
      Forall₂ (fun p text => ∃ x ∉ keywords,
        text = paramText (d.generics.map GenericParam.name) p.kind x) d.params params ∧
      Code.weighRow W body = W.load T d.uses + W.name className := by
  obtain ⟨_, found, function, ns', -, hrun, rfl⟩ := itemCode_runs h
  obtain ⟨⟨params, result, body, rfl, hbody⟩, -⟩ :=
    emitFunction_weigh hW hT className _ _ _ _ (sound_start found.free) nofun hrun
  exact ⟨params, result, body, rfl, hbody⟩

end Weighing

end Yielding.Script
