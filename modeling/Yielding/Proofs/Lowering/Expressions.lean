import Yielding.Proofs.Lowering.Operands

/-!
# Proofs/Lowering/Expressions — lowering keeps the evaluation of expressions

`lowerExpr_lowers`: what runs before a lowered expression, together with its value, does what
evaluating the expression does — the same events in the same order with the same operands.
-/

namespace Yielding.Lowering

open Execution

variable {V : Type} {m : Machine V} {c : Context} {S : Set ℕ}

/-- A body, not a nested function, is lowered for a run by the machine. -/
structure Context.Suits (c : Context) (m : Machine V) : Prop where
  inFn : c.inFn = false
  yieldsResidual : c.yieldsResidual = m.yieldsResidual

/-! ## Suspending -/

theorem execRow_suspend (n : ℕ) (σ : Env V) (r : Region) (e : Expr) :
    m.execRow n σ [.suspend r e] = do
      suspend (← m.eval σ e)
      return ⟨σ, [], .next⟩ := by
  rw [Machine.execRow_singleton, Machine.exec]
  rfl

theorem calm_suspend (r : Region) (e : Expr) : Calm m S [.suspend r e] := by
  refine ⟨fun n σ => ?_, rfl⟩
  rw [execRow_suspend]
  refine (Ensures.trivial _).bind fun v _ => (Ensures.trivial _).bind fun _ _ => ?_
  exact ensures_pure ⟨rfl, by simp, Off.refl S σ⟩

/-- **A suspension is a statement of its own**, and its value is `()`. -/
theorem Realizes.suspend {src : Env V → Run V V} {stmts : List Stmt} {value : Expr}
    (h : Realizes m S src stmts (m.eval · value)) (r : Region) :
    Realizes m S (fun σ => src σ >>= fun v => Execution.suspend v >>= fun _ => pure m.unit)
      (stmts ++ [.suspend r value]) (m.eval · (unitAt r)) := by
  refine h.append (calm_suspend r value) fun n σ τ _ => ?_
  simp [through, execRow_suspend, unitAt, Machine.eval, Machine.unit]

/-! ## Leaving the body -/

/-- What `?` does with a value. -/
def settle (m : Machine V) (v : V) : Run V V :=
  match m.values.verdict v with
  | .output w => return w
  | .residual r => m.leave r
  | .neither => stop .raised

/-- The statement that leaves the body if the value named `x` is a residual. -/
def leaving (c : Context) (r r' : Region) (x : String) : Stmt :=
  .ifElse r (.test (.helper r .isResidual [.name r' x])) (.mk (onResidual c r (.name r' x)) r none)
    none

theorem execRow_onResidual (hc : c.Suits m) {n : ℕ} {σ : Env V} {r r' : Region} {x : String}
    {w : V} (hw : m.values.verdict (σ x) = .residual w) :
    m.execBlock n σ [] (.mk (onResidual c r (.name r' x)) r none) = m.leave w := by
  rw [onResidual, hc.inFn, hc.yieldsResidual]
  cases hy : m.yieldsResidual <;>
    simp [Machine.execBlock, Machine.fnBindings, Machine.execRow, Machine.exec, Machine.eval,
      Machine.evalRow, Machine.help, Machine.leave, Machine.skip, hw, hy]

theorem execRow_leaving (hc : c.Suits m) (n : ℕ) (σ : Env V) (r r' : Region) (x : String) :
    m.execRow n σ [leaving c r r' x]
      = match m.values.verdict (σ x) with
        | .output _ => return ⟨σ, [], .next⟩
        | .residual w => m.leave w
        | .neither => stop .raised := by
  rw [Machine.execRow_singleton, leaving, Machine.exec]
  cases hv : m.values.verdict (σ x) with
  | output w => simp [Machine.decide?, Machine.eval, Machine.evalRow, Machine.help, Machine.bool,
    Machine.skip, hv]
  | residual w =>
    simp [Machine.decide?, Machine.eval, Machine.evalRow, Machine.help, Machine.bool, hv,
      execRow_onResidual hc hv]
  | neither => simp [Machine.decide?, Machine.eval, Machine.evalRow, Machine.help, hv]

theorem calm_leaving (hc : c.Suits m) (r r' : Region) (x : String) :
    Calm m S [leaving c r r' x] := by
  refine ⟨fun n σ => ?_, rfl⟩
  rw [execRow_leaving hc]
  split
  · exact ensures_pure ⟨rfl, by simp, Off.refl S σ⟩
  · exact ensures_leave m _
  · exact agree_stop

/-- **`?` on a lowered operand.** -/
theorem Lowers.lowerTry (hc : c.Suits m) {e : Expr} {l : Lowered} {i j : ℕ} (hij : i ≤ j)
    (h : Lowers m e (Set.Ioc i j) l) (r : Region) :
    Gives (lowerTry c r l) j fun l' k => i ≤ k ∧ Lowers m (.attempt r e) (Set.Ioc i k) l' := by
  refine gives_bind.mpr (gives_keep.mpr (gives_pure.mpr ⟨hij.trans (Nat.le_succ j), ?_⟩))
  have hj : j + 1 ∈ Set.Ioc i (j + 1) := ⟨Nat.lt_succ_of_le hij, le_rfl⟩
  have hkept := (h.realizes.mono (Set.Ioc_subset_Ioc_right (Nat.le_succ j))).keep .outcome hj
    l.value.region
  have hread : ∀ n (σ τ : Env V), Similar σ τ →
      through m n τ [leaving c r l.value.region (Temp.outcome.name (j + 1))]
        (m.eval · (.helper r .output [.name l.value.region (Temp.outcome.name (j + 1))]))
      = m.eval τ (.name l.value.region (Temp.outcome.name (j + 1))) >>= settle m := by
    intro n σ τ _
    rw [through, execRow_leaving hc]
    cases hv : m.values.verdict (τ (Temp.outcome.name (j + 1))) <;>
      simp [Machine.eval, Machine.evalRow, Machine.help, settle, hv]
  have key := hkept.append (calm_leaving hc r l.value.region (Temp.outcome.name (j + 1))) hread
  rw [List.append_assoc] at key
  refine ⟨?_, by simp [Expr.name?], by simp [Expr.suspends, Expr.walk, Expr.isTry]⟩
  refine ⟨key.calm, fun n σ τ hσ => (key.same n σ τ hσ).trans ?_⟩
  rw [Machine.eval]
  rfl

/-! ## Lazy operators -/

def completing (r r' : Region) (op : BinaryOp) (x : String) (b : Lowered) : Stmt :=
  .ifElse r (.test (if op = .and then .name r' x else .unary r .not (.name r' x)))
    (.mk (b.before ++ [.assign r (.name r' x) b.value .set]) r none) none

theorem decide_completing {op : BinaryOp} (σ : Env V) (r r' : Region) (x : String) :
    m.decide? σ (.test (if op = .and then .name r' x else .unary r .not (.name r' x)))
      = return if Machine.needsRight op (m.values.isTrue (σ x)) then some [] else none := by
  by_cases hop : op = .and <;>
    simp [Machine.decide?, Machine.eval, Machine.needsRight, Machine.bool, hop]

theorem execBlock_completing {T : Set ℕ} {b : Lowered} (hb : Calm m T b.before) (n : ℕ)
    (σ : Env V) (r r' : Region) (x : String) :
    m.execBlock n σ [] (.mk (b.before ++ [.assign r (.name r' x) b.value .set]) r none) = do
      let a ← m.execRow n σ b.before
      let v ← m.eval a.env b.value
      return ⟨restore a.covered (Function.update a.env x v), [], .next⟩ := by
  have hfns : m.fnBindings (b.before ++ [.assign r (.name r' x) b.value .set]) = [] := by
    rw [Machine.fnBindings_append, hb.fnless]
    rfl
  rw [Machine.execBlock, hfns, List.append_nil, bindAll_nil, Machine.andThen_next,
    Machine.execRow_append]
  simp only [bind_assoc, pure_bind]
  refine (hb.quiet n σ).bind_congr fun a ha => ?_
  obtain ⟨τ, covered, flow⟩ := a
  obtain rfl : flow = .next := ha.flow
  simp [Machine.execRow_singleton, Machine.exec, Machine.assign, Machine.combine, operator?,
    Machine.evalTail_none, close]

theorem execRow_completing {T : Set ℕ} {b : Lowered} (hb : Calm m T b.before) (n : ℕ) (σ : Env V)
    (r r' : Region) (op : BinaryOp) (x : String) :
    m.execRow n σ [completing r r' op x b]
      = if Machine.needsRight op (m.values.isTrue (σ x)) then do
          let a ← m.execRow n σ b.before
          let v ← m.eval a.env b.value
          return ⟨restore a.covered (Function.update a.env x v), [], .next⟩
        else return ⟨σ, [], .next⟩ := by
  rw [Machine.execRow_singleton, completing, Machine.exec, decide_completing, pure_bind,
    ← execBlock_completing hb]
  cases Machine.needsRight op (m.values.isTrue (σ x)) <;> rfl

section Lazy

variable {e : Expr} {T : Set ℕ} {b : Lowered} {i : ℕ}

theorem calm_completing (hb : Calm m T b.before) (hT : T ⊆ S) (hi : i ∈ S) (r r' : Region)
    (op : BinaryOp) (t : Temp) : Calm m S [completing r r' op (t.name i) b] := by
  refine ⟨fun n σ => ?_, rfl⟩
  rw [execRow_completing hb]
  split
  · refine (hb.quiet n σ).bind fun a ha => (Ensures.trivial _).bind fun v _ => ?_
    have hcovered : ∀ c ∈ a.covered, c.1 ∈ temps S := fun c hc => temps_mono hT (ha.covered c hc)
    refine ensures_pure ⟨rfl, by simp, ?_⟩
    exact ((ha.off.mono hT).trans (off_update hi a.env v)).trans (off_restore hcovered _)
  · exact ensures_pure ⟨rfl, by simp, Off.refl S σ⟩

theorem through_completing (hb : Lowers m e T b) (hi : i ∉ T) (r r' : Region) (op : BinaryOp)
    (t : Temp) (n : ℕ) {σ τ : Env V} (hσ : Similar σ τ) :
    through m n τ [completing r r' op (t.name i) b] (m.eval · (.name r' (t.name i)))
      = m.eval τ (.name r' (t.name i)) >>= m.decideBy op (m.eval σ e) := by
  rw [through, execRow_completing hb.realizes.calm, Machine.eval, pure_bind, Machine.decideBy]
  split
  · rw [← hb.realizes.same n σ τ hσ, through, bind_assoc]
    refine (hb.realizes.calm.quiet n τ).bind_congr fun a ha => ?_
    rw [bind_assoc]
    refine Eq.trans (bind_congr fun v => ?_) (bind_pure _)
    have hv : restore a.covered (Function.update a.env (t.name i) v) (t.name i) = v := by
      rw [off_restore ha.covered _ _ (mt Temp.name_mem_temps.mp hi), Function.update_self]
    rw [pure_bind, Machine.eval]
    exact congrArg pure hv
  · rw [pure_bind, Machine.eval]

end Lazy

/-- **`&&` and `||` on lowered operands.** -/
theorem Lowers.lowerLazy {op : BinaryOp} (hop : op.isLazy = true) {a b : Lowered} {e₁ e₂ : Expr}
    {i j k : ℕ} (hij : i ≤ j) (hjk : j ≤ k) (ha : Lowers m e₁ (Set.Ioc i j) a)
    (hb : Lowers m e₂ (Set.Ioc j k) b) (r : Region) :
    Gives (lowerLazy r op a b) k fun l k' =>
      i ≤ k' ∧ Lowers m (.binary r op e₁ e₂) (Set.Ioc i k') l := by
  have hs : (Expr.binary r op e₁ e₂).suspends = false →
      e₁.suspends = false ∧ e₂.suspends = false := by
    simp only [Expr.suspends, Expr.walk, Expr.isYield, Expr.isTry, List.any_cons, List.any_append,
      Bool.or_eq_false_iff]
    exact fun h => h.2
  rw [Lowering.lowerLazy]
  split
  next hb' =>
    obtain hnil : b.before = [] := by simpa [Lowered.isPending] using hb'
    refine gives_pure.mpr ⟨hij.trans hjk, ?_, by simp [Expr.name?], fun h => ha.idle (hs h).1⟩
    have key := (ha.realizes.mono (Set.Ioc_subset_Ioc_right hjk)).bind
      (f := fun v σ => m.decideBy op (m.eval σ e₂) v)
      (g := fun v τ => m.decideBy op (m.eval τ b.value) v) fun v σ τ hσ => by
        rw [← hb.realizes.same 0 σ τ hσ, hnil, through_nil]
    simp only [← m.eval_lazy _ hop r] at key
    exact key
  next hb' =>
    refine gives_bind.mpr (gives_keep.mpr (gives_pure.mpr ?_))
    have hk : k + 1 ∈ Set.Ioc i (k + 1) := ⟨by omega, le_rfl⟩
    have hkept := (ha.realizes.mono (Set.Ioc_subset_Ioc_right (by omega))).keep .choice hk
      a.value.region
    have hsub : Set.Ioc j k ⊆ Set.Ioc i (k + 1) := Set.Ioc_subset_Ioc hij (Nat.le_succ k)
    have key := hkept.append
      (calm_completing hb.realizes.calm hsub hk r a.value.region op .choice)
      fun n σ τ hσ => through_completing hb (by simp) r a.value.region op .choice n hσ
    simp only [← m.eval_lazy _ hop r, List.append_assoc] at key
    refine ⟨by omega, key, ?_, fun h => ?_⟩
    · rintro x hx _
      obtain rfl : Temp.choice.name (k + 1) = x := Option.some_inj.mp hx
      exact Temp.name_mem_temps.mpr hk
    · simp [Lowered.isPending, hb.idle (hs h).2] at hb'

/-! ## All expressions -/

/-- The expression is neither the name of a temporary nor a change to an option in its place. -/
def OrdinaryNode : Expr → Prop
  | .methodCall _ _ method args => isSwap method args.length = false
  | .name _ x => ¬IsTemp x
  | _ => True

/-- The expression and everything inside it is ordinary. -/
def Ordinary (e : Expr) : Prop := ∀ x ∈ e.walk, OrdinaryNode x

theorem lowers_leaf {e : Expr} (h : ∀ σ τ : Env V, Similar σ τ → m.eval τ e = m.eval σ e)
    (hn : ∀ x, e.name? = some x → ¬IsTemp x) : Lowers m e S ⟨[], e⟩ :=
  ⟨⟨calm_nil, fun n σ τ hσ => by rw [through_nil, h σ τ hσ]⟩,
    fun x hx ht => absurd ht (hn x hx), fun _ => rfl⟩

section Strict

variable {e : Expr}

theorem Ordinary.operand {o : Expr} (h : Ordinary e) (ho : o ∈ e.operands) : Ordinary o :=
  (Expr.forall_mem_walk.1 h).2 o ho

theorem conclude_withOperands (vs : List Expr) : m.conclude (e.withOperands vs) = m.conclude e := by
  funext ws
  fun_cases Expr.withOperands e vs
  case case7 op _ _ => cases op <;> rcases ws with _ | ⟨_, _ | _⟩ <;> rfl
  all_goals first | rfl | rcases ws with _ | ⟨_, _ | ⟨_, _ | _⟩⟩ <;> rfl

theorem isEager_of_isStrict (h : isStrict e = true) (hname : e.name? = none) :
    Machine.isEager e = true := by
  fun_cases Machine.isEager e
  · cases hname
  · exact h
  · rfl

theorem suspends_eq (e : Expr) : e.suspends =
    ((e.isYield || e.isTry) || (Expr.walkRow e.operands).any fun x => x.isYield || x.isTry) := by
  rw [Expr.suspends, Expr.walk_eq, List.any_cons]

/-- **A strict expression** leaves to its lowered form what it does with its operands. -/
theorem Row.lowers {i j : ℕ} {ls : List Lowered} (h : Row (LowersFrom m) e.operands i ls j)
    (hstrict : isStrict e = true) (hname : e.name? = none) :
    Gives (Lowering.spill c ls) j fun q k =>
      (e.withOperands q.2).operands = q.2 → LowersFrom m e i ⟨q.1, e.withOperands q.2⟩ k := by
  refine h.realizes.mono fun q k hq hoperands => ⟨hq.1, ?_⟩
  have heager := isEager_of_isStrict hstrict hname
  have heager' : Machine.isEager (e.withOperands q.2) = true := by
    revert heager
    fun_cases Expr.withOperands e q.2 <;> exact id
  refine hq.2.2.lowers (m.conclude e) (fun σ => m.eval_eager σ heager) (fun σ => ?_) ?_ fun hs => ?_
  · rw [m.eval_eager σ heager', hoperands, conclude_withOperands]
  · revert hname
    fun_cases Expr.withOperands e q.2 <;> simp [Expr.name?]
  · rw [suspends_eq, Bool.or_eq_false_iff] at hs
    exact hq.2.1 (h.idle hs.2)

end Strict

theorem lowers_cases (hc : c.Suits m) : Cases c fun e i l j => Ordinary e →
    LowersFrom m e i l j where
  strict {e i ls j} hstrict hls := by
    cases hname : e.name? with
    | none =>
      refine fun hoperands h =>
        Row.lowers (hls.mono fun o ho _ _ _ hl => hl (h.operand ho)) hstrict hname hoperands
    | some x =>
      obtain ⟨r, rfl⟩ : ∃ r, e = .name r x := by
        cases e <;> simp_all [Expr.name?]
      cases hls
      intro _ h
      have hx : ¬IsTemp x := h (.name r x) (by simp [Expr.walk])
      refine ⟨le_rfl, lowers_leaf (fun σ τ hσ => ?_) (by simp [Expr.name?, hx])⟩
      rw [Machine.eval, Machine.eval, hσ x hx]
  pause {r i} _ := by
    have hunit : Realizes m (Set.Ioc i i) (fun _ => pure m.unit) [] (m.eval · (unitAt r)) :=
      ⟨calm_nil, fun n σ τ _ => by rw [through_nil, unitAt, Machine.eval]; rfl⟩
    have key := hunit.suspend r
    refine ⟨le_rfl, ?_, by simp [lowerYield, unitAt, Expr.name?],
      by simp [Expr.suspends, Expr.walk, Expr.isYield]⟩
    simp only [pure_bind, lowerYield, Machine.eval] at key ⊢
    exact key
  yield {r e i l j} hl h := by
    obtain ⟨hij, hl⟩ := hl (h.operand (List.mem_singleton_self _))
    refine ⟨hij, ?_, by simp [lowerYield, unitAt, Expr.name?],
      by simp [Expr.suspends, Expr.walk, Expr.isYield]⟩
    have key := hl.realizes.suspend r
    simp only [lowerYield, Machine.eval] at key ⊢
    exact key
  attempt {r e i l j} hl := fun h => by
    have hl := hl (h.operand (List.mem_singleton_self _))
    exact hl.2.lowerTry hc hl.1 r
  decide hop ha hb := fun h => by
    have ha := ha (h.operand List.mem_cons_self)
    have hb := hb (h.operand (List.mem_cons_of_mem _ List.mem_cons_self))
    exact ha.2.lowerLazy hop ha.1 hb.1 hb.2 _
  swap {r e method es _ _ _ _ _} hswap _ _ := fun h => by
    have hno : isSwap method es.length = false :=
      h (.methodCall r e method es) (by simp [Expr.walk])
    rw [hno] at hswap
    cases hswap

/-- **Lowering keeps the evaluation of an expression.** -/
theorem lowerExpr_lowers (hc : c.Suits m) (e : Expr) (h : Ordinary e) (i : ℕ) :
    Gives (lowerExpr c e) i fun l j => i ≤ j ∧ Lowers m e (Set.Ioc i j) l :=
  (lowers_cases hc).lowerExpr e i h

theorem lowerRow_lowers (hc : c.Suits m) {es : List Expr} (h : ∀ e ∈ es, Ordinary e) (i : ℕ) :
    Gives (lowerRow c es) i (Row (LowersFrom m) es i) :=
  gives_lowerRow fun e he i => lowerExpr_lowers hc e (h e he) i

end Yielding.Lowering
