import Yielding.Proofs.Execution.Calls
import Yielding.Proofs.Lowering.Preservation

/-!
# Proofs/Lowering/Swaps — the order of calls around a swap

`R.take()` and `R.replace(A)` are lowered apart from other operands: what runs before `A` is put
behind what runs before `R`, and the value of `R` is not kept in between.  So the calls of `R` come
before those of `A` **exactly when** no call is left in the value of `R`, or none of `A` has to run
before its value (`swap_calls_in_order_iff`).
-/

namespace Yielding

open List Execution

/-! ## Calls of the source -/

/-- Where the calls stand. -/
def callRegions (es : List Expr) : List Region :=
  (es.filter fun e => e.action?.isSome).map Expr.region

namespace Lowering

variable {V : Type} {c : Context} {n : ℕ}

/-- The effects of what an expression is lowered to. -/
def Lowered.effects (l : Lowered) : List Effect := rowEffects l.before ++ l.value.effects

theorem effects_of_isPlace : ∀ {e : Expr}, isPlace e = true → e.effects = []
  | .name .., _ => by rw [Expr.effects]
  | .field _ value _, h | .tupleField _ value _, h => effects_of_isPlace (e := value) h
  | .index _ value (.literal ..), h | .index _ value (.name ..), h => by
    rw [Expr.effects, effects_of_isPlace (e := value) h]
    simp [Expr.effects]

/-! ## What runs for expressions -/

/-- What runs for expressions of the source: straight code, and then values. -/
structure Executes (es : List Expr) (stmts : List Stmt) (values : List Expr) : Prop where
  straight : Straight stmts
  /-- Every call is executed. -/
  all : ∀ r ∈ callRegions es, ∃ x ∈ rowEffects stmts ++ Expr.rowEffects values, x.region = r
  /-- Nothing is executed that does not belong to one of the expressions. -/
  own : ∀ x ∈ rowEffects stmts ++ Expr.rowEffects values, x.region ∈ es.map Expr.region
  /-- Only calls are left to the values. -/
  left : ∀ x ∈ Expr.rowEffects values, x.region ∈ callRegions es

variable {es es' : List Expr} {stmts stmts' : List Stmt} {values values' : List Expr}

theorem executes_nil : Executes [] [] [] :=
  ⟨trivial, by simp [callRegions], by simp, by simp⟩

theorem executes_unit (r : Region) : Executes [] [] [unitAt r] := by
  have hvalue : (unitAt r).effects = [] := by rw [unitAt, Expr.effects]
  exact ⟨trivial, by simp [callRegions], by simp [hvalue], by simp [hvalue]⟩

theorem Executes.append (h : Executes es stmts values) (h' : Executes es' stmts' values') :
    Executes (es ++ es') (stmts ++ stmts') (values ++ values') := by
  have hcalls : callRegions (es ++ es') = callRegions es ++ callRegions es' := by
    simp [callRegions]
  have hmem : ∀ x, x ∈ rowEffects (stmts ++ stmts') ++ Expr.rowEffects (values ++ values') ↔
      x ∈ rowEffects stmts ++ Expr.rowEffects values ∨
        x ∈ rowEffects stmts' ++ Expr.rowEffects values' := by
    intro x
    simp only [rowEffects_append, Expr.rowEffects_append, mem_append]
    tauto
  refine ⟨straight_append.2 ⟨h.straight, h'.straight⟩, fun r hr => ?_,
    fun x hx => ?_, fun x hx => ?_⟩
  · rw [hcalls, mem_append] at hr
    rcases hr with hr | hr
    · obtain ⟨x, hx, hxr⟩ := h.all r hr
      exact ⟨x, (hmem x).2 (.inl hx), hxr⟩
    · obtain ⟨x, hx, hxr⟩ := h'.all r hr
      exact ⟨x, (hmem x).2 (.inr hx), hxr⟩
  · rw [map_append, mem_append]
    exact ((hmem x).1 hx).imp (h.own x) (h'.own x)
  · rw [Expr.rowEffects_append, mem_append] at hx
    rw [hcalls, mem_append]
    exact hx.imp (h.left x) (h'.left x)

/-- Calls are moved from values to the code before them. -/
structure Spilled (stmts : List Stmt) (values : List Expr) (stmts' : List Stmt)
    (values' : List Expr) : Prop where
  straight : Straight stmts → Straight stmts'
  same : ∀ x, x ∈ rowEffects stmts' ++ Expr.rowEffects values' ↔
    x ∈ rowEffects stmts ++ Expr.rowEffects values
  left : ∀ x ∈ Expr.rowEffects values', x ∈ Expr.rowEffects values

theorem Executes.spilled (h : Executes es stmts values)
    (hs : Spilled stmts values stmts' values') : Executes es stmts' values' := by
  refine ⟨hs.straight h.straight, fun r hr => ?_, fun x hx => h.own x ((hs.same x).1 hx),
    fun x hx => h.left x (hs.left x hx)⟩
  obtain ⟨x, hx, hxr⟩ := h.all r hr
  exact ⟨x, (hs.same x).2 hx, hxr⟩

/-- **From the operands of an expression to the expression**, which has effects of its own if it is
a call. -/
theorem Executes.node {e value : Expr} (h : Executes (Expr.walkRow e.operands) stmts values)
    (own : List Effect) (hstraight : Straight stmts')
    (hsame : ∀ x, x ∈ rowEffects stmts' ++ value.effects ↔
      x ∈ rowEffects stmts ++ Expr.rowEffects values ∨ x ∈ own)
    (hown : ∀ x ∈ own, x.region = e.region) (hcall : e.action?.isSome → own ≠ [])
    (hleft : ∀ x ∈ value.effects, x ∈ Expr.rowEffects values ∨ x ∈ own ∧ e.action?.isSome) :
    Executes e.walk stmts' [value] := by
  have hcalls : ∀ r, r ∈ callRegions e.walk ↔
      (e.action?.isSome ∧ e.region = r) ∨ r ∈ callRegions (Expr.walkRow e.operands) := by
    intro r
    rw [Expr.walk_eq, callRegions, filter_cons]
    cases e.action? <;> simp [callRegions, @eq_comm _ r]
  have hvalues : Expr.rowEffects [value] = value.effects := by simp
  refine ⟨hstraight, fun r hr => ?_, fun x hx => ?_, fun x hx => ?_⟩
  · rw [hvalues]
    rcases (hcalls r).1 hr with ⟨hsome, rfl⟩ | hr
    · obtain ⟨x, hx⟩ := exists_mem_of_ne_nil own (hcall hsome)
      exact ⟨x, (hsame x).2 (.inr hx), hown x hx⟩
    · obtain ⟨x, hx, hxr⟩ := h.all r hr
      exact ⟨x, (hsame x).2 (.inl hx), hxr⟩
  · rw [hvalues] at hx
    rw [Expr.walk_eq, map_cons, mem_cons]
    exact ((hsame x).1 hx).symm.imp (hown x) (h.own x)
  · rw [hvalues] at hx
    refine (hcalls x.region).2 ((hleft x hx).symm.imp (fun hx => ?_) (h.left x))
    exact ⟨hx.2, (hown x hx.1).symm⟩

theorem Executes.rebuild {e value : Expr}
    (h : Executes (Expr.walkRow e.operands) stmts value.operands)
    (hregion : value.region = e.region) (haction : value.action? = e.action?) :
    Executes e.walk stmts [value] := by
  refine h.node (e.action?.map (Effect.call e.region)).toList h.straight (fun x => ?_) ?_ ?_
    fun x hx => ?_
  · rw [Expr.effects_eq value, hregion, haction]
    simp only [mem_append, or_assoc]
  · cases e.action? <;> simp [Effect.region]
  · cases e.action? <;> simp
  · rw [Expr.effects_eq value, hregion, haction, mem_append] at hx
    refine hx.imp_right fun hx => ⟨hx, ?_⟩
    cases h : e.action? with
    | none => simp [h] at hx
    | some _ => rfl

theorem Executes.consume {e value : Expr} (h : Executes (Expr.walkRow e.operands) stmts values)
    (own : List Effect) (hstraight : Straight stmts')
    (hsame : ∀ x, x ∈ rowEffects stmts' ↔
      x ∈ rowEffects stmts ++ Expr.rowEffects values ∨ x ∈ own)
    (hown : ∀ x ∈ own, x.region = e.region) (hcall : e.action?.isSome → own ≠ [])
    (hvalue : value.effects = []) : Executes e.walk stmts' [value] := by
  refine h.node own hstraight (fun x => ?_) hown hcall (by simp [hvalue])
  rw [hvalue, append_nil]
  exact hsame x

/-! ## Operands -/

theorem kept_effects (t : Temp) (i : ℕ) (value : Expr) :
    (t.kept i value).effects = value.effects := by
  rw [Temp.kept, Stmt.effects]

theorem straight_kept (t : Temp) (i : ℕ) (value : Expr) : Straight [t.kept i value] :=
  ⟨⟨trivial, trivial⟩, trivial⟩

theorem protect_effects {pending : Bool} {value : Expr} :
    Gives (protect c pending value) n fun p _ => Straight p.before ∧ p.effects = value.effects := by
  unfold protect
  split
  · refine gives_bind.2 (gives_keep.2 (gives_pure.2 ⟨straight_kept .operand (n + 1) value, ?_⟩))
    simp [Lowered.effects, kept_effects, Expr.effects]
  · exact gives_pure.2 ⟨trivial, by simp [Lowered.effects]⟩

theorem Spilled.refl (stmts : List Stmt) (values : List Expr) : Spilled stmts values stmts values :=
  ⟨id, fun _ => Iff.rfl, fun _ => id⟩

theorem Spilled.cons {l p : Lowered} (hstraight : Straight p.before)
    (heffects : p.effects = l.value.effects) (h : Spilled stmts values stmts' values') :
    Spilled (l.before ++ stmts) (l.value :: values) (l.before ++ p.before ++ stmts')
      (p.value :: values') := by
  have hmem : ∀ x, x ∈ l.value.effects ↔ x ∈ rowEffects p.before ∨ x ∈ p.value.effects := by
    intro x
    rw [← heffects, Lowered.effects, mem_append]
  refine ⟨fun hs => ?_, fun x => ?_, fun x hx => ?_⟩
  · rw [straight_append] at hs
    exact straight_append.2 ⟨straight_append.2 ⟨hs.1, hstraight⟩, h.straight hs.2⟩
  · have hx := h.same x
    simp only [mem_append] at hx
    simp only [rowEffects_append, Expr.rowEffects_cons, mem_append, hmem]
    tauto
  · rw [Expr.rowEffects_cons, mem_append] at hx ⊢
    exact hx.imp (fun hx => (hmem x).2 (.inr hx)) (h.left x)

theorem spill_spilled : ∀ {n : ℕ} (ls : List Lowered), Gives (spill c ls) n fun q _ =>
    Spilled (ls.flatMap Lowered.before) (ls.map Lowered.value) q.1 q.2
  | _, [] => gives_pure.2 (.refl [] [])
  | _, _ :: ls =>
    protect_effects.bind fun _ _ hp => (spill_spilled ls).bind fun _ _ hq =>
      gives_pure.2 (hq.cons hp.1 hp.2)

/-! ## Expressions -/

theorem straight_onResidual (r : Region) (t : Expr) : Straight (onResidual c r t) := by
  unfold onResidual
  split
  · exact ⟨⟨trivial, fun _ _ => trivial⟩, trivial⟩
  · split
    · exact ⟨⟨trivial, trivial⟩, trivial, trivial⟩
    · exact ⟨trivial, trivial⟩

theorem onResidual_effects (r : Region) {t : Expr} (ht : t.effects = []) :
    rowEffects (onResidual c r t) = [] := by
  unfold onResidual
  split
  · simp [Stmt.effects, Expr.effects, ht]
  · split <;> simp [Stmt.effects, Expr.effects, ht]

variable {r : Region} {a : Lowered}

theorem lowerTry_executes {operand : Expr} (ha : Executes operand.walk a.before [a.value]) :
    Gives (lowerTry c r a) n fun l _ =>
      Executes (Expr.attempt r operand).walk l.before [l.value] := by
  refine gives_bind.2 (gives_keep.2 (gives_pure.2 ?_))
  have hoperands :
      Executes (Expr.walkRow (Expr.attempt r operand).operands) a.before [a.value] := by
    simpa [Expr.operands, Expr.walkRow] using ha
  refine hoperands.consume [] ?_ (fun x => ?_) (by simp) (by simp [Expr.action?])
    (by simp [Expr.effects])
  · have hblock := straight_onResidual (c := c) r (.name a.value.region (Temp.outcome.name (n + 1)))
    exact straight_append.2 ⟨ha.straight, ⟨⟨trivial, trivial⟩,
      ⟨trivial, trivial, hblock, by simp⟩, trivial⟩⟩
  · have hleave :
      rowEffects (onResidual c r (.name a.value.region (Temp.outcome.name (n + 1)))) = [] :=
      onResidual_effects r (by rw [Expr.effects])
    simp [kept_effects, Stmt.effects, Block.effects, hleave, Expr.effects, Condition.value]

theorem lowerYield_executes {value : Option Expr}
    (ha : Executes (Expr.walkRow value.toList) a.before [a.value]) :
    Executes (Expr.yield r value).walk (lowerYield r a).before [(lowerYield r a).value] := by
  refine Executes.consume (e := .yield r value) ha [] ?_ (fun x => ?_) (by simp)
    (by simp [Expr.action?]) (by simp [lowerYield, unitAt, Expr.effects])
  · exact straight_append.2 ⟨ha.straight, ⟨trivial, trivial⟩, trivial⟩
  · simp [lowerYield, Stmt.effects]

theorem lowerLazy_executes {op : BinaryOp} {left right : Expr} {b : Lowered}
    (h : Executes (Expr.walkRow [left, right]) (a.before ++ b.before) [a.value, b.value]) :
    Gives (lowerLazy r op a b) n fun l _ =>
      Executes (Expr.binary r op left right).walk l.before [l.value] := by
  unfold lowerLazy
  split
  · next hpending =>
    have hbefore : b.before = [] := by simpa [Lowered.isPending] using hpending
    rw [hbefore, append_nil] at h
    exact gives_pure.2 (Executes.rebuild h rfl rfl)
  · refine gives_bind.2 (gives_keep.2 (gives_pure.2 ?_))
    obtain ⟨hleft, hright⟩ := straight_append.1 h.straight
    refine Executes.consume (e := .binary r op left right) h [.store r] ?_ (fun x => ?_)
      (by simp [Effect.region, Expr.region]) (by simp) (by simp [Expr.effects])
    · have hstore (t : Expr) : Straight [.assign r t b.value .set] :=
        ⟨⟨trivial, trivial, trivial⟩, trivial⟩
      have hbranch :=
        straight_append.2 ⟨hright, hstore (.name a.value.region (Temp.choice.name (n + 1)))⟩
      exact straight_append.2 ⟨hleft, ⟨trivial, trivial⟩,
        ⟨trivial, trivial, hbranch, by simp⟩, trivial⟩
    · have hundecided (s : Region) (t : String) :
          (if op = .and then Expr.name s t else .unary r .not (.name s t)).effects = [] := by
        split <;> simp [Expr.effects]
      simp only [rowEffects_append, rowEffects_cons, rowEffects_nil, kept_effects, Stmt.effects,
        Block.effects, Condition.value, hundecided, Expr.rowEffects_cons, Expr.rowEffects_nil,
        Expr.effects, mem_append, not_mem_nil]
      tauto

/-- **What a swap executes**: what runs before the option, what runs before the argument, the calls
left in the option, those left in the argument, and then the swap itself. -/
theorem lowerSwap_effects {method : String} {bs : List Lowered}
    (hswap : isSwap method bs.length = true) :
    Gives (lowerSwap r method a bs) n fun l _ => ∃ own : List Effect, own ≠ [] ∧
      (∀ x ∈ own, x.region = r) ∧
      (Straight (a.before ++ bs.flatMap Lowered.before) → Straight l.before) ∧
      (∀ x ∈ l.value.effects,
        x ∈ Expr.rowEffects (a.value :: bs.map Lowered.value) ∨ x ∈ own) ∧
      l.effects = rowEffects a.before ++ (rowEffects (bs.flatMap Lowered.before) ++
        (a.value.effects ++ (Expr.rowEffects (bs.map Lowered.value) ++ own))) := by
  unfold lowerSwap
  split
  · refine gives_pure.2 ⟨[.call r (.method method)], by simp, by simp [Effect.region], id, ?_, ?_⟩
    · simp [Expr.effects, or_assoc]
    · simp [Lowered.effects, Expr.effects]
  · next hplace =>
    have hvalue : a.value.effects = [] := effects_of_isPlace (by simpa using hplace)
    refine gives_bind.2 (gives_keep.2 (gives_pure.2 ?_))
    have hstraight (stored : Expr) :
        Straight (a.before ++ bs.flatMap Lowered.before) →
        Straight (a.before ++ bs.flatMap Lowered.before ++
          [Temp.operand.kept (n + 1) a.value, .assign r a.value stored .set]) :=
      fun h => straight_append.2 ⟨h, ⟨trivial, trivial⟩, ⟨trivial, trivial, trivial⟩, trivial⟩
    by_cases htake : method = "take"
    · have hbs : bs = [] := by simpa [isSwap, htake] using hswap
      subst hbs
      refine ⟨[.store r], by simp, by simp [Effect.region], hstraight _, by simp [Expr.effects], ?_⟩
      simp [Lowered.effects, kept_effects, Stmt.effects, Expr.effects, hvalue, htake]
    · refine ⟨[.call r .call, .store r], by simp, by simp [Effect.region], hstraight _,
        by simp [Expr.effects], ?_⟩
      simp [Lowered.effects, kept_effects, Stmt.effects, Expr.effects, hvalue, htake]

theorem lowerSwap_executes {method : String} {receiver : Expr} {args : List Expr}
    {bs : List Lowered} (hswap : isSwap method bs.length = true)
    (h : Executes (Expr.walkRow (receiver :: args)) (a.before ++ bs.flatMap Lowered.before)
      (a.value :: bs.map Lowered.value)) :
    Gives (lowerSwap r method a bs) n fun l _ =>
      Executes (Expr.methodCall r receiver method args).walk l.before [l.value] := by
  refine (lowerSwap_effects hswap).mono fun l _ hl => ?_
  obtain ⟨own, hne, hown, hstraight, hleft, heffects⟩ := hl
  refine Executes.node (e := .methodCall r receiver method args) h own (hstraight h.straight)
    (fun x => ?_) hown (fun _ => hne) fun x hx => (hleft x hx).imp_right fun hx => ⟨hx, rfl⟩
  rw [← Lowered.effects, heffects]
  simp only [rowEffects_append, Expr.rowEffects_cons, mem_append]
  tauto

theorem Row.executes {k : ℕ} {ls : List Lowered}
    (h : Row (fun e _ l _ => Executes e.walk l.before [l.value]) es n ls k) :
    Executes (Expr.walkRow es) (ls.flatMap Lowered.before) (ls.map Lowered.value) := by
  induction h with
  | nil =>
    rw [Expr.walkRow]
    exact executes_nil
  | cons he _ ih =>
    rw [Expr.walkRow]
    exact he.append ih

theorem executes_cases : Cases c fun e _ l _ => Executes e.walk l.before [l.value] where
  strict {e n ls k} _ hls := (spill_spilled ls).mono fun q _ hq hoperands => by
    refine (Executes.rebuild (hoperands.symm ▸ hls.executes.spilled hq) (e.region_withOperands _))
      ?_
    fun_cases Expr.withOperands e q.2 <;> rfl
  pause {r n} := lowerYield_executes (by simpa [Expr.walkRow] using executes_unit r)
  yield ha := lowerYield_executes (by simpa [Expr.walkRow] using ha)
  attempt ha := lowerTry_executes ha
  decide _ ha hb := lowerLazy_executes (by simpa [Expr.walkRow] using ha.append hb)
  swap hswap ha hbs := by
    refine lowerSwap_executes (hbs.length ▸ hswap) ?_
    simpa [Expr.walkRow] using ha.append hbs.executes

/-- **Lowering an expression keeps its calls**, and adds none. -/
theorem lowerExpr_executes (e : Expr) :
    Gives (lowerExpr c e) n fun l _ => Executes e.walk l.before [l.value] :=
  executes_cases.lowerExpr e n

theorem lowerRow_executes (es : List Expr) : Gives (lowerRow c es) n fun ls _ =>
    Executes (Expr.walkRow es) (ls.flatMap Lowered.before) (ls.map Lowered.value) ∧
      es.length = ls.length :=
  (executes_cases.lowerRow es).mono fun _ _ h => ⟨h.executes, h.length.symm⟩

/-! ## The order of calls -/

/-- Nothing at one of the later regions is executed before something at one of the first ones. -/
def InOrder (first later : List Region) (effects : List Effect) : Prop :=
  effects.Pairwise fun x y => ¬(x.region ∈ later ∧ y.region ∈ first)

instance (first later : List Region) (effects : List Effect) :
    Decidable (InOrder first later effects) :=
  inferInstanceAs (Decidable (effects.Pairwise _))

section InOrder

variable {first later : List Region} {xs ys : List Effect}

theorem inOrder_append : InOrder first later (xs ++ ys) ↔
    InOrder first later xs ∧ InOrder first later ys ∧
      ∀ x ∈ xs, ∀ y ∈ ys, ¬(x.region ∈ later ∧ y.region ∈ first) := pairwise_append

theorem inOrder_append_of_notMem_later (h : ∀ x ∈ xs, x.region ∉ later) :
    InOrder first later (xs ++ ys) ↔ InOrder first later ys := by
  have hxs : InOrder first later xs :=
    pairwise_of_forall_mem_list fun x hx _ _ hxy => h x hx hxy.1
  rw [inOrder_append]
  exact ⟨fun h' => h'.2.1, fun hys => ⟨hxs, hys, fun x hx _ _ hxy => h x hx hxy.1⟩⟩

theorem inOrder_of_notMem_first (h : ∀ x ∈ xs, x.region ∉ first) : InOrder first later xs :=
  pairwise_of_forall_mem_list fun _ _ y hy hxy => h y hy hxy.2

/-- **Two rows that take turns.**  Of four stretches, the first and the third not at later regions
and the others not at first ones, only the second and the third can be out of order. -/
theorem inOrder_turns {a₁ b₁ a₂ b₂ : List Effect} (ha₁ : ∀ x ∈ a₁, x.region ∉ later)
    (hb₁ : ∀ x ∈ b₁, x.region ∉ first) (ha₂ : ∀ x ∈ a₂, x.region ∉ later)
    (hb₂ : ∀ x ∈ b₂, x.region ∉ first) :
    InOrder first later (a₁ ++ (b₁ ++ (a₂ ++ b₂))) ↔
      ∀ x ∈ b₁, ∀ y ∈ a₂, ¬(x.region ∈ later ∧ y.region ∈ first) := by
  have hrest : InOrder first later (a₂ ++ b₂) :=
    (inOrder_append_of_notMem_later ha₂).2 (inOrder_of_notMem_first hb₂)
  rw [inOrder_append_of_notMem_later ha₁, inOrder_append]
  refine ⟨fun h x hx y hy => h.2.2 x hx y (mem_append_left b₂ hy), fun h => ?_⟩
  refine ⟨inOrder_of_notMem_first hb₁, hrest, fun x hx y hy => ?_⟩
  rcases mem_append.1 hy with hy | hy
  · exact h x hx y hy
  · exact fun hxy => hb₂ y hy hxy.2

end InOrder

theorem callRegions_subset (es : List Expr) : callRegions es ⊆ es.map Expr.region :=
  map_subset _ filter_sublist.subset

theorem run_lowerExpr_swap (r : Region) (receiver : Expr) {method : String} {args : List Expr}
    (hswap : isSwap method args.length = true) :
    (lowerExpr c (.methodCall r receiver method args)).run n =
      (lowerSwap r method ((lowerExpr c receiver).run n).1
        ((lowerRow c args).run ((lowerExpr c receiver).run n).2).1).run
        ((lowerRow c args).run ((lowerExpr c receiver).run n).2).2 := by
  rw [lowerExpr]
  simp only [hswap, if_true]
  rfl

/-- **Every run of a lowered expression makes its calls in their order.** -/
theorem Executes.calls {e : Expr} {l : Lowered} (h : Executes e.walk l.before [l.value])
    (m : Machine V) (k : ℕ) (σ : Env V) :
    Calls (through m k σ l.before (m.eval · l.value)) (actions l.effects) := by
  rw [Lowered.effects, actions_append]
  exact (m.execRow_calls k σ h.straight).bind fun a => m.eval_calls a.env l.value

/-- **The order around a swap**, from what its operands execute. -/
theorem inOrder_swap_iff {receiver : Expr} {args : List Expr} {bs : List Lowered}
    {own : List Effect} (ha : Executes receiver.walk a.before [a.value])
    (hbs : Executes (Expr.walkRow args) (bs.flatMap Lowered.before) (bs.map Lowered.value))
    (hown : ∀ x ∈ own, x.region = r) (hr : r ∉ receiver.walk.map Expr.region)
    (hapart : ∀ x ∈ receiver.walk.map Expr.region, x ∉ (Expr.walkRow args).map Expr.region) :
    InOrder (callRegions receiver.walk) (callRegions (Expr.walkRow args))
        (rowEffects a.before ++ (rowEffects (bs.flatMap Lowered.before) ++
          (a.value.effects ++ (Expr.rowEffects (bs.map Lowered.value) ++ own)))) ↔
      a.value.effects = [] ∨
        ∀ x ∈ rowEffects (bs.flatMap Lowered.before),
          x.region ∉ callRegions (Expr.walkRow args) := by
  have hleft : ∀ x ∈ a.value.effects, x.region ∈ callRegions receiver.walk := by
    simpa using ha.left
  have hreceiver : ∀ x ∈ rowEffects a.before ++ a.value.effects,
      x.region ∉ callRegions (Expr.walkRow args) := by
    intro x hx hlater
    have hx : x ∈ rowEffects a.before ++ Expr.rowEffects [a.value] := by simpa using hx
    exact hapart _ (ha.own x hx) (callRegions_subset _ hlater)
  have hargs :
      ∀ x ∈ rowEffects (bs.flatMap Lowered.before) ++ Expr.rowEffects (bs.map Lowered.value),
      x.region ∉ callRegions receiver.walk :=
    fun x hx hfirst => hapart _ (callRegions_subset _ hfirst) (hbs.own x hx)
  have hself : ∀ x ∈ own, x.region ∉ callRegions receiver.walk :=
    fun x hx hfirst => hr (hown x hx ▸ callRegions_subset _ hfirst)
  rw [forall_mem_append] at hreceiver hargs
  rw [inOrder_turns hreceiver.1 hargs.1 hreceiver.2 (forall_mem_append.2 ⟨hargs.2, hself⟩)]
  constructor
  · intro h
    refine or_iff_not_imp_left.2 fun hne x hx hlater => ?_
    obtain ⟨y, hy⟩ := exists_mem_of_ne_nil _ hne
    exact h x hx y hy ⟨hlater, hleft y hy⟩
  · rintro (hnone | hlate) x hx y hy hxy
    · rw [hnone] at hy
      exact not_mem_nil hy
    · exact hlate x hx hxy.1

/-- **When a swap keeps the order of its operands.**  All calls in a swap whose parts are told apart
by their regions are executed, and every run makes its calls in the order of the effects.  The calls
of the receiver come before those of the arguments exactly when the lowered receiver has no call
left in its value, or no call of the arguments runs before their values. -/
theorem swap_calls_in_order_iff (c : Context) (n : ℕ) (r : Region) (receiver : Expr)
    (method : String) (args : List Expr) (hswap : isSwap method args.length = true)
    (hregions : ((Expr.methodCall r receiver method args).walk.map Expr.region).Nodup) :
    let a := (lowerExpr c receiver).run n
    let bs := ((lowerRow c args).run a.2).1
    let l := ((lowerExpr c (.methodCall r receiver method args)).run n).1
    callRegions (Expr.methodCall r receiver method args).walk ⊆ l.effects.map Effect.region ∧
    (∀ (V : Type) (m : Machine V) (k : ℕ) (σ : Env V),
      Calls (through m k σ l.before (m.eval · l.value)) (actions l.effects)) ∧
    (InOrder (callRegions receiver.walk) (callRegions (Expr.walkRow args)) l.effects ↔
      a.1.value.effects = [] ∨
        ∀ x ∈ rowEffects (bs.flatMap Lowered.before),
          x.region ∉ callRegions (Expr.walkRow args)) := by
  intro a bs l
  have ha : Executes receiver.walk a.1.before [a.1.value] := lowerExpr_executes receiver
  have hbs : Executes (Expr.walkRow args) (bs.flatMap Lowered.before) (bs.map Lowered.value) ∧
      args.length = bs.length := lowerRow_executes args
  have hl : Executes (Expr.methodCall r receiver method args).walk l.before [l.value] :=
    lowerExpr_executes _
  refine ⟨fun x hx => ?_, fun V m k σ => hl.calls m k σ, ?_⟩
  · obtain ⟨y, hy, rfl⟩ := hl.all x hx
    refine mem_map_of_mem ?_
    simpa [Lowered.effects] using hy
  -- The regions of the swap, of the receiver and of the arguments are apart.
  have hwalk : (Expr.methodCall r receiver method args).walk.map Expr.region =
      r :: (receiver.walk.map Expr.region ++ (Expr.walkRow args).map Expr.region) := by
    simp [Expr.walk, Expr.region]
  rw [hwalk, nodup_cons, nodup_append] at hregions
  obtain ⟨hr, -, -, hapart⟩ := hregions
  obtain ⟨own, -, hown, -, -, heffects⟩ := lowerSwap_effects (n := ((lowerRow c args).run a.2).2)
    (r := r) (a := a.1) (hbs.2 ▸ hswap)
  have hrun : l = ((lowerSwap r method a.1 bs).run ((lowerRow c args).run a.2).2).1 :=
    congrArg Prod.fst (run_lowerExpr_swap r receiver hswap)
  rw [hrun, heffects]
  exact inOrder_swap_iff ha hbs.1 hown (fun h => hr (mem_append_left _ h))
    fun x hx hx' => hapart x hx x hx' rfl

/-! ## Examples -/

def callAt (line : ℕ) (f : String) : Expr :=
  .call ⟨⟨line, 1⟩, ⟨line, 4⟩⟩ (.name ⟨⟨line, 1⟩, ⟨line, 2⟩⟩ f) []

def attemptAt (line : ℕ) (f : String) : Expr := .attempt ⟨⟨line, 1⟩, ⟨line, 5⟩⟩ (callAt line f)

/-- `R.replace(g()?)`, with the argument on the second line. -/
def replacing (receiver : Expr) : Expr :=
  .methodCall ⟨⟨1, 1⟩, ⟨3, 1⟩⟩ receiver "replace" [attemptAt 2 "g"]

/-- In `f()?.replace(g()?)` no call is left in the receiver, and `f` is called first. -/
theorem replacing_attempt_in_order :
    isSwap "replace" [attemptAt 2 "g"].length = true ∧
    ((replacing (attemptAt 1 "f")).walk.map Expr.region).Nodup ∧
    InOrder (callRegions (attemptAt 1 "f").walk) (callRegions (Expr.walkRow [attemptAt 2 "g"]))
      ((lowerExpr default (replacing (attemptAt 1 "f"))).run 0).1.effects := by
  have hregions : ((replacing (attemptAt 1 "f")).walk.map Expr.region).Nodup := by decide
  refine ⟨rfl, hregions, ?_⟩
  have horder := (swap_calls_in_order_iff default 0 _ _ _ _ rfl hregions).2.2
  exact horder.2 (.inl (by decide))

/-- The world answers every call with an outcome. -/
def answering : Machine Bool := ⟨truths, fun _ => some true, false⟩

/-- **A swap can call its argument first**: in `f().replace(g()?)` the call of `f` is left in the
receiver.  The calls are logged with what is called: `f` is true and `g` false. -/
theorem replacing_call_out_of_order :
    isSwap "replace" [attemptAt 2 "g"].length = true ∧
    ((replacing (callAt 1 "f")).walk.map Expr.region).Nodup ∧
    ¬InOrder (callRegions (callAt 1 "f").walk) (callRegions (Expr.walkRow [attemptAt 2 "g"]))
      ((lowerExpr default (replacing (callAt 1 "f"))).run 0).1.effects ∧
    logOf (answering.eval (· == "f") (replacing (callAt 1 "f"))) [] =
      [⟨.call, [true]⟩, ⟨.call, [false]⟩, ⟨.method "replace", [true, true]⟩] ∧
    (let l := ((lowerExpr default (replacing (callAt 1 "f"))).run 0).1
    logOf (through answering 0 (· == "f") l.before (answering.eval · l.value)) [] =
      [⟨.call, [false]⟩, ⟨.call, [true]⟩, ⟨.method "replace", [true, true]⟩]) := by
  refine ⟨rfl, by decide, by decide, rfl, ?_⟩
  decide

end Lowering

end Yielding
