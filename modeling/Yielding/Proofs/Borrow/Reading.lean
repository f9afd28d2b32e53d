import Yielding.Proofs.Borrow.Ledger

/-!
# Proofs/Borrow/Reading — the walk through a body is the walk through the text of its flow

A **reading** relates a part of a body to its flow: the flow is scoped as the names are, and the
walk through the part notes what it notes of the flow's text.  Readings are put together as bodies
are.
-/

namespace Yielding.Borrow

open Option List

variable (t : Trace) {os : List Op} (fns : FnTypes)

/-! ## Scoping of longer flows -/

namespace Flow

def scope (vis : Set ℕ) : Flow → Set ℕ
  | done => vis
  | op o rest => rest.scope (o.scope vis)
  | branch _ _ rest | loop _ rest | leave rest => rest.scope vis

theorem subset_scope (f : Flow) (vis : Set ℕ) : vis ⊆ f.scope vis := by
  induction f generalizing vis with
  | done => exact subset_rfl
  | op o rest ih =>
    refine subset_trans ?_ (ih (o.scope vis))
    cases o with
    | bind v => exact Set.subset_insert v vis
    | store | read | suspend => exact subset_rfl
  | branch _ _ _ _ _ ih | loop _ _ _ ih | leave _ ih => exact ih vis

theorem scope_append (f g : Flow) (vis : Set ℕ) :
    (f.append g).scope vis = g.scope (f.scope vis) := by
  induction f generalizing vis with
  | done => rfl
  | op o rest ih => exact ih (o.scope vis)
  | branch _ _ _ _ _ ih | loop _ _ _ ih | leave _ ih => exact ih vis

theorem Scoped.append {f g : Flow} {vis : Set ℕ} {m : ℕ} (hf : f.Scoped vis m)
    (hg : g.Scoped (f.scope vis) (m + declared f.text)) : (f.append g).Scoped vis m := by
  induction f generalizing vis m with
  | done => exact hg
  | op o rest ih =>
    refine ⟨hf.1, ih hf.2 ?_⟩
    have count : m + declared [.op o] + declared rest.text = m + declared (op o rest).text := by
      simp only [text, declared_cons, declared_nil]
      omega
    exact count ▸ hg
  | branch a b rest _ _ ih =>
    refine ⟨hf.1, hf.2.1, ih hf.2.2 ?_⟩
    rw [text, declared_append, declared_append, ← Nat.add_assoc, ← Nat.add_assoc] at hg
    exact hg
  | loop body rest _ ih =>
    refine ⟨hf.1, ih hf.2 ?_⟩
    have count :
        m + declared body.text + declared rest.text = m + declared (loop body rest).text := by
      simp [text, Token.declares, Nat.add_assoc]
    exact count ▸ hg
  | leave rest ih => exact ih hf hg

end Flow

def Names.vars (Γ : Names) : Set ℕ := {v | ∃ x, (x, v) ∈ Γ}

theorem Names.mem_vars {Γ : Names} {x : String} {v : ℕ} (h : Γ.lookup x = some v) : v ∈ Γ.vars := by
  obtain ⟨before, after, rfl, -⟩ := lookup_eq_some_iff.1 h
  exact ⟨x, mem_append_right _ mem_cons_self⟩

/-! ## Readings -/

def Trace.inScope (t : Trace) (Γ : Names) : Trace := { t with scope := Γ }

/-- **A reading** of a walk as a flow, from the names `Γ` and the first `m` variables on to the
names `Γ'` and the first `m'` variables. -/
structure Reading (Γ : Names) (m : ℕ) (f : Flow) (Γ' : Names) (m' : ℕ) (walk : Trace → Trace) :
    Prop where
  count : m' = m + declared f.text
  scoping : ∀ vis, Γ.vars ⊆ vis → f.Scoped vis m ∧ Γ'.vars ⊆ f.scope vis
  walked : ∀ t, t.scope = Γ → t.bindings.size = m → walk t = (run t f.text).inScope Γ'

theorem Trace.taint_inScope (Γ : Names) (v : ℕ) (ls : Lenders) (r : Region) :
    (t.inScope Γ).taint v ls r = (t.taint v ls r).inScope Γ := by
  unfold Trace.taint
  split <;> rfl

theorem Content.touch_inScope (Γ : Names) (c : Content) :
    c.touch (t.inScope Γ) = (c.touch t).inScope Γ := by
  cases c <;> rfl

theorem Content.lenders_inScope (Γ : Names) (c : Content) :
    c.lenders (t.inScope Γ) = c.lenders t := by
  cases c <;> rfl

theorem Token.step_inScope (Γ : Names) (k : Token) :
    k.step (t.inScope Γ) = (k.step t).inScope Γ := by
  cases k with
  | op o =>
    cases o with
    | bind _ c =>
      simp only [step, Op.step, c.touch_inScope, c.lenders_inScope]
      rfl
    | store v c r =>
      simp only [step, Op.step, c.touch_inScope, c.lenders_inScope, Trace.taint_inScope]
    | read | suspend => rfl
  | enter | exit => rfl

theorem run_inScope (Γ : Names) (ts : List Token) :
    run (t.inScope Γ) ts = (run t ts).inScope Γ := by
  induction ts generalizing t with
  | nil => rfl
  | cons k ts ih => rw [run_cons, k.step_inScope, ih, run_cons]

theorem inScope_run (ts : List Token) : (run t ts).inScope t.scope = run t ts :=
  (run_inScope t t.scope ts).symm

theorem scope_run {t : Trace} {Γ : Names} (ht : t.scope = Γ) (ts : List Token) :
    (run t ts).scope = Γ := by
  rw [← inScope_run, ht]
  rfl

theorem Content.scope_touch (c : Content) : (c.touch t).scope = t.scope := by
  cases c <;> rfl

namespace Reading

variable {Γ Γ₁ Γ₂ : Names} {m m₁ m₂ : ℕ} {f g : Flow} {walk walk' : Trace → Trace}

theorem of_eq (h : Reading Γ m f Γ₁ m₁ walk)
    (heq : ∀ t, t.scope = Γ → t.bindings.size = m → walk' t = walk t) :
    Reading Γ m f Γ₁ m₁ walk' where
  count := h.count
  scoping := h.scoping
  walked t ht hm := (heq t ht hm).trans (h.walked t ht hm)

theorem within_eq (h : Reading Γ m f Γ m₁ walk) {t : Trace} (ht : t.scope = Γ)
    (hm : t.bindings.size = m) : t.within walk = walk t := by
  rw [Trace.within, h.walked t ht hm, ht]
  rfl

theorem append (hf : Reading Γ m f Γ₁ m₁ walk) (hg : Reading Γ₁ m₁ g Γ₂ m₂ walk') :
    Reading Γ m (f.append g) Γ₂ m₂ (walk' ∘ walk) where
  count := by rw [hg.count, hf.count, f.text_append, declared_append, Nat.add_assoc]
  scoping vis hvis := by
    obtain ⟨hf', hΓ₁⟩ := hf.scoping vis hvis
    obtain ⟨hg', hΓ₂⟩ := hg.scoping _ hΓ₁
    rw [hf.count] at hg'
    exact ⟨hf'.append hg', f.scope_append g vis ▸ hΓ₂⟩
  walked t ht hm := by
    have size : ((run t f.text).inScope Γ₁).bindings.size = m₁ :=
      (size_run t f.text).trans (by rw [hm, hf.count])
    rw [Function.comp_apply, hf.walked t ht hm, hg.walked _ rfl size, run_inScope,
      f.text_append, run_append]
    rfl

theorem block (h : Reading Γ m f Γ₁ m₁ walk) : Reading Γ m f Γ m₁ (·.within walk) where
  count := h.count
  scoping vis hvis := ⟨(h.scoping vis hvis).1, hvis.trans (f.subset_scope vis)⟩
  walked t ht hm := by
    rw [Trace.within, h.walked t ht hm, ht]
    rfl

theorem loop (h : Reading Γ m f Γ m₁ walk) :
    Reading Γ m (.loop f .done) Γ m₁ (walkLoop · walk) where
  count := by simp [h.count, Flow.text, Token.declares]
  scoping vis hvis := ⟨⟨(h.scoping vis hvis).1, trivial⟩, hvis⟩
  walked t ht hm := by
    have inside : t.enter.within walk = run t.enter f.text := by
      rw [Trace.within, h.walked t.enter ht hm]
      exact inScope_run t.enter f.text
    have around := (around_run [] f.closes
      (show t.enter.around = _ from (append_nil _).symm)).1
    have closed : walkLoop t walk = (run t.enter f.text).leave := by
      change { (t.enter.within walk).tick with
        around := t.around
        loops := (t.enter.within walk).loops.modify t.loops.size fun range =>
          { range with last := (t.enter.within walk).pos + 1 } } = _
      rw [inside, Trace.leave, around]
      simp [Trace.enter]
    have text : run t (Flow.loop f .done).text = (run t.enter f.text).leave := by
      simp [Flow.text, Token.step]
    rw [closed, ← text, ← ht, inScope_run]

theorem branch (hf : Reading Γ m f Γ m₁ walk) (hg : Reading Γ m₁ g Γ m₂ walk') :
    Reading Γ m (.branch f g .done) Γ m₂ (walk' ∘ walk) where
  count := by simp [hg.count, hf.count, Flow.text, Nat.add_assoc]
  scoping vis hvis :=
    ⟨⟨(hf.scoping vis hvis).1, hf.count ▸ (hg.scoping vis hvis).1, trivial⟩, hvis⟩
  walked t ht hm := by
    have := (hf.append hg).walked t ht hm
    rw [this, f.text_append, Flow.text, Flow.text, append_nil]

end Reading

/-! ## Steps -/

def Op.Plain (Γ : Names) : Op → Prop
  | bind .. => False
  | store v c _ => v ∈ Γ.vars ∧ ∀ x ∈ c.mentions, x ∈ Γ.vars
  | read _ v => v ∈ Γ.vars
  | suspend _ => True

theorem Op.Plain.scoping {Γ : Names} {o : Op} (h : o.Plain Γ) {vis : Set ℕ} (hvis : Γ.vars ⊆ vis)
    (m : ℕ) : o.Scoped vis m ∧ o.scope vis = vis ∧ (Token.op o).declares = false := by
  cases o with
  | bind => cases h
  | store v c => exact ⟨⟨hvis h.1, fun x hx => hvis (h.2 x hx)⟩, rfl, rfl⟩
  | read r v => exact ⟨hvis h, rfl, rfl⟩
  | suspend => exact ⟨trivial, rfl, rfl⟩

theorem scoping_plain {Γ : Names} (h : ∀ o ∈ os, o.Plain Γ) {vis : Set ℕ}
    (hvis : Γ.vars ⊆ vis) (m : ℕ) :
    (Flow.ofOps os).Scoped vis m ∧ (Flow.ofOps os).scope vis = vis ∧
      declared (Flow.ofOps os).text = 0 := by
  induction os with
  | nil => exact ⟨trivial, rfl, rfl⟩
  | cons o os ih =>
    obtain ⟨fits, scope, declares⟩ := (h o mem_cons_self).scoping hvis m
    obtain ⟨ih, ihscope, ihdeclared⟩ := ih fun o ho => h o (mem_cons_of_mem _ ho)
    refine ⟨⟨fits, ?_⟩, ?_, ?_⟩
    · rw [scope, declared_cons, declares]
      exact ih
    · exact (congrArg (Flow.scope · (Flow.ofOps os)) scope).trans ihscope
    · exact (declared_cons _ _).trans (by rw [declares]; exact ihdeclared)

theorem Reading.plain {Γ : Names} (h : ∀ o ∈ os, o.Plain Γ) (m : ℕ)
    {walk : Trace → Trace} (hwalk : ∀ t, t.scope = Γ → walk t = run t (os.map .op)) :
    Reading Γ m (.ofOps os) Γ m walk where
  count := by rw [(scoping_plain h (subset_refl _) m).2.2, Nat.add_zero]
  scoping vis hvis := by
    obtain ⟨fits, scope, -⟩ := scoping_plain h hvis m
    exact ⟨fits, scope.symm ▸ hvis⟩
  walked t ht _ := by rw [hwalk t ht, Flow.text_ofOps, ← ht, inScope_run]

theorem Reading.nothing (Γ : Names) (m : ℕ) : Reading Γ m .done Γ m id :=
  ⟨rfl, fun _ hvis => ⟨trivial, hvis⟩, fun t ht _ => by rw [← ht]; rfl⟩

theorem bind_eq_declare (name : String) (owned : Bool) (ls : Lenders) (r : Region) :
    (t.bind name owned fun pos => if ls.isEmpty then [] else [⟨pos, ls, r⟩]) =
      (t.declare name owned ls r).inScope ((name, t.bindings.size) :: t.scope) := rfl

theorem Reading.declare {Γ : Names} {c : Content} (h : ∀ x ∈ c.mentions, x ∈ Γ.vars) (m : ℕ)
    (name : String) (owned : Bool) (r : Region) {walk : Trace → Trace}
    (hwalk : ∀ t, t.scope = Γ → walk t =
      ((Op.bind m c name owned r).step t).inScope ((name, t.bindings.size) :: Γ)) :
    Reading Γ m (.ofOps [.bind m c name owned r]) ((name, m) :: Γ) (m + 1) walk where
  count := rfl
  scoping vis hvis := by
    refine ⟨⟨⟨rfl, fun x hx => hvis (h x hx)⟩, trivial⟩, ?_⟩
    rintro v ⟨x, hx⟩
    rcases mem_cons.1 hx with hx | hx
    · cases hx
      exact Set.mem_insert m vis
    · exact Set.mem_insert_of_mem m (hvis ⟨x, hx⟩)
  walked t ht hm := by
    rw [hwalk t ht, hm]
    rfl

/-! ## Expressions -/

theorem walkExpr_name (t : Trace) (r : Region) (x : String) :
    walkExpr fns t (.name r x) = (t.scope.lookup x).elim t (t.touch r) := by
  simp only [walkExpr, visit, Trace.lookup?]
  cases t.scope.lookup x <;> rfl

theorem calleeOps_walk {Γ : Names} {func : Expr} (h : calleeOps? Γ func = some os) :
    (∀ o ∈ os, o.Plain Γ) ∧
      ∀ fns t, t.scope = Γ → walkExpr fns t func = run t (os.map .op) := by
  unfold calleeOps? at h
  split at h
  · rename_i r f
    cases h
    cases hf : Γ.lookup f with
    | none => exact ⟨by simp, fun fns t ht => by simp [walkExpr_name, ht, hf]⟩
    | some v =>
      refine ⟨by simpa [Op.Plain] using Names.mem_vars hf, fun fns t ht => ?_⟩
      rw [walkExpr_name, ht, hf]
      rfl
  · cases h
    exact ⟨by simp, fun fns t _ => by simp [walkExpr, visit]⟩
  · cases h

/-- The content of an expression, and what comes before it. -/
structure Evaluates (Γ : Names) (e : Expr) (os : List Op) (c : Content) : Prop where
  plain : ∀ o ∈ os, o.Plain Γ
  mentioned : ∀ x ∈ c.mentions, x ∈ Γ.vars
  walked : ∀ fns t, t.scope = Γ → walkExpr fns t e = c.touch (run t (os.map .op))
  lenders : ∀ fns t, t.scope = Γ → lenders fns t e = c.lenders t

theorem content_evaluates {Γ : Names} {e : Expr} {c : Content}
    (h : content? Γ e = some (os, c)) : Evaluates Γ e os c := by
  unfold content? at h
  split at h
  · rename_i r y
    cases h
    cases hy : Γ.lookup y with
    | none =>
      refine ⟨by simp, by simp [Content.mentions], fun fns t ht => ?_, fun fns t ht => ?_⟩
      · simp [walkExpr_name, ht, hy, Content.touch]
      · simp [Borrow.lenders, Trace.lookup?, ht, hy, Content.lenders]
    | some v =>
      refine ⟨by simp, by simpa [Content.mentions] using Names.mem_vars hy,
        fun fns t ht => ?_, fun fns t ht => ?_⟩
      · simp [walkExpr_name, ht, hy, Content.touch]
      · simp [Borrow.lenders, Trace.lookup?, ht, hy, Content.lenders]
  · rename_i r x _
    cases h
    cases hx : Γ.lookup x with
    | none =>
      refine ⟨by simp, by simp [Content.mentions], fun fns t ht => ?_, fun fns t ht => ?_⟩
      · simp [walkExpr, visit, ht, hx, Content.touch, Trace.lookup?]
      · simp [Borrow.lenders, placeLenders, root?, rootName?, Option.bind_some, Trace.lookup?,
          ht, hx, Content.lenders]
    | some v =>
      refine ⟨by simp, by simpa [Content.mentions] using Names.mem_vars hx,
        fun fns t ht => ?_, fun fns t ht => ?_⟩
      · simp only [walkExpr, visit, Trace.lookup?, ht, hx]
        rfl
      · simp only [Borrow.lenders, placeLenders, root?, rootName?, Option.bind_some,
          Trace.lookup?, ht, hx]
        rfl
  · rename_i func
    obtain ⟨os', hos, h⟩ := map_eq_some_iff.1 h
    cases h
    obtain ⟨plain, walked⟩ := calleeOps_walk hos
    refine ⟨plain, by simp [Content.mentions], fun fns t ht => ?_, fun fns t ht => ?_⟩
    · simp [walkExpr, visit, walkRow, walked fns t ht, Content.touch]
    · simp [Borrow.lenders, rowLenders, Content.lenders]
  · cases h
    refine ⟨by simp, by simp [Content.mentions], fun fns t ht => ?_, fun fns t ht => ?_⟩
    · simp [walkExpr, visit, Content.touch]
    · simp [Borrow.lenders, Content.lenders]
  · cases h

theorem Content.plain_ops {Γ : Names} {c : Content} (h : ∀ x ∈ c.mentions, x ∈ Γ.vars) :
    ∀ o ∈ c.ops, o.Plain Γ := by
  cases c with
  | address r x | copy r x => simpa [Content.ops, Op.Plain] using h x rfl
  | other => simp [Content.ops]

theorem Content.run_ops (c : Content) (t : Trace) : run t (c.ops.map .op) = c.touch t := by
  cases c <;> rfl

theorem effectOps_walk {Γ : Names} {e : Expr} (h : effectOps? Γ e = some os) :
    (∀ o ∈ os, o.Plain Γ) ∧ ∀ fns t, t.scope = Γ → walkExpr fns t e = run t (os.map .op) := by
  unfold effectOps? at h
  split at h
  · cases h
    exact ⟨by simp [Op.Plain], fun fns t _ => by simp only [walkExpr, visit]; rfl⟩
  · obtain ⟨⟨os', c⟩, hc, h⟩ := bind_eq_some_iff.1 h
    cases h
    have hc := content_evaluates hc
    refine ⟨?_, fun fns t ht => ?_⟩
    · simp only [forall_mem_append]
      exact ⟨⟨hc.plain, Content.plain_ops hc.mentioned⟩, by simp [Op.Plain]⟩
    · rw [map_append, map_append, run_append, run_append, c.run_ops, ← hc.walked fns t ht,
        walkExpr]
      rfl
  · obtain ⟨plain, walked⟩ := calleeOps_walk h
    refine ⟨plain, fun fns t ht => ?_⟩
    simp [walkExpr, visit, walkRow, walked fns t ht]
  · obtain ⟨callee, hcallee, h⟩ := bind_eq_some_iff.1 h
    obtain ⟨⟨os', c⟩, hc, h⟩ := bind_eq_some_iff.1 h
    cases h
    have hc := content_evaluates hc
    obtain ⟨plain, walked⟩ := calleeOps_walk hcallee
    refine ⟨?_, fun fns t ht => ?_⟩
    · simp only [forall_mem_append]
      exact ⟨⟨plain, hc.plain⟩, Content.plain_ops hc.mentioned⟩
    · rw [map_append, map_append, run_append, run_append, c.run_ops,
        ← hc.walked fns _ (scope_run ht _), ← walked fns t ht]
      simp only [walkExpr, visit, walkRow]
  · cases h

/-! ## Statements -/

theorem letFlow_reading (file : Option String) (fns : FnTypes) {Γ Γ' : Names} {m m' : ℕ} {f : Flow}
    (r : Region) {p : Pattern} {type : Option Ty} {value : Expr} {otherwise : Option Block}
    (h : letFlow? Γ m value p type otherwise = some (f, Γ', m')) :
    Reading Γ m f Γ' m' (walkStmt file fns · (.letIn r p type value otherwise)) := by
  unfold letFlow? at h
  split at h
  · obtain ⟨⟨os, c⟩, hc, h⟩ := bind_eq_some_iff.1 h
    cases h
    have hc := content_evaluates hc
    refine .of_eq (.append (.plain hc.plain m fun t _ => rfl)
      (.declare hc.mentioned m _ true value.region fun t _ => rfl)) fun t ht _ => ?_
    have scope : (c.touch (run t (os.map .op))).scope = Γ :=
      (c.scope_touch _).trans (scope_run ht _)
    have held := hc.lenders fns _ scope
    simp only [walkStmt, hc.walked fns t ht, all_none, if_true, held, Trace.bindPattern,
      Pattern.bindings, foldl_cons, foldl_nil, bind_eq_declare, scope, c.bindings_touch]
    rfl
  · cases h

theorem assignFlow_reading (file : Option String) (fns : FnTypes) {Γ : Names} {m : ℕ} {f : Flow}
    (r : Region) {target value : Expr} {op : AssignOp}
    (h : assignFlow? Γ value target op = some f) :
    Reading Γ m f Γ m (walkStmt file fns · (.assign r target value op)) := by
  unfold assignFlow? at h
  split at h
  · rename_i x
    obtain ⟨⟨os, c⟩, hc, h⟩ := bind_eq_some_iff.1 h
    have hc := content_evaluates hc
    have scope {t : Trace} (ht : t.scope = Γ) : (c.touch (run t (os.map .op))).scope = Γ :=
      (c.scope_touch _).trans (scope_run ht _)
    cases hx : Γ.lookup x with
    | none =>
      rw [hx] at h
      cases h
      refine .of_eq (.append (.plain hc.plain m fun t _ => rfl)
        (.plain (Content.plain_ops hc.mentioned) m fun t _ => (c.run_ops t).symm)) fun t ht _ => ?_
      simp only [walkStmt, hc.walked fns t ht, root?, rootName?, Option.bind_some, Trace.lookup?,
        scope ht, hx]
      rfl
    | some v =>
      rw [hx] at h
      cases h
      have plain : (Op.store v c value.region).Plain Γ := ⟨Names.mem_vars hx, hc.mentioned⟩
      refine .of_eq (.append (.plain hc.plain m fun t _ => rfl)
        (.plain (forall_mem_singleton.2 plain) m fun t _ => rfl)) fun t ht _ => ?_
      simp only [walkStmt, hc.walked fns t ht, root?, rootName?, Option.bind_some, Trace.lookup?,
        scope ht, hx, hc.lenders fns _ (scope ht)]
      rfl
  · cases h

theorem condition_reading {Γ : Names} (m : ℕ) {c : Condition}
    (h : conditionOps? Γ c = some os) : Reading Γ m (.ofOps os) Γ m (walkCondition fns · c) := by
  unfold conditionOps? at h
  split at h
  · obtain ⟨plain, walked⟩ := calleeOps_walk h
    refine .plain plain m fun t ht => ?_
    simp [walkCondition, walkExpr, visit, walkRow, walked fns t ht]
  · cases h

mutual

/-- **The flow of a statement is a reading of the walk through it.** -/
theorem stmtFlow_reading (file : Option String) (fns : FnTypes) {Γ Γ' : Names} {m m' : ℕ}
    {f : Flow} : (s : Stmt) → stmtFlow? Γ m s = some (f, Γ', m') →
      Reading Γ m f Γ' m' (walkStmt file fns · s)
  | .letIn r .., h => letFlow_reading file fns r h
  | .assign r .., h => by
    obtain ⟨g, hg, h⟩ := bind_eq_some_iff.1 h
    cases h
    exact assignFlow_reading file fns r hg
  | .expr .., h => by
    obtain ⟨os, hos, h⟩ := bind_eq_some_iff.1 h
    cases h
    obtain ⟨plain, walked⟩ := effectOps_walk hos
    exact .plain plain m fun t ht => by simp only [walkStmt, walked fns t ht]
  | .ifElse r c a none, h => by
    obtain ⟨os, hos, h⟩ := bind_eq_some_iff.1 h
    obtain ⟨⟨g, k⟩, hg, h⟩ := bind_eq_some_iff.1 h
    cases h
    simp only [walkStmt]
    exact ((condition_reading fns m hos).append
      ((blockFlow_reading file fns a hg).branch (.nothing _ _))).block
  | .ifElse r c a (some b), h => by
    obtain ⟨os, hos, h⟩ := bind_eq_some_iff.1 h
    obtain ⟨⟨g, k⟩, hg, h⟩ := bind_eq_some_iff.1 h
    obtain ⟨⟨g', k'⟩, hg', h⟩ := bind_eq_some_iff.1 h
    cases h
    have hc := condition_reading fns m hos
    have ha := blockFlow_reading file fns a hg
    refine (hc.append (ha.branch (blockFlow_reading file fns b hg'))).of_eq fun t ht hm => ?_
    simp only [walkStmt]
    exact congrArg (walkBlock file fns · b) ((hc.append ha).within_eq ht hm)
  | .loop _ b, h => by
    obtain ⟨⟨g, k⟩, hb, h⟩ := bind_eq_some_iff.1 h
    cases h
    simp only [walkStmt]
    exact (blockFlow_reading file fns b hb).loop
  | .block _ b, h => by
    obtain ⟨⟨g, k⟩, hb, h⟩ := bind_eq_some_iff.1 h
    cases h
    simp only [walkStmt]
    exact blockFlow_reading file fns b hb
  | .breakLoop _, h => by
    cases h
    exact ⟨rfl, fun vis hvis => ⟨trivial, hvis⟩, fun t ht _ => by rw [← ht]; rfl⟩
  | .ret .., h | .continueLoop _, h | .whileDo .., h | .forIn .., h | .fn .., h | .matchOn .., h
  | .suspend .., h | .terminate _, h => by cases h

theorem rowFlow_reading (file : Option String) (fns : FnTypes) {Γ Γ' : Names} {m m' : ℕ}
    {f : Flow} : (ss : List Stmt) → rowFlow? Γ m ss = some (f, Γ', m') →
      Reading Γ m f Γ' m' (walkStmts file fns · ss)
  | [], h => by
    cases h
    exact (Reading.nothing Γ m).of_eq fun t _ _ => by simp only [walkStmts, id]
  | s :: ss, h => by
    obtain ⟨⟨f, Γ₁, m₁⟩, hs, h⟩ := bind_eq_some_iff.1 h
    obtain ⟨⟨g, Γ₂, m₂⟩, hss, h⟩ := bind_eq_some_iff.1 h
    cases h
    simp only [walkStmts]
    exact (stmtFlow_reading file fns s hs).append (rowFlow_reading file fns ss hss)

theorem blockFlow_reading (file : Option String) (fns : FnTypes) {Γ : Names} {m m' : ℕ}
    {f : Flow} : (b : Block) → blockFlow? Γ m b = some (f, m') →
      Reading Γ m f Γ m' (walkBlock file fns · b)
  | .mk stmts _ none, h => by
    obtain ⟨⟨f, Γ₁, m₁⟩, hss, h⟩ := bind_eq_some_iff.1 h
    cases h
    simp only [walkBlock, walkOptional]
    exact (rowFlow_reading file fns stmts hss).block
  | .mk _ _ (some _), h => by cases h

end

/-! ## Items -/

theorem paramOps_reading : (ps : List Param) → (Γ : Names) → (m : ℕ) →
    Reading Γ m (.ofOps (paramOps Γ m ps).1) (paramOps Γ m ps).2.1 (paramOps Γ m ps).2.2
      (bindParams · ps)
  | [], Γ, m => .nothing Γ m
  | p :: ps, Γ, m => by
    have head : Reading Γ m (.ofOps [.bind m .other (paramBinding p).1 (paramBinding p).2 p.region])
        (((paramBinding p).1, m) :: Γ) (m + 1) (bindParams · [p]) := by
      refine .declare (by simp [Content.mentions]) m _ _ _ fun t ht => ?_
      obtain ⟨name, kind, region, mutable⟩ := p
      rw [← ht]
      cases kind <;> rfl
    exact head.append (paramOps_reading ps _ (m + 1))

/-- **The trace of an item is what the walk notes of the text of its flow.** -/
theorem trace_eq_run (file : Option String) {d : Definition} {f : Flow}
    (h : itemFlow? d = some f) :
    f.Scoped ∅ 0 ∧ ∃ Γ, trace file d = (run {} f.text).inScope Γ := by
  obtain ⟨⟨g, Γ, m⟩, hg, h⟩ := bind_eq_some_iff.1 h
  obtain ⟨⟨g', m'⟩, hg', h⟩ := bind_eq_some_iff.1 h
  cases h
  have reading := (paramOps_reading d.params [] 0).append
    ((rowFlow_reading file d.fnTypes d.prelude hg).append
      (blockFlow_reading file d.fnTypes d.body hg'))
  exact ⟨(reading.scoping ∅ (by simp [Names.vars])).1, _, reading.walked {} rfl rfl⟩

end Yielding.Borrow
