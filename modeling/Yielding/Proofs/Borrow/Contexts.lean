import Yielding.Proofs.Borrow.Acts

/-!
# Proofs/Borrow/Contexts — what is declared where an act stands

The **context** of an act is read off the acts before it: the variables declared so far, what the
names in scope refer to, the loops that are open.  It agrees with the trace that the walk has at the
act (`told`), and the walk never takes a note back (`progress_extends`).  What a pattern is bound to
was held at an earlier act with the same names in scope (`feeds_acts`).
-/

namespace Yielding.Borrow

open List

/-! ## Contexts -/

/-- What is around an act, read off the acts before it. -/
structure Context where
  /-- The variables by their numbers, with their names and whether the item owns them. -/
  vars : List (String × Bool) := []
  names : Names := []
  /-- The names to go back to, the innermost scope first. -/
  scopes : List Names := []
  loops : ℕ := 0
  /-- The loops around the act, from the outermost to the innermost. -/
  around : List ℕ := []
  /-- The loops to go back to, the innermost first. -/
  outside : List (List ℕ) := []

def Context.declare (c : Context) (x : String) (owned : Bool) : Context :=
  { c with vars := c.vars ++ [(x, owned)], names := (x, c.vars.length) :: c.names }

def Context.declareAll (c : Context) (p : Pattern) (owned : Bool) : Context :=
  p.bindings.foldl (fun c x => c.declare x.1 owned) c

def Act.context (c : Context) : Act → Context
  | param p => c.declare (paramBinding p).1 (paramBinding p).2
  | bind p type _ => c.declareAll p (ownedBy type)
  | next p _ => c.declareAll p true
  | openScope => { c with scopes := c.names :: c.scopes }
  | closeScope => { c with names := c.scopes.headD [], scopes := c.scopes.tail }
  | enter =>
    { c with
      loops := c.loops + 1, around := c.around ++ [c.loops], outside := c.around :: c.outside }
  | leave => { c with around := c.outside.headD [], outside := c.outside.tail }
  | visit _ | hold .. | drop | store .. | iterate .. => c

def contextAt (as : List Act) (i : ℕ) : Context := (as.take i).foldl Act.context {}

def progressAt (file : Option String) (fns : FnTypes) (as : List Act) (i : ℕ) : Progress :=
  perform file fns {} (as.take i)

section At

variable {file : Option String} {fns : FnTypes} {as : List Act} {i j : ℕ} {a : Act}

theorem contextAt_succ (h : as[i]? = some a) :
    contextAt as (i + 1) = a.context (contextAt as i) := by
  simp [contextAt, take_add_one, h]

theorem progressAt_succ (h : as[i]? = some a) :
    progressAt file fns as (i + 1) = a.step file fns (progressAt file fns as i) := by
  simp [progressAt, take_add_one, h]

theorem progressAt_induction {P : Progress → Context → Prop} (start : P {} {})
    (step : ∀ (w : Progress) (c : Context) (a : Act), P w c → P (a.step file fns w) (a.context c))
    (as : List Act) (i : ℕ) : P (progressAt file fns as i) (contextAt as i) := by
  have run : ∀ (bs : List Act) (w : Progress) (c : Context), P w c →
      P (perform file fns w bs) (bs.foldl Act.context c) := by
    intro bs
    induction bs with
    | nil => exact fun _ _ h => h
    | cons a bs ih => exact fun w c h => ih _ _ (step w c a h)
  exact run _ _ _ start

theorem progressAt_eq_perform (h : i ≤ j) : progressAt file fns as j =
    perform file fns (progressAt file fns as i) ((as.take j).drop i) := by
  have hsplit : as.take i ++ (as.take j).drop i = as.take j := by
    rw [← Nat.min_eq_left h, ← take_take, Nat.min_eq_left h, take_append_drop]
  rw [progressAt, progressAt, ← perform_append, hsplit]

end At

/-! ## Variables -/

theorem vars_declareAll (c : Context) (p : Pattern) (owned : Bool) :
    c.vars <+: (c.declareAll p owned).vars := by
  unfold Context.declareAll
  generalize p.bindings = names
  induction names generalizing c with
  | nil => exact prefix_refl _
  | cons x names ih => exact (prefix_append _ _).trans (ih (c.declare x.1 owned))

theorem vars_grow (c : Context) (a : Act) : c.vars <+: (a.context c).vars := by
  cases a with
  | param p => exact prefix_append _ _
  | bind | next => exact vars_declareAll ..
  | visit | hold | drop | store | iterate | openScope | closeScope | enter | leave =>
    exact prefix_refl _

theorem vars_grow_at (as : List Act) {i j : ℕ} (h : i ≤ j) :
    (contextAt as i).vars <+: (contextAt as j).vars := by
  obtain ⟨bs, hbs⟩ := take_prefix_take_left (l := as) h
  rw [contextAt, contextAt, ← hbs, foldl_append]
  exact foldlRecOn (motive := fun c => ((as.take i).foldl Act.context {}).vars <+: c.vars) bs
    Act.context (prefix_refl _) fun c h a _ => h.trans (vars_grow c a)

/-- Every name in scope is that of a variable. -/
structure Context.Closed (c : Context) : Prop where
  names : ∀ e ∈ c.names, e.2 < c.vars.length
  scopes : ∀ Γ ∈ c.scopes, ∀ e ∈ Γ, e.2 < c.vars.length

theorem Context.Closed.declare {c : Context} (h : c.Closed) (x : String) (owned : Bool) :
    (c.declare x owned).Closed := by
  have hlength : (c.declare x owned).vars.length = c.vars.length + 1 := by simp [Context.declare]
  constructor
  · refine forall_mem_cons.2 ⟨by rw [hlength]; exact Nat.lt_succ_self _, fun e he => ?_⟩
    exact hlength ▸ (h.names e he).trans (Nat.lt_succ_self _)
  · exact fun Γ hΓ e he => hlength ▸ (h.scopes Γ hΓ e he).trans (Nat.lt_succ_self _)

theorem Context.Closed.declareAll {c : Context} (h : c.Closed) (p : Pattern) (owned : Bool) :
    (c.declareAll p owned).Closed := by
  unfold Context.declareAll
  generalize p.bindings = names
  induction names generalizing c with
  | nil => exact h
  | cons x names ih => exact ih (h.declare x.1 owned)

theorem Context.Closed.step {c : Context} (h : c.Closed) (a : Act) : (a.context c).Closed := by
  cases a with
  | param p => exact h.declare _ _
  | bind | next => exact h.declareAll _ _
  | openScope => exact ⟨h.names, forall_mem_cons.2 ⟨h.names, h.scopes⟩⟩
  | closeScope =>
    refine ⟨?_, fun Γ hΓ => h.scopes Γ (mem_of_mem_tail hΓ)⟩
    simp only [Act.context]
    cases hscopes : c.scopes with
    | nil => exact nofun
    | cons Γ scopes => exact h.scopes Γ (by rw [hscopes]; exact mem_cons_self)
  | visit | hold | drop | store | iterate | enter | leave => exact ⟨h.names, h.scopes⟩

theorem closed_contextAt (as : List Act) (i : ℕ) : (contextAt as i).Closed :=
  foldlRecOn (as.take i) Act.context ⟨nofun, nofun⟩ fun _ h a _ => h.step a

/-! ## Contexts tell what the walk has seen -/

/-- The context agrees with the progress of the walk. -/
structure Told (w : Progress) (c : Context) : Prop where
  scope : w.trace.scope = c.names
  scopes : w.scopes = c.scopes
  vars : w.trace.bindings.toList.map (fun b => (b.name, b.owned)) = c.vars
  loops : w.trace.loops.size = c.loops
  around : w.trace.around = c.around
  outside : w.outside.map Prod.fst = c.outside

section Told

variable {w : Progress} {c : Context}

theorem Told.size (h : Told w c) : w.trace.bindings.size = c.vars.length := by
  rw [← h.vars, length_map, Array.length_toList]

theorem Told.withTrace (h : Told w c) {t : Trace} (hscope : t.scope = w.trace.scope)
    (hvars : t.bindings.toList.map (fun b => (b.name, b.owned)) =
      w.trace.bindings.toList.map fun b => (b.name, b.owned))
    (hloops : t.loops.size = w.trace.loops.size) (haround : t.around = w.trace.around) :
    Told (w.withTrace t) c :=
  { h with
    scope := hscope.trans h.scope
    vars := hvars.trans h.vars
    loops := hloops.trans h.loops
    around := haround.trans h.around }

theorem Told.bind (h : Told w c) (x : String) (owned : Bool) (taints : ℕ → List Taint) :
    Told (w.withTrace (w.trace.bind x owned taints)) (c.declare x owned) :=
  { h with
    scope := by simp [Trace.bind, Trace.tick, Context.declare, Progress.withTrace, h.scope, h.size]
    vars := by simp [Trace.bind, Trace.tick, Context.declare, Progress.withTrace, h.vars] }

theorem Told.bindPattern (h : Told w c) (p : Pattern) (ls : Lenders) (region : Region)
    (owned : Bool) :
    Told (w.withTrace (w.trace.bindPattern p ls region owned)) (c.declareAll p owned) := by
  unfold Trace.bindPattern Context.declareAll
  generalize p.bindings = names
  induction names generalizing w c with
  | nil => exact h
  | cons x names ih =>
    exact ih (h.bind x.1 owned fun pos => if ls.isEmpty then [] else [⟨pos, ls, region⟩])

theorem vars_taint (t : Trace) (i : ℕ) (ls : Lenders) (region : Region) :
    (t.taint i ls region).bindings.toList.map (fun b => (b.name, b.owned)) =
      t.bindings.toList.map fun b => (b.name, b.owned) := by
  unfold Trace.taint
  split
  · rfl
  · refine ext_getElem? fun j => ?_
    simp only [Trace.tick, getElem?_map, Array.getElem?_toList, Array.getElem?_modify]
    split
    · rw [Option.map_map]
      rfl
    · rfl

theorem Told.taint (h : Told w c) (i : ℕ) (ls : Lenders) (region : Region) :
    Told (w.withTrace (w.trace.taint i ls region)) c := by
  have hvars := vars_taint w.trace i ls region
  unfold Trace.taint at hvars ⊢
  split
  · exact h
  · next hempty =>
    rw [if_neg hempty] at hvars
    exact h.withTrace rfl hvars rfl rfl

/-- **Acts keep the agreement.** -/
theorem Told.step (h : Told w c) (file : Option String) (fns : FnTypes) (a : Act) :
    Told (a.step file fns w) (a.context c) := by
  cases a with
  | visit e =>
    simp only [Act.step, Act.context, visit]
    split
    · split
      · exact h
      · exact h.withTrace rfl rfl rfl rfl
    · exact h.withTrace rfl rfl rfl rfl
    · split
      · split
        · exact h
        · exact h.taint _ _ _
      · exact h
    · exact h
  | hold | drop => exact { h with }
  | param p =>
    simp only [Act.step, Act.context, bindParam, paramBinding]
    cases p.kind <;> exact h.bind _ _ _
  | bind | next => exact h.bindPattern ..
  | store target value =>
    simp only [Act.step, Act.context, storeInto]
    split
    · exact h
    · exact h.taint _ _ _
  | iterate iterable yields =>
    simp only [Act.step, Act.context]
    split <;> exact { h with }
  | openScope =>
    refine { h with scopes := ?_ }
    simp only [Act.step, Act.context, h.scope, h.scopes]
  | closeScope =>
    refine { h with scope := ?_, scopes := congrArg tail h.scopes }
    simp only [Act.step, Act.context, h.scopes]
  | enter =>
    refine { h with loops := ?_, around := ?_, outside := ?_ }
    · simp [Act.step, Act.context, Trace.enter, h.loops]
    · simp [Act.step, Act.context, Trace.enter, h.around, h.loops]
    · simp [Act.step, Act.context, h.outside, h.around]
  | leave =>
    refine { h with loops := ?_, around := ?_, outside := ?_ }
    · simp [Act.step, Act.context, Trace.leaveTo, h.loops]
    · simp only [Act.step, Act.context, Trace.leaveTo, ← h.outside]
      cases w.outside <;> rfl
    · simp only [Act.step, Act.context, ← h.outside, map_tail]

end Told

theorem told (file : Option String) (fns : FnTypes) (as : List Act) (i : ℕ) :
    Told (progressAt file fns as i) (contextAt as i) :=
  progressAt_induction ⟨rfl, rfl, rfl, rfl, rfl, rfl⟩ (fun _ _ a h => h.step file fns a) as i

theorem exists_binding (file : Option String) (fns : FnTypes) {as : List Act} {i v : ℕ} {x : String}
    {owned : Bool} (h : (contextAt as i).vars[v]? = some (x, owned)) :
    ∃ b : Binding, (progressAt file fns as i).trace.bindings[v]? = some b ∧ b.name = x ∧
      b.owned = owned := by
  rw [← (told file fns as i).vars, getElem?_map, Array.getElem?_toList] at h
  obtain ⟨b, hb, hbx⟩ := Option.map_eq_some_iff.1 h
  exact ⟨b, hb, congrArg Prod.fst hbx, congrArg Prod.snd hbx⟩

/-! ## Notes are never taken back -/

theorem Trace.extends_leaveTo (t : Trace) (around : List ℕ) (loop : ℕ) :
    t.Extends (t.leaveTo around loop) := by
  refine { Extends.refl t with pos := Nat.le_succ _, loops := fun i r h => ?_ }
  by_cases hi : loop = i
  · exact ⟨{ r with last := t.pos + 1 }, by simp [leaveTo, Array.getElem?_modify, hi, h], rfl⟩
  · exact ⟨r, by simpa [leaveTo, Array.getElem?_modify, hi] using h, rfl⟩

theorem Trace.extends_note (t : Trace) (x : Note) : t.Extends (t.note x) := by
  cases x with
  | touch => exact t.extends_touch ..
  | suspend => exact t.extends_suspend ..
  | bind name owned held r => exact { t.extends_declare name owned held r with }
  | taint => exact t.extends_taint ..
  | enter => exact t.extends_enter
  | leave => exact t.extends_leaveTo ..
  | scope | report => exact { Extends.refl t with }

theorem extends_perform (file : Option String) (fns : FnTypes) (w : Progress) (as : List Act) :
    w.trace.Extends (perform file fns w as).trace :=
  note_induction (fun t x h => h.trans (t.extends_note x)) file fns as (.refl _)

/-- **What is noted at an act is known at every later act.** -/
theorem progress_extends (file : Option String) (fns : FnTypes) (as : List Act) {i j : ℕ}
    (h : i ≤ j) : (progressAt file fns as i).trace.Extends (progressAt file fns as j).trace := by
  rw [progressAt_eq_perform h]
  exact extends_perform ..

/-! ## What is bound was held before -/

/-- The acts leave what is held and the names in scope as they are. -/
def Settled (as : List Act) : Prop :=
  ∀ file fns w, (perform file fns w as).held = w.held ∧
    (perform file fns w as).trace.scope = w.trace.scope

/-- Every pattern among the acts is bound to a value that is held since a `hold` of it, or since the
beginning as `top`. -/
def Feeds (top : Option (Expr × Option Ty)) (as : List Act) : Prop :=
  ∀ before p type value after, as = before ++ .bind p type value :: after →
    (∃ front back, before = front ++ .hold value type :: back ∧ Settled back) ∨
      top = some (value, type) ∧ Settled before

section Settled

variable {as bs : List Act}

theorem settled_nil : Settled [] := fun _ _ _ => ⟨rfl, rfl⟩

theorem settled_openScope : Settled [.openScope] := fun _ _ _ => ⟨rfl, rfl⟩

theorem Settled.append (has : Settled as) (hbs : Settled bs) : Settled (as ++ bs) := by
  intro file fns w
  rw [perform_append]
  exact ⟨(hbs file fns _).1.trans (has file fns w).1, (hbs file fns _).2.trans (has file fns w).2⟩

theorem settled_blockActs (b : Block) : Settled (blockActs b) := by
  intro file fns w
  rw [perform_blockActs]
  exact ⟨rfl, by cases b; rfl⟩

theorem settled_armActs (subject : Expr) (arms : List Arm) : Settled (armActs subject arms) := by
  intro file fns w
  rw [perform_armActs]
  refine ⟨rfl, ?_⟩
  generalize w.top = held
  have hscope : ∀ t : Trace, (walkArms file fns t held subject.region arms).scope = t.scope := by
    induction arms with
    | nil => exact fun _ => rfl
    | cons arm arms ih =>
      obtain ⟨r, p, guard, b⟩ := arm
      exact fun t => (ih _).trans rfl
  exact hscope w.trace

end Settled

section Feeds

variable {top : Option (Expr × Option Ty)} {as bs : List Act}

theorem feeds_of_forall (h : ∀ a ∈ as, ∀ p type value, a ≠ .bind p type value := by simp) :
    Feeds top as := by
  intro before p type value after has
  exact absurd rfl (h (.bind p type value) (by simp [has]) p type value)

theorem Feeds.weaken (h : Feeds none as) : Feeds top as := by
  intro before p type value after has
  refine (h before p type value after has).imp_right ?_
  rintro ⟨htop, -⟩
  cases htop

theorem Feeds.append (has : Feeds top as) (hbs : Feeds top bs)
    (hs : top = none ∨ Settled as := by exact .inl rfl) : Feeds top (as ++ bs) := by
  intro before p type value after h
  rcases append_eq_append_iff.1 h with ⟨front, rfl, hbs'⟩ | ⟨back, has', hafter⟩
  · -- the pattern is in the second part
    rcases hbs front p type value after hbs' with ⟨front', back, rfl, hback⟩ | ⟨htop, hfront⟩
    · exact .inl ⟨as ++ front', back, by simp, hback⟩
    · rcases hs with rfl | hs
      · cases htop
      · exact .inr ⟨htop, hs.append hfront⟩
  · cases back with
    | nil =>
      rw [nil_append] at hafter
      rw [append_nil] at has'
      rcases hbs [] p type value after hafter.symm with ⟨front', back, hnil, -⟩ | ⟨htop, -⟩
      · simp at hnil
      · rcases hs with rfl | hs
        · cases htop
        · exact .inr ⟨htop, has' ▸ hs⟩
    | cons a back =>
      rw [cons_append, cons_eq_cons] at hafter
      obtain ⟨rfl, -⟩ := hafter
      exact has before p type value back has'

theorem Feeds.cons (h : Feeds none as) {a : Act}
    (ha : ∀ p type value, a ≠ .bind p type value := by simp) : Feeds none (a :: as) :=
  Feeds.append (feeds_of_forall (forall_mem_singleton.2 ha)) h

theorem Feeds.hold {value : Expr} {type : Option Ty} (h : Feeds (some (value, type)) as) :
    Feeds none (.hold value type :: as) := by
  intro before p type' value' after has
  cases before with
  | nil => simp at has
  | cons a before =>
    rw [cons_append, cons_eq_cons] at has
    obtain ⟨rfl, has⟩ := has
    rcases h before p type' value' after has with ⟨front, back, rfl, hback⟩ | ⟨htop, hbefore⟩
    · exact .inl ⟨.hold value type :: front, back, rfl, hback⟩
    · cases htop
      exact .inl ⟨[], before, rfl, hbefore⟩

theorem Feeds.bind (h : Feeds none as) (p : Pattern) (type : Option Ty) (value : Expr) :
    Feeds (some (value, type)) (.bind p type value :: as) := by
  intro before p' type' value' after has
  cases before with
  | nil =>
    simp only [nil_append, List.cons.injEq, Act.bind.injEq] at has
    obtain ⟨⟨rfl, rfl, rfl⟩, -⟩ := has
    exact .inr ⟨rfl, settled_nil⟩
  | cons a before =>
    rw [cons_append, cons_eq_cons] at has
    obtain ⟨rfl, has⟩ := has
    rcases h before p' type' value' after has with ⟨front, back, rfl, hback⟩ | ⟨htop, -⟩
    · exact .inl ⟨.bind p type value :: front, back, rfl, hback⟩
    · cases htop

theorem feeds_let (hvalue : Feeds none as) (value : Expr) (type : Option Ty) (p : Pattern)
    (hbs : Feeds none bs) (hs : Settled bs) :
    Feeds none (as ++ .hold value type :: bs ++ [.bind p type value, .drop]) := by
  have hdrop : Feeds none [.drop] := feeds_of_forall
  rw [append_assoc]
  exact hvalue.append (hbs.weaken.append (hdrop.bind p type value) (.inr hs)).hold

end Feeds

theorem visits_exprActs (e : Expr) : ∀ a ∈ exprActs e, ∃ e, a = .visit e := by
  induction e using Expr.operandInduction with
  | h e ih =>
    rw [exprActs_eq, forall_mem_append, forall_mem_singleton]
    refine ⟨?_, e, rfl⟩
    generalize e.operands = es at ih
    induction es with
    | nil => nofun
    | cons o es ihrow =>
      rw [forall_mem_cons] at ih
      exact forall_mem_append.2 ⟨ih.1, ihrow ih.2⟩

theorem feeds_exprActs (e : Expr) : Feeds none (exprActs e) := by
  refine feeds_of_forall fun a ha p type value => ?_
  obtain ⟨e, rfl⟩ := visits_exprActs e a ha
  simp

theorem feeds_optionalActs : ∀ e : Option Expr, Feeds none (optionalActs e)
  | none => feeds_of_forall (by simp [optionalActs])
  | some e => feeds_exprActs e

theorem feeds_targetActs (e : Expr) : Feeds none (targetActs e) := by
  unfold targetActs
  split
  · exact feeds_of_forall
  · exact feeds_exprActs _

theorem feeds_conditionActs : ∀ c : Condition, Feeds none (conditionActs c)
  | .test e => feeds_exprActs e
  | .letMatch _ p value => by
    simpa [conditionActs] using
      feeds_let (feeds_exprActs value) value none p feeds_of_forall settled_nil

mutual

theorem feeds_stmtActs : ∀ s : Stmt, Feeds none (stmtActs s)
  | .letIn _ p type value none => by
    simpa [stmtActs] using
      feeds_let (feeds_exprActs value) value type p feeds_of_forall settled_nil
  | .letIn _ p type value (some b) =>
    feeds_let (feeds_exprActs value) value type p (feeds_blockActs b) (settled_blockActs b)
  | .assign _ target value _ =>
    ((feeds_exprActs value).append (feeds_targetActs target)).append feeds_of_forall
  | .expr _ value => feeds_exprActs value
  | .ret _ value => feeds_optionalActs value
  | .ifElse _ c a none =>
    (((feeds_conditionActs c).append (feeds_blockActs a)).append feeds_of_forall).cons
  | .ifElse _ c a (some b) =>
    (((feeds_conditionActs c).append (feeds_blockActs a)).append (feeds_blockActs b).cons).cons
  | .whileDo _ c b =>
    (((feeds_conditionActs c).append (feeds_blockActs b)).append feeds_of_forall).cons.cons
  | .loop _ b =>
    ((feeds_blockActs b).append feeds_of_forall).cons.cons
  | .forIn _ p iterable b => by
    have hbody : Feeds none (blockActs b ++ [.closeScope, .leave, .drop]) :=
      (feeds_blockActs b).append feeds_of_forall
    have hloop : Feeds none (.iterate iterable (blockYields b) :: .enter :: .openScope ::
        .next p iterable :: (blockActs b ++ [.closeScope, .leave, .drop])) :=
      hbody.cons.cons.cons.cons
    simpa [stmtActs] using (feeds_exprActs iterable).append hloop.cons
  | .block _ b => feeds_blockActs b
  | .matchOn _ subject arms => by
    have harms : Feeds (some (subject, none)) (armActs subject arms ++ [.drop]) :=
      (feeds_armActs subject arms).append feeds_of_forall (.inr (settled_armActs subject arms))
    simpa [stmtActs] using (feeds_exprActs subject).append harms.hold
  | .breakLoop _ | .continueLoop _ | .fn .. | .suspend .. | .terminate _ =>
    feeds_of_forall (by simp [stmtActs])

theorem feeds_rowActs : ∀ ss : List Stmt, Feeds none (rowActs ss)
  | [] => feeds_of_forall (by simp [rowActs])
  | s :: ss => (feeds_stmtActs s).append (feeds_rowActs ss)

theorem feeds_blockActs : ∀ b : Block, Feeds none (blockActs b)
  | .mk stmts _ tail =>
    (((feeds_rowActs stmts).append (feeds_optionalActs tail)).append feeds_of_forall).cons

theorem feeds_armActs (subject : Expr) : ∀ arms : List Arm,
    Feeds (some (subject, none)) (armActs subject arms)
  | [] => feeds_of_forall (by simp [armActs])
  | .mk r p guard b :: arms => by
    have hbody : Feeds none (optionalActs guard ++ blockActs b ++ [.closeScope]) :=
      ((feeds_optionalActs guard).append (feeds_blockActs b)).append feeds_of_forall
    have harm : Feeds (some (subject, none)) (armActs subject [.mk r p guard b]) := by
      have hopen : Feeds (some (subject, none)) [.openScope] := feeds_of_forall
      simpa [armActs] using hopen.append (hbody.bind p none subject) (.inr settled_openScope)
    rw [← singleton_append, armActs_append]
    exact harm.append (feeds_armActs subject arms) (.inr (settled_armActs subject _))

end

theorem feeds_acts (d : Definition) : Feeds none (acts d) :=
  (Feeds.append feeds_of_forall (feeds_rowActs d.prelude)).append (feeds_blockActs d.body)

/-- **What a pattern is bound to was held at an earlier act**, at which the same names were in
scope. -/
theorem exists_hold {d : Definition} {i : ℕ} {p : Pattern} {type : Option Ty} {value : Expr}
    (h : (acts d)[i]? = some (.bind p type value)) (file : Option String) :
    ∃ k < i, (contextAt (acts d) k).names = (contextAt (acts d) i).names ∧
      (progressAt file d.fnTypes (acts d) i).top =
        if type.all Ty.mayBorrow then
          lenders d.fnTypes (progressAt file d.fnTypes (acts d) k).trace value else [] := by
  obtain ⟨hi, hvalue⟩ := List.getElem?_eq_some_iff.1 h
  have hsplit : acts d = (acts d).take i ++ .bind p type value :: (acts d).drop (i + 1) := by
    rw [← hvalue, getElem_cons_drop, take_append_drop]
  rcases feeds_acts d _ p type value _ hsplit with ⟨front, back, hfront, hback⟩ | ⟨htop, -⟩
  · have hlength : front.length < i := by
      have := congrArg List.length hfront
      simp at this
      omega
    have hk : (acts d).take front.length = front := by
      have := congrArg (take front.length) hfront
      rwa [take_take, Nat.min_eq_left hlength.le, take_left] at this
    have hprogress : progressAt file d.fnTypes (acts d) i =
        perform file d.fnTypes (Act.step file d.fnTypes
          (progressAt file d.fnTypes (acts d) front.length) (.hold value type)) back := by
      rw [progressAt, progressAt, hfront, hk, perform_append, perform_cons]
    obtain ⟨hheld, hscope⟩ := hback file d.fnTypes (Act.step file d.fnTypes
      (progressAt file d.fnTypes (acts d) front.length) (.hold value type))
    refine ⟨front.length, hlength, ?_, ?_⟩
    · rw [← (told file d.fnTypes (acts d) i).scope, hprogress, hscope,
        ← (told file d.fnTypes (acts d) front.length).scope]
      rfl
    · rw [hprogress, Progress.top, hheld]
      rfl
  · cases htop

end Yielding.Borrow
