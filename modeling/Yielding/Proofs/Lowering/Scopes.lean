import Yielding.Proofs.Lowering.Mutables
import Yielding.Proofs.Lowering.Preservation

/-!
# Proofs/Lowering/Scopes — where temporaries are in scope

Lowering binds each temporary by one `let` and with a number of its own, and reads it only behind
that `let`: later in the same block, or in a block inside what is later
(`lower_temporaries_scoped`). What is made of an expression or a statement is in scope **wherever it
stands**, so the numbers are all that two parts of a body share.
-/

namespace Yielding.Lowering

open List

/-! ## Scopes -/

/-- The patterns of a statement, without those of the blocks inside. -/
def opens : Stmt → List Pattern
  | .letIn _ p .. | .forIn _ p .. => [p]
  | .ifElse _ condition .. | .whileDo _ condition _ => condition.patterns
  | .matchOn _ _ arms => arms.map Arm.pattern
  | _ => []

/-- The names that a statement binds in what follows it in its block. -/
def lets : Stmt → List String
  | .letIn _ p .. => p.bindings.map Prod.fst
  | _ => []

/-- Every temporary that the patterns bind is in `Γ`. -/
def Binds (Γ : List String) (ps : List Pattern) :
    Prop := ∀ q ∈ ps, ∀ b ∈ q.bindings, IsTemp b.1 → b.1 ∈ Γ

/-- Every temporary in the expressions is in `Γ`. -/
def Within (Γ : List String) (es : List Expr) : Prop :=
  ∀ e ∈ es, ∀ o ∈ e.walk, ∀ x ∈ o.name?, IsTemp x → x ∈ Γ

mutual

/-- Every temporary that the statement reads is in `Γ` or bound before it in a block inside, and
every one that it binds is bound by `let`. -/
inductive StmtScoped : List String → Stmt → Prop
  | mk {Γ : List String} {s : Stmt} : Within Γ (s.heads ++ s.guards) → Binds (lets s) (opens s) →
    (∀ b ∈ s.children, BlockScoped Γ b) → StmtScoped Γ s

/-- The same of statements in a row, each in the scope of those before it. -/
inductive RowScoped : List String → List Stmt → Prop
  | nil {Γ : List String} : RowScoped Γ []
  | cons {Γ : List String} {s : Stmt} {ss : List Stmt} : StmtScoped Γ s →
    RowScoped (Γ ++ lets s) ss → RowScoped Γ (s :: ss)

/-- The same of a block, with its tail in the scope of all its statements. -/
inductive BlockScoped : List String → Block → Prop
  | mk {Γ : List String} {b : Block} : RowScoped Γ b.stmts →
    Within (Γ ++ b.stmts.flatMap lets) b.tail.toList → BlockScoped Γ b

end

/-- No identifier of the source has the form of a temporary. -/
def temporaryFree : Flow.Law where
  stmt _ _ s := Binds [] (opens s)
  expr _ e := Within [] [e]
  guard _ e := Within [] [e]

variable {c : Context} {Γ Δ : List String} {e : Expr} {s : Stmt} {ss ss' : List Stmt}
  {vs ws : List Expr} {n k m : ℕ}

theorem binds_nil : Binds Γ [] := forall_mem_nil _

theorem within_nil : Within Γ [] := forall_mem_nil _

theorem within_cons : Within Γ (e :: vs) ↔ Within Γ [e] ∧ Within Γ vs :=
  @forall_mem_append _ _ [e] vs

theorem within_iff : Within Γ [e] ↔ (∀ x ∈ e.name?, IsTemp x → x ∈ Γ) ∧ Within Γ e.operands := by
  rw [Within, forall_mem_singleton]
  exact Expr.forall_mem_walk

theorem within_operands (h : e.name? = none) : Within Γ [e] ↔ Within Γ e.operands := by
  simp [within_iff, h]

theorem within_of_names (h : e.names.all (fun x => x.toList.head? != some '_') = true) :
    Within Γ [e] :=
  forall_mem_singleton.2 fun o ho x hx ht =>
    absurd ht (not_isTemp_of_names h x (mem_filterMap.2 ⟨o, ho, hx⟩))

theorem Within.mono (h : Within Γ vs) (hΓ : Γ ⊆ Δ) : Within Δ vs :=
  fun v hv o ho x hx ht => hΓ (h v hv o ho x hx ht)

theorem StmtScoped.leaf (h : Within Γ (s.heads ++ s.guards)) (ho : opens s = [])
    (hc : s.children = []) : StmtScoped Γ s :=
  .mk h (ho ▸ binds_nil) (hc ▸ forall_mem_nil _)

theorem RowScoped.append (h : RowScoped Γ ss) (h' : RowScoped (Γ ++ ss.flatMap lets) ss') :
    RowScoped Γ (ss ++ ss') := by
  induction ss generalizing Γ with
  | nil => simpa using h'
  | cons s ss ih =>
    obtain ⟨⟩ | ⟨hs, h⟩ := h
    exact .cons hs (ih h (by rwa [append_assoc, ← flatMap_cons]))

/-! ## Numbers -/

/-- The temporaries with the number `i`. -/
def Temp.names (i : ℕ) : List String := [operand, outcome, choice].map (·.name i)

/-- How many temporaries with the number `i` the patterns bind. -/
def timesBound (i : ℕ) (ps : List Pattern) :
    ℕ := (ps.flatMap Pattern.bindings).countP (·.1 ∈ Temp.names i)

/-- One for the numbers from `n + 1` to `k`, and zero for the others. -/
def drawn (n k i : ℕ) : ℕ := if n < i ∧ i ≤ k then 1 else 0

theorem drawn_add (h : n ≤ k) (h' : k ≤ m) (i : ℕ) : drawn n k i + drawn k m i = drawn n m i := by
  simp only [drawn]
  split <;> split <;> split <;> omega

theorem timesBound_append (i : ℕ) (ps qs : List Pattern) :
    timesBound i (ps ++ qs) = timesBound i ps + timesBound i qs := by
  rw [timesBound, flatMap_append, countP_append, timesBound, timesBound]

theorem exists_of_mem_names {i : ℕ} {x : String} (h : x ∈ Temp.names i) :
    ∃ t : Temp, t.name i = x :=
  (mem_map.1 h).imp fun _ h => h.2

theorem timesBound_source {ps : List Pattern} (h : Binds [] ps) (i : ℕ) : timesBound i ps = 0 := by
  refine countP_eq_zero.2 fun b hb hi => ?_
  obtain ⟨q, hq, hb⟩ := mem_flatMap.1 hb
  obtain ⟨t, ht⟩ := exists_of_mem_names (of_decide_eq_true hi)
  exact absurd (h q hq b hb ⟨t, i, trivial, ht.symm⟩) not_mem_nil

theorem timesBound_kept (t : Temp) (n : ℕ) (v : Expr) (i : ℕ) :
    timesBound i (t.kept (n + 1) v).patterns ≤ drawn n (n + 1) i := by
  change countP (·.1 ∈ Temp.names i) [(t.name (n + 1), v.region)] ≤ _
  rw [countP_singleton]
  split
  · next h =>
    obtain ⟨u, hu⟩ := exists_of_mem_names (of_decide_eq_true h)
    simp [drawn, (Temp.name_inj hu).2]
  · exact Nat.zero_le _

theorem timesBound_row (i : ℕ) (ss ss' : List Stmt) :
    timesBound i (rowPatterns (ss ++ ss')) = timesBound i (rowPatterns ss) +
      timesBound i (rowPatterns ss') := by
  induction ss with
  | nil => exact (Nat.zero_add _).symm
  | cons s ss ih => rw [cons_append, rowPatterns, timesBound_append, ih, rowPatterns,
    timesBound_append, Nat.add_assoc]

theorem timesBound_cons (i : ℕ) (q : Pattern) (ps : List Pattern) :
    timesBound i (q :: ps) = timesBound i [q] + timesBound i ps :=
  timesBound_append i [q] ps

theorem timesBound_arms (i : ℕ) (arms : List Arm) : timesBound i (armPatterns arms) =
    timesBound i (arms.map Arm.pattern) +
      timesBound i ((arms.map Arm.body).flatMap Block.patterns) := by
  induction arms with
  | nil => rfl
  | cons arm arms ih =>
    obtain ⟨_, q, _, b⟩ := arm
    rw [armPatterns, timesBound_cons, timesBound_append, ih, map_cons,
      timesBound_cons i (Arm.pattern _), map_cons, flatMap_cons, timesBound_append]
    exact (Nat.add_assoc ..).symm.trans (Nat.add_add_add_comm ..)

/-- A statement binds what it opens and what the blocks inside bind. -/
theorem timesBound_patterns (i : ℕ) (s : Stmt) :
    timesBound i s.patterns = timesBound i (opens s) +
      timesBound i (s.children.flatMap Block.patterns) := by
  cases s with
  | matchOn _ _ arms => exact timesBound_arms i arms
  | letIn _ _ _ _ b | ifElse _ _ _ b =>
    cases b <;> simp [Stmt.patterns, opens, Stmt.children, ← timesBound_append]
  | _ => simp [Stmt.patterns, opens, Stmt.children, ← timesBound_append]

/-! ## Rows in scope -/

/-- The statements bind temporaries as `S` says and are in scope wherever they stand, and so are the
values behind them. -/
structure Neat (S : ℕ → ℕ) (ss : List Stmt) (vs : List Expr) : Prop where
  once : ∀ i, timesBound i (rowPatterns ss) ≤ S i
  inScope : ∀ Γ, RowScoped Γ ss
  values : Within (ss.flatMap lets) vs

variable {S T : ℕ → ℕ}

theorem neat_nil (h : Within [] vs) : Neat S [] vs := ⟨fun _ => Nat.zero_le _, fun _ => .nil, h⟩

theorem Neat.mono (h : Neat S ss vs) (hS : ∀ i, S i ≤ T i) : Neat T ss vs :=
  ⟨fun i => (h.once i).trans (hS i), h.inScope, h.values⟩

/-- Values that are in scope where the others are. -/
theorem Neat.imp (h : Neat S ss vs) (hw : ∀ Γ, Within Γ vs → Within Γ ws) : Neat S ss ws :=
  ⟨h.once, h.inScope, hw _ h.values⟩

theorem Neat.append (h : Neat S ss vs) (h' : Neat T ss' ws) :
    Neat (fun i => S i + T i) (ss ++ ss') (vs ++ ws) where
  once i := (timesBound_row i ss ss').trans_le (Nat.add_le_add (h.once i) (h'.once i))
  inScope Γ := (h.inScope Γ).append (h'.inScope _)
  values := by
    rw [flatMap_append]
    exact forall_mem_append.2
      ⟨h.values.mono (subset_append_left ..), h'.values.mono (subset_append_right ..)⟩

/-- A statement that is in scope where the values are may follow them. -/
theorem Neat.snoc (h : Neat S ss vs) (hs : ∀ Γ, Within Γ vs → StmtScoped Γ s)
    (hT : ∀ i, timesBound i s.patterns ≤ T i) (hw : ∀ Γ, Within Γ vs → lets s ⊆ Γ → Within Γ ws) :
    Neat (fun i => S i + T i) (ss ++ [s]) ws where
  once i := by
    rw [timesBound_row, rowPatterns, rowPatterns, append_nil]
    exact Nat.add_le_add (h.once i) (hT i)
  inScope Γ := (h.inScope Γ).append (.cons (hs _ (h.values.mono (by simp))) .nil)
  values := hw _ (h.values.mono (by simp)) (by simp)

theorem Neat.keep {v : Expr} (h : Neat S ss (v :: vs)) (t : Temp) (j : ℕ) :
    Neat (fun i => S i + drawn j (j + 1) i) (ss ++ [t.kept (j + 1) v])
      (.name v.region (t.name (j + 1)) :: v :: vs) := by
  refine h.snoc (fun Γ hv => .mk (within_cons.1 hv).1 ?_ nofun) (timesBound_kept t j v)
    fun Γ hv ht => ?_
  · exact forall_mem_singleton.2 fun b hb _ => mem_map_of_mem hb
  · refine within_cons.2 ⟨within_iff.2 ⟨fun x hx _ => ?_, within_nil⟩, hv⟩
    exact Option.some.inj hx ▸ ht mem_cons_self

/-! ## Expressions -/

/-- The statements and values are neat, with the numbers from `n + 1` to `k`. -/
def Fits (n : ℕ) (ss : List Stmt) (vs : List Expr) (k : ℕ) : Prop := n ≤ k ∧ Neat (drawn n k) ss vs

theorem fits_nil (h : Within [] vs) : Fits n [] vs n := ⟨le_rfl, neat_nil h⟩

theorem Fits.append (h : Fits n ss vs k) (h' : Fits k ss' ws m) : Fits n (ss ++ ss') (vs ++ ws) m :=
  ⟨h.1.trans h'.1, (h.2.append h'.2).mono fun i => (drawn_add h.1 h'.1 i).le⟩

theorem Fits.imp (h : Fits n ss vs k) (hw : ∀ Γ, Within Γ vs → Within Γ ws) : Fits n ss ws k :=
  ⟨h.1, h.2.imp hw⟩

/-- What is kept may be read by one statement more. -/
theorem Fits.keep {v w : Expr} (h : Fits n ss (v :: vs) k) (t : Temp)
    (hs : ∀ Γ, Within Γ (.name v.region (t.name (k + 1)) :: v :: vs) → StmtScoped Γ s)
    (hT : ∀ i, timesBound i s.patterns = 0)
    (hw : ∀ Γ, Within Γ [.name v.region (t.name (k + 1))] → Within Γ [w]) :
    Fits n (ss ++ [t.kept (k + 1) v, s]) [w] (k + 1) := by
  refine ⟨h.1.trans k.le_succ, ?_⟩
  rw [append_cons]
  exact ((h.2.keep t k).snoc hs (T := fun _ => 0) (fun i => (hT i).le) fun Γ hv _ =>
    hw Γ (within_cons.1 hv).1).mono fun i => (drawn_add h.1 k.le_succ i).le

theorem protect_neat {v : Expr} (h : Neat S ss [v]) (pending : Bool) (j : ℕ) :
    Gives (protect c pending v) j fun p m => j ≤ m ∧
      Neat (fun i => S i + drawn j m i) (ss ++ p.before) [p.value] := by
  unfold protect
  split
  · exact gives_bind.2 (gives_keep.2 (gives_pure.2
      ⟨j.le_succ, (h.keep .operand j).imp fun _ h => (within_cons.1 h).1⟩))
  · refine gives_pure.2 ⟨le_rfl, ?_⟩
    rw [append_nil]
    exact h.mono fun i => Nat.le_add_right ..

theorem row_fits {es : List Expr} {ls : List Lowered}
    (h : Row (fun _ n l k => Fits n l.before [l.value] k) es n ls k) :
    Fits n (ls.flatMap Lowered.before) (ls.map Lowered.value) k := by
  induction h with
  | nil => exact fits_nil within_nil
  | cons hl _ ih => exact hl.append ih

/-- **Spilled operands are neat**: what runs before them keeps its numbers, and those that are kept
get new ones. -/
theorem spill_neat {es : List Expr} {ls : List Lowered}
    (h : Row (fun _ n l k => Fits n l.before [l.value] k) es n ls k) (j : ℕ) :
    Gives (spill c ls) j fun q m => j ≤ m ∧ Neat (fun i => drawn n k i + drawn j m i) q.1 q.2 := by
  induction h generalizing j with
  | nil => exact gives_pure.2 ⟨le_rfl, neat_nil within_nil⟩
  | cons hl hls ih =>
    refine (protect_neat hl.2 _ j).bind fun p j' hp => (ih j').bind fun q m hq => gives_pure.2 ?_
    refine ⟨hp.1.trans hq.1, (hp.2.append hq.2).mono fun i => ?_⟩
    have hbefore := drawn_add hl.1 (row_fits hls).1 i
    have hkept := drawn_add hp.1 hq.1 i
    omega

theorem name?_withOperands (e : Expr) (vs : List Expr) : (e.withOperands vs).name? = e.name? := by
  fun_cases Expr.withOperands e vs <;> rfl

theorem Fits.yield {l : Lowered} (h : Fits n l.before [l.value] k) (r : Region) :
    Fits n (lowerYield r l).before [(lowerYield r l).value] k :=
  ⟨h.1, h.2.snoc (T := fun _ => 0) (fun _ hv => .leaf hv rfl rfl) (fun _ => le_rfl) fun _ _ _ =>
    within_of_names rfl⟩

theorem onResidual_scoped (Γ : List String) (c : Context) (r : Region) (t : Expr) :
    rowPatterns (onResidual c r t) = [] ∧ (Within Γ [t] → RowScoped Γ (onResidual c r t)) := by
  have hresidual (h : Within Γ [t]) : Within Γ [.helper r .residual [t]] :=
    (within_operands rfl).2 h
  unfold onResidual
  split
  · exact ⟨rfl, fun h => .cons (.leaf (hresidual h) rfl rfl) .nil⟩
  · split
    · exact ⟨rfl, fun h =>
        .cons (.leaf (hresidual h) rfl rfl) (.cons (.leaf within_nil rfl rfl) .nil)⟩
    · exact ⟨rfl, fun _ => .cons (.leaf within_nil rfl rfl) .nil⟩

/-- **What an expression is lowered to is in scope wherever it stands**, with numbers of its own. -/
theorem fits_cases : Cases c fun e n l k => Within [] [e] → Fits n l.before [l.value] k where
  strict {e n ls k} _ hrow hoperands hfree := by
    obtain ⟨hname, hfree⟩ := within_iff.1 hfree
    have hrow := hrow.mono fun o ho _ _ _ h => h (forall_mem_singleton.2 (hfree o ho))
    obtain ⟨hle, hneat⟩ := spill_neat (c := c) hrow k
    refine ⟨(row_fits hrow).1.trans hle,
      (hneat.mono fun i => (drawn_add (row_fits hrow).1 hle i).le).imp ?_⟩
    refine fun Γ hvs => within_iff.2 ⟨fun x hx ht => ?_, by rwa [hoperands]⟩
    rw [name?_withOperands] at hx
    exact absurd (hname x hx ht) not_mem_nil
  pause _ := Fits.yield (l := ⟨[], unitAt _⟩) (fits_nil (within_of_names rfl)) _
  yield h hfree := (h ((within_operands rfl).1 hfree)).yield _
  attempt {r e n l k} h := by
    refine gives_bind.2 (gives_keep.2 (gives_pure.2 fun hfree => ?_))
    refine (h ((within_operands rfl).1 hfree)).keep .outcome (fun Γ hv => ?_)
      (fun i => ?_) fun Γ ht =>
      (within_operands rfl).2 ht
    · have ht := (within_cons.1 hv).1
      exact .mk ((within_operands rfl).2 ht) binds_nil
        (forall_mem_singleton.2 (.mk ((onResidual_scoped Γ c r _).2 ht) within_nil))
    · exact congrArg (timesBound i) (onResidual_scoped [] c r _).1
  decide {r op e₁ e₂ n a k b m} _ ha hb := by
    unfold lowerLazy
    split
    · next hpending =>
      refine gives_pure.2 fun hfree => ?_
      obtain ⟨ha', hb'⟩ := within_cons.1 ((within_operands rfl).1 hfree)
      have hboth := (ha ha').append (hb hb')
      rw [show b.before = [] by simpa [Lowered.isPending] using hpending, append_nil] at hboth
      exact hboth.imp fun Γ hv => (within_operands rfl).2 hv
    · refine gives_bind.2 (gives_keep.2 (gives_pure.2 fun hfree => ?_))
      obtain ⟨ha', hb'⟩ := within_cons.1 ((within_operands rfl).1 hfree)
      obtain ⟨⟨hnk, ha⟩, hkm, hb⟩ := And.intro (ha ha') (hb hb')
      dsimp only
      rw [append_cons]
      -- the right operand has its numbers from before the choice is kept
      refine ⟨by omega, ((ha.keep .choice m).snoc (T := drawn k m) (fun Γ hv => ?_) (fun i => ?_)
        fun Γ hv _ => (within_cons.1 hv).1).mono fun i => ?_⟩
      · have ht := (within_cons.1 hv).1
        refine .mk ?_ binds_nil (forall_mem_singleton.2 (.mk ((hb.inScope Γ).append (.cons (.leaf
          (within_cons.2 ⟨ht.mono (by simp), hb.values.mono (by simp)⟩) rfl rfl) .nil)) within_nil))
        show Within Γ [ite _ _ _]
        split
        · exact ht
        · exact (within_operands rfl).2 ht
      · exact (timesBound_row i b.before [_]).trans_le (hb.once i)
      · have hright := drawn_add hnk hkm i
        have hchoice := drawn_add (hnk.trans hkm) (Nat.le_add_right m 1) i
        omega
  swap {r e method es n a k bs m} _ ha hbs := by
    have hboth (hfree : Within [] [.methodCall r e method es]) :
        Fits n (a.before ++ bs.flatMap Lowered.before) (a.value :: bs.map Lowered.value) m := by
      obtain ⟨ha', hbs'⟩ := within_cons.1 ((within_operands rfl).1 hfree)
      exact (ha ha').append
        (row_fits (hbs.mono fun o ho _ _ _ h => h (forall_mem_singleton.2 (hbs' o ho))))
    unfold lowerSwap
    split
    · exact gives_pure.2 fun hfree => (hboth hfree).imp fun Γ hv => (within_operands rfl).2 hv
    · refine gives_bind.2 (gives_keep.2 (gives_pure.2 fun hfree => ?_))
      refine (hboth hfree).keep .operand (fun Γ hv => ?_) (fun _ => rfl) fun Γ ht => ht
      obtain ⟨ha, hvs⟩ := within_cons.1 (within_cons.1 hv).2
      refine .leaf (within_cons.2 ⟨ha, ?_⟩) rfl rfl
      show Within Γ [ite _ _ _]
      split
      · exact within_of_names rfl
      · exact (within_operands rfl).2 (within_cons.2 ⟨within_of_names rfl, hvs⟩)

/-! ## Statements -/

/-- The blocks bind temporaries with the numbers from `n + 1` to `k` and are in scope wherever they
stand. -/
structure Blocks (n : ℕ) (bs : List Block) (k : ℕ) : Prop where
  le : n ≤ k
  once : ∀ i, timesBound i (bs.flatMap Block.patterns) ≤ drawn n k i
  inScope : ∀ b ∈ bs, ∀ Γ, BlockScoped Γ b

theorem Blocks.nil (h : n ≤ k) : Blocks n [] k := ⟨h, fun _ => Nat.zero_le _, nofun⟩

theorem Blocks.append {as bs : List Block} (h : Blocks n as k) (h' : Blocks k bs m) :
    Blocks n (as ++ bs) m where
  le := h.le.trans h'.le
  once i := by
    rw [flatMap_append, timesBound_append, ← drawn_add h.le h'.le]
    exact Nat.add_le_add (h.once i) (h'.once i)
  inScope := forall_mem_append.2 ⟨h.inScope, h'.inScope⟩

theorem patterns_eq (b : Block) : b.patterns = rowPatterns b.stmts := by
  cases b
  rfl

theorem Fits.block {b : Block} (h : Fits n b.stmts b.tail.toList k) : Blocks n [b] k where
  le := h.1
  once i := by
    rw [flatMap_singleton, patterns_eq]
    exact h.2.once i
  inScope := forall_mem_singleton.2 fun Γ =>
    .mk (h.2.inScope Γ) (h.2.values.mono (subset_append_right ..))

theorem Fits.stmt (h : Fits n ss (s.heads ++ s.guards) k) (hp : Binds [] (opens s))
    (hb : Blocks k s.children m) : Fits n (ss ++ [s]) [] m := by
  refine ⟨h.1.trans hb.le,
    (h.2.snoc (fun Γ hv => .mk hv ?_ fun b hb' => hb.inScope b hb' Γ) (fun i => ?_)
    fun _ _ _ => within_nil).mono fun i => (drawn_add h.1 hb.le i).le⟩
  · exact fun q hq b hb ht => absurd (hp q hq b hb ht) not_mem_nil
  · rw [timesBound_patterns, timesBound_source hp, Nat.zero_add]
    exact hb.once i

theorem fits_stmt (h : Within [] (s.heads ++ s.guards)) (hp : Binds [] (opens s))
    (hb : Blocks n s.children k) : Fits n [s] [] k :=
  (fits_nil h).stmt hp hb

theorem lowerCondition_fits {condition : Condition} (h : Within [] [condition.value]) :
    Gives (lowerCondition c condition) n fun q k =>
      Fits n q.1 [q.2.value] k ∧ q.2.patterns = condition.patterns := by
  cases condition <;> exact (fits_cases.lowerExpr _ n).bind fun l k hl => gives_pure.2 ⟨hl h, rfl⟩

theorem lowerGuard_fits {guard : Option Expr} (h : ∀ e ∈ guard, Within [] [e]) :
    Gives (lowerGuard c guard) n fun g k => n ≤ k ∧ g = guard := by
  refine ⟨?_, lowerGuard_same guard⟩
  cases guard with
  | none => exact le_rfl
  | some e => exact (fits_cases.lowerExpr e n (h e rfl)).1

theorem lowerTail_fits {tail : Option Expr} (h : ∀ e ∈ tail, Within [] [e]) :
    Gives (lowerTail c tail) n fun q k => Fits n q.1 q.2.toList k := by
  cases tail with
  | none => exact gives_pure.2 (fits_nil within_nil)
  | some e =>
    refine (fits_cases.lowerExpr e n).bind fun l k hl =>
      gives_pure.2 ((hl (h e rfl)).imp fun Γ hv => ?_)
    split
    · exact within_nil
    · exact hv

theorem lowerWhile_fits {r : Region} {condition : Condition} {b : Block}
    (h : Fits n ss [condition.value] k) (hq : Binds [] condition.patterns)
    (hb : Fits k b.stmts b.tail.toList m) : Fits n [lowerWhile r ss condition b] [] m := by
  have hexit (j : ℕ) : Blocks j [.mk [.breakLoop r] r none] j :=
    Fits.block (b := .mk _ r none) (fits_stmt within_nil binds_nil (.nil le_rfl))
  unfold lowerWhile
  split
  · next hnil =>
    rw [isEmpty_iff.1 hnil] at h
    exact Fits.stmt (s := .whileDo r condition b) h hq hb.block
  · dsimp only
    split
    · next r' p value =>
      have hrow :=
        h.stmt (s := .ifElse r (.letMatch r' p value) b (some (.mk [.breakLoop r] r none))) hq
        (hb.block.append (hexit m))
      exact fits_stmt within_nil binds_nil (hrow.block (b := .mk _ _ none))
    · next e =>
      have hleave :=
        Fits.stmt (s := .ifElse r (.test (.unary e.region .not e)) (.mk [.breakLoop r] r none) none)
        (h.imp fun Γ hv => (within_operands rfl).2 hv) binds_nil (hexit k)
      exact fits_stmt within_nil binds_nil ((hleave.append hb).block (b := .mk _ _ b.tail))

mutual

/-- **What a statement is lowered to is in scope wherever it stands**, with numbers of its own. -/
theorem lowerStmt_fits : ∀ {c : Context} {p : Flow.Place} {l : Bool} {n : ℕ} (s : Stmt),
    s.Under temporaryFree p l → Gives (lowerStmt c s) n fun ss k => Fits n ss [] k
  | _, _, _, _, .letIn _ _ _ value none, hs => (fits_cases.lowerExpr value _).bind fun _ _ hl =>
    gives_pure.2 ((hl hs.2).stmt hs.1 (.nil le_rfl))
  | _, _, _, _, .letIn _ _ _ value (some b), hs | _, _, _, _, .forIn _ _ value b, hs =>
    (fits_cases.lowerExpr value _).bind fun _ _ hl => (lowerBlock_fits b hs.2.2).bind fun _ _ hb =>
      gives_pure.2 ((hl hs.2.1).stmt hs.1 hb.block)
  | _, _, _, n, .assign _ target value _, hs => by
    refine (fits_cases.lowerExpr value _).bind fun v k hv =>
      (fits_cases.lowerExpr target _).bind fun t m ht => ?_
    obtain ⟨⟨hnk, hv⟩, hkm, ht⟩ := And.intro (hv hs.2.2) (ht hs.2.1)
    refine (protect_neat hv _ m).bind fun p m' hp => gives_pure.2 ?_
    have hboth : Fits n (v.before ++ p.before ++ t.before) [p.value, t.value] m' := by
      refine ⟨by omega, (hp.2.append ht).mono fun i => ?_⟩
      have hparts := drawn_add hnk hkm i
      have hkept := drawn_add (hnk.trans hkm) hp.1 i
      omega
    refine (hboth.imp fun _ hv => ?_).stmt binds_nil (.nil le_rfl)
    exact within_cons.2 (within_cons.1 hv).symm
  | _, _, _, _, .expr _ value, hs => by
    refine (fits_cases.lowerExpr value _).bind fun l _ hl => gives_pure.2 ?_
    split
    · rw [append_nil]
      exact (hl hs.2).imp fun _ _ => within_nil
    · exact (hl hs.2).stmt binds_nil (.nil le_rfl)
  | c, _, _, _, .ret _ none, _ => by
    refine gives_pure.2 ?_
    split <;> exact fits_stmt within_nil binds_nil (.nil le_rfl)
  | c, _, _, _, .ret _ (some value), hs => by
    refine (fits_cases.lowerExpr value _).bind fun l _ hl => gives_pure.2 ?_
    have hl := hl (hs.2 value rfl)
    split
    · exact hl.stmt binds_nil (.nil le_rfl)
    · exact (hl.imp fun _ _ => within_nil).stmt binds_nil (.nil le_rfl)
  | _, _, _, _, .ifElse r condition a none, hs => by
    refine (lowerCondition_fits hs.2.1).bind fun q _ hq =>
      (lowerBlock_fits a hs.2.2).bind fun a _ ha =>
      gives_pure.2 (hq.1.stmt ?_ ha.block)
    exact (congrArg (Binds []) hq.2).mpr hs.1
  | _, _, _, _, .ifElse r condition a (some b), hs => by
    refine (lowerCondition_fits hs.2.1).bind fun q _ hq =>
      (lowerBlock_fits a hs.2.2.1).bind fun a _ ha =>
      (lowerBlock_fits b hs.2.2.2).bind fun b _ hb =>
        gives_pure.2 (hq.1.stmt ?_ (ha.block.append hb.block))
    exact (congrArg (Binds []) hq.2).mpr hs.1
  | _, _, _, _, .whileDo r condition b, hs =>
    (lowerCondition_fits hs.2.1).bind fun q _ hq => (lowerBlock_fits b hs.2.2).bind fun b _ hb =>
      gives_pure.2 (lowerWhile_fits hq.1 (hq.2 ▸ hs.1) hb)
  | _, _, _, _, .loop _ b, hs | _, _, _, _, .block _ b, hs | _, _, _, _, .fn _ _ _ _ b, hs =>
    (lowerBlock_fits b hs.2).bind fun _ _ hb =>
      gives_pure.2 (fits_stmt within_nil binds_nil hb.block)
  | _, _, _, _, .matchOn _ subject arms, hs => by
    refine (fits_cases.lowerExpr subject _).bind fun _ _ hl =>
      (lowerArms_fit arms hs.2.2).bind fun _ _ ha =>
      gives_pure.2 (((hl hs.2.1).imp fun Γ hv => ?_).stmt ?_ ha.1)
    · exact within_cons.2 ⟨hv, ha.2.2.mono (nil_subset Γ)⟩
    · exact (congrArg (Binds []) ha.2.1).mpr hs.1
  | _, _, _, _, .breakLoop _, _ | _, _, _, _, .continueLoop _, _ | _, _, _, _, .terminate _, _ =>
    gives_pure.2 (fits_stmt within_nil binds_nil (.nil le_rfl))
  | _, _, _, _, .suspend _ value, hs =>
    gives_pure.2 (fits_stmt hs.2 binds_nil (.nil le_rfl))

theorem lowerStmts_fit : ∀ {c : Context} {p : Flow.Place} {l : Bool} {n : ℕ} (ss : List Stmt),
    rowUnder temporaryFree p l ss → Gives (lowerStmts c ss) n fun ss k => Fits n ss [] k
  | _, _, _, _, [], _ => gives_pure.2 (fits_nil within_nil)
  | _, _, _, _, s :: ss, hss => (lowerStmt_fits s hss.1).bind fun _ _ hs =>
    (lowerStmts_fit ss hss.2).bind fun _ _ hss => gives_pure.2 (hs.append hss)

theorem lowerBlock_fits : ∀ {c : Context} {p : Flow.Place} {l : Bool} {n : ℕ} (b : Block),
    b.Under temporaryFree p l → Gives (lowerBlock c b) n fun b k => Fits n b.stmts b.tail.toList k
  | _, _, _, _, .mk stmts _ _, hb => (lowerStmts_fit stmts hb.1).bind fun _ _ hss =>
    (lowerTail_fits hb.2).bind fun _ _ ht => gives_pure.2 (hss.append ht)

theorem lowerArms_fit : ∀ {c : Context} {p : Flow.Place} {l : Bool} {n : ℕ} (arms : List Arm),
    armsUnder temporaryFree p l arms → Gives (lowerArms c arms) n fun arms' k =>
      Blocks n (arms'.map Arm.body) k ∧ arms'.map Arm.pattern = arms.map Arm.pattern ∧
        Within [] (arms'.filterMap Arm.guard)
  | _, _, _, _, [], _ => gives_pure.2 ⟨.nil le_rfl, rfl, within_nil⟩
  | _, _, _, _, .mk _ q guard b :: arms, ha => by
    refine (lowerGuard_fits ha.1).bind fun g k hg => (lowerBlock_fits b ha.2.1).bind fun _ _ hb =>
      (lowerArms_fit arms ha.2.2).bind fun _ _ harms => gives_pure.2
        ⟨((Blocks.nil hg.1).append hb.block).append harms.1, congrArg (q :: ·) harms.2.1, ?_⟩
    obtain rfl := hg.2
    cases g with
    | none => exact harms.2.2
    | some e => exact within_cons.2 ⟨ha.1 e rfl, harms.2.2⟩

end

/-- **Temporaries are well scoped.**  If no identifier of an item has the form of a temporary, then
in what it is lowered to no two temporaries are bound with one number, each is bound by a `let`, and
each is read only in the scope of that `let`. -/
theorem lower_temporaries_scoped (d : Definition) (h : d.Under temporaryFree) :
    (∀ i, timesBound i (rowPatterns d.lower.prelude ++ d.lower.body.patterns) ≤ 1) ∧
      RowScoped [] d.lower.prelude ∧ BlockScoped [] d.lower.body := by
  have hprelude := lowerStmts_fit (c := preludeContext d) (n := 0) d.prelude h.prelude
  have hbody :=
    lowerBlock_fits (c := bodyContext d) (n := after (lowerStmts (preludeContext d) d.prelude) 0)
    d.body h.body
  refine ⟨fun i => ?_, hprelude.2.inScope [], hbody.block.inScope _ mem_cons_self []⟩
  rw [timesBound_append, patterns_eq]
  refine (Nat.add_le_add (hprelude.2.once i) (hbody.2.once i)).trans
    ((drawn_add hprelude.1 hbody.1 i).trans_le ?_)
  rw [drawn]
  split <;> omega

theorem busy_temporaries_scoped : busy.Under temporaryFree ∧
    (∀ i, timesBound i busy.lower.body.patterns ≤ 1) ∧ BlockScoped [] busy.lower.body := by
  have h : busy.Under temporaryFree := by
    refine ⟨trivial,
      ⟨⟨⟨nofun, within_of_names rfl, ⟨⟨nofun, ⟨trivial, nofun⟩⟩, ⟨nofun, within_of_names rfl,
      within_of_names rfl⟩, trivial⟩, nofun⟩, ⟨nofun, nofun⟩, trivial⟩, nofun⟩, nofun⟩
  obtain ⟨honce, -, hbody⟩ := lower_temporaries_scoped busy h
  exact ⟨h, honce, hbody⟩

/-- `let __try1 = g(); let x = g()?; yield __try1;`. -/
def masked : Definition :=
  numbers [] [
    .letIn default (.bind default "__try1" false) none (.call default (.name default "g") []) none,
    .letIn default (.bind default "x" false) none
      (.attempt default (.call default (.name default "g") [])) none,
    .expr default (.yield default (some (.name default "__try1")))]

/-- **A temporary may hide a name of the source** that has its form: what is yielded is bound by the
first `let`, and once lowered by the one that lowering adds. -/
theorem temporary_hides_name :
    hasErrors (Legality.check none masked) = false ∧
      hasErrors (Typing.checkReturns none masked) = false ∧
    masked.body.stmts.map lets = [["__try1"], ["x"], []] ∧
    masked.lower.body.stmts.map lets = [["__try1"], ["__try1"], [], ["x"], []] ∧
    masked.lower.body.stmts.getLast? = some (.suspend default (.name default "__try1")) :=
  ⟨rfl, rfl, rfl, rfl, rfl⟩

end Yielding.Lowering
