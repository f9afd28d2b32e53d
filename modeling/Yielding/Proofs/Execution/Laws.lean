import Mathlib.Data.Set.Function
import Yielding.Proofs.Coupling
import Yielding.Proofs.Every
import Yielding.Proofs.Execution.Run
import Yielding.Script.Body

/-!
# Proofs/Execution/Laws — laws of runs

What holds of the result of a run whatever its log (`Ensures`), the run of two rows of statements in
a row (`execRow_append`), and that an expression reads nothing but its own names (`eval_congr`).
-/

namespace Yielding.Execution

variable {V α β : Type}

/-! ## Runs side by side -/

section Agree

variable {γ δ : Type} {x : Run V α} {y : Run V β} {R Q : α → β → Prop}

/-- Two runs **agree** when, from every log, they leave the same log with the same exit or with
related results. -/
def Agree (R : α → β → Prop) (x : Run V α) (y : Run V β) : Prop := Lockstep Eq R x y

theorem Agree.mono (h : Agree R x y) (hRQ : ∀ a b, R a b → Q a b) : Agree Q x y :=
  fun s t hs => (h s t hs).mono fun a _ b _ hab => ⟨hRQ a b hab.1, hab.2⟩

theorem Agree.bind {P : γ → δ → Prop} {f : α → Run V γ} {g : β → Run V δ} (h : Agree R x y)
    (k : ∀ a b, R a b → Agree P (f a) (g b)) : Agree P (x >>= f) (y >>= g) :=
  Lockstep.bind h k

theorem agree_pure {a : α} {b : β} (h : R a b) : Agree R (pure a : Run V α) (pure b) :=
  lockstep_pure h

theorem agree_stop {e : Exit} : Agree R (stop e : Run V α) (stop e) := by
  rintro log _ rfl
  rfl

theorem Agree.refl (x : Run V α) : Agree Eq x x := lockstep_refl (fun _ => rfl) x

/-- **Runs that agree on their results are the same.** -/
theorem Agree.eq {x y : Run V α} (h : Agree Eq x y) : x = y := by
  funext log
  change x.run log = y.run log
  obtain ⟨_, _, _, _, hx, hy, rfl, rfl⟩ | ⟨e, hx, hy⟩ := (h log log rfl).cases
  all_goals rw [hx, hy]

end Agree

/-! ## Results -/

/-- The result has the property, if there is a result. -/
abbrev Ensures (x : Run V α) (P : α → Prop) : Prop := Agree (fun a b => a = b ∧ P a) x x

theorem ensures_pure {a : α} {P : α → Prop} (h : P a) : Ensures (pure a : Run V α) P :=
  agree_pure ⟨rfl, h⟩

theorem Ensures.trivial (x : Run V α) : Ensures x fun _ => True :=
  (Agree.refl x).mono fun _ _ h => ⟨h, True.intro⟩

theorem Ensures.bind {x : Run V α} {f : α → Run V β} {P : α → Prop} {Q : β → Prop}
    (h : Ensures x P) (k : ∀ a, P a → Ensures (f a) Q) : Ensures (x >>= f) Q := by
  refine Agree.bind h fun a b hab => ?_
  obtain ⟨rfl, ha⟩ := hab
  exact k a ha

/-- **What follows a computation only has to agree on the results it can have.** -/
theorem Ensures.bind_congr {x : Run V α} {f g : α → Run V β} {P : α → Prop} (h : Ensures x P)
    (hfg : ∀ a, P a → f a = g a) : x >>= f = x >>= g := by
  refine Agree.eq (Agree.bind h fun a b hab => ?_)
  obtain ⟨rfl, ha⟩ := hab
  rw [hfg a ha]
  exact Agree.refl _

@[simp] theorem stop_bind (e : Exit) (f : α → Run V β) : (stop e >>= f : Run V β) = stop e := rfl

@[simp] theorem leave_bind (m : Machine V) (r : V) (f : α → Run V β) :
    (m.leave r >>= f : Run V β) = m.leave r := by
  cases h : m.yieldsResidual <;> simp [Machine.leave, h]

theorem ensures_leave (m : Machine V) (r : V) {P : α → Prop} : Ensures (m.leave r) P := by
  cases h : m.yieldsResidual
  · simpa [Machine.leave, h] using agree_stop
  · simpa [Machine.leave, h] using (Ensures.trivial _).bind fun _ _ => agree_stop

/-! ## Environments -/

theorem bindAll_cons (σ : Env V) (b : String × V) (bs : List (String × V)) :
    bindAll σ (b :: bs) = ⟨(bindAll (Function.update σ b.1 b.2) bs).env,
      (bindAll (Function.update σ b.1 b.2) bs).covered ++ [(b.1, σ b.1)],
      (bindAll (Function.update σ b.1 b.2) bs).flow⟩ := by
  have key : ∀ (bs : List (String × V)) (a : After V) (c : List (String × V)),
      bs.foldl After.bind { a with covered := a.covered ++ c }
        = { bs.foldl After.bind a with covered := (bs.foldl After.bind a).covered ++ c } := by
    intro bs
    induction bs with
    | nil => intro a c; rfl
    | cons b bs ih =>
      intro a c
      exact ih (a.bind b) c
  exact key bs ⟨Function.update σ b.1 b.2, [], .next⟩ [(b.1, σ b.1)]

@[simp] theorem bindAll_nil (σ : Env V) : bindAll σ [] = ⟨σ, [], .next⟩ := rfl

@[simp] theorem bindAll_flow (σ : Env V) (bs : List (String × V)) :
    (bindAll σ bs).flow = .next := by
  induction bs generalizing σ with
  | nil => rfl
  | cons b bs ih => rw [bindAll_cons]; exact ih _

theorem restore_append (c d : List (String × V)) (σ : Env V) :
    restore (c ++ d) σ = restore d (restore c σ) := List.foldl_append

/-- **Putting back what bindings have covered undoes them.** -/
theorem restore_bindAll (σ : Env V) (bs : List (String × V)) :
    restore (bindAll σ bs).covered (bindAll σ bs).env = σ := by
  induction bs generalizing σ with
  | nil => rfl
  | cons b bs ih =>
    rw [bindAll_cons, restore_append, ih]
    simp [restore]

theorem bindAll_of_notMem {x : String} :
    ∀ {bs : List (String × V)}, x ∉ bs.map Prod.fst → ∀ σ : Env V, (bindAll σ bs).env x = σ x
  | [], _, _ => rfl
  | b :: bs, h, σ => by
    rw [List.map_cons, List.mem_cons, not_or] at h
    rw [bindAll_cons]
    exact (bindAll_of_notMem h.2 _).trans (Function.update_of_ne h.1 b.2 σ)

/-! ## Rows of statements -/

namespace Machine

variable (m : Machine V)
variable (n : ℕ)

@[simp] theorem andThen_next (σ : Env V) (c : List (String × V)) (rest : Env V → Run V (After V)) :
    andThen ⟨σ, c, .next⟩ rest = do
      let b ← rest σ
      return ⟨b.env, b.covered ++ c, b.flow⟩ := rfl

theorem andThen_start (σ : Env V) (rest : Env V → Run V (After V)) :
    andThen ⟨σ, [], .next⟩ rest = rest σ := by
  simp only [andThen_next, List.append_nil]
  exact bind_pure _

theorem andThen_assoc (a : After V) (f g : Env V → Run V (After V)) :
    (andThen a f >>= fun b => andThen b g) = andThen a fun σ => f σ >>= fun b => andThen b g := by
  obtain ⟨σ, c, flow⟩ := a
  cases flow with
  | next =>
    simp only [andThen_next, bind_assoc, pure_bind]
    refine bind_congr fun b => ?_
    obtain ⟨τ, d, flow⟩ := b
    cases flow with
    | next => simp only [andThen_next, bind_assoc, pure_bind, List.append_assoc]
    | leave => rfl
    | again => rfl
  | leave => rfl
  | again => rfl

/-- **A row of statements runs part by part.** -/
theorem execRow_append (σ : Env V) (xs ys : List Stmt) :
    m.execRow n σ (xs ++ ys)
      = m.execRow n σ xs >>= fun a => andThen a fun σ => m.execRow n σ ys := by
  induction xs generalizing σ with
  | nil => simp [execRow, skip]
  | cons x xs ih =>
    simp only [List.cons_append, execRow, bind_assoc, ih]
    exact bind_congr fun a => (andThen_assoc a _ _).symm

theorem execRow_singleton (σ : Env V) (s : Stmt) : m.execRow n σ [s] = m.exec n σ s := by
  rw [execRow]
  refine Eq.trans (bind_congr fun a => ?_) (bind_pure _)
  obtain ⟨τ, c, flow⟩ := a
  cases flow <;> rfl

/-! ## Blocks -/

theorem fnBindings_append (xs ys : List Stmt) :
    m.fnBindings (xs ++ ys) = m.fnBindings xs ++ m.fnBindings ys := List.filterMap_append

theorem fnBindings_names (stmts : List Stmt) :
    (m.fnBindings stmts).map Prod.fst = fnNames stmts := by
  rw [fnBindings, fnNames, List.map_filterMap]
  congr 1
  funext s
  cases s <;> rfl

/-- Executes the statements and the tail of a block, without ending its bindings. -/
def inside (n : ℕ) (σ : Env V) (stmts : List Stmt) (tail : Option Expr) : Run V (After V) := do
  let a ← m.execRow n σ stmts
  m.evalTail tail a
  return a

theorem evalTail_none (a : After V) : m.evalTail none a = pure () := by
  obtain ⟨σ, c, flow⟩ := a
  cases flow <;> rfl

theorem inside_none (σ : Env V) (stmts : List Stmt) :
    m.inside n σ stmts none = m.execRow n σ stmts := by
  simp [inside, evalTail_none]

theorem inside_nil (σ : Env V) (tail : Option Expr) :
    m.inside n σ [] tail = m.evalOptional σ tail >>= fun _ => pure ⟨σ, [], .next⟩ := by
  rw [inside, execRow, skip, pure_bind]
  rfl

theorem inside_append (σ : Env V) (xs ys : List Stmt) (tail : Option Expr) :
    m.inside n σ (xs ++ ys) tail
      = m.execRow n σ xs >>= fun a => andThen a fun σ => m.inside n σ ys tail := by
  rw [inside, execRow_append, bind_assoc]
  refine bind_congr fun a => ?_
  obtain ⟨τ, c, flow⟩ := a
  cases flow with
  | next =>
    simp only [andThen_next, inside, bind_assoc, pure_bind]
    rfl
  | leave => rfl
  | again => rfl

/-- **A block binds its functions, runs, and ends its bindings.** -/
theorem execBlock_eq (σ : Env V) (bs : List (String × V)) (b : Block) :
    m.execBlock n σ bs b
      = close <$> andThen (bindAll σ (bs ++ m.fnBindings b.stmts)) fun σ =>
          m.inside n σ b.stmts b.tail := by
  obtain ⟨stmts, r, tail⟩ := b
  rw [execBlock]
  rcases h : bindAll σ (bs ++ m.fnBindings stmts) with ⟨τ, c, flow⟩
  obtain rfl : flow = .next := by rw [← bindAll_flow σ (bs ++ m.fnBindings stmts), h]
  simp only [Block.stmts, Block.tail, h, andThen_next, inside, bind_assoc, pure_bind, map_bind,
    map_pure]
  rfl

theorem close_execBlock (σ : Env V) (bs : List (String × V)) (b : Block) :
    close <$> m.execBlock n σ bs b = m.execBlock n σ bs b := by
  rw [execBlock_eq, ← comp_map]
  rfl

/-- One round of a `while`. -/
def whileRound (n : ℕ) (cond : Condition) (b : Block) (σ : Env V) : Run V (After V) :=
  m.decide? σ cond >>= fun
    | some bs => m.execBlock n σ bs b
    | none => return ⟨σ, [], .leave⟩

theorem close_whileRound (cond : Condition) (b : Block) (σ : Env V) :
    close <$> m.whileRound n cond b σ = m.whileRound n cond b σ := by
  rw [whileRound, map_bind]
  refine bind_congr fun o => ?_
  cases o with
  | some bs => exact m.close_execBlock n σ bs b
  | none => rfl

/-! ## Expressions -/

/-- What an expression does with the values of its operands. -/
def conclude : Expr → List V → Run V V
  | .literal _ value, _ => return m.values.literal value
  | .path _ segments, _ => return m.values.path segments
  | .call .., vs => m.ask .call vs
  | .methodCall _ _ method _, vs => m.ask (.method method) vs
  | .field _ _ attr, vs => m.ask (.read (.field attr)) vs
  | .tupleField _ _ index, vs => m.ask (.read (.component index)) vs
  | .index .., vs => m.ask (.read .item) vs
  | .unary _ .deref _, vs => m.ask (.read .target) vs
  | .unary _ .neg _, vs => m.ask .negate vs
  | .unary _ .not _, [v] => return m.bool (!m.values.isTrue v)
  | .borrow _ _ mutable, vs => m.ask (.borrow mutable) vs
  | .binary _ op _ _, vs => m.ask (.operator op) vs
  | .range _ _ _ inclusive, [v, w] => return m.values.range v w inclusive
  | .tuple .., vs => return m.values.tuple vs
  | .array .., vs => return m.values.array vs
  | .macroCall _ name _, vs => m.ask (.macroCall name) vs
  | .await .., vs => m.ask .await vs
  | .helper _ name _, vs => m.help name vs
  | .yield _ none, _ => do
    suspend m.unit
    return m.unit
  | .yield _ (some _), [v] => do
    suspend v
    return m.unit
  | .attempt .., [v] =>
    match m.values.verdict v with
    | .output w => return w
    | .residual r => m.leave r
    | .neither => stop .raised
  | _, _ => stop .raised

/-- Whether all operands of an expression are evaluated, and nothing else is read. -/
def isEager : Expr → Bool
  | .name .. => false
  | .binary _ op _ _ => !op.isLazy
  | _ => true

section Evaluation

attribute [local simp] eval evalRow

/-- **Operands are evaluated once and in order**, and then the expression does what it does
itself. -/
theorem eval_eager (σ : Env V) {e : Expr} (h : isEager e = true) :
    m.eval σ e = m.evalRow σ e.operands >>= m.conclude e := by
  cases e with
  | name => cases h
  | binary r op left right =>
    have hop : op.isLazy = false := by simpa [isEager] using h
    simp [Expr.operands, conclude, hop]
  | unary r op operand => cases op <;> simp [Expr.operands, conclude]
  | yield r value => cases value <;> simp [Expr.operands, conclude]
  | attempt r operand =>
    simp only [eval, evalRow, Expr.operands, bind_assoc, pure_bind]
    rfl
  | tuple | array | macroCall | helper =>
    rw [eval]
    rfl
  | _ => simp [Expr.operands, conclude]

end Evaluation

/-- What `&&` and `||` go on to do after their left operand. -/
def decideBy (op : BinaryOp) (right : Run V V) (left : V) : Run V V :=
  if needsRight op (m.values.isTrue left) then right else return left

theorem eval_lazy (σ : Env V) {op : BinaryOp} (h : op.isLazy = true) (r : Region)
    (left right : Expr) :
    m.eval σ (.binary r op left right) = m.eval σ left >>= m.decideBy op (m.eval σ right) := by
  rw [eval]
  simp only [h, if_true]
  rfl

/-! ## Names -/

section Names

variable {σ τ : Env V}

theorem evalRow_congr {es : List Expr} (h : ∀ e ∈ es, m.eval σ e = m.eval τ e) :
    m.evalRow σ es = m.evalRow τ es := by
  induction es with
  | nil => rw [evalRow, evalRow]
  | cons e es ih =>
    rw [List.forall_mem_cons] at h
    rw [evalRow, evalRow, h.1, ih h.2]

/-- **An expression reads nothing but its names.** -/
theorem eval_congr (e : Expr) (h : ∀ x ∈ e.names, σ x = τ x) : m.eval σ e = m.eval τ e := by
  induction e using Expr.operandInduction with
  | h e ih =>
    have ih : ∀ o ∈ e.operands, m.eval σ o = m.eval τ o := by
      refine fun o ho => ih o ho fun x hx => h x ?_
      obtain ⟨y, hy, hx⟩ := List.mem_filterMap.1 hx
      rw [Expr.names, Expr.walk_eq]
      exact List.mem_filterMap.2 ⟨y, List.mem_cons_of_mem _ (Expr.mem_walkRow.2 ⟨o, ho, hy⟩), hx⟩
    cases heager : isEager e with
    | true => rw [eval_eager m σ heager, eval_eager m τ heager, evalRow_congr m ih]
    | false =>
      cases e with
      | name r ident => simp only [eval, h ident (by simp [Expr.names, Expr.walk, Expr.name?])]
      | binary r op left right =>
        have hlazy : op.isLazy = true := by simpa [isEager] using heager
        obtain ⟨hleft, hright⟩ := List.forall_mem_cons.1 ih
        rw [eval_lazy m σ hlazy, eval_lazy m τ hlazy, hleft,
          hright right (List.mem_singleton_self _)]
      | _ => cases heager

end Names

end Machine

end Yielding.Execution
