import Yielding.Proofs.Execution.Laws

/-!
# Proofs/Execution/Calls — the order of calls

The **effects** of straight code are its calls and its stores, in the order in which they are
executed.  Every run makes its calls in that order (`eval_calls`, `execRow_calls`): it can leave
some out, where a branch is not taken or where it ends, and it makes no others.
-/

namespace Yielding

open List Execution

/-! ## Effects -/

/-- Something that code does at a region: a call, or a store. -/
inductive Effect
  | call (region : Region) (action : Action)
  | store (region : Region)
deriving DecidableEq

namespace Effect

def region : Effect → Region
  | call r _ | store r => r

/-- What a call asks of the world. -/
def action? : Effect → Option Action
  | call _ action => some action
  | store _ => none

end Effect

mutual

/-- The effects of evaluating an expression.  The right operand of `&&` and `||` counts as
evaluated. -/
def Expr.effects : Expr → List Effect
  | .literal .. | .name .. | .path .. | .yield _ none => []
  | .field _ value _ | .tupleField _ value _ | .borrow _ value _ | .await _ value
  | .unary _ _ value | .attempt _ value | .yield _ (some value) => value.effects
  | .index _ left right | .binary _ _ left right | .range _ left right _ =>
    left.effects ++ right.effects
  | .tuple _ row | .array _ row | .helper _ _ row => rowEffects row
  | .call r func args => func.effects ++ (rowEffects args ++ [.call r .call])
  | .methodCall r receiver method args =>
    receiver.effects ++ (rowEffects args ++ [.call r (.method method)])
  | .macroCall r callee args => rowEffects args ++ [.call r (.macroCall callee)]

def Expr.rowEffects : List Expr → List Effect
  | [] => []
  | e :: es => e.effects ++ rowEffects es

end

/-- The kinds of statements that **straight** code consists of. -/
def Stmt.IsStraight : Stmt → Prop
  | .letIn _ _ _ _ none | .assign .. | .expr .. | .ret .. | .ifElse _ _ _ none | .suspend ..
  | .terminate _ => True
  | _ => False

/-- Straight code: no loops, and branches without an alternative only. -/
def Straight (stmts : List Stmt) : Prop := everyStmt Stmt.IsStraight (fun _ => True) stmts

mutual

/-- The effects of a statement of straight code.  A branch counts as taken; an assignment evaluates
its value before its target. -/
def Stmt.effects : Stmt → List Effect
  | .letIn _ _ _ value none | .expr _ value | .suspend _ value
  | .ret _ (some value) => value.effects
  | .assign r target value _ => value.effects ++ (target.effects ++ [.store r])
  | .ifElse _ condition a none => condition.value.effects ++ a.effects
  | .ret _ none | .terminate _ => []
  | .letIn _ _ _ _ (some _) | .ifElse _ _ _ (some _) | .whileDo .. | .loop .. | .forIn ..
  | .matchOn .. | .block .. | .fn .. | .breakLoop _ | .continueLoop _ => [] -- not straight

def rowEffects : List Stmt → List Effect
  | [] => []
  | s :: ss => s.effects ++ rowEffects ss

def Block.effects : Block → List Effect
  | .mk stmts _ none => rowEffects stmts
  | .mk stmts _ (some tail) => rowEffects stmts ++ tail.effects

end

section Rows

attribute [local simp] Expr.effects Stmt.effects

@[simp]
theorem Expr.rowEffects_nil : Expr.rowEffects [] = [] := rfl

@[simp]
theorem Expr.rowEffects_cons (e : Expr) (es : List Expr) :
    Expr.rowEffects (e :: es) = e.effects ++ Expr.rowEffects es := rfl

@[simp]
theorem Expr.rowEffects_append (es es' : List Expr) :
    Expr.rowEffects (es ++ es') = Expr.rowEffects es ++ Expr.rowEffects es' := by
  induction es with
  | nil => simp
  | cons e es ih => simp [ih]

def Expr.action? : Expr → Option Action
  | .call .. => some .call
  | .methodCall _ _ method _ => some (.method method)
  | .macroCall _ callee _ => some (.macroCall callee)
  | _ => none

theorem Expr.effects_eq (e : Expr) : e.effects =
    Expr.rowEffects e.operands ++ (e.action?.map (Effect.call e.region)).toList := by
  cases e with
  | yield r value => cases value <;> simp [operands, action?]
  | _ => simp [operands, action?, region]

@[simp]
theorem rowEffects_nil : rowEffects [] = [] := rfl

@[simp]
theorem rowEffects_cons (s : Stmt) (ss : List Stmt) :
    rowEffects (s :: ss) = s.effects ++ rowEffects ss := rfl

@[simp]
theorem rowEffects_append (ss ss' : List Stmt) :
    rowEffects (ss ++ ss') = rowEffects ss ++ rowEffects ss' := by
  induction ss with
  | nil => simp
  | cons s ss ih => simp [ih]

theorem straight_append {ss ss' : List Stmt} :
    Straight (ss ++ ss') ↔ Straight ss ∧ Straight ss' := by
  induction ss with
  | nil => simp [Straight, everyStmt]
  | cons s ss ih =>
    rw [Straight, Straight, cons_append, everyStmt, everyStmt, and_assoc]
    exact and_congr_right fun _ => ih

end Rows

namespace Execution

variable {V α β : Type}

/-! ## The calls of a run -/

def Action.isCall : Action → Bool
  | call | method _ | macroCall _ => true
  | _ => false

/-- The actions among effects. -/
def actions (effects : List Effect) : List Action := effects.filterMap Effect.action?

@[simp]
theorem actions_nil : actions [] = [] := rfl

@[simp]
theorem actions_append (xs ys : List Effect) : actions (xs ++ ys) = actions xs ++ actions ys :=
  filterMap_append

def logOf (x : Run V α) (log : Log V) : Log V :=
  match x.run log with
  | .ok (_, after) | .error (_, after) => after

/-- The run adds to the log, and the calls among what it adds are among the given ones, in their
order. -/
def Calls (x : Run V α) (calls : List Action) : Prop :=
  ∀ log, ∃ events : Log V, logOf x log = log ++ events ∧
    ((events.map Event.action).filter Action.isCall).Sublist calls

theorem Calls.mono {x : Run V α} {calls calls' : List Action} (h : Calls x calls)
    (hsub : calls.Sublist calls') : Calls x calls' := by
  intro log
  obtain ⟨events, hlog, hcalls⟩ := h log
  exact ⟨events, hlog, hcalls.trans hsub⟩

theorem calls_pure (a : α) : Calls (pure a : Run V α) [] :=
  fun log => ⟨[], (append_nil log).symm, .slnil⟩

theorem calls_stop (e : Exit) : Calls (stop e : Run V α) [] :=
  fun log => ⟨[], (append_nil log).symm, .slnil⟩

theorem calls_note (action : Action) (operands : List V) :
    Calls (note action operands) ([action].filter Action.isCall) :=
  fun _ => ⟨[⟨action, operands⟩], rfl, .refl _⟩

theorem calls_get : Calls (get : Run V (Log V)) [] :=
  fun log => ⟨[], (append_nil log).symm, .slnil⟩

/-- **The calls of two runs in a row.**  A run that ends early leaves out the calls of the
second. -/
theorem Calls.bind {x : Run V α} {f : α → Run V β} {calls calls' : List Action}
    (hx : Calls x calls) (hf : ∀ a, Calls (f a) calls') : Calls (x >>= f) (calls ++ calls') := by
  intro log
  obtain ⟨events, hlog, hcalls⟩ := hx log
  cases hrun : x.run log with
  | error e =>
    have hsame : logOf (x >>= f) log = logOf x log := by
      rw [logOf, logOf, StateT.run_bind, hrun]
      rfl
    exact ⟨events, hsame.trans hlog, sublist_append_of_sublist_left hcalls⟩
  | ok r =>
    obtain ⟨a, after⟩ := r
    have hafter : after = log ++ events := by simpa [logOf, hrun] using hlog
    obtain ⟨more, hmore, hcalls'⟩ := hf a after
    have hnext : logOf (x >>= f) log = logOf (f a) after := by
      rw [logOf, StateT.run_bind, hrun]
      rfl
    refine ⟨events ++ more, ?_, ?_⟩
    · rw [hnext, hmore, hafter, append_assoc]
    · rw [map_append, filter_append]
      exact hcalls.append hcalls'

theorem Calls.andNone {x : Run V α} {f : α → Run V β} {calls : List Action} (hx : Calls x calls)
    (hf : ∀ a, Calls (f a) []) : Calls (x >>= f) calls := by
  simpa using hx.bind hf

namespace Machine

variable (m : Machine V)

theorem ask_calls (action : Action) (operands : List V) :
    Calls (m.ask action operands) ([action].filter Action.isCall) := by
  refine (calls_note action operands).andNone fun _ => ?_
  refine calls_get.andNone fun log => ?_
  cases m.oracle log with
  | some v => exact calls_pure v
  | none => exact calls_stop .raised

theorem help_calls (h : Helper) (operands : List V) : Calls (m.help h operands) [] := by
  unfold help
  split
  · exact calls_pure _
  · exact calls_pure _
  · exact calls_pure _
  · exact calls_pure _
  · exact calls_stop _

theorem leave_calls (residual : V) : Calls (m.leave residual : Run V α) [] := by
  unfold leave
  split
  · exact (calls_note .suspend [residual]).andNone fun _ => calls_stop _
  · exact calls_stop _

theorem conclude_calls (e : Expr) (vs : List V) : Calls (m.conclude e vs) e.action?.toList := by
  fun_cases conclude m e vs
  all_goals
    first
    | exact (calls_note .suspend _).andNone fun _ => calls_pure _
    | exact calls_pure _
    | exact m.ask_calls _ _
    | exact m.help_calls _ _
    | exact m.leave_calls _
    | exact (calls_stop _).mono (nil_sublist _)

theorem evalRow_calls_of (σ : Env V) {es : List Expr}
    (h : ∀ e ∈ es, Calls (m.eval σ e) (actions e.effects)) :
    Calls (m.evalRow σ es) (actions (Expr.rowEffects es)) := by
  induction es with
  | nil =>
    exact calls_pure _
  | cons e es ih =>
    rw [forall_mem_cons] at h
    rw [evalRow, Expr.rowEffects_cons, actions_append]
    exact h.1.bind fun _ => (ih h.2).andNone fun _ => calls_pure _

/-- **An expression makes its calls in order**, however its evaluation ends. -/
theorem eval_calls (σ : Env V) (e : Expr) : Calls (m.eval σ e) (actions e.effects) := by
  induction e using Expr.operandInduction with
  | h e ih =>
    cases heager : isEager e with
    | true =>
      have hown : actions (e.action?.map (Effect.call e.region)).toList = e.action?.toList := by
        cases e.action? <;> rfl
      rw [m.eval_eager σ heager, Expr.effects_eq, actions_append, hown]
      exact (m.evalRow_calls_of σ ih).bind fun vs => m.conclude_calls e vs
    | false =>
      cases e with
      | name =>
        exact calls_pure _
      | binary r op left right =>
        have hlazy : op.isLazy = true := by simpa [isEager] using heager
        obtain ⟨hleft, hright⟩ := forall_mem_cons.1 ih
        rw [m.eval_lazy σ hlazy, Expr.effects, actions_append]
        refine hleft.bind fun v => ?_
        rw [decideBy]
        split
        · exact hright right (mem_singleton_self _)
        · exact (calls_pure _).mono (nil_sublist _)
      | _ => cases heager

theorem evalRow_calls (σ : Env V) (es : List Expr) :
    Calls (m.evalRow σ es) (actions (Expr.rowEffects es)) :=
  m.evalRow_calls_of σ fun e _ => m.eval_calls σ e

/-! ## Statements -/

theorem combine_calls (op : AssignOp) {old : Run V V} (hold : Calls old []) (v : V) :
    Calls (m.combine op old v) [] := by
  unfold combine
  cases operator? op with
  | none => exact calls_pure v
  | some b => exact hold.andNone fun _ => m.ask_calls _ _

theorem rowEffects_of_place {target : Expr} {place : Location} {parts : List Expr}
    (h : place? target = some (place, parts)) : Expr.rowEffects parts = target.effects := by
  unfold place? at h
  split at h <;> cases h <;> simp [Expr.effects]

theorem assign_calls (σ : Env V) (target : Expr) (op : AssignOp) (v : V) :
    Calls (m.assign σ target op v) (actions target.effects) := by
  unfold assign
  split
  · rw [Expr.effects]
    exact (m.combine_calls op (calls_pure _) v).andNone fun _ => calls_pure _
  · split
    · next hplace =>
      rw [← rowEffects_of_place hplace]
      refine (m.evalRow_calls σ _).andNone fun vs => ?_
      refine (m.combine_calls op (m.ask_calls _ vs) v).andNone fun new => ?_
      exact (m.ask_calls _ _).andNone fun _ => calls_pure _
    · exact (calls_stop _).mono (nil_sublist _)

theorem decide_calls (σ : Env V) :
    ∀ condition : Condition, Calls (m.decide? σ condition) (actions condition.value.effects)
  | .test e | .letMatch _ _ e => (m.eval_calls σ e).andNone fun _ => calls_pure _

theorem andThen_calls {calls : List Action} (a : After V) {rest : Env V → Run V (After V)}
    (h : ∀ σ, Calls (rest σ) calls) : Calls (andThen a rest) calls := by
  unfold andThen
  split
  · exact (h _).andNone fun _ => calls_pure _
  · exact (calls_pure _).mono (nil_sublist _)
  · exact (calls_pure _).mono (nil_sublist _)

mutual

/-- **Straight code makes its calls in order**, wherever a run ends. -/
theorem exec_calls (n : Nat) (σ : Env V) : ∀ {s : Stmt}, s.Every Stmt.IsStraight (fun _ => True) →
    Calls (m.exec n σ s) (actions s.effects)
  | .letIn _ p _ value none, _ => by
    refine (m.eval_calls σ value).andNone fun v => ?_
    split
    · exact calls_pure _
    · exact calls_stop _
  | .assign _ target value op, _ => by
    rw [exec, Stmt.effects, actions_append, actions_append]
    refine (m.eval_calls σ value).bind fun v => ?_
    exact (m.assign_calls σ target op v).bind fun _ => calls_pure _
  | .expr _ value, _ => (m.eval_calls σ value).andNone fun _ => calls_pure _
  | .ret _ none, _ => (calls_pure _).andNone fun _ => calls_stop _
  | .ret _ (some value), _ => by
    refine Calls.andNone ?_ fun _ => calls_stop _
    exact (m.eval_calls σ value).andNone fun _ => calls_pure _
  | .ifElse _ condition a none, h => by
    rw [exec, Stmt.effects, actions_append]
    refine (m.decide_calls σ condition).bind fun bs => ?_
    cases bs with
    | some bs => exact execBlock_calls n σ bs h.2.2
    | none => exact (calls_pure _).mono (nil_sublist _)
  | .suspend _ value, _ => by
    refine (m.eval_calls σ value).andNone fun v => ?_
    exact (calls_note .suspend [v]).andNone fun _ => calls_pure _
  | .terminate _, _ => calls_stop _

theorem execRow_calls (n : Nat) (σ : Env V) : ∀ {ss : List Stmt}, Straight ss →
    Calls (m.execRow n σ ss) (actions (rowEffects ss))
  | [], _ => calls_pure _
  | s :: ss, h => by
    rw [execRow, rowEffects_cons, actions_append]
    exact (exec_calls n σ h.1).bind fun a => andThen_calls a fun σ => execRow_calls n σ h.2

theorem execBlock_calls (n : Nat) (σ : Env V) (bs : List (String × V)) :
    ∀ {b : Block}, b.Every Stmt.IsStraight (fun _ => True) →
      Calls (m.execBlock n σ bs b) (actions b.effects)
  | .mk stmts _ none, h => by
    refine (andThen_calls _ fun σ => execRow_calls n σ h.1).andNone fun a => ?_
    refine Calls.andNone ?_ fun _ => calls_pure _
    unfold evalTail
    split
    all_goals exact calls_pure _
  | .mk stmts _ (some tail), h => by
    rw [execBlock, Block.effects, actions_append]
    refine (andThen_calls _ fun σ => execRow_calls n σ h.1).bind fun a => ?_
    refine Calls.andNone ?_ fun _ => calls_pure _
    unfold evalTail
    split
    · exact (m.eval_calls _ tail).andNone fun _ => calls_pure _
    all_goals exact (calls_pure _).mono (nil_sublist _)

end

end Machine

end Execution

end Yielding
