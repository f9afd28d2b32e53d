import Yielding.Legality.Flow
import Yielding.Proofs.Lowering.Statements
import Yielding.Typing.Yields

/-!
# Proofs/Lowering/Bodies — lowering keeps the execution of bodies

The blocks for which lowering keeps every run are the **lowerable** ones: what is assigned to can be
assigned to, a `return` carries no value, and no function of a loop's body hides a name of the test
that the body is put behind.
-/

namespace Yielding.Lowering

open Execution

/-- Assignments go to what can be assigned to. -/
def AssignsPlace : Stmt → Prop
  | .assign _ target _ _ => target.isAssignable = true
  | _ => True

/-- A `return` carries nothing but `()`. -/
def ReturnsUnit : Stmt → Prop
  | .ret _ value => ∀ e ∈ value, Typing.isUnitValue e = true
  | _ => True

/-- No function of a loop's body hides a name of the test that the body is put behind. -/
def KeepsNames : Stmt → Prop
  | .whileDo _ cond b => Uncaptured cond b
  | _ => True

/-- What lowering asks of a statement, apart from its expressions and the statements inside it. -/
structure LowerableStmt (s : Stmt) : Prop where
  assigns : AssignsPlace s
  returns : ReturnsUnit s
  keeps : KeepsNames s

variable {V : Type} {m : Machine V} {c : Context}

/-! ## Statements without parts that are statements -/

variable {S : Set ℕ} {value : Expr}

theorem let_follows {l : Lowered} (hl : Lowers m value S l) (r : Region) (p : Pattern)
    (type : Option Ty) : RowFollows m [.letIn r p type value none]
    (l.before ++ [.letIn r p type l.value none]) := by
  refine hl.realizes.follows fun n v σ τ hσ => ?_
  cases m.values.matches? p v with
  | some bs => exact agree_pure (alike_bindAll bs hσ)
  | none => exact agree_stop

theorem letElse_follows {l : Lowered} (hl : Lowers m value S l) {b b' : Block} (hb : Follows m b b')
    (r : Region) (p : Pattern) (type : Option Ty) :
    RowFollows m [.letIn r p type value (some b)]
      (l.before ++ [.letIn r p type l.value (some b')]) := by
  refine hl.realizes.follows fun n v σ τ hσ => ?_
  cases m.values.matches? p v with
  | some bs => exact agree_pure (alike_bindAll bs hσ)
  | none =>
    refine Agree.bind (hb.execBlock n hσ []) fun a a' ha => ?_
    rw [← ha.flow]
    split
    · exact agree_stop
    · exact agree_pure ha

theorem assign_place_follows (hc : c.Suits m) {target : Expr} (ht : Ordinary target)
    (hv : Ordinary value) {place : Location} {parts : List Expr}
    (hp : place? target = some (place, parts)) (r : Region) (op : AssignOp) (i : ℕ) :
    Gives (lowerStmt c (.assign r target value op)) i fun ss _ =>
      RowFollows m [.assign r target value op] ss := by
  rw [lowerStmt]
  refine (lowerExpr_lowers hc value hv i).bind fun v j hv => ?_
  refine (lowerExpr_place hc ht hp j).bind fun t k hk => ?_
  obtain ⟨-, hv⟩ := hv
  obtain ⟨hjk, parts', hparts', ht⟩ := hk
  refine (hv.protect c t.isPending k).bind fun p k' hp' => gives_pure.mpr ?_
  obtain ⟨hkk', -, hp'⟩ := hp'
  have hdisj := disjoint_ranges (i := i) (p := k') hjk (le_refl k) hkk'
  rw [Set.Ioc_self, Set.union_empty] at hdisj
  have hboth := hp' hdisj (by simp [Lowered.isPending]) ht
  have hexec : ∀ (t v : Expr) (parts : List Expr), place? t = some (place, parts) →
      ∀ n (σ : Env V), m.exec n σ (.assign r t v op)
        = both (m.eval · v) (m.evalRow · parts) σ >>= fun q => do
            store m place op q.1 q.2
            return ⟨σ, [], .next⟩ := by
    intro t v parts ht n σ
    rw [Machine.exec]
    simp only [assign_place ht, both, bind_assoc, pure_bind]
  refine hboth.follows (fun n q σ τ hσ => ?_) (hexec target value parts hp)
    (hexec t.value p.value parts' hparts')
  refine Agree.bind (Agree.refl _) fun _ _ _ => agree_pure (alike_of_similar hσ .next)

theorem assign_name_follows (hc : c.Suits m) {r' : Region} {x : String} (hx : ¬IsTemp x)
    (hv : Ordinary value) (r : Region) (op : AssignOp) (i : ℕ) :
    Gives (lowerStmt c (.assign r (.name r' x) value op)) i fun ss _ =>
      RowFollows m [.assign r (.name r' x) value op] ss := by
  rw [lowerStmt]
  refine (lowerExpr_lowers hc value hv i).bind fun v j hv => gives_pure.mpr ?_
  change RowFollows m _ (v.before ++ [] ++ [] ++ [.assign r (.name r' x) v.value op])
  rw [List.append_nil, List.append_nil]
  refine hv.2.realizes.follows fun n w σ τ hσ => ?_
  simp only [Machine.assign, hσ x hx, bind_assoc, pure_bind]
  refine Agree.bind (Agree.refl _) fun u u' hu => ?_
  obtain rfl : u = u' := hu
  exact agree_pure (alike_of_similar (hσ.update x u) .next)

theorem assignable_cases {target : Expr} (h : target.isAssignable = true) :
    (∃ r x, target = .name r x) ∨ ∃ place parts, place? target = some (place, parts) :=
  match target, h with
  | .name r x, _ => .inl ⟨r, x, rfl⟩
  | .field .., _ | .tupleField .., _ | .index .., _ | .unary _ .deref _, _ => .inr ⟨_, _, rfl⟩

theorem expr_follows {l : Lowered} (hl : Lowers m value S l) (r : Region) :
    RowFollows m [.expr r value]
      (l.before ++ if l.value.isUnit then [] else [.expr r l.value]) := by
  cases hu : l.value.isUnit with
  | false =>
    rw [if_neg Bool.false_ne_true]
    refine hl.realizes.follows fun n v σ τ hσ => ?_
    exact agree_pure (alike_of_similar hσ .next)
  | true =>
    rw [if_pos rfl]
    refine ⟨?_, fun n σ τ hσ => ?_⟩
    · rw [Machine.fnBindings_append, hl.realizes.calm.fnless]
      rfl
    · rw [Machine.execRow_append, Machine.execRow_singleton, Machine.exec]
      have key := hl.realizes.agree_andThen (n := n) hσ (f := fun _ => Machine.skip σ)
        (g := fun _ υ => Machine.skip υ) fun v υ hυ => agree_pure (alike_of_similar hυ .next)
      simp only [isUnit_eval hu, pure_bind] at key
      simpa only [Machine.execRow] using key

theorem cases_of_isUnitValue {e : Expr} (h : Typing.isUnitValue e = true) :
    (∃ r, e = .literal r .unit) ∨ ∃ r, e = .tuple r [] := by
  cases e with
  | literal r value =>
    cases value with
    | unit => exact .inl ⟨r, rfl⟩
    | _ => cases h
  | tuple r es =>
    cases es with
    | nil => exact .inr ⟨r, rfl⟩
    | cons => cases h
  | _ => cases h

theorem ret_follows (hc : c.Suits m) {value : Option Expr}
    (h : ∀ v ∈ value, Typing.isUnitValue v = true) (r : Region) (i : ℕ) :
    Gives (lowerStmt c (.ret r value)) i fun ss _ => RowFollows m [.ret r value] ss := by
  have hterminate : (∀ n (σ : Env V), m.exec n σ (.ret r value) = stop .finished) →
      RowFollows m [.ret r value] [.terminate r] := fun hret =>
    follows_of_exec fun n σ τ _ => by rw [hret, Machine.exec]; exact agree_stop
  cases value with
  | none =>
    rw [lowerStmt, hc.inFn]
    exact gives_pure.mpr (hterminate fun n σ => by simp [Machine.exec, Machine.evalOptional])
  | some v =>
    obtain ⟨r', rfl⟩ | ⟨r', rfl⟩ := cases_of_isUnitValue (h v rfl)
    · rw [lowerStmt, hc.inFn, lowerExpr]
      exact gives_pure.mpr
        (hterminate fun n σ => by simp [Machine.exec, Machine.evalOptional, Machine.eval])
    · rw [lowerStmt, hc.inFn, lowerExpr, lowerRow]
      exact gives_pure.mpr (hterminate fun n σ => by
        simp [Machine.exec, Machine.evalOptional, Machine.eval, Machine.evalRow])

/-! ## All statements -/

variable {before : List Stmt}

theorem ifElse_follows {cond cond' : Condition}
    (hc : Realizes m S (m.decide? · cond) before (m.decide? · cond')) {a a' : Block}
    (ha : Follows m a a') (r : Region) :
    RowFollows m [.ifElse r cond a none] (before ++ [.ifElse r cond' a' none]) := by
  refine hc.follows fun n o σ τ hσ => ?_
  cases o with
  | some bs => exact ha.execBlock n hσ bs
  | none => exact agree_pure (alike_of_similar hσ .next)

theorem ifElse_else_follows {cond cond' : Condition}
    (hc : Realizes m S (m.decide? · cond) before (m.decide? · cond')) {a a' b b' : Block}
    (ha : Follows m a a') (hb : Follows m b b') (r : Region) :
    RowFollows m [.ifElse r cond a (some b)] (before ++ [.ifElse r cond' a' (some b')]) := by
  refine hc.follows fun n o σ τ hσ => ?_
  cases o with
  | some bs => exact ha.execBlock n hσ bs
  | none => exact hb.execBlock n hσ []

theorem forIn_follows {iterable : Expr} {l : Lowered} (hl : Lowers m iterable S l) {b b' : Block}
    (hb : Follows m b b') (r : Region) (p : Pattern) : RowFollows m [.forIn r p iterable b]
    (l.before ++ [.forIn r p l.value b']) := by
  refine hl.realizes.follows fun n it σ τ hσ => agree_rounds (fun σ τ hσ => ?_) n hσ
  refine Agree.bind (Agree.refl _) fun item item' hitem => ?_
  obtain rfl : item = item' := hitem
  cases m.values.payload .some item with
  | none => exact agree_pure (alike_of_similar hσ .leave)
  | some v =>
    cases hp : m.values.matches? p v with
    | none =>
      simp only [hp]
      exact agree_stop
    | some bs =>
      simp only [hp]
      exact hb.execBlock n hσ bs

theorem block_follows {stmts stmts' : List Stmt} {tail tail' : Option Expr}
    (hs : RowFollows m stmts stmts')
    (ht : Realizes m S (m.evalOptional · tail) before (m.evalOptional · tail')) (r : Region) :
    Follows m (.mk stmts r tail) (.mk (stmts' ++ before) r tail') := by
  refine ⟨?_, fun n σ τ hσ => ?_⟩
  · rw [Block.stmts, Block.stmts, Machine.fnBindings_append, ht.calm.fnless, hs.fns,
      List.append_nil]
  · change Agree Alike (m.inside n σ stmts tail) (m.inside n τ (stmts' ++ before) tail')
    rw [← List.append_nil stmts, Machine.inside_append, Machine.inside_append]
    refine Agree.bind (hs.agree n σ τ hσ) fun a a' ha => agree_andThen ha fun υ ω hυ => ?_
    rw [← List.append_nil before, Machine.inside_append]
    simp only [Machine.inside_nil]
    exact ht.agree_andThen hυ fun _ ω' hω' => agree_pure (alike_of_similar hω' .next)

mutual

/-- **Lowering keeps the execution of a statement.** -/
theorem lowerStmt_follows (hc : c.Suits m) : ∀ (s : Stmt), s.Every LowerableStmt Ordinary → ∀ i,
    Gives (lowerStmt c s) i fun ss _ => RowFollows m [s] ss
  | .letIn r p type value none, h, i =>
    (lowerExpr_lowers hc value h.2 i).bind fun l j hl =>
      gives_pure.mpr (let_follows hl.2 r p type)
  | .letIn r p type value (some b), h, i => by
    refine (lowerExpr_lowers hc value h.2.1 i).bind fun l j hl => ?_
    exact (lowerBlock_follows hc b h.2.2 j).bind fun b' k hb =>
      gives_pure.mpr (letElse_follows hl.2 hb r p type)
  | .assign r target value op, h, i => by
    obtain ⟨htarget, ht, hv⟩ := h
    obtain ⟨r', x, rfl⟩ | ⟨place, parts, hp⟩ := assignable_cases htarget.assigns
    · exact assign_name_follows hc (ht (.name r' x) (by simp [Expr.walk])) hv r op i
    · exact assign_place_follows hc ht hv hp r op i
  | .expr r value, h, i =>
    (lowerExpr_lowers hc value h.2 i).bind fun l j hl =>
      gives_pure.mpr (expr_follows hl.2 r)
  | .ret r value, h, i => ret_follows hc h.1.returns r i
  | .ifElse r cond a none, h, i => by
    refine (lowerCondition_realizes hc cond h.2.1 i).bind fun p j hp => ?_
    exact (lowerBlock_follows hc a h.2.2 j).bind fun a' k ha =>
      gives_pure.mpr (ifElse_follows hp.2.2 ha r)
  | .ifElse r cond a (some b), h, i => by
    refine (lowerCondition_realizes hc cond h.2.1 i).bind fun p j hp => ?_
    refine (lowerBlock_follows hc a h.2.2.1 j).bind fun a' k ha => ?_
    exact (lowerBlock_follows hc b h.2.2.2 k).bind fun b' l hb =>
      gives_pure.mpr (ifElse_else_follows hp.2.2 ha hb r)
  | .whileDo r cond b, h, i => by
    refine (lowerWhile_follows hc h.2.1 h.1.keeps r i).bind fun p j hp => ?_
    exact (lowerBlock_follows hc b h.2.2 j).bind fun b' k hb => gives_pure.mpr (hp.2 b' hb)
  | .loop r b, h, i => by
    refine (lowerBlock_follows hc b h.2 i).bind fun b' j hb => gives_pure.mpr ?_
    refine follows_of_exec fun n σ τ hσ => ?_
    rw [Machine.exec, Machine.exec]
    exact agree_rounds (fun σ τ hσ => hb.execBlock n hσ []) n hσ
  | .forIn r p iterable b, h, i => by
    refine (lowerExpr_lowers hc iterable h.2.1 i).bind fun l j hl => ?_
    exact (lowerBlock_follows hc b h.2.2 j).bind fun b' k hb =>
      gives_pure.mpr (forIn_follows hl.2 hb r p)
  | .block r b, h, i => by
    refine (lowerBlock_follows hc b h.2 i).bind fun b' j hb => gives_pure.mpr ?_
    refine follows_of_exec fun n σ τ hσ => ?_
    rw [Machine.exec, Machine.exec]
    exact hb.execBlock n hσ []
  | .fn r name params result b, _, i => by
    rw [lowerStmt]
    have hb : Gives (lowerBlock { c with inFn := true } b) i fun _ _ => True := trivial
    refine hb.bind fun b' j _ => gives_pure.mpr (follows_of_exec fun n σ τ hσ => ?_)
    rw [Machine.exec, Machine.exec]
    exact agree_pure (alike_of_similar hσ .next)
  | .matchOn r subject arms, h, i => by
    refine (lowerExpr_lowers hc subject h.2.1 i).bind fun l j hl => ?_
    refine (lowerArms_follow hc arms h.2.2 j).bind fun arms' k harms => gives_pure.mpr ?_
    exact hl.2.realizes.follows harms
  | .breakLoop r, _, i => by
    refine gives_pure.mpr (follows_of_exec fun n σ τ hσ => ?_)
    rw [Machine.exec, Machine.exec]
    exact agree_pure (alike_of_similar hσ .leave)
  | .continueLoop r, _, i => by
    refine gives_pure.mpr (follows_of_exec fun n σ τ hσ => ?_)
    rw [Machine.exec, Machine.exec]
    exact agree_pure (alike_of_similar hσ .again)
  | .suspend r value, h, i => by
    have hvalue : Ordinary value := h.2
    rw [lowerStmt]
    refine gives_pure.mpr (follows_of_exec fun n σ τ hσ => ?_)
    rw [Machine.exec, Machine.exec, hvalue.eval_similar hσ]
    refine Agree.bind (Agree.refl _) fun v w hvw => ?_
    obtain rfl : v = w := hvw
    exact Agree.bind (Agree.refl _) fun _ _ _ => agree_pure (alike_of_similar hσ .next)
  | .terminate r, _, i => by
    refine gives_pure.mpr (follows_of_exec fun n σ τ hσ => ?_)
    rw [Machine.exec, Machine.exec]
    exact agree_stop

theorem lowerStmts_follow (hc : c.Suits m) : ∀ (ss : List Stmt),
    everyStmt LowerableStmt Ordinary ss → ∀ i,
    Gives (lowerStmts c ss) i fun ss' _ => RowFollows m ss ss'
  | [], _, i => by
    refine gives_pure.mpr ⟨rfl, fun n σ τ hσ => ?_⟩
    rw [Machine.execRow, Machine.execRow]
    exact agree_pure (alike_of_similar hσ .next)
  | s :: ss, h, i => by
    refine (lowerStmt_follows hc s h.1 i).bind fun xs j hxs => ?_
    exact (lowerStmts_follow hc ss h.2 j).bind fun ys k hys => gives_pure.mpr (hxs.cons hys)

theorem lowerBlock_follows (hc : c.Suits m) : ∀ (b : Block),
    b.Every LowerableStmt Ordinary → ∀ i,
    Gives (lowerBlock c b) i fun b' _ => Follows m b b'
  | .mk stmts r tail, h, i => by
    refine (lowerStmts_follow hc stmts h.1 i).bind fun stmts' j hs => ?_
    exact (lowerTail_realizes hc tail h.2 j).bind fun p k ht =>
      gives_pure.mpr (block_follows hs ht.2 r)

theorem lowerArms_follow (hc : c.Suits m) : ∀ (arms : List Arm),
    everyArm LowerableStmt Ordinary arms → ∀ i,
    Gives (lowerArms c arms) i fun arms' _ => ∀ n v σ τ, Similar σ τ →
      Agree Alike (m.execArms n σ v arms) (m.execArms n τ v arms')
  | [], _, i => by
    refine gives_pure.mpr fun n v σ τ hσ => ?_
    rw [Machine.execArms, Machine.execArms]
    exact agree_pure (alike_of_similar hσ .next)
  | .mk r p guard b :: arms, h, i => by
    refine (lowerGuard_same guard).bind fun guard' j hguard => ?_
    refine (lowerBlock_follows hc b h.2.1 j).bind fun b' k hb => ?_
    refine (lowerArms_follow hc arms h.2.2 k).bind fun arms' l harms => gives_pure.mpr ?_
    intro n v σ τ hσ
    rw [Machine.execArms, Machine.execArms, hguard]
    cases m.values.matches? p v with
    | none => exact harms n v σ τ hσ
    | some bs =>
      simp only [guardHolds_similar h.1 (alike_bindAll bs hσ).env]
      refine Agree.bind (Agree.refl _) fun holds holds' hholds => ?_
      obtain rfl : holds = holds' := hholds
      cases holds with
      | true => exact hb.execBlock n hσ bs
      | false => exact harms n v σ τ hσ

end

end Yielding.Lowering
