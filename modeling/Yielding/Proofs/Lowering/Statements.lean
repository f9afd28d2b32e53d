import Yielding.Proofs.Lowering.Expressions

/-!
# Proofs/Lowering/Statements — lowering keeps the execution of statements

A statement and the row of statements it is lowered to leave the same log and go the same way, and
what they leave behind is **alike**: the same but for temporaries.  A loop follows from one of its
rounds (`agree_rounds`).
-/

namespace Yielding.Lowering

open Execution

variable {V α : Type} {m : Machine V} {S : Set ℕ}

/-! ## Alike up to temporaries -/

variable {σ τ : Env V}

theorem Similar.update (h : Similar σ τ) (x : String) (v : V) : Similar (Function.update σ x v)
    (Function.update τ x v) := by
  intro y hy
  by_cases hyx : y = x
  · rw [hyx, Function.update_self, Function.update_self]
  · rw [Function.update_of_ne hyx, Function.update_of_ne hyx, h y hy]

/-- What is left behind differs in temporaries only, now and once the bindings end. -/
structure Alike (a b : After V) : Prop where
  env : Similar a.env b.env
  covered : ∀ σ τ, Similar σ τ → Similar (restore a.covered σ) (restore b.covered τ)
  flow : a.flow = b.flow

theorem alike_of_similar (h : Similar σ τ) (flow : Flow) :
    Alike ⟨σ, [], flow⟩ ⟨τ, [], flow⟩ := ⟨h, fun _ _ h => h, rfl⟩

theorem Alike.close {a b : After V} (h : Alike a b) : Alike (close a) (close b) :=
  ⟨h.covered _ _ h.env, fun _ _ h => h, h.flow⟩

theorem alike_bindAll (bs : List (String × V)) :
    ∀ {σ τ : Env V}, Similar σ τ → Alike (bindAll σ bs) (bindAll τ bs) := by
  induction bs with
  | nil => exact fun h => alike_of_similar h .next
  | cons b bs ih =>
    intro σ τ h
    have hbs := ih (h.update b.1 b.2)
    rw [bindAll_cons, bindAll_cons]
    refine ⟨hbs.env, fun υ ω hυ => ?_, hbs.flow⟩
    rw [restore_append, restore_append]
    have hrest := hbs.covered υ ω hυ
    intro x hx
    by_cases hxb : x = b.1
    · simp only [restore, List.foldl_cons, List.foldl_nil, ← hxb, Function.update_self, h x hx]
    · simp only [restore, List.foldl_cons, List.foldl_nil, Function.update_of_ne hxb]
      exact hrest x hx

theorem Alike.cover {a b : After V} (h : Alike a b) {covered : List (String × V)}
    (hc : ∀ c ∈ covered, c.1 ∈ temps S) : Alike a ⟨b.env, b.covered ++ covered, b.flow⟩ := by
  refine ⟨h.env, fun σ τ hσ => ?_, h.flow⟩
  rw [restore_append]
  exact (h.covered σ τ hσ).trans (off_restore hc _).similar

theorem agree_andThen {a b : After V} (h : Alike a b) {f g : Env V → Run V (After V)}
    (hfg : ∀ σ τ, Similar σ τ → Agree Alike (f σ) (g τ)) :
    Agree Alike (Machine.andThen a f) (Machine.andThen b g) := by
  obtain ⟨σ, c, flow⟩ := a
  obtain ⟨τ, d, flow'⟩ := b
  obtain rfl : flow = flow' := h.flow
  cases flow with
  | next =>
    refine Agree.bind (hfg σ τ h.env) fun a b hab =>
      agree_pure ⟨hab.env, fun υ ω hυ => ?_, hab.flow⟩
    rw [restore_append, restore_append]
    exact h.covered _ _ (hab.covered υ ω hυ)
  | leave => exact agree_pure h
  | again => exact agree_pure h

theorem Agree.close {x y : Run V (After V)} (h : Agree Alike x y) :
    Agree Alike (Execution.close <$> x) (Execution.close <$> y) :=
  Agree.bind h fun _ _ hab => agree_pure hab.close

variable {src read : Env V → Run V α}

/-- **What is realized can be replaced in front of a row of statements.** -/
theorem Realizes.agree_andThen {stmts : List Stmt} (h : Realizes m S src stmts read) {n : ℕ}
    (hσ : Similar σ τ) {f : α → Run V (After V)} {g : α → Env V → Run V (After V)}
    (hfg : ∀ a υ, Similar σ υ → Agree Alike (f a) (g a υ)) :
    Agree Alike (src σ >>= f)
      (m.execRow n τ stmts >>= fun a => Machine.andThen a fun υ => read υ >>= fun v => g v υ) := by
  rw [← h.same n σ τ hσ, through, bind_assoc]
  refine Agree.bind (h.calm.quiet n τ) fun a b hab => ?_
  obtain ⟨rfl, ha⟩ := hab
  obtain ⟨υ, covered, flow⟩ := a
  obtain rfl : flow = .next := ha.flow
  rw [Machine.andThen_next, bind_assoc]
  refine Agree.bind (Agree.refl _) fun v w hvw => ?_
  obtain rfl : v = w := hvw
  have hv := Agree.bind (hfg v υ (hσ.trans ha.off.similar)) fun a b hab =>
    agree_pure (hab.cover ha.covered)
  rwa [bind_pure] at hv

theorem Realizes.agree_row {stmts : List Stmt} (h : Realizes m S src stmts read) {n : ℕ}
    (hσ : Similar σ τ) {s : Stmt} {f : α → Run V (After V)} {g : α → Env V → Run V (After V)}
    (hs : ∀ υ, m.exec n υ s = read υ >>= fun a => g a υ)
    (hfg : ∀ a υ, Similar σ υ → Agree Alike (f a) (g a υ)) :
    Agree Alike (src σ >>= f) (m.execRow n τ (stmts ++ [s])) := by
  rw [Machine.execRow_append]
  simp only [Machine.execRow_singleton, hs]
  exact h.agree_andThen hσ hfg

/-! ## Rounds -/

/-- **A loop follows from its rounds.** -/
theorem agree_rounds {round round' : Env V → Run V (After V)}
    (h : ∀ σ τ, Similar σ τ → Agree Alike (round σ) (round' τ)) :
    ∀ (n : ℕ) {σ τ : Env V}, Similar σ τ → Agree Alike (rounds n round σ) (rounds n round' τ)
  | 0, _, _, _ => agree_stop
  | n + 1, σ, τ, hσ => by
    refine Agree.bind (h σ τ hσ) fun a b hab => ?_
    rw [← hab.flow]
    cases a.flow with
    | next => exact agree_rounds h n hab.env
    | again => exact agree_rounds h n hab.env
    | leave => exact agree_pure (alike_of_similar hab.env .next)

/-! ## Blocks -/

/-- The second block runs like the first. -/
structure Follows (m : Machine V) (b b' : Block) : Prop where
  fns : m.fnBindings b'.stmts = m.fnBindings b.stmts
  inside : ∀ n σ τ, Similar σ τ →
    Agree Alike (m.inside n σ b.stmts b.tail) (m.inside n τ b'.stmts b'.tail)

theorem Follows.execBlock {b b' : Block} (h : Follows m b b') (n : ℕ) (hσ : Similar σ τ)
    (bs : List (String × V)) : Agree Alike (m.execBlock n σ bs b) (m.execBlock n τ bs b') := by
  rw [Machine.execBlock_eq, Machine.execBlock_eq, h.fns]
  exact Agree.close (agree_andThen (alike_bindAll _ hσ) (h.inside n))

/-! ## Conditions, guards and tails -/

variable {c : Context}

theorem lowerCondition_realizes (hc : c.Suits m) (cond : Condition) (h : Ordinary cond.value)
    (i : ℕ) :
    Gives (lowerCondition c cond) i fun p j => i ≤ j ∧ (cond.value.suspends = false → p.1 = []) ∧
      Realizes m (Set.Ioc i j) (m.decide? · cond) p.1 (m.decide? · p.2) := by
  cases cond with
  | test e =>
    refine (lowerExpr_lowers hc e h i).bind fun l j hl => gives_pure.mpr ⟨hl.1, hl.2.idle, ?_⟩
    exact hl.2.realizes.map _
  | letMatch r p value =>
    refine (lowerExpr_lowers hc value h i).bind fun l j hl => gives_pure.mpr ⟨hl.1, hl.2.idle, ?_⟩
    exact hl.2.realizes.map _

theorem Ordinary.eval_similar {e : Expr} (h : Ordinary e) (hσ : Similar σ τ) :
    m.eval τ e = m.eval σ e := by
  refine m.eval_congr e fun x hx => (hσ x ?_).symm
  obtain ⟨y, hy, hyx⟩ := List.mem_filterMap.mp hx
  match y, hyx with
  | .name r _, rfl => exact h _ hy

theorem guardHolds_similar {guard : Option Expr} (h : ∀ e ∈ guard, Ordinary e) (hσ : Similar σ τ) :
    m.guardHolds τ guard = m.guardHolds σ guard := by
  cases guard with
  | none => rfl
  | some e => rw [Machine.guardHolds, Machine.guardHolds, (h e rfl).eval_similar hσ]

theorem isUnit_eval {e : Expr} (h : e.isUnit = true) (σ : Env V) : m.eval σ e = pure m.unit :=
  match e, h with
  | .literal _ .unit, _ => by rw [Machine.eval]; rfl

theorem lowerTail_realizes (hc : c.Suits m) (tail : Option Expr) (h : ∀ e ∈ tail, Ordinary e)
    (i : ℕ) :
    Gives (lowerTail c tail) i fun p j => i ≤ j ∧
      Realizes m (Set.Ioc i j) (m.evalOptional · tail) p.1 (m.evalOptional · p.2) := by
  cases tail with
  | none =>
    refine gives_pure.mpr ⟨le_rfl, calm_nil, fun n σ τ _ => ?_⟩
    rfl
  | some e =>
    refine (lowerExpr_lowers hc e (h e rfl) i).bind fun l j hl => gives_pure.mpr ⟨hl.1, ?_⟩
    have key := hl.2.realizes.map fun _ => pure ()
    cases hu : l.value.isUnit with
    | true =>
      simp only [isUnit_eval hu, pure_bind] at key
      exact key
    | false => exact key

/-! ## Assignments -/

def store (m : Machine V) (place : Location) (op : AssignOp) (v : V) (vs : List V) :
    Run V Unit := do
  let new ← m.combine op (m.ask (.read place) vs) v
  let _ ← m.ask (.write place) (vs ++ [new])

theorem assign_place {target : Expr} {place : Location} {parts : List Expr}
    (h : place? target = some (place, parts)) (σ : Env V) (op : AssignOp) (v : V) :
    m.assign σ target op v = do
      let vs ← m.evalRow σ parts
      store m place op v vs
      return σ := by
  cases target with
  | name r x => simp [place?] at h
  | _ =>
    rw [Machine.assign, h]
    · simp only [store, bind_assoc, pure_bind]
    all_goals simp

theorem place_strict : ∀ {target : Expr} {place : Location} {parts : List Expr},
    place? target = some (place, parts) → isStrict target = true ∧ parts = target.operands ∧
      ∀ vs, vs.length = target.operands.length → place? (target.withOperands vs) = some (place, vs)
  | .field .., _, _, rfl | .tupleField .., _, _, rfl | .unary _ .deref _, _, _, rfl =>
    ⟨rfl, rfl, fun | [_], _ => rfl⟩
  | .index .., _, _, rfl => ⟨rfl, rfl, fun | [_, _], _ => rfl⟩

/-- **The parts of a place are evaluated in order**, and the place stays the same. -/
theorem lowerExpr_place (hc : c.Suits m) {target : Expr} (h : Ordinary target)
    {place : Location} {parts : List Expr} (hp : place? target = some (place, parts)) (i : ℕ) :
    Gives (lowerExpr c target) i fun l j => i ≤ j ∧
      ∃ parts', place? l.value = some (place, parts') ∧
        Realizes m (Set.Ioc i j) (m.evalRow · parts) l.before (m.evalRow · parts') := by
  obtain ⟨hstrict, rfl, hplace⟩ := place_strict hp
  rw [lowerExpr_strict hstrict]
  refine (lowerRow_lowers hc (fun o ho => h.operand ho) i).bind fun ls j hls => ?_
  have hlength := hls.length ▸ length_spill (c := c) (n := j) ls
  have hr := hls.realizes (c := c)
  exact ⟨hr.1, _, hplace _ hlength, hr.2.2⟩

/-! ## Single statements -/

/-- The second row of statements runs like the first. -/
structure RowFollows (m : Machine V) (ss ss' : List Stmt) : Prop where
  fns : m.fnBindings ss' = m.fnBindings ss
  agree : ∀ n σ τ, Similar σ τ → Agree Alike (m.execRow n σ ss) (m.execRow n τ ss')

theorem Realizes.follows {stmts : List Stmt} (h : Realizes m S src stmts read) {s s' : Stmt}
    {f g : ℕ → α → Env V → Run V (After V)}
    (hfg : ∀ n a σ τ, Similar σ τ → Agree Alike (f n a σ) (g n a τ))
    (hs : ∀ n σ, m.exec n σ s = src σ >>= fun a => f n a σ := by intros; rw [Machine.exec])
    (hs' : ∀ n σ, m.exec n σ s' = read σ >>= fun a => g n a σ := by intros; rw [Machine.exec])
    (hfns : m.fnBindings [s'] = m.fnBindings [s] := by rfl) : RowFollows m [s] (stmts ++ [s']) := by
  refine ⟨?_, fun n σ τ hσ => ?_⟩
  · rw [Machine.fnBindings_append, h.calm.fnless, hfns, List.nil_append]
  · rw [Machine.execRow_singleton, hs]
    exact h.agree_row hσ (hs' n) fun a υ hυ => hfg n a σ υ hυ

theorem follows_of_exec {s s' : Stmt}
    (h : ∀ n σ τ, Similar σ τ → Agree Alike (m.exec n σ s) (m.exec n τ s'))
    (hfns : m.fnBindings [s'] = m.fnBindings [s] := by rfl) : RowFollows m [s] [s'] := by
  refine ⟨hfns, fun n σ τ hσ => ?_⟩
  rw [Machine.execRow_singleton, Machine.execRow_singleton]
  exact h n σ τ hσ

theorem RowFollows.cons {s : Stmt} {xs ss ys : List Stmt} (h : RowFollows m [s] xs)
    (h' : RowFollows m ss ys) : RowFollows m (s :: ss) (xs ++ ys) := by
  refine ⟨?_, fun n σ τ hσ => ?_⟩
  · rw [Machine.fnBindings_append, h.fns, h'.fns, ← Machine.fnBindings_append]
    rfl
  · rw [← List.singleton_append, Machine.execRow_append, Machine.execRow_append]
    exact Agree.bind (h.agree n σ τ hσ) fun a b hab => agree_andThen hab (h'.agree n)

/-! ## Loops with a condition -/

variable {cond : Condition}

section While

variable {e : Expr} {l : Lowered} {b b' : Block}

theorem execBlock_exit (n : ℕ) (σ : Env V) (r : Region) :
    m.execBlock n σ [] (.mk [.breakLoop r] r none) = return ⟨σ, [], .leave⟩ := by
  rw [Machine.execBlock_eq]
  simp [Block.stmts, Block.tail, Machine.fnBindings, Machine.inside_none,
    Machine.execRow_singleton, Machine.exec, close, restore]

theorem inside_leave (n : ℕ) (σ : Env V) (r : Region) (e : Expr) (stmts : List Stmt)
    (tail : Option Expr) :
    m.inside n σ (.ifElse r (.test (.unary e.region .not e)) (.mk [.breakLoop r] r none) none
      :: stmts) tail = do
      let v ← m.eval σ e
      if m.values.isTrue v then m.inside n σ stmts tail else return ⟨σ, [], .leave⟩ := by
  rw [← List.singleton_append, Machine.inside_append, Machine.execRow_singleton, Machine.exec]
  simp only [Machine.decide?, Machine.eval, Machine.bool, bind_assoc, pure_bind,
    Values.isTrue_bool]
  refine bind_congr fun v => ?_
  cases m.values.isTrue v with
  | true => simp [Machine.skip]
  | false => simp [execBlock_exit, Machine.andThen]

/-- **A condition may be evaluated inside its loop's block** if the functions of the block hide none
of its names. -/
theorem round_inside (h : ∀ x ∈ e.names, x ∉ fnNames b.stmts) (n : ℕ) (σ : Env V) :
    m.whileRound n (.test e) b σ
      = close <$> Machine.andThen (bindAll σ (m.fnBindings b.stmts)) fun σ => do
          let v ← m.eval σ e
          if m.values.isTrue v then m.inside n σ b.stmts b.tail else return ⟨σ, [], .leave⟩ := by
  have heval : m.eval (bindAll σ (m.fnBindings b.stmts)).env e = m.eval σ e := by
    refine m.eval_congr e fun x hx => bindAll_of_notMem ?_ σ
    rw [Machine.fnBindings_names]
    exact h x hx
  have hrestore := restore_bindAll σ (m.fnBindings b.stmts)
  simp only [Machine.whileRound, Machine.decide?, bind_assoc, pure_bind, Machine.execBlock_eq]
  rcases hb : bindAll σ (m.fnBindings b.stmts) with ⟨τ, covered, flow⟩
  obtain rfl : flow = .next := by rw [← bindAll_flow σ (m.fnBindings b.stmts), hb]
  rw [hb] at heval hrestore
  simp only at heval hrestore
  simp only [Machine.andThen_next, heval, bind_assoc, map_bind]
  refine bind_congr fun v => ?_
  cases m.values.isTrue v with
  | true => simp [hb]
  | false => simp [close, hrestore]

/-- A `while` with a test whose condition needs statements becomes a `loop` around both. -/
theorem agree_round_test (hl : Lowers m e S l) (hb : Follows m b b')
    (h : ∀ x ∈ e.names, x ∉ fnNames b.stmts) (n : ℕ) (r : Region) (hσ : Similar σ τ) :
    Agree Alike (m.whileRound n (.test e) b σ)
      (m.execBlock n τ [] (.mk (l.before ++ [.ifElse r (.test (.unary l.value.region .not l.value))
        (.mk [.breakLoop r] r none) none] ++ b'.stmts) b'.region b'.tail)) := by
  have hfns : m.fnBindings (l.before ++ [.ifElse r (.test (.unary l.value.region .not l.value))
      (.mk [.breakLoop r] r none) none] ++ b'.stmts) = m.fnBindings b.stmts := by
    rw [Machine.fnBindings_append, Machine.fnBindings_append, hl.realizes.calm.fnless, hb.fns]
    rfl
  rw [round_inside h, Machine.execBlock_eq, Block.stmts, Block.tail, hfns]
  refine Agree.close (agree_andThen (alike_bindAll _ hσ) fun υ ω hυ => ?_)
  rw [List.append_assoc, List.singleton_append, Machine.inside_append]
  simp only [inside_leave]
  refine hl.realizes.agree_andThen hυ fun v ω' hω' => ?_
  cases m.values.isTrue v with
  | true => exact hb.inside n υ ω' hω'
  | false => exact agree_pure (alike_of_similar hω' .leave)

/-- A `while` with a pattern whose condition needs statements becomes a `loop` around both. -/
theorem agree_round_let {cond' : Condition} {before : List Stmt}
    (hc : Realizes m S (m.decide? · cond) before (m.decide? · cond')) (hb : Follows m b b')
    (n : ℕ) (r : Region) (hσ : Similar σ τ) : Agree Alike (m.whileRound n cond b σ)
      (m.execBlock n τ [] (.mk (before ++ [.ifElse r cond' b' (some (.mk [.breakLoop r] r none))])
        b'.region none)) := by
  have hfns : m.fnBindings (before ++ [.ifElse r cond' b' (some (.mk [.breakLoop r] r none))])
      = [] := by
    rw [Machine.fnBindings_append, hc.calm.fnless]
    rfl
  rw [← Machine.close_whileRound, Machine.execBlock_eq, Block.stmts, Block.tail, hfns,
    List.append_nil, bindAll_nil, Machine.andThen_start, Machine.inside_none]
  refine Agree.close (hc.agree_row hσ (fun υ => by rw [Machine.exec]) fun o υ hυ => ?_)
  cases o with
  | some bs => exact hb.execBlock n hυ bs
  | none =>
    exact agree_pure (alike_of_similar hυ .leave)

theorem agree_round_idle {cond' : Condition}
    (hc : Realizes m S (m.decide? · cond) [] (m.decide? · cond')) (hb : Follows m b b') (n : ℕ)
    (hσ : Similar σ τ) :
    Agree Alike (m.whileRound n cond b σ) (m.whileRound n cond' b' τ) := by
  have hsame := hc.same n σ τ hσ
  rw [through_nil] at hsame
  rw [Machine.whileRound, Machine.whileRound, hsame]
  refine Agree.bind (Agree.refl _) fun o o' ho => ?_
  obtain rfl : o = o' := ho
  cases o with
  | some bs => exact hb.execBlock n hσ bs
  | none => exact agree_pure (alike_of_similar hσ .leave)

theorem while_idle_follows {cond' : Condition}
    (hc : Realizes m S (m.decide? · cond) [] (m.decide? · cond')) (hb : Follows m b b')
    (r : Region) : RowFollows m [.whileDo r cond b] [lowerWhile r [] cond' b'] := by
  change RowFollows m [.whileDo r cond b] [.whileDo r cond' b']
  refine follows_of_exec fun n σ τ hσ => ?_
  exact agree_rounds (fun σ τ hσ => agree_round_idle hc hb n hσ) n hσ

theorem while_loop_follows {body : Block} (h : ∀ n (σ τ : Env V), Similar σ τ →
      Agree Alike (m.whileRound n cond b σ) (m.execBlock n τ [] body)) (r : Region) :
    RowFollows m [.whileDo r cond b] [.loop r body] := by
  refine follows_of_exec fun n σ τ hσ => ?_
  exact agree_rounds (h n) n hσ

/-- No function of the body hides a name of a test that suspends. -/
def Uncaptured : Condition → Block → Prop
  | .test e, body => e.suspends = true → ∀ x ∈ e.names, x ∉ fnNames body.stmts
  | .letMatch .., _ => True

/-- **A `while` is kept**, if the functions of its body hide no name of a test that suspends. -/
theorem lowerWhile_follows (hc : c.Suits m) (h : Ordinary cond.value) (hcapture : Uncaptured cond b)
    (r : Region) (i : ℕ) : Gives (lowerCondition c cond) i fun p j => i ≤ j ∧
      ∀ b', Follows m b b' → RowFollows m [.whileDo r cond b] [lowerWhile r p.1 p.2 b'] := by
  cases cond with
  | test e =>
    refine (lowerExpr_lowers hc e h i).bind fun l j hl => gives_pure.mpr ⟨hl.1, fun b' hb => ?_⟩
    have hr : Realizes m (Set.Ioc i j) (m.decide? · (.test e)) l.before
        (m.decide? · (.test l.value)) := hl.2.realizes.map _
    by_cases hbefore : l.before = []
    · rw [hbefore] at hr ⊢
      exact while_idle_follows hr hb r
    · have hsuspends : e.suspends = true := by
        by_contra hs
        exact hbefore (hl.2.idle (Bool.eq_false_iff.mpr hs))
      rw [lowerWhile, if_neg (by simpa using hbefore)]
      exact while_loop_follows
        (fun n σ τ hσ => agree_round_test hl.2 hb (hcapture hsuspends) n r hσ) r
  | letMatch r' p value =>
    refine (lowerExpr_lowers hc value h i).bind fun l j hl =>
      gives_pure.mpr ⟨hl.1, fun b' hb => ?_⟩
    have hr : Realizes m (Set.Ioc i j) (m.decide? · (.letMatch r' p value)) l.before
        (m.decide? · (.letMatch r' p l.value)) := hl.2.realizes.map _
    by_cases hbefore : l.before = []
    · rw [hbefore] at hr ⊢
      exact while_idle_follows hr hb r
    · rw [lowerWhile, if_neg (by simpa using hbefore)]
      exact while_loop_follows (fun n σ τ hσ => agree_round_let hr hb n r hσ) r

end While

end Yielding.Lowering
