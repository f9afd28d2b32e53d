import Yielding.Proofs.Lowering.Rows

/-!
# Proofs/Lowering/Sites — where lowered expressions stand

A **site** is where lowering comes to an expression of an item: the context there, and the number of
temporaries made before.  What lowering makes of the expression of a site **stands** in the lowered
item: what runs before it is part of a row of statements, and its value is used after that, in the
same row (`lower_stands`).
-/

namespace Yielding

open List

/-! ## Parts of statements -/

mutual

/-- The expressions of a statement and all their parts, guards apart. -/
def Stmt.subterms : Stmt → List Expr
  | .letIn _ _ _ value none | .expr _ value | .ret _ (some value) => value.walk
  | .letIn _ _ _ value (some b) => value.walk ++ b.subterms
  | .assign _ target value _ => value.walk ++ target.walk
  | .ifElse _ condition a none | .whileDo _ condition a => condition.value.walk ++ a.subterms
  | .ifElse _ condition a (some b) => condition.value.walk ++ a.subterms ++ b.subterms
  | .loop _ b | .block _ b | .fn _ _ _ _ b => b.subterms
  | .forIn _ _ iterable b => iterable.walk ++ b.subterms
  | .matchOn _ subject arms => subject.walk ++ armSubterms arms
  | .ret _ none | .breakLoop _ | .continueLoop _ | .suspend .. | .terminate _ => []

def rowSubterms : List Stmt → List Expr
  | [] => []
  | s :: ss => s.subterms ++ rowSubterms ss

def Block.subterms : Block → List Expr
  | .mk stmts _ none => rowSubterms stmts
  | .mk stmts _ (some tail) => rowSubterms stmts ++ tail.walk

def armSubterms : List Arm → List Expr
  | [] => []
  | .mk _ _ _ b :: arms => b.subterms ++ armSubterms arms

end

/-- All expressions of the item. -/
def Definition.subterms (d : Definition) : List Expr := rowSubterms d.prelude ++ d.body.subterms

namespace Lowering

/-! ## Sites -/

/-- Where lowering comes to an expression. -/
structure Site where
  context : Context
  /-- The number of temporaries made before. -/
  count : Nat
  /-- Whether the value is used.  That of a `return` outside functions is not: it ends the
  sequence. -/
  isUsed : Bool
  expr : Expr

namespace Site

/-- What the expression is lowered to. -/
def lowered (s : Site) : Lowered := ((lowerExpr s.context s.expr).run s.count).1

/-- What the operands are lowered to. -/
def operands (s : Site) : List Lowered := ((lowerRow s.context s.expr.operands).run s.count).1

end Site

/-- The number of temporaries made when a computation has run. -/
def after {α : Type} (x : Fresh α) (n : Nat) : Nat := (x.run n).2

section Expressions

variable (c : Context) (isUsed : Bool)

mutual

def exprSites : Nat → Expr → List Site
  | n, e@(.literal ..) | n, e@(.name ..) | n, e@(.path ..)
  | n, e@(.yield _ none) => [⟨c, n, isUsed, e⟩]
  | n, e@(.call _ a row) | n, e@(.methodCall _ a _ row) =>
    ⟨c, n, isUsed, e⟩ :: (exprSites n a ++ rowSites (after (lowerExpr c a) n) row)
  | n, e@(.field _ a _) | n, e@(.tupleField _ a _) | n, e@(.borrow _ a _) | n, e@(.await _ a)
  | n, e@(.unary _ _ a) | n, e@(.attempt _ a) | n, e@(.yield _ (some a)) =>
    ⟨c, n, isUsed, e⟩ :: exprSites n a
  | n, e@(.index _ a b) | n, e@(.binary _ _ a b) | n, e@(.range _ a b _) =>
    ⟨c, n, isUsed, e⟩ :: (exprSites n a ++ exprSites (after (lowerExpr c a) n) b)
  | n, e@(.tuple _ row) | n, e@(.array _ row) | n, e@(.macroCall _ _ row)
  | n, e@(.helper _ _ row) =>
    ⟨c, n, isUsed, e⟩ :: rowSites n row

def rowSites : Nat → List Expr → List Site
  | _, [] => []
  | n, e :: es => exprSites n e ++ rowSites (after (lowerExpr c e) n) es

end

theorem exprSites_eq (n : Nat) (e : Expr) :
    exprSites c isUsed n e = ⟨c, n, isUsed, e⟩ :: rowSites c isUsed n e.operands := by
  cases e with
  | yield r value => cases value <;> simp [exprSites, rowSites, Expr.operands]
  | _ => simp [exprSites, rowSites, Expr.operands]

end Expressions

mutual

def stmtSites : Context → Nat → Stmt → List Site
  | c, n, .letIn _ _ _ value none | c, n, .expr _ value => exprSites c true n value
  | c, n, .letIn _ _ _ value (some b) =>
    exprSites c true n value ++ blockSites c (after (lowerExpr c value) n) b
  | c, n, .assign _ target value _ =>
    exprSites c true n value ++ exprSites c true (after (lowerExpr c value) n) target
  | c, n, .ret _ (some value) => exprSites c c.inFn n value
  | c, n, .ifElse _ condition a none | c, n, .whileDo _ condition a =>
    exprSites c true n condition.value ++ blockSites c (after (lowerCondition c condition) n) a
  | c, n, .ifElse _ condition a (some b) =>
    let m := after (lowerCondition c condition) n
    exprSites c true n condition.value ++ blockSites c m a ++
      blockSites c (after (lowerBlock c a) m) b
  | c, n, .loop _ b | c, n, .block _ b => blockSites c n b
  | c, n, .fn _ _ _ _ b => blockSites { c with inFn := true } n b
  | c, n, .forIn _ _ iterable b =>
    exprSites c true n iterable ++ blockSites c (after (lowerExpr c iterable) n) b
  | c, n, .matchOn _ subject arms =>
    exprSites c true n subject ++ armSites c (after (lowerExpr c subject) n) arms
  | _, _, .ret _ none | _, _, .breakLoop _ | _, _, .continueLoop _ | _, _, .suspend ..
  | _, _, .terminate _ => []

def stmtsSites : Context → Nat → List Stmt → List Site
  | _, _, [] => []
  | c, n, s :: ss => stmtSites c n s ++ stmtsSites c (after (lowerStmt c s) n) ss

def blockSites : Context → Nat → Block → List Site
  | c, n, .mk stmts _ none => stmtsSites c n stmts
  | c, n, .mk stmts _ (some tail) =>
    stmtsSites c n stmts ++ exprSites c true (after (lowerStmts c stmts) n) tail

def armSites : Context → Nat → List Arm → List Site
  | _, _, [] => []
  | c, n, .mk _ _ guard b :: arms =>
    let m := after (lowerGuard c guard) n
    blockSites c m b ++ armSites c (after (lowerBlock c b) m) arms

end

def bodyContext (d : Definition) : Context := ⟨d.residual?.isSome, false, mutables d⟩

def preludeContext (d : Definition) : Context := { bodyContext d with inFn := true }

/-- Where the expressions of an item are lowered. -/
def sites (d : Definition) : List Site :=
  stmtsSites (preludeContext d) 0 d.prelude ++
    blockSites (bodyContext d) (after (lowerStmts (preludeContext d) d.prelude) 0) d.body

/-- A site of an expression where the names in `xs` are known to be bound `mut`. -/
structure Site.IsOf (xs : List String) (s : Site) (e : Expr) : Prop where
  expr : s.expr = e
  mutables : s.context.mutables = xs

section Expressions

variable {c : Context} {isUsed : Bool}

theorem exprSites_spec (e : Expr) :
    ∀ n, Forall₂ (fun s e => s.isUsed = isUsed ∧ s.IsOf c.mutables e)
    (exprSites c isUsed n e) e.walk := by
  have hrow : ∀ es : List Expr, (∀ e ∈ es, ∀ n, Forall₂
      (fun s e => s.isUsed = isUsed ∧ s.IsOf c.mutables e) (exprSites c isUsed n e) e.walk) →
      ∀ n, Forall₂ (fun s e => s.isUsed = isUsed ∧ s.IsOf c.mutables e)
        (rowSites c isUsed n es) (Expr.walkRow es) := by
    intro es
    induction es with
    | nil =>
      intro _ n
      exact .nil
    | cons e es ih =>
      intro h n
      have h := forall_mem_cons.1 h
      exact rel_append (h.1 n) (ih h.2 _)
  induction e using Expr.operandInduction with
  | h e ih =>
    intro n
    rw [exprSites_eq, Expr.walk_eq]
    exact .cons ⟨rfl, rfl, rfl⟩ (hrow _ ih n)

theorem isUsed_of_mem_exprSites {e : Expr} {n : ℕ} {s : Site} (h : s ∈ exprSites c isUsed n e) :
    s.isUsed = isUsed :=
  ((forall₂_and_left _ _).1 (exprSites_spec e n)).1 s h

theorem exprSites_isOf (e : Expr) (n : ℕ) :
    Forall₂ (Site.IsOf c.mutables) (exprSites c isUsed n e) e.walk :=
  ((forall₂_and_left _ _).1 (exprSites_spec e n)).2

end Expressions

mutual

theorem stmtSites_isOf : ∀ {c : Context} {n : ℕ} (s : Stmt),
    Forall₂ (Site.IsOf c.mutables) (stmtSites c n s) s.subterms
  | _, _, .letIn _ _ _ value none | _, _, .expr _ value | _, _, .ret _ (some value) =>
    exprSites_isOf value _
  | _, _, .letIn _ _ _ value (some b) | _, _, .forIn _ _ value b =>
    rel_append (exprSites_isOf value _) (blockSites_isOf b)
  | _, _, .assign _ target value _ => rel_append (exprSites_isOf value _) (exprSites_isOf target _)
  | _, _, .ifElse _ condition b none | _, _, .whileDo _ condition b =>
    rel_append (exprSites_isOf condition.value _) (blockSites_isOf b)
  | _, _, .ifElse _ condition a (some b) =>
    rel_append (rel_append (exprSites_isOf condition.value _) (blockSites_isOf a))
      (blockSites_isOf b)
  | _, _, .loop _ b | _, _, .block _ b => blockSites_isOf b
  | c, _, .fn _ _ _ _ b => blockSites_isOf (c := { c with inFn := true }) b
  | _, _, .matchOn _ subject arms => rel_append (exprSites_isOf subject _) (armSites_isOf arms)
  | _, _, .ret _ none | _, _, .breakLoop _ | _, _, .continueLoop _ | _, _, .suspend ..
  | _, _, .terminate _ => .nil

theorem stmtsSites_isOf : ∀ {c : Context} {n : ℕ} (ss : List Stmt),
    Forall₂ (Site.IsOf c.mutables) (stmtsSites c n ss) (rowSubterms ss)
  | _, _, [] => .nil
  | _, _, s :: ss => rel_append (stmtSites_isOf s) (stmtsSites_isOf ss)

theorem blockSites_isOf : ∀ {c : Context} {n : ℕ} (b : Block),
    Forall₂ (Site.IsOf c.mutables) (blockSites c n b) b.subterms
  | _, _, .mk ss _ none => stmtsSites_isOf ss
  | _, _, .mk ss _ (some tail) => rel_append (stmtsSites_isOf ss) (exprSites_isOf tail _)

theorem armSites_isOf : ∀ {c : Context} {n : ℕ} (arms : List Arm),
    Forall₂ (Site.IsOf c.mutables) (armSites c n arms) (armSubterms arms)
  | _, _, [] => .nil
  | _, _, .mk _ _ _ b :: arms => rel_append (blockSites_isOf b) (armSites_isOf arms)

end

/-- **Each expression of an item has one site**, where all names are known that the item binds
`mut`. -/
theorem sites_isOf (d : Definition) : Forall₂ (Site.IsOf (mutables d)) (sites d) d.subterms := by
  have hprelude : Forall₂ (Site.IsOf (mutables d)) _ _ :=
    stmtsSites_isOf (c := preludeContext d) (n := 0) d.prelude
  exact rel_append hprelude (blockSites_isOf (c := bodyContext d) d.body)

/-! ## Standing in a row -/

/-- A value is used in a row of statements, not inside their blocks, or in one of some
expressions. -/
def Mentions (ss : List Stmt) (es : List Expr) (v : Expr) : Prop :=
  (∃ s ∈ ss, ∃ e ∈ s.heads, v ∈ e.walk) ∨ ∃ e ∈ es, v ∈ e.walk

/-- What lowering made of an expression stands in a row of statements, which the expressions `es`
come after, or in a block inside the row.  A value that is used and is not `()` is mentioned after
what runs before it. -/
inductive Stands (isUsed : Bool) (l : Lowered) : List Stmt → List Expr → Prop
  | here {ss es} (pre post : List Stmt) : ss = pre ++ l.before ++ post →
    (isUsed = true → l.value.isUnit = false → Mentions post es l.value) → Stands isUsed l ss es
  | inside {ss es s b} : s ∈ ss → b ∈ s.children → Stands isUsed l b.stmts b.tail.toList →
    Stands isUsed l ss es

section Standing

variable {u : Bool} {l a b : Lowered} {ss pre post : List Stmt} {es es' : List Expr}
  {c : Context} {n : ℕ}

theorem Mentions.mono {v : Expr} (h : Mentions ss es v) (hss : ss ⊆ post)
    (hes : (∃ e ∈ es, v ∈ e.walk) → Mentions post es' v) : Mentions post es' v := by
  obtain ⟨s, hs, hv⟩ | hv := h
  · exact .inl ⟨s, hss hs, hv⟩
  · exact hes hv

theorem Stands.append_left (pre : List Stmt) (h : Stands u l ss es) :
    Stands u l (pre ++ ss) es := by
  cases h with
  | here pre' post hss hvalue => exact .here (pre ++ pre') post (by simp [hss]) hvalue
  | inside hs hb h => exact .inside (mem_append_right _ hs) hb h

theorem Stands.append_right (post : List Stmt) (h : Stands u l ss es)
    (hes : u = true → ∀ v : Expr, v.isUnit = false → (∃ e ∈ es, v ∈ e.walk) → Mentions post es' v) :
    Stands u l (ss ++ post) es' := by
  cases h with
  | here pre post' hss hvalue =>
    subst hss
    refine .here pre (post' ++ post) (by simp) fun hu hunit => ?_
    refine (hvalue hu hunit).mono (subset_append_left _ _) fun hv => ?_
    exact (hes hu _ hunit hv).mono (subset_append_right _ _) .inr
  | inside hs hb h => exact .inside (mem_append_left _ hs) hb h

theorem Stands.append_row (post : List Stmt) (h : Stands u l ss []) : Stands u l (ss ++ post) es' :=
  h.append_right post fun _ _ _ hv => absurd hv nofun

theorem Stands.mono (h : Stands u l ss es)
    (hes : ∀ v : Expr, (∃ e ∈ es, v ∈ e.walk) → ∃ e ∈ es', v ∈ e.walk) : Stands u l ss es' := by
  rw [← append_nil ss]
  exact h.append_right [] fun _ v _ hv => .inr (hes v hv)

theorem Stands.of_used (h : Stands true l ss es) : Stands u l ss es := by
  induction h with
  | here pre post hss hvalue => exact .here pre post hss fun _ => hvalue rfl
  | inside hs hb _ ih => exact .inside hs hb ih

/-- **Standing is transitive**: what stands in what was made of an expression stands where that
does. -/
theorem Stands.through (h : Stands true l a.before [a.value]) (ha : Stands u a ss es) :
    Stands u l ss es := by
  induction ha with
  | inside hs hb _ ih => exact .inside hs hb ih
  | here pre post hss hvalue =>
    rw [hss]
    refine (h.of_used.append_left pre).append_right post fun hu v hv hmem => ?_
    have hmem : v ∈ a.value.walk := by simpa using hmem
    cases hunit : a.value.isUnit with
    | true =>
      -- `()` has no parts but itself
      obtain ⟨r, hr⟩ : ∃ r, a.value = .literal r .unit := by
        revert hunit
        fun_cases Expr.isUnit a.value <;> simp_all
      rw [hr, Expr.walk, mem_singleton] at hmem
      rw [hmem] at hv
      cases hv
    | false =>
      obtain ⟨s, hs, e, he, hae⟩ | ⟨e, he, hae⟩ := hvalue hu hunit
      · exact .inl ⟨s, hs, e, he, Expr.walk_trans hmem hae⟩
      · exact .inr ⟨e, he, Expr.walk_trans hmem hae⟩

theorem stands_self (l : Lowered) : Stands u l l.before [l.value] :=
  .here [] [] (by simp) fun _ _ => .inr ⟨_, mem_singleton_self _, l.value.mem_walk_self⟩

/-! ## Operands -/

theorem mentions_kept (t : Temp) (i : ℕ) (v : Expr) : Mentions (t.kept i v :: ss) es v :=
  .inl ⟨_, mem_cons_self, v, mem_singleton_self _, v.mem_walk_self⟩

theorem mentions_head {s : Stmt} {v : Expr} (hs : s ∈ ss) (hv : v ∈ s.heads) : Mentions ss es v :=
  .inl ⟨s, hs, v, hv, v.mem_walk_self⟩

theorem mentions_operand {e v : Expr} (hv : v ∈ e.operands) : Mentions ss [e] v :=
  .inr ⟨e, mem_singleton_self e, Expr.mem_walk_of_mem_operands hv⟩

theorem protect_mentions (pending : Bool) (v : Expr) :
    Gives (protect c pending v) n fun q _ =>
      ∀ ss es, Mentions (q.before ++ ss) (q.value :: es) v := by
  unfold protect
  split
  · exact gives_bind.2 (gives_keep.2 (gives_pure.2 fun _ _ => mentions_kept _ _ v))
  · exact gives_pure.2 fun _ _ => .inr ⟨v, mem_cons_self, v.mem_walk_self⟩

theorem spill_stands (ls : List Lowered) :
    Gives (spill c ls) n fun q _ => ∀ l ∈ ls, Stands true l q.1 q.2 := by
  induction ls generalizing n with
  | nil => exact gives_pure.2 nofun
  | cons l ls ih =>
    refine (protect_mentions _ l.value).bind fun q m hq => ih.bind fun r k hr => gives_pure.2 ?_
    refine forall_mem_cons.2 ⟨.here [] (q.before ++ r.1) (by simp) fun _ _ => hq r.1 r.2, ?_⟩
    intro a ha
    exact ((hr a ha).append_left (l.before ++ q.before)).mono fun v ⟨e, he, hv⟩ =>
      ⟨e, mem_cons_of_mem _ he, hv⟩

theorem strict_stands {e : Expr} {ls : List Lowered} (h : ls.length = e.operands.length) :
    Gives (do
      let (before, values) ← spill c ls
      return (⟨before, e.withOperands values⟩ : Lowered)) n
      fun L _ => ∀ l ∈ ls, Stands true l L.before [L.value] := by
  have hlength := length_spill (c := c) (n := n) ls
  refine gives_bind.2 fun l hl => ?_
  have hoperands := Expr.operands_withOperands (hlength.trans h)
  exact (spill_stands ls l hl).mono fun v ⟨o, ho, hv⟩ => ⟨_, mem_singleton_self _,
    Expr.walk_trans hv (Expr.mem_walk_of_mem_operands (hoperands.symm ▸ ho))⟩

theorem lowerYield_stands (r : Region) (a : Lowered) :
    Stands true a (lowerYield r a).before [(lowerYield r a).value] :=
  .here [] [.suspend r a.value] rfl fun _ _ =>
    mentions_head (mem_singleton_self _) (mem_singleton_self _)

theorem lowerTry_stands (r : Region) (a : Lowered) :
    Gives (lowerTry c r a) n fun L _ => Stands true a L.before [L.value] :=
  gives_bind.2 (gives_keep.2 (gives_pure.2 (.here [] _ rfl fun _ _ => mentions_kept _ _ _)))

theorem lowerLazy_stands (r : Region) (op : BinaryOp) (a b : Lowered) :
    Gives (lowerLazy r op a b) n fun L _ =>
      Stands true a L.before [L.value] ∧ Stands true b L.before [L.value] := by
  unfold lowerLazy
  split
  · next hpending =>
    have hb : b.before = [] := by simpa [Lowered.isPending] using hpending
    refine gives_pure.2 ⟨.here [] [] (by simp) fun _ _ => ?_,
      .here a.before [] (by simp [hb]) fun _ _ => ?_⟩
    · exact mentions_operand mem_cons_self
    · exact mentions_operand (mem_cons_of_mem _ mem_cons_self)
  · refine gives_bind.2
      (gives_keep.2 (gives_pure.2 ⟨.here [] _ rfl fun _ _ => mentions_kept _ _ _, ?_⟩))
    refine .inside (mem_append_right _ (mem_cons_of_mem _ mem_cons_self))
      mem_cons_self (.here [] _ rfl fun _ _ => ?_)
    exact mentions_head (mem_singleton_self _) (mem_cons_of_mem _ mem_cons_self)

theorem exists_flatMap_before {ls : List Lowered} (h : l ∈ ls) :
    ∃ first rest, ls.flatMap Lowered.before = first ++ l.before ++ rest := by
  obtain ⟨ls₁, ls₂, rfl⟩ := append_of_mem h
  exact ⟨ls₁.flatMap Lowered.before, ls₂.flatMap Lowered.before, by simp⟩

theorem ne_take_of_mem {method : String} {bs : List Lowered} (h : isSwap method bs.length = true)
    (hb : b ∈ bs) : (method == "take") = false := by
  have hlength : bs.length ≠ 0 := ne_nil_of_mem hb ∘ eq_nil_of_length_eq_zero
  rw [isSwap, Bool.or_eq_true, Bool.and_eq_true, Bool.and_eq_true, beq_iff_eq, beq_iff_eq,
    beq_iff_eq] at h
  obtain ⟨-, h⟩ | ⟨rfl, -⟩ := h
  · exact absurd h hlength
  · rfl

theorem lowerSwap_stands {r : Region} {method : String} {bs : List Lowered}
    (h : isSwap method bs.length = true) :
    Gives (lowerSwap r method a bs) n fun L _ =>
      Stands true a L.before [L.value] ∧ ∀ b ∈ bs, Stands true b L.before [L.value] := by
  unfold lowerSwap
  split
  · refine gives_pure.2 ⟨.here [] (bs.flatMap Lowered.before) rfl fun _ _ => ?_, fun b hb => ?_⟩
    · exact mentions_operand mem_cons_self
    · obtain ⟨first, rest, hbs⟩ := exists_flatMap_before hb
      refine .here (a.before ++ first) rest (by simp [hbs]) fun _ _ => ?_
      exact mentions_operand (mem_cons_of_mem _ (mem_map_of_mem hb))
  · refine gives_bind.2 (gives_keep.2 (gives_pure.2 ⟨?_, fun b hb => ?_⟩))
    · refine .here [] _ (append_assoc ..) fun _ _ => ?_
      exact mentions_head (mem_append_right _ mem_cons_self) (mem_singleton_self _)
    · obtain ⟨first, rest, hbs⟩ := exists_flatMap_before hb
      rw [ne_take_of_mem h hb, hbs]
      refine .here (a.before ++ first) _ (by simp only [append_assoc]; rfl) fun _ _ => ?_
      refine .inl ⟨_, mem_append_right _ (mem_cons_of_mem _ mem_cons_self), _,
        mem_cons_of_mem _ mem_cons_self, ?_⟩
      exact Expr.mem_walk_of_mem_operands (mem_cons_of_mem _ (mem_map_of_mem hb))

/-- **The operands of an expression stand in what is made of it.** -/
theorem operands_stand (e : Expr) :
    Gives (lowerExpr c e) n fun L _ =>
      ∀ l ∈ ((lowerRow c e.operands).run n).1, Stands true l L.before [L.value] := by
  cases hstrict : isStrict e with
  | true =>
    have hls : ((lowerRow c e.operands).run n).1.length = e.operands.length :=
      length_lowerRow e.operands
    rw [lowerExpr_strict hstrict]
    exact strict_stands hls
  | false =>
    cases e with
    | yield r value =>
      cases value with
      | none => exact nofun
      | some value =>
        exact forall_mem_singleton.2 (lowerYield_stands r _)
    | attempt r operand =>
      exact forall_mem_singleton.2 (lowerTry_stands r _)
    | binary r op left right =>
      have hlazy : op.isLazy = true := by simpa [isStrict] using hstrict
      rw [lowerExpr]
      simp only [hlazy, if_true]
      exact forall_mem_cons.2 ⟨(lowerLazy_stands r op _ _).1,
        forall_mem_singleton.2 (lowerLazy_stands r op _ _).2⟩
    | methodCall r receiver method args =>
      have hswap : isSwap method args.length = true := by simpa [isStrict] using hstrict
      have hlength : ((lowerRow c args).run ((lowerExpr c receiver).run n).2).1.length =
        args.length :=
        length_lowerRow args
      have hbs := hlength.symm ▸ hswap
      rw [lowerExpr]
      simp only [hswap, if_true]
      exact forall_mem_cons.2 (lowerSwap_stands hbs)
    | _ => cases hstrict

/-! ## Expressions -/

theorem rowSites_stand {es : List Expr}
    (h : ∀ e ∈ es, ∀ n, ∀ s ∈ exprSites c u n e, Gives (lowerExpr c e) n fun L _ =>
      Stands true s.lowered L.before [L.value]) :
    Gives (lowerRow c es) n fun ls _ =>
      ∀ s ∈ rowSites c u n es, ∃ l ∈ ls, Stands true s.lowered l.before [l.value] := by
  induction es generalizing n with
  | nil => simp [rowSites, Gives]
  | cons e es ih =>
    have h := forall_mem_cons.1 h
    refine forall_mem_append.2 ⟨fun s hs => ⟨_, mem_cons_self, h.1 n s hs⟩, fun s hs => ?_⟩
    obtain ⟨l, hl, hstands⟩ := ih h.2 s hs
    exact ⟨l, mem_cons_of_mem _ hl, hstands⟩

/-- **What is made of a part of an expression stands in what is made of the expression.** -/
theorem exprSites_stand (e : Expr) :
    ∀ n, ∀ s ∈ exprSites c u n e, Gives (lowerExpr c e) n fun L _ =>
    Stands true s.lowered L.before [L.value] := by
  induction e using Expr.operandInduction with
  | h e ih =>
    intro n
    rw [exprSites_eq]
    refine forall_mem_cons.2 ⟨stands_self _, fun s hs => ?_⟩
    obtain ⟨l, hl, hstands⟩ := rowSites_stand ih s hs
    exact hstands.through (operands_stand e l hl)

theorem exprSites_found {e : Expr}
    (h : Stands u ((lowerExpr c e).run n).1 ss es) :
    ∀ s ∈ exprSites c u n e, Stands s.isUsed s.lowered ss es := by
  intro s hs
  rw [isUsed_of_mem_exprSites hs]
  exact Stands.through (exprSites_stand e n s hs) h

/-! ## Statements -/

theorem stands_before {s : Stmt} {e : Expr} (he : e ∈ s.heads) (h : l.value ∈ e.walk) :
    Stands u l (l.before ++ [s]) es :=
  .here [] [s] rfl fun _ _ => .inl ⟨s, mem_singleton_self s, e, he, h⟩

theorem stands_child {s : Stmt} {b : Block} (hb : b ∈ s.children)
    (h : Stands u l b.stmts b.tail.toList) : Stands u l (pre ++ [s]) es :=
  .inside (mem_append_right _ (mem_singleton_self s)) hb h

theorem stands_unless_unit (r : Region) (l : Lowered) :
    Stands u l (l.before ++ if l.value.isUnit then [] else [.expr r l.value]) es := by
  refine .here [] _ rfl fun _ hunit => ?_
  rw [hunit]
  exact mentions_head (mem_singleton_self _) (mem_singleton_self _)

theorem stands_tail (l : Lowered) :
    Stands u l (pre ++ l.before)
      (if l.value.isUnit then none else some l.value : Option Expr).toList := by
  refine .here pre [] (append_nil _).symm fun _ hunit => ?_
  rw [hunit]
  exact .inr ⟨_, mem_singleton_self _, l.value.mem_walk_self⟩

theorem assign_stands (r : Region) (op : AssignOp) (v t : Lowered) :
    Gives (protect c t.isPending v.value) n fun p _ =>
      Stands u v (v.before ++ p.before ++ t.before ++ [.assign r t.value p.value op]) [] ∧
        Stands u t (v.before ++ p.before ++ t.before ++ [.assign r t.value p.value op]) [] := by
  refine (protect_mentions _ v.value).mono fun p _ hp => ⟨?_, ?_⟩
  · refine .here [] (p.before ++ (t.before ++ [.assign r t.value p.value op])) (by simp)
      fun _ _ => ?_
    refine (hp _ []).mono (Subset.refl _) fun hv => .inl ⟨.assign r t.value p.value op, by simp,
      p.value, mem_cons_of_mem _ mem_cons_self, by simpa using hv⟩
  · rw [append_assoc]
    exact (stands_before mem_cons_self t.value.mem_walk_self).append_left _

theorem conditionSites_stand (condition : Condition) :
    Gives (lowerCondition c condition) n fun q _ => ∀ ss es, Stands true ⟨q.1, q.2.value⟩ ss es →
      ∀ t ∈ exprSites c true n condition.value, Stands t.isUsed t.lowered ss es := by
  cases condition with
  | test e | letMatch r p e => exact fun ss es h => exprSites_found h

section While

variable {r : Region} {before : List Stmt} {condition : Condition} {body : Block}

theorem lowerWhile_condition :
    Stands u ⟨before, condition.value⟩ [lowerWhile r before condition body] [] := by
  unfold lowerWhile
  split
  · next hbefore =>
    rw [List.isEmpty_iff] at hbefore
    subst hbefore
    exact stands_before (mem_singleton_self _) (Expr.mem_walk_self _)
  · cases condition with
    | letMatch r' p e =>
      refine .inside (mem_singleton_self _) (mem_singleton_self _) ?_
      exact stands_before (mem_singleton_self _) (Expr.mem_walk_self _)
    | test e =>
      refine .inside (mem_singleton_self _) (mem_singleton_self _) ?_
      refine Stands.append_row _ (stands_before (mem_singleton_self _) ?_)
      exact Expr.mem_walk_of_mem_operands (mem_singleton_self _)

theorem lowerWhile_body (h : Stands u l body.stmts body.tail.toList) :
    Stands u l [lowerWhile r before condition body] [] := by
  unfold lowerWhile
  split
  · exact .inside (mem_singleton_self _) (mem_singleton_self _) h
  · cases condition with
    | letMatch r' p e =>
      refine .inside (mem_singleton_self _) (mem_singleton_self _) ?_
      exact stands_child mem_cons_self h
    | test e =>
      exact .inside (mem_singleton_self _) (mem_singleton_self _) (h.append_left _)

end While

mutual

/-- **The sites of a statement stand in what is made of it.** -/
theorem stmtSites_stand : ∀ {c : Context} {n : ℕ} (s : Stmt), Gives (lowerStmt c s) n fun ss _ =>
    ∀ t ∈ stmtSites c n s, Stands t.isUsed t.lowered ss []
  | _, _, .letIn _ _ _ value none =>
    exprSites_found (stands_before mem_cons_self (Expr.mem_walk_self _))
  | _, _, .letIn _ _ _ value (some b) =>
    forall_mem_append.2
      ⟨exprSites_found (stands_before mem_cons_self (Expr.mem_walk_self _)),
        fun t ht => stands_child mem_cons_self (blockSites_stand b t ht)⟩
  | c, n, .assign r target value op =>
    forall_mem_append.2 ⟨exprSites_found (assign_stands r op _ _).1,
      exprSites_found (assign_stands r op _ _).2⟩
  | _, _, .expr r value => exprSites_found (stands_unless_unit r _)
  | _, _, .ret _ none => nofun
  | c, _, .ret _ (some value) => by
    refine exprSites_found (.here [] _ rfl fun hu _ => ?_)
    rw [hu]
    exact mentions_head (mem_singleton_self _) (mem_singleton_self _)
  | _, _, .ifElse _ condition a none =>
    forall_mem_append.2
      ⟨conditionSites_stand condition _ _ (stands_before mem_cons_self (Expr.mem_walk_self _)),
        fun t ht => stands_child mem_cons_self (blockSites_stand a t ht)⟩
  | _, _, .ifElse _ condition a (some b) =>
    forall_mem_append.2 ⟨forall_mem_append.2
      ⟨conditionSites_stand condition _ _ (stands_before mem_cons_self (Expr.mem_walk_self _)),
        fun t ht => stands_child mem_cons_self (blockSites_stand a t ht)⟩,
      fun t ht => stands_child (mem_cons_of_mem _ mem_cons_self) (blockSites_stand b t ht)⟩
  | _, _, .whileDo _ condition b =>
    forall_mem_append.2 ⟨conditionSites_stand condition _ _ lowerWhile_condition,
      fun t ht => lowerWhile_body (blockSites_stand b t ht)⟩
  | _, _, .loop _ b | _, _, .block _ b | _, _, .fn _ _ _ _ b =>
    fun t ht => .inside mem_cons_self mem_cons_self (blockSites_stand b t ht)
  | _, _, .forIn _ _ iterable b =>
    forall_mem_append.2
      ⟨exprSites_found (stands_before mem_cons_self (Expr.mem_walk_self _)),
        fun t ht => stands_child mem_cons_self (blockSites_stand b t ht)⟩
  | _, _, .matchOn _ subject arms => by
    refine forall_mem_append.2
      ⟨exprSites_found (stands_before mem_cons_self (Expr.mem_walk_self _)), fun t ht => ?_⟩
    obtain ⟨b, hb, h⟩ := armSites_stand arms t ht
    exact stands_child hb h
  | _, _, .breakLoop _ | _, _, .continueLoop _ | _, _, .suspend .. | _, _, .terminate _ => nofun

theorem stmtsSites_stand :
    ∀ {c : Context} {n : ℕ} (ss : List Stmt), Gives (lowerStmts c ss) n fun ss' _ =>
    ∀ t ∈ stmtsSites c n ss, Stands t.isUsed t.lowered ss' []
  | _, _, [] => nofun
  | _, _, s :: ss =>
    forall_mem_append.2 ⟨fun t ht => (stmtSites_stand s t ht).append_row _,
      fun t ht => (stmtsSites_stand ss t ht).append_left _⟩

theorem blockSites_stand : ∀ {c : Context} {n : ℕ} (b : Block), Gives (lowerBlock c b) n fun b' _ =>
    ∀ t ∈ blockSites c n b, Stands t.isUsed t.lowered b'.stmts b'.tail.toList
  | _, _, .mk ss _ none => fun t ht => (stmtsSites_stand ss t ht).append_row _
  | _, _, .mk ss _ (some _) =>
    forall_mem_append.2 ⟨fun t ht => (stmtsSites_stand ss t ht).append_row _,
      exprSites_found (stands_tail _)⟩

theorem armSites_stand :
    ∀ {c : Context} {n : ℕ} (arms : List Arm), Gives (lowerArms c arms) n fun arms' _ =>
    ∀ t ∈ armSites c n arms, ∃ b ∈ arms'.map Arm.body,
      Stands t.isUsed t.lowered b.stmts b.tail.toList
  | _, _, [] => nofun
  | _, _, .mk _ _ guard b :: arms => by
    refine forall_mem_append.2 ⟨fun t ht => ⟨_, mem_cons_self, blockSites_stand b t ht⟩,
      fun t ht => ?_⟩
    obtain ⟨b', hb, h⟩ := armSites_stand arms t ht
    exact ⟨b', mem_cons_of_mem _ hb, h⟩

end

/-- **What lowering makes of the expression of a site stands in the lowered item.** -/
theorem lower_stands {d : Definition} {s : Site} (h : s ∈ sites d) :
    Stands s.isUsed s.lowered d.lower.prelude [] ∨
      Stands s.isUsed s.lowered d.lower.body.stmts d.lower.body.tail.toList := by
  obtain h | h := mem_append.1 h
  · exact .inl (stmtsSites_stand d.prelude s h)
  · exact .inr (blockSites_stand d.body s h)

end Standing

end Lowering

end Yielding
