import Yielding.Proofs.Coupling
import Yielding.Proofs.Rendering.Nodes
import Yielding.Proofs.Scoping.Emission

/-!
# Proofs/Rendering/Marks — marks that survive into code

To follow parts of an item into its code, they are **marked**: an attribute that no item has is
taken of them.  Writing the marked item goes in lockstep with writing the item, and its code is the
code of the item with marks in it (`itemCode_marked`).  So where the code of the marked item holds a
mark, the code of the item holds the part that was marked.
-/

namespace Yielding

open List Script

/-! ## Marking an item -/

def mark : String := "#"

/-- Whether an expression is work: a call, of a method or a macro too, or an await. -/
def Expr.isWork : Expr → Bool
  | .call .. | .methodCall .. | .macroCall .. | .await .. => true
  | _ => false

def Expr.markIf (chosen : Bool) (e : Expr) : Expr := if chosen then .field e.region e mark else e

section Marking

variable (p : Expr → Bool)

mutual

/-- An expression with marks on the calls, of methods and macros too, and awaits that `p`
chooses. -/
def Expr.marked : Expr → Expr
  | .literal r value => .literal r value
  | .name r x => .name r x
  | .path r segments => .path r segments
  | e@(.call r func args) => .markIf (p e) (.call r func.marked (Expr.markedRow args))
  | e@(.methodCall r receiver method args) =>
    .markIf (p e) (.methodCall r receiver.marked method (Expr.markedRow args))
  | .field r value attr => .field r value.marked attr
  | .tupleField r value i => .tupleField r value.marked i
  | .index r left right => .index r left.marked right.marked
  | .unary r op operand => .unary r op operand.marked
  | .borrow r value mutable => .borrow r value.marked mutable
  | .binary r op left right => .binary r op left.marked right.marked
  | .range r start stop inclusive => .range r start.marked stop.marked inclusive
  | .tuple r elements => .tuple r (Expr.markedRow elements)
  | .array r elements => .array r (Expr.markedRow elements)
  | e@(.macroCall r x args) => .markIf (p e) (.macroCall r x (Expr.markedRow args))
  | .yield r none => .yield r none
  | .yield r (some value) => .yield r (some value.marked)
  | .attempt r operand => .attempt r operand.marked
  | e@(.await r value) => .markIf (p e) (.await r value.marked)
  | .helper r x args => .helper r x (Expr.markedRow args)

def Expr.markedRow : List Expr → List Expr
  | [] => []
  | e :: es => e.marked :: Expr.markedRow es

end

theorem Expr.marked_eq (e : Expr) :
    e.marked p = .markIf (e.isWork && p e) (e.withOperands (Expr.markedRow p e.operands)) := by
  cases e with
  | yield r value =>
    cases value <;> simp [marked, markIf, operands, markedRow, withOperands, isWork]
  | _ => simp [marked, markIf, operands, markedRow, withOperands, isWork]

theorem Expr.length_markedRow (es : List Expr) : (Expr.markedRow p es).length = es.length := by
  induction es with
  | nil => rw [Expr.markedRow]
  | cons e es ih => rw [Expr.markedRow, length_cons, ih, length_cons]

theorem Expr.marked_ne_name (e : Expr) (he : ∀ r x, e ≠ .name r x) :
    ∀ r x, e.marked p ≠ .name r x := by
  have hmarkIf : ∀ (chosen : Bool) {e : Expr}, (∀ r x, e ≠ .name r x) →
      ∀ r x, e.markIf chosen ≠ .name r x := by
    rintro (_ | _) e h
    · exact h
    · nofun
  cases e with
  | name r x => exact (he r x rfl).elim
  | call | methodCall | macroCall | await => exact hmarkIf _ nofun
  | yield r value => cases value <;> nofun
  | _ => nofun

def Condition.marked : Condition → Condition
  | .test e => .test (e.marked p)
  | .letMatch r q e => .letMatch r q (e.marked p)

mutual

def Stmt.marked : Stmt → Stmt
  | .letIn r q t value none => .letIn r q t (value.marked p) none
  | .letIn r q t value (some b) => .letIn r q t (value.marked p) (some b.marked)
  | .assign r target value op => .assign r (target.marked p) (value.marked p) op
  | .expr r value => .expr r (value.marked p)
  | .ret r value => .ret r (value.map (Expr.marked p))
  | .breakLoop r => .breakLoop r
  | .continueLoop r => .continueLoop r
  | .ifElse r condition a none => .ifElse r (condition.marked p) a.marked none
  | .ifElse r condition a (some b) => .ifElse r (condition.marked p) a.marked (some b.marked)
  | .whileDo r condition b => .whileDo r (condition.marked p) b.marked
  | .loop r b => .loop r b.marked
  | .forIn r q iterable b => .forIn r q (iterable.marked p) b.marked
  | .block r b => .block r b.marked
  | .fn r name params result b => .fn r name params result b.marked
  | .matchOn r subject arms => .matchOn r (subject.marked p) (markedArms arms)
  | .suspend r value => .suspend r (value.marked p)
  | .terminate r => .terminate r

def markedStmts : List Stmt → List Stmt
  | [] => []
  | s :: ss => s.marked :: markedStmts ss

def Block.marked : Block → Block
  | .mk stmts r tail => .mk (markedStmts stmts) r (tail.map (Expr.marked p))

def markedArms : List Arm → List Arm
  | [] => []
  | .mk r q guard b :: arms => .mk r q (guard.map (Expr.marked p)) b.marked :: markedArms arms

end

def Attr.marked (a : Attr) : Attr := { a with args := a.args.map (Expr.marked p) }

/-- The item with marks on its work. -/
def Definition.marked (d : Definition) : Definition :=
  { d with
    body := d.body.marked p
    attrs := d.attrs.map (Attr.marked p)
    prelude := markedStmts p d.prelude }

theorem Definition.sizeHint_marked (d : Definition) :
    (d.marked p).sizeHint? = d.sizeHint?.map (Expr.marked p) := by
  have hattr : (d.marked p).attr? "size_hint" = (d.attr? "size_hint").map (Attr.marked p) :=
    find?_map
  rw [sizeHint?, hattr, sizeHint?]
  cases d.attr? "size_hint" with
  | none => rfl
  | some a => exact head?_map

end Marking

namespace Script

open Scoping

/-! ## Marked code -/

/-- `t'` is the term `t` with marks on some of its parts. -/
inductive Term.Marked : (t t' : Term) → Prop
  | mark {t t'} : Marked t t' → Marked t (.attr t' mark)
  | name (x) : Marked (.name x) (.name x)
  | dotted (segments) : Marked (.dotted segments) (.dotted segments)
  | literal (text) : Marked (.literal text) (.literal text)
  | attr {t t'} (x) : Marked t t' → Marked (.attr t x) (.attr t' x)
  | item {a a' b b'} : Marked a a' → Marked b b' → Marked (.item a b) (.item a' b')
  | call {f f' ts ts'} : Marked f f' → Forall₂ Marked ts ts' → Marked (.call f ts) (.call f' ts')
  | group {t t'} (lead) : Marked t t' → Marked (.group lead t) (.group lead t')
  | pair {a a' b b'} (c) : Marked a a' → Marked b b' → Marked (.pair c a b) (.pair c a' b')
  | tuple {ts ts'} : Forall₂ Marked ts ts' → Marked (.tuple ts) (.tuple ts')
  | list {ts ts'} : Forall₂ Marked ts ts' → Marked (.list ts) (.list ts')
  | next {t t'} : Marked t t' → Marked (.next t) (.next t')
  | option {t t'} (key) : Marked t t' → Marked (.option key t) (.option key t')

/-- The second test is the first with marks in it. -/
inductive Test.Marked : (t t' : Test) → Prop
  | equals {a a' : Term} (value) : a.Marked a' → Marked (.equals a value) (.equals a' value)
  | isNone {a a' : Term} : a.Marked a' → Marked (.isNone a) (.isNone a')
  | isVariant {a a' : Term} (v) : a.Marked a' → Marked (.isVariant a v) (.isVariant a' v)

/-- The second decision is the first with marks in it. -/
inductive Decision.Marked : (c c' : Decision) → Prop
  | holds {a a' : Term} : a.Marked a' → Marked (.holds a) (.holds a')
  | all {ts ts'} : Forall₂ Test.Marked ts ts' → Marked (.all ts) (.all ts')
  | notAll {ts ts'} : Forall₂ Test.Marked ts ts' → Marked (.notAll ts) (.notAll ts')

/-- The second line is the first with marks in it. -/
inductive Line.Marked : (l l' : Line) → Prop
  | same (l) : Marked l l
  | assign {a a' : Term} (target) : a.Marked a' → Marked (.assign target a) (.assign target a')
  | store {a a' b b' : Term} (op) : a.Marked a' → b.Marked b' →
    Marked (.store a op b) (.store a' op b')
  | eval {a a' : Term} : a.Marked a' → Marked (.eval a) (.eval a')
  | yield {a a' : Term} : a.Marked a' → Marked (.yield (some a)) (.yield (some a'))
  | ret {a a' : Term} : a.Marked a' → Marked (.ret (some a)) (.ret (some a'))

/-- The second header is the first with marks in it. -/
inductive Header.Marked : (h h' : Header) → Prop
  | same (h) : Marked h h
  | ifDo {c c' : Decision} : c.Marked c' → Marked (.ifDo c) (.ifDo c')
  | elifDo {c c' : Decision} : c.Marked c' → Marked (.elifDo c) (.elifDo c')
  | whileDo {a a' : Term} : a.Marked a' → Marked (.whileDo a) (.whileDo a')
  | forIn {a a' : Term} (target) : a.Marked a' → Marked (.forIn target a) (.forIn target a')
  | matchOn {a a' : Term} : a.Marked a' → Marked (.matchOn a) (.matchOn a')
  | caseOf {a a' : Term} (c) : a.Marked a' → Marked (.caseOf c (some a)) (.caseOf c (some a'))

/-- `c'` is the code `c` with marks in it. -/
inductive Code.Marked : (c c' : Code) → Prop
  | line {l l' : Line} : l.Marked l' → Marked (.line l) (.line l')
  | block {h h' : Header} {cs cs'} : h.Marked h' → Forall₂ Marked cs cs' →
    Marked (.block h cs) (.block h' cs')

namespace Term.Marked

mutual

protected theorem refl : ∀ t : Term, t.Marked t
  | .name x => name x
  | .dotted segments => dotted segments
  | .literal text => literal text
  | .attr t x => attr x (Marked.refl t)
  | .item a b => item (Marked.refl a) (Marked.refl b)
  | .call f ts => call (Marked.refl f) (Marked.row ts)
  | .group lead t => group lead (Marked.refl t)
  | .pair c a b => pair c (Marked.refl a) (Marked.refl b)
  | .tuple ts => tuple (Marked.row ts)
  | .list ts => list (Marked.row ts)
  | .next t => next (Marked.refl t)
  | .option key t => option key (Marked.refl t)

protected theorem row : ∀ ts : List Term, Forall₂ Marked ts ts
  | [] => .nil
  | t :: ts => .cons (Marked.refl t) (Marked.row ts)

end

variable {t t' : Term} {ts ts' : List Term}

theorem apply (x : String) (h : Forall₂ Term.Marked ts ts') :
    (Term.apply x ts).Marked (.apply x ts') :=
  call (name x) h

theorem applySupport (x : String) (h : Forall₂ Term.Marked ts ts') :
    (Term.applySupport x ts).Marked (.applySupport x ts') :=
  call (dotted _) h

theorem component (i : Int) (h : t.Marked t') : (t.component i).Marked (t'.component i) :=
  item h (literal _)

theorem headD (h : Forall₂ Term.Marked ts ts') : (ts.headD default).Marked (ts'.headD default) := by
  cases h with
  | nil => exact .refl _
  | cons h _ => exact h

theorem binaryTerm {a a' b b' : Term} (ha : a.Marked a') (hb : b.Marked b') (op : BinaryOp) :
    (binaryTerm op a b).Marked (binaryTerm op a' b') := by
  cases op with
  | div | rem => exact applySupport _ (.cons ha (.cons hb .nil))
  | _ => exact pair _ ha hb

theorem macroTerm (h : Forall₂ Term.Marked ts ts') (x : MacroName) :
    (macroTerm x ts).Marked (macroTerm x ts') := by
  have hformat := applySupport "fmt" h
  cases x with
  | format => exact hformat
  | panic | assert => exact applySupport _ h
  | print => exact apply _ (.cons hformat (.cons (option _ (literal _)) .nil))
  | println =>
    cases h with
    | nil => exact apply _ .nil
    | cons _ _ => exact apply _ (.cons hformat .nil)

theorem methodForm (ht : t.Marked t') (hts : Forall₂ Term.Marked ts ts') (form : MethodForm) :
    (form.term t ts).Marked (form.term t' ts') := by
  cases form with
  | function x => exact apply x (.cons ht hts)
  | support x => exact applySupport x (.cons ht hts)
  | attr x => exact call (attr x ht) hts
  | isEmpty => exact pair _ (apply _ (.cons ht .nil)) (literal _)
  | member => exact pair _ (headD hts) ht
  | power => exact pair _ ht (headD hts)

theorem nodeTerm (h : Forall₂ Term.Marked ts ts') (e : Expr) :
    (nodeTerm e ts).Marked (nodeTerm e ts') := by
  have hfirst := headD h
  have htail : Forall₂ Term.Marked ts.tail ts'.tail := by
    cases h with
    | nil => exact .nil
    | cons _ h => exact h
  have hsecond := headD htail
  cases e with
  | literal | path | name | call | yield | attempt => exact .refl _
  | methodCall r receiver method args =>
    rw [Script.nodeTerm, Script.nodeTerm, htail.length_eq]
    split
    · exact methodForm hfirst htail _
    · exact call (attr _ hfirst) htail
  | field => exact attr _ hfirst
  | tupleField => exact component _ hfirst
  | index => exact item hfirst hsecond
  | unary r op value =>
    cases op with
    | deref => exact hfirst
    | not | neg => exact group _ hfirst
  | borrow => exact hfirst
  | binary r op => exact binaryTerm hfirst hsecond op
  | range r start stop inclusive =>
    refine apply _ (.cons hfirst (.cons ?_ .nil))
    split
    · exact next hsecond
    · exact hsecond
  | tuple => exact tuple h
  | array => exact list h
  | macroCall r name => exact macroTerm h name
  | await => exact group _ hfirst
  | helper => exact applySupport _ h

end Term.Marked

theorem storeLine_marked {a a' b b' : Term} (ha : a.Marked a') (hb : b.Marked b') (op : AssignOp) :
    (storeLine a b op).Marked (storeLine a' b' op) := by
  cases op with
  | div | rem => exact .store _ ha (.applySupport _ (.cons ha (.cons hb .nil)))
  | _ => exact .store _ ha hb

mutual

theorem patternTests_marked {t t' : Term} (h : t.Marked t') :
    ∀ q : Pattern, Forall₂ Test.Marked (patternTests q t) (patternTests q t')
  | .literal _ value => .cons (.equals value h) .nil
  | .noneVariant _ => .cons (.isNone h) .nil
  | .variant _ v inner => .cons (.isVariant v h) (patternTests_marked (.attr _ h) inner)
  | .tuple _ items => rowTests_marked h items _
  | .bind .. | .wildcard _ | .rest _ => .nil

theorem rowTests_marked {t t' : Term} (h : t.Marked t') :
    ∀ (qs : List Pattern) (is : List (Option Int)),
    Forall₂ Test.Marked (rowTests qs is t) (rowTests qs is t')
  | q :: qs, some i :: is =>
    rel_append (patternTests_marked (.component i h) q) (rowTests_marked h qs is)
  | _ :: qs, none :: is => rowTests_marked h qs is
  | [], _ | _ :: _, [] => .nil

end

/-! ## Namings that act alike -/

/-- The two are related, where `q`. -/
def When (q : Prop) {α β : Type} (R : α → β → Prop) (a : α) (b : β) : Prop := q → R a b

section Emission

variable {σ τ : Type}

/-- The namings keep their states related and, where `q`, give the same names. -/
structure Alike (q : Prop) (S : σ → τ → Prop) (N : Naming σ) (N' : Naming τ) : Prop where
  bind : ∀ x isFn s t, S s t →
    When q Eq (N.bind x isFn s).1 (N'.bind x isFn t).1 ∧ S (N.bind x isFn s).2 (N'.bind x isFn t).2
  subject : ∀ s t, S s t →
    When q Eq (N.subject s).1 (N'.subject t).1 ∧ S (N.subject s).2 (N'.subject t).2
  /-- Both write a name, or neither does. -/
  term : ∀ x s t, S s t →
    (When q Eq (N.term x s).1 (N'.term x t).1 ∧
      ∀ r, isBareName (.name r x) (N.term x s).1 = isBareName (.name r x) (N'.term x t).1) ∧
    S (N.term x s).2 (N'.term x t).2
  fnTarget : ∀ x s t, S s t → When q Eq (N.fnTarget x s) (N'.fnTarget x t)
  push : ∀ isBarrier s t, S s t → S (N.push isBarrier s) (N'.push isBarrier t)
  pop : ∀ s t, S s t → S (N.pop s) (N'.pop t)
  inputs : ∀ s t, S s t → When q Eq (N.inputs s) (N'.inputs t)

theorem alike_refl (q : Prop) (N : Naming σ) : Alike q Eq N N := by
  constructor
  all_goals intros; subst_vars
  case term => exact ⟨⟨fun _ => rfl, fun _ => rfl⟩, rfl⟩
  case bind | subject => exact ⟨fun _ => rfl, rfl⟩
  case fnTarget | inputs => exact fun _ => rfl
  all_goals rfl

section Same

variable {q : Prop} {S : σ → τ → Prop} {α β γ : Type} {x : Emit σ α} {y : Emit τ α} {x' : Emit σ β}
  {y' : Emit τ β}

theorem lockstep_ret (h : Lockstep S (When q Eq) x y) {f : α → β} :
    Lockstep S (When q Eq) (x >>= fun a => pure (f a)) (y >>= fun a => pure (f a)) :=
  h.bind fun _ _ hab => lockstep_pure fun hq => congrArg f (hab hq)

theorem lockstep_ret₂ (h : Lockstep S (When q Eq) x y) (h' : Lockstep S (When q Eq) x' y')
    {f : α → β → γ} : Lockstep S (When q Eq) (x >>= fun a => x' >>= fun b => pure (f a b))
      (y >>= fun a => y' >>= fun b => pure (f a b)) :=
  h.bind fun _ _ ha => h'.bind fun _ _ hb => lockstep_pure fun hq => congrArg₂ f (ha hq) (hb hq)

end Same

/-- Two runs in lockstep, the second of which writes the code of the first with marks in it. -/
abbrev InStep (q : Prop) (S : σ → τ → Prop) (x : Emit σ (List Code)) (y : Emit τ (List Code)) :
    Prop :=
  Lockstep S (When q (Forall₂ Code.Marked)) x y

variable {q : Prop} {S : σ → τ → Prop} {N : Naming σ} {N' : Naming τ} (h : Alike q S N N')
  (p : Expr → Bool)

include h

theorem Alike.within {α β : Type} {R : α → β → Prop} {x : Emit σ α} {y : Emit τ β}
    (hx : Lockstep S R x y) (isBarrier : Bool) :
    Lockstep S R (within N isBarrier x) (within N' isBarrier y) :=
  (lockstep_modify (h.push isBarrier)).bind fun _ _ _ => hx.bind fun _ _ hab =>
    (lockstep_modify h.pop).bind fun _ _ _ => lockstep_pure hab

theorem Alike.bindName (x : String) : Lockstep S (When q Eq) (bindName N x) (bindName N' x) :=
  lockstep_modifyGet (h.bind x false)

/-! ## Expressions -/

omit h in
theorem markIf_lockstep {e e' : Expr} (chosen : Bool)
    (h : Lockstep S (When q Term.Marked) (emitExpr N e) (emitExpr N' e')) :
    Lockstep S (When q Term.Marked) (emitExpr N e) (emitExpr N' (e'.markIf chosen)) := by
  cases chosen with
  | false => exact h
  | true =>
    have hmark : avoidKeyword mark = mark := by decide
    have hfield : emitExpr N' (e'.markIf true) = emitExpr N' e' >>= fun t =>
        pure (.attr t mark) := by
      rw [Expr.markIf, if_pos rfl, emitExpr, hmark]
    rw [hfield, ← bind_pure (emitExpr N e)]
    exact h.bind fun _ _ ht => lockstep_pure fun hq => .mark (ht hq)

omit h in
theorem knownFunction_marked (e : Expr) : knownFunction? (e.marked p) = knownFunction? e := by
  have hmarkIf : ∀ (chosen : Bool) {e : Expr}, knownFunction? e = none →
      knownFunction? (e.markIf chosen) = none := by
    rintro (_ | _) e h
    · exact h
    · rfl
  cases e with
  | call | methodCall | macroCall | await => exact hmarkIf _ rfl
  | yield r value => cases value <;> rfl
  | _ => rfl

omit h in
theorem emitRow_marked {es : List Expr} (hes : ∀ e ∈ es,
    Lockstep S (When q Term.Marked) (emitExpr N e) (emitExpr N' (e.marked p))) :
    Lockstep S (fun ts ts' => When q (Forall₂ Term.Marked) ts ts' ∧ ts.length = ts'.length)
      (emitRow N es) (emitRow N' (Expr.markedRow p es)) := by
  induction es with
  | nil =>
    exact lockstep_pure ⟨fun _ => .nil, rfl⟩
  | cons e es ih =>
    have hes := forall_mem_cons.1 hes
    exact hes.1.bind fun _ _ ht => (ih hes.2).bind fun _ _ hts =>
      lockstep_pure ⟨fun hq => .cons (ht hq) (hts.1 hq), congrArg (· + 1) hts.2⟩

/-- **The term of a marked expression** is the term of the expression, with marks in it. -/
theorem emitExpr_marked (e : Expr) :
    Lockstep S (When q Term.Marked) (emitExpr N e) (emitExpr N' (e.marked p)) := by
  induction e using Expr.operandInduction with
  | h e ih =>
    rw [Expr.marked_eq]
    refine markIf_lockstep _ ?_
    by_cases hn : e.isNode
    · rw [emitExpr_node hn, emitExpr_withOperands hn (Expr.length_markedRow p e.operands)]
      exact (emitRow_marked p ih).bind fun _ _ hts => lockstep_pure fun hq => .nodeTerm (hts.1 hq) e
    cases e with
    | name r x =>
      exact lockstep_modifyGet fun s t hs =>
        ⟨fun hq => (h.term x s t hs).1.1 hq ▸ .refl _, (h.term x s t hs).2⟩
    | call r func args =>
      have ih := forall_mem_cons.1 ih
      rw [Expr.operands, Expr.markedRow, Expr.withOperands, emitExpr, emitExpr,
        knownFunction_marked]
      refine (emitRow_marked p ih.2).bind fun ts ts' hts => ?_
      cases knownFunction? func with
      | none => exact ih.1.bind fun t t' ht => lockstep_pure fun hq => .call (ht hq) (hts.1 hq)
      | some form =>
        cases form with
        | emptyText => exact lockstep_pure fun _ => .literal _
        | emptyList => exact lockstep_pure fun _ => .list .nil
        | extremum x => exact lockstep_pure fun hq => .apply x (hts.1 hq)
        | toText =>
          obtain ⟨hmarked, hlength⟩ := hts
          rcases ts with _ | ⟨t, ts⟩ <;> rcases ts' with _ | ⟨t', ts'⟩
          · exact lockstep_throw _
          · cases hlength
          · cases hlength
          · refine lockstep_pure fun hq => ?_
            cases hmarked hq with
            | cons ht _ => exact .apply _ (.cons ht .nil)
    | yield r value =>
      cases value <;>
        simp only [Expr.withOperands, Expr.operands, emitExpr] <;> exact lockstep_throw _
    | attempt =>
      exact lockstep_throw _
    | _ => exact absurd rfl hn

/-! ## Patterns -/

omit h in
mutual

theorem bindPattern_marked (h : Alike q S N N') :
    ∀ (r : Pattern) {t t' : Term}, When q Term.Marked t t' →
    InStep q S (bindPattern N r t) (bindPattern N' r t')
  | .bind _ x _, _, _, ht =>
    (h.bindName x).bind fun _ _ hx =>
      lockstep_pure fun hq => hx hq ▸ .cons (.line (.assign _ (ht hq))) .nil
  | .variant _ _ inner, _, _, ht => bindPattern_marked h inner fun hq => .attr _ (ht hq)
  | .tuple _ items, _, _, ht => bindRow_marked h items _ ht
  | .wildcard _, _, _, _ | .literal .., _, _, _ | .noneVariant _, _, _, _ | .rest _, _, _, _ =>
    lockstep_pure fun _ => .nil

theorem bindRow_marked (h : Alike q S N N') :
    ∀ (rs : List Pattern) (is : List (Option Int)) {t t' : Term}, When q Term.Marked t t' →
    InStep q S (bindRow N rs is t) (bindRow N' rs is t')
  | r :: rs, some i :: is, _, _, ht =>
    (bindPattern_marked h r fun hq => .component i (ht hq)).bind fun _ _ hc =>
      (bindRow_marked h rs is ht).bind fun _ _ hcs => lockstep_pure fun hq =>
        rel_append (hc hq) (hcs hq)
  | _ :: rs, none :: is, _, _, ht => bindRow_marked h rs is ht
  | [], _, _, _, _ | _ :: _, [], _, _, _ => lockstep_pure fun _ => .nil

end

omit h in
mutual

theorem patternTarget_alike (h : Alike q S N N') : ∀ r : Pattern,
    Lockstep S (When q Eq) (patternTarget N r) (patternTarget N' r)
  | .bind _ x _ => lockstep_ret (h.bindName x)
  | .tuple _ items => lockstep_ret (rowTargets_alike h items)
  | .rest _ | .wildcard _ | .literal .. | .noneVariant _ | .variant .. => lockstep_pure fun _ => rfl

theorem rowTargets_alike (h : Alike q S N N') : ∀ rs : List Pattern,
    Lockstep S (When q Eq) (rowTargets N rs) (rowTargets N' rs)
  | [] => lockstep_pure fun _ => rfl
  | r :: rs => lockstep_ret₂ (patternTarget_alike h r) (rowTargets_alike h rs)

end

omit h in
mutual

theorem patternCase_alike (h : Alike q S N N') : ∀ r : Pattern,
    Lockstep S (When q Eq) (patternCase N r) (patternCase N' r)
  | .bind _ x _ => lockstep_ret (h.bindName x)
  | .variant _ _ inner => lockstep_ret (patternCase_alike h inner)
  | .tuple _ (r :: rs) => lockstep_ret₂ (patternCase_alike h r) (rowCases_alike h rs)
  | .rest _ | .wildcard _ | .literal .. | .noneVariant _ | .tuple _ [] => lockstep_pure fun _ => rfl

theorem rowCases_alike (h : Alike q S N N') : ∀ rs : List Pattern,
    Lockstep S (When q Eq) (rowCases N rs) (rowCases N' rs)
  | [] => lockstep_pure fun _ => rfl
  | r :: rs => lockstep_ret₂ (patternCase_alike h r) (rowCases_alike h rs)

end

/-! ## Statements -/

omit h in
theorem isBareName_of_ne_name {e : Expr} (he : ∀ r x, e ≠ .name r x) (t : Term) :
    isBareName e t = false := by
  cases e with
  | name r x => exact (he r x rfl).elim
  | _ => rfl

theorem emitSubject_marked (e : Expr) :
    Lockstep S (When q fun x x' => Forall₂ Code.Marked x.1 x'.1 ∧ x.2.Marked x'.2)
      (emitSubject N e) (emitSubject N' (e.marked p)) := by
  have fresh : ∀ {t t' : Term}, When q Term.Marked t t' →
      Lockstep S (When q fun x x' => Forall₂ Code.Marked x.1 x'.1 ∧ x.2.Marked x'.2)
        (do let x ← freshSubject N; return ([Code.line (.assign (.name x) t)], Term.name x))
        (do let x ← freshSubject N'; return ([Code.line (.assign (.name x) t')], Term.name x)) :=
    fun ht => (lockstep_modifyGet h.subject).bind fun x _ hx => lockstep_pure fun hq => by
      rw [← hx hq]
      exact ⟨.cons (.line (.assign _ (ht hq))) .nil, .name x⟩
  rw [emitSubject, emitSubject]
  by_cases he : ∃ r x, e = .name r x
  · obtain ⟨r, x, rfl⟩ := he
    rw [Expr.marked, emitExpr, emitExpr]
    refine Lockstep.bind (R := fun t t' => When q Eq t t' ∧
      ∀ r, isBareName (.name r x) t = isBareName (.name r x) t') (lockstep_modifyGet (h.term x))
      fun t t' ht => ?_
    have ht' : When q Term.Marked t t' := fun hq => ht.1 hq ▸ .refl t
    rw [ht.2 r]
    split
    · exact lockstep_pure fun hq => ⟨.nil, ht' hq⟩
    · exact fresh ht'
  · refine (emitExpr_marked h p e).bind fun t t' ht => ?_
    have hname : ∀ r x, e ≠ .name r x := fun r x h => he ⟨r, x, h⟩
    rw [isBareName_of_ne_name hname, isBareName_of_ne_name (e.marked_ne_name p hname)]
    exact fresh ht

theorem emitDecision_marked (condition : Condition) :
    Lockstep S (When q fun x x' => Forall₂ Code.Marked x.1 x'.1 ∧ x.2.1.Marked x'.2.1 ∧
        Forall₂ Code.Marked x.2.2 x'.2.2)
      (emitDecision N condition) (emitDecision N' (condition.marked p)) := by
  cases condition with
  | test e =>
    exact (emitExpr_marked h p e).bind fun _ _ ht => lockstep_pure fun hq =>
      ⟨.nil, .holds (ht hq), .nil⟩
  | letMatch _ r e =>
    exact (emitSubject_marked h p e).bind fun x x' hx =>
      (bindPattern_marked h r fun hq => (hx hq).2).bind fun _ _ hcs => lockstep_pure fun hq =>
        ⟨(hx hq).1, .all (patternTests_marked (hx hq).2 r), hcs hq⟩

theorem emitTail_marked (returnsTail : Bool) (tail : Option Expr) :
    InStep q S (emitTail N returnsTail tail)
      (emitTail N' returnsTail (tail.map (Expr.marked p))) := by
  cases tail with
  | none => exact lockstep_pure fun _ => .nil
  | some e =>
    refine (emitExpr_marked h p e).bind fun _ _ ht => lockstep_pure fun hq => .cons (.line ?_) .nil
    cases returnsTail with
    | false => exact .eval (ht hq)
    | true => exact .ret (ht hq)

theorem emitBranch_marked (chained : Bool) (condition : Condition) {body : Emit σ (List Code)}
    {body' : Emit τ (List Code)} (hbody : InStep q S body body') :
    InStep q S (emitBranch N chained condition body)
      (emitBranch N' chained (condition.marked p) body') := by
  refine h.within ((emitDecision_marked h p condition).bind fun x x' hx =>
    (h.within hbody _).bind fun _ _ hcs => lockstep_pure fun hq => ?_) _
  obtain ⟨hbefore, hc, hbindings⟩ := hx hq
  refine rel_append hbefore (.cons (.block ?_ (rel_append hbindings (hcs hq))) .nil)
  cases chained with
  | false => exact .ifDo hc
  | true => exact .elifDo hc

theorem emitArm_marked (r : Pattern) (guard : Option Expr) {body : Emit σ (List Code)}
    {body' : Emit τ (List Code)} (hbody : InStep q S body body') :
    Lockstep S (When q Code.Marked) (emitArm N r guard body)
      (emitArm N' r (guard.map (Expr.marked p)) body') := by
  refine h.within ((patternCase_alike h r).bind fun c c' hc => ?_) _
  cases guard with
  | none =>
    exact Lockstep.bind (R := Eq) (lockstep_pure rfl) fun _ _ hg => (h.within hbody _).bind
      fun _ _ hcs => lockstep_pure fun hq => hc hq ▸ hg ▸ .block (.same _) (hcs hq)
  | some e =>
    refine Lockstep.bind (R := fun g g' => ∃ t t', g = some t ∧ g' = some t' ∧
      When q Term.Marked t t')
      ((emitExpr_marked h p e).bind fun t t' ht => lockstep_pure ⟨t, t', rfl, rfl, ht⟩) ?_
    rintro _ _ ⟨t, t', rfl, rfl, ht⟩
    exact (h.within hbody _).bind fun _ _ hcs =>
      lockstep_pure fun hq => hc hq ▸ .block (.caseOf c (ht hq)) (hcs hq)

theorem bindFns_alike : ∀ xs : List String, Lockstep S (When q Eq) (bindFns N xs) (bindFns N' xs)
  | [] => lockstep_pure fun _ => rfl
  | x :: xs => (lockstep_modifyGet (h.bind x true)).bind fun _ _ _ => bindFns_alike xs

theorem bindParams_alike : ∀ ps : List Param,
    Lockstep S (When q Eq) (bindParams N ps) (bindParams N' ps)
  | [] => lockstep_pure fun _ => rfl
  | x :: ps => lockstep_ret₂ (h.bindName x.name) (bindParams_alike ps)

theorem emitFn_marked {target target' : String} (htarget : When q Eq target target')
    (params : List Param) {body : Emit σ (List Code)} {body' : Emit τ (List Code)}
    (hbody : InStep q S body body') :
    Lockstep S (When q Code.Marked) (emitFn N target params body)
      (emitFn N' target' params body') :=
  h.within ((bindParams_alike h params).bind fun _ _ hps => (h.within hbody _).bind fun _ _ hcs =>
    lockstep_pure fun hq => by rw [htarget hq, hps hq]; exact .block (.same _) (hcs hq)) _

theorem assemble_marked (names : List String) {fns stmts tail : Emit σ (List Code)}
    {fns' stmts' tail' : Emit τ (List Code)}
    (hfns : InStep q S fns fns')
    (hstmts : InStep q S stmts stmts')
    (htail : InStep q S tail tail') :
    InStep q S (assemble N names fns stmts tail)
      (assemble N' names fns' stmts' tail') :=
  (bindFns_alike h names).bind fun _ _ _ => hfns.bind fun _ _ ha => hstmts.bind fun _ _ hb =>
    htail.bind fun _ _ hc => lockstep_pure fun hq =>
      rel_append (rel_append (ha hq) (hb hq)) (hc hq)

omit h in
theorem fnNames_marked (ss : List Stmt) : fnNames (markedStmts p ss) = fnNames ss := by
  induction ss with
  | nil => rw [markedStmts]
  | cons s ss ih =>
    rw [fnNames] at ih ⊢
    rw [markedStmts, fnNames, filterMap_cons, filterMap_cons, ih]
    cases s with
    | letIn r q t e b => cases b <;> rfl
    | ifElse r c a b => cases b <;> rfl
    | _ => rfl

omit h in
theorem continuesChain_marked (ss : List Stmt) (tail : Option Expr) :
    continuesChain (markedStmts p ss) (tail.map (Expr.marked p)) = continuesChain ss tail := by
  rcases ss with _ | ⟨s, _ | ⟨s', ss⟩⟩
  · rfl
  · cases tail with
    | some e =>
      simp [markedStmts, continuesChain]
    | none =>
      cases s with
      | letIn r q t e b => cases b <;> rfl
      | ifElse r c a b => cases c <;> cases b <;> rfl
      | _ => rfl
  · simp [markedStmts, continuesChain]

omit h in
theorem isEmpty_markedArms (arms : List Arm) : (markedArms p arms).isEmpty = arms.isEmpty := by
  rcases arms with _ | ⟨⟨r, q, guard, b⟩, arms⟩
  · rw [markedArms]
  · rw [markedArms]
    rfl

omit h in
mutual

/-- **The code of a marked statement** is the code of the statement, with marks in it. -/
theorem emitStmt_marked (h : Alike q S N N') (p : Expr → Bool) (chained : Bool) : ∀ s : Stmt,
    InStep q S (emitStmt N chained s) (emitStmt N' chained (s.marked p))
  | .letIn _ r _ value none => by
    refine (emitExpr_marked h p value).bind fun t t' ht => ?_
    split
    · exact lockstep_pure fun hq => .cons (.line (.eval (ht hq))) .nil
    · exact (patternTarget_alike h r).bind fun _ _ hr =>
        lockstep_pure fun hq => hr hq ▸ .cons (.line (.assign _ (ht hq))) .nil
  | .letIn _ r _ value (some b) => by
    refine (emitExpr_marked h p value).bind fun t t' ht => (lockstep_modifyGet h.subject).bind
      fun x x' hx => (h.within (emitContents_marked h p false b) _).bind fun _ _ hcs =>
        (bindPattern_marked h r fun hq => hx hq ▸ .name x).bind fun _ _ hbindings =>
          lockstep_pure fun hq => ?_
    rw [← hx hq]
    exact .cons (.line (.assign _ (ht hq)))
      (.cons (.block (.ifDo (.notAll (patternTests_marked (.name x) r))) (hcs hq)) (hbindings hq))
  | .assign _ target value op =>
    (emitExpr_marked h p value).bind fun _ _ hb => (emitExpr_marked h p target).bind fun _ _ ha =>
      lockstep_pure fun hq => .cons (.line (storeLine_marked (ha hq) (hb hq) op)) .nil
  | .expr _ value =>
    (emitExpr_marked h p value).bind fun _ _ ht =>
      lockstep_pure fun hq => .cons (.line (.eval (ht hq))) .nil
  | .suspend _ value =>
    (emitExpr_marked h p value).bind fun _ _ ht =>
      lockstep_pure fun hq => .cons (.line (.yield (ht hq))) .nil
  | .ret _ (some value) =>
    (emitExpr_marked h p value).bind fun _ _ ht =>
      lockstep_pure fun hq => .cons (.line (.ret (ht hq))) .nil
  | .terminate _ | .ret _ none | .breakLoop _ | .continueLoop _ =>
    lockstep_pure fun _ => .cons (.line (.same _)) .nil
  | .ifElse _ condition a none =>
    emitBranch_marked h p chained condition (emitContents_marked h p false a)
  | .ifElse _ condition a (some b) =>
    (emitBranch_marked h p chained condition (emitContents_marked h p false a)).bind fun _ _ ha =>
      (emitElse_marked h p b).bind fun _ _ hb => lockstep_pure fun hq => rel_append (ha hq) (hb hq)
  | .whileDo _ (.test e) b =>
    (emitExpr_marked h p e).bind fun _ _ ht => (h.within (emitContents_marked h p false b) _).bind
      fun _ _ hcs => lockstep_pure fun hq => .cons (.block (.whileDo (ht hq)) (hcs hq)) .nil
  | .whileDo _ (.letMatch _ r e) b => by
    refine Lockstep.bind (R := When q (Forall₂ Code.Marked)) (h.within ?_ _)
      fun _ _ hcs => lockstep_pure fun hq => .cons (.block (.same _) (hcs hq)) .nil
    refine (emitSubject_marked h p e).bind fun x x' hx =>
      (bindPattern_marked h r fun hq => (hx hq).2).bind fun _ _ hbindings =>
        (h.within (emitContents_marked h p false b) _).bind fun _ _ hcs =>
          lockstep_pure fun hq => ?_
    have hleave := patternTests_marked (hx hq).2 r
    exact rel_append (hx hq).1
      (.cons (.block (.ifDo (.notAll hleave)) (.cons (.line (.same _)) .nil))
      (rel_append (hbindings hq) (hcs hq)))
  | .loop _ b =>
    (h.within (emitContents_marked h p false b) _).bind fun _ _ hcs =>
      lockstep_pure fun hq => .cons (.block (.same _) (hcs hq)) .nil
  | .forIn _ r iterable b =>
    (emitExpr_marked h p iterable).bind fun _ _ ht => h.within ((patternTarget_alike h r).bind
      fun _ _ hr => (h.within (emitContents_marked h p false b) _).bind fun _ _ hcs =>
        lockstep_pure fun hq => hr hq ▸ .cons (.block (.forIn _ (ht hq)) (hcs hq)) .nil) _
  | .block _ b => h.within (emitContents_marked h p false b) _
  | .matchOn _ subject arms => by
    rw [Stmt.marked, emitStmt, emitStmt, isEmpty_markedArms]
    refine (emitExpr_marked h p subject).bind fun _ _ ht => ?_
    split
    · exact lockstep_pure fun hq => .cons (.line (.eval (ht hq))) .nil
    · exact (emitArms_marked h p arms).bind fun _ _ hcs =>
        lockstep_pure fun hq => .cons (.block (.matchOn (ht hq)) (hcs hq)) .nil
  | .fn .. => lockstep_pure fun _ => .nil

theorem emitStmts_marked (h : Alike q S N N') (p : Expr → Bool) (chained : Bool) : ∀ ss : List Stmt,
    InStep q S (emitStmts N chained ss) (emitStmts N' chained (markedStmts p ss))
  | [] => lockstep_pure fun _ => .nil
  | s :: ss =>
    (emitStmt_marked h p chained s).bind fun _ _ hc =>
      (emitStmts_marked h p chained ss).bind fun _ _ hcs =>
      lockstep_pure fun hq => rel_append (hc hq) (hcs hq)

theorem emitFns_marked (h : Alike q S N N') (p : Expr → Bool) : ∀ ss : List Stmt,
    InStep q S (emitFns N ss) (emitFns N' (markedStmts p ss))
  | [] => lockstep_pure fun _ => .nil
  | .fn _ x params _ b :: ss =>
    (lockstep_get (S := S)).bind fun s t hs =>
      (emitFn_marked h (h.fnTarget x s t hs) params (emitContents_marked h p true b)).bind
        fun _ _ hc =>
        (emitFns_marked h p ss).bind fun _ _ hcs => lockstep_pure fun hq => .cons (hc hq) (hcs hq)
  | .letIn _ _ _ _ none :: ss | .letIn _ _ _ _ (some _) :: ss | .assign .. :: ss | .expr .. :: ss
  | .ret .. :: ss | .breakLoop .. :: ss | .continueLoop .. :: ss | .ifElse _ _ _ none :: ss
  | .ifElse _ _ _ (some _) :: ss | .whileDo .. :: ss | .loop .. :: ss | .forIn .. :: ss
  | .block .. :: ss
  | .matchOn .. :: ss | .suspend .. :: ss | .terminate .. :: ss => emitFns_marked h p ss

theorem emitContents_marked (h : Alike q S N N') (p : Expr → Bool) (returnsTail : Bool) :
    ∀ b : Block, InStep q S (emitContents N returnsTail b)
      (emitContents N' returnsTail (b.marked p))
  | .mk ss _ tail => by
    rw [Block.marked, emitContents, emitContents, fnNames_marked]
    exact assemble_marked h _ (emitFns_marked h p ss) (emitStmts_marked h p false ss)
      (emitTail_marked h p returnsTail tail)

theorem emitElse_marked (h : Alike q S N N') (p : Expr → Bool) : ∀ b : Block,
    InStep q S (emitElse N b) (emitElse N' (b.marked p))
  | .mk ss _ tail => by
    rw [Block.marked, emitElse, emitElse, continuesChain_marked, fnNames_marked]
    split
    · exact emitStmts_marked h p true ss
    · exact (h.within (assemble_marked h _ (emitFns_marked h p ss) (emitStmts_marked h p false ss)
        (emitTail_marked h p false tail)) _).bind fun _ _ hcs =>
          lockstep_pure fun hq => .cons (.block (.same _) (hcs hq)) .nil

theorem emitArms_marked (h : Alike q S N N') (p : Expr → Bool) : ∀ arms : List Arm,
    InStep q S (emitArms N arms) (emitArms N' (markedArms p arms))
  | [] => lockstep_pure fun _ => .nil
  | .mk _ q guard b :: arms => by
    rw [markedArms, emitArms, emitArms, Option.isNone_map]
    refine (emitArm_marked h p q guard (emitContents_marked h p false b)).bind fun _ _ hc => ?_
    split
    · exact lockstep_pure fun hq => .cons (hc hq) .nil
    · exact (emitArms_marked h p arms).bind fun _ _ hcs => lockstep_pure fun hq =>
        .cons (hc hq) (hcs hq)

end

/-! ## Items -/

section Suspending

omit h

mutual

theorem stmtSuspends_marked : ∀ s : Stmt, stmtSuspends (s.marked p) = stmtSuspends s
  | .letIn _ _ _ _ (some b) | .ifElse _ _ b none | .whileDo _ _ b | .loop _ b | .forIn _ _ _ b
  | .block _ b => by simp only [Stmt.marked, stmtSuspends, blockSuspends_marked b]
  | .ifElse _ _ a (some b) => by
    simp only [Stmt.marked, stmtSuspends, blockSuspends_marked a, blockSuspends_marked b]
  | .matchOn _ _ arms => by simp only [Stmt.marked, stmtSuspends, armsSuspend_marked arms]
  | .letIn _ _ _ _ none | .assign .. | .expr .. | .ret .. | .breakLoop _ | .continueLoop _ | .fn ..
  | .suspend .. | .terminate _ => by simp only [Stmt.marked, stmtSuspends]

theorem rowSuspends_marked : ∀ ss : List Stmt, rowSuspends (markedStmts p ss) = rowSuspends ss
  | [] => by rw [markedStmts]
  | s :: ss => by simp only [markedStmts, rowSuspends, stmtSuspends_marked s, rowSuspends_marked ss]

theorem blockSuspends_marked : ∀ b : Block, blockSuspends (b.marked p) = blockSuspends b
  | .mk ss _ _ => by simp only [Block.marked, blockSuspends, rowSuspends_marked ss]

theorem armsSuspend_marked : ∀ arms : List Arm, armsSuspend (markedArms p arms) = armsSuspend arms
  | [] => by rw [markedArms]
  | .mk _ _ _ b :: arms => by
    simp only [markedArms, armsSuspend, blockSuspends_marked b, armsSuspend_marked arms]

end

end Suspending

theorem emitSizeHint_marked (d : Definition) :
    Lockstep S (When q Term.Marked) (emitSizeHint N d) (emitSizeHint N' (d.marked p)) := by
  have hint := d.sizeHint_marked p
  rw [emitSizeHint, emitSizeHint]
  rw [Definition.sizeHint?, Definition.sizeHint?] at hint
  rw [hint]
  cases (d.attr? "size_hint").bind (·.args.head?) with
  | none => exact lockstep_pure fun _ => .refl _
  | some e =>
    exact (emitExpr_marked h p e).bind fun _ _ ht =>
      lockstep_pure fun hq => .applySupport _ (.cons (ht hq) .nil)

theorem emitGenerator_marked (d : Definition) {inputs inputs' : List String}
    (hinputs : When q Eq inputs inputs') :
    Lockstep S (When q Code.Marked) (emitGenerator N d inputs)
      (emitGenerator N' (d.marked p) inputs') := by
  have hsuspends : blockSuspends (d.marked p).body = blockSuspends d.body :=
    blockSuspends_marked p d.body
  rw [emitGenerator, emitGenerator, hsuspends]
  refine (h.within (emitContents_marked h p false d.body) _).bind fun _ _ hcs =>
    lockstep_pure fun hq => ?_
  rw [← hinputs hq]
  refine .block (.same _) (rel_append (hcs hq) ?_)
  split
  · exact .nil
  · exact .cons (.line (.same _)) (.cons (.line (.same _)) .nil)

theorem emitParams_alike (generics : List String) : ∀ ps : List Param,
    Lockstep S (When q Eq) (emitParams N generics ps) (emitParams N' generics ps)
  | [] => lockstep_pure fun _ => rfl
  | x :: ps => lockstep_ret₂ (h.bindName x.name) (emitParams_alike generics ps)

/-- The second function is the first with marks in its body. -/
def MarkedInside (c c' : Code) : Prop :=
  ∃ header body body', c = .block header body ∧ c' = .block header body' ∧
    Forall₂ Code.Marked body body'

/-- **The function of a marked item** is the function of the item, with marks in its code. -/
theorem emitFunction_marked (d : Definition) (className itemHint : String) {s : σ} {t : τ}
    (hs : S (N.reserve [className, d.name] s) (N'.reserve [className, d.name] t)) :
    Coupled (fun c s c' t => When q MarkedInside c c' ∧ S s t)
      ((emitFunction N d className itemHint).run s)
      ((emitFunction N' (d.marked p) className itemHint).run t) := by
  refine Coupled.bind (R := fun _ s _ t => S s t) hs fun _ s _ t hs =>
    (?_ : Lockstep S (When q MarkedInside) _ _) s t hs
  refine (emitParams_alike h _ d.params).bind
    fun params _ hparams => (emitContents_marked h p false (.mk d.prelude d.region none)).bind
    fun _ _ hprelude => lockstep_get.bind fun s t hs =>
      (emitGenerator_marked h p d (h.inputs s t hs)).bind
    fun _ _ hbody => (emitSizeHint_marked h p d).bind fun _ _ hhint => lockstep_pure fun hq => ?_
  have hdocs : Forall₂ Code.Marked
      (if d.docs.isEmpty then [] else [.line (.doc (docString d.docs))])
      (if d.docs.isEmpty then [] else [.line (.doc (docString d.docs))]) := by
    split
    · exact .nil
    · exact .cons (.line (.same _)) .nil
  rw [← hparams hq, ← h.inputs s t hs hq]
  exact ⟨_, _, _, rfl, rfl, rel_append (rel_append hdocs (hprelude hq))
    (.cons (hbody hq) (.cons (.line (.assign _ (hhint hq))) (.cons (.line (.same _)) .nil)))⟩

end Emission

/-- **The code of a marked item** is the code of the item, with marks in the body of its
function. -/
theorem itemCode_marked (p : Expr → Bool) {d : Definition} {className : String} {header : Header}
    {body : List Code}
    (h : itemCode d className =
      .ok [wrapper d className (valueHint d), .line .blank, .line .blank, .block header body]) :
    ∃ body', itemCode (d.marked p) className =
        .ok [wrapper d className (valueHint d), .line .blank, .line .blank, .block header body'] ∧
      Forall₂ Code.Marked body body' := by
  obtain ⟨first, found, function, ns, hdry, hrun, hcode⟩ := itemCode_runs h
  obtain rfl : .block header body = function := by simpa using hcode
  have marked := fun s => emitFunction_marked (alike_refl True byScope) p d className (valueHint d)
    (s := s) rfl
  obtain ⟨first', _, ⟨-, rfl⟩, hdry'⟩ := (marked _).of_ok hdry
  obtain ⟨function', _, ⟨hfunction, rfl⟩, hrun'⟩ := (marked _).of_ok hrun
  obtain ⟨_, _, body', hblock, rfl, hmarked⟩ := hfunction trivial
  obtain ⟨rfl, rfl⟩ := Code.block.inj hblock
  refine ⟨body', ?_, hmarked⟩
  exact bind_eq_ok.2 ⟨_, hdry', bind_eq_ok.2 ⟨_, hrun', rfl⟩⟩

end Script

end Yielding
