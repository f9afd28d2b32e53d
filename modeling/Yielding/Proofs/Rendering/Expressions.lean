import Mathlib.Tactic.Abel
import Yielding.Proofs.Rendering.Names
import Yielding.Proofs.Rendering.Nodes
import Yielding.Proofs.Rendering.Weights

/-!
# Proofs/Rendering/Expressions — terms weigh what they show

The term of an expression weighs as much as the parts of the expression that it shows
(`emitExpr_weigh`): operators, known functions and known methods only put their operands elsewhere.
-/

namespace Yielding.Script

open Option Scoping

section Weighing

variable {M : Type} [AddCommMonoid M] {W : Weights M} {k : List String}

/-! ## Terms -/

@[simp]
theorem Term.weigh_apply (x : String) (args : List Term) :
    (Term.apply x args).weigh W = W.name x + Term.weighRow W args := by
  rw [Term.apply, Term.weigh, Term.weigh]

theorem Weights.Light.applySupport (hW : W.Light) {x : String} (hx : x ∉ keywords)
    (args : List Term) : (Term.applySupport x args).weigh W = Term.weighRow W args := by
  rw [Term.applySupport, Term.support, Term.weigh, Term.weigh, hW.support hx, zero_add]

theorem Weights.Light.apply (hW : W.Light) {x : String} (hx : x ∉ keywords)
    (args : List Term) : (Term.apply x args).weigh W = Term.weighRow W args := by
  rw [Term.weigh_apply, hW.name hx, zero_add]

theorem binaryTerm_weigh (hW : W.Light) (op : BinaryOp) (a b : Term) :
    (binaryTerm op a b).weigh W = a.weigh W + b.weigh W ∧ (binaryTerm op a b).held W = 0 := by
  cases op with
  | div | rem =>
    refine ⟨?_, rfl⟩
    rw [binaryTerm, hW.applySupport (by decide)]
    simp
  | _ => exact ⟨by rw [binaryTerm, Term.weigh], rfl⟩

theorem macroTerm_weigh (hW : W.Light) (name : MacroName) (args : List Term) :
    (macroTerm name args).weigh W = Term.weighRow W args ∧ (macroTerm name args).held W = 0 := by
  cases name with
  | format => exact ⟨hW.applySupport (by decide) args, rfl⟩
  | panic => exact ⟨hW.applySupport (by decide) args, rfl⟩
  | assert => exact ⟨hW.applySupport (by decide) args, rfl⟩
  | print =>
    refine ⟨?_, rfl⟩
    simp [macroTerm, hW.apply (x := "print") (by decide), hW.applySupport (x := "fmt") (by decide),
      Term.weigh, hW.name (x := "end") (by decide)]
  | println =>
    refine ⟨?_, rfl⟩
    rw [macroTerm, hW.apply (by decide)]
    split
    · next h => rw [List.isEmpty_iff.1 h]
    · rw [Term.weighRow_cons, hW.applySupport (by decide), Term.weighRow_nil, add_zero]

theorem methodForm_weigh (hW : W.Light) {method : String} {args : List Term} {form : MethodForm}
    (h : knownMethod? method args.length = some form) (receiver : Term) :
    (form.term receiver args).weigh W =
        (Weights.methodAttr? method args.length).elim 0 (fun x => receiver.held W + W.attr x) +
          (receiver.weigh W + Term.weighRow W args) ∧
      (form.term receiver args).held W = 0 := by
  obtain ⟨hword, hempty, hone⟩ := knownMethod_spec h
  rw [Weights.methodAttr?, h]
  cases form with
  | function x =>
    refine ⟨?_, rfl⟩
    rw [MethodForm.term, hW.apply (hword x rfl)]
    simp
  | support x =>
    refine ⟨?_, rfl⟩
    rw [MethodForm.term, hW.applySupport (hword x rfl)]
    simp
  | attr x =>
    refine ⟨?_, rfl⟩
    simp only [MethodForm.term, Term.weigh, elim_some]
    abel
  | isEmpty =>
    obtain rfl := List.eq_nil_of_length_eq_zero (hempty rfl)
    refine ⟨?_, rfl⟩
    simp [MethodForm.term, Term.weigh, hW.name (x := "len") (by decide)]
  | member =>
    obtain ⟨arg, rfl⟩ := List.length_eq_one_iff.1 (hone (.inl rfl))
    refine ⟨?_, rfl⟩
    simp [MethodForm.term, Term.weigh, add_comm]
  | power =>
    obtain ⟨arg, rfl⟩ := List.length_eq_one_iff.1 (hone (.inr rfl))
    refine ⟨?_, rfl⟩
    simp [MethodForm.term, Term.weigh]

theorem methodAttr_notMem {method x : String} {arity : Nat}
    (h : Weights.methodAttr? method arity = some x) : x ∉ keywords := by
  rw [Weights.methodAttr?] at h
  split at h
  · obtain rfl := some.inj h
    exact avoidKeyword_notMem method
  · next y hform =>
    obtain rfl := some.inj h
    exact (knownMethod_spec hform).1 y rfl
  · cases h

theorem term_weigh (hW : W.Light) {ns : Names} (hns : ns.Sound) (x : String) :
    (ns.term x).1.weigh W = (if x = "None" then W.name x else 0) ∧ (ns.term x).1.held W = 0 := by
  rw [Names.term]
  split
  · next hx => exact ⟨by rw [hx, Term.weigh], rfl⟩
  · split
    · next target htarget => exact ⟨by rw [Term.weigh, hW.name (hns.resolve htarget)], rfl⟩
    · split
      · next hv =>
        refine ⟨?_, rfl⟩
        obtain ⟨v, hv⟩ := isSome_iff_exists.1 hv
        have hname : v.name = x := by simpa using List.find?_some hv
        rw [Term.support, Term.weigh, hW.support (x := x) (by rw [← hname]; cases v <;> decide)]
      · exact ⟨by rw [Term.weigh, hW.name (avoidKeyword_notMem x)], rfl⟩

theorem term_frames (ns : Names) (x : String) : (ns.term x).2.frames = ns.frames := by
  rw [Names.term]
  split
  · rfl
  · split
    · rfl
    · split
      · rfl
      · rw [Names.noteFree]
        split <;> rfl

/-! ## Expressions -/

theorem total_shownRow_cons (e : Expr) (es : List Expr) :
    W.total (Expr.shownRow (e :: es)) = W.total e.shown + W.total (Expr.shownRow es) := by
  rw [Expr.shownRow, Weights.total_append]

/-- What a term weighs is what is shown of the expression. -/
def Shows (W : Weights M) (t : Term) (e : Expr) : Prop :=
  t.weigh W = W.total e.shown ∧ t.held W = W.held e

theorem weighRow_of_forall {ts : List Term} {es : List Expr} (h : List.Forall₂ (Shows W) ts es) :
    Term.weighRow W ts = W.total (Expr.shownRow es) := by
  induction h with
  | nil => rw [Term.weighRow_nil, Expr.shownRow, Weights.total_nil]
  | cons h _ ih => rw [Term.weighRow_cons, total_shownRow_cons, h.1, ih]

theorem functionForm_weigh (hW : W.Light) {func : Expr} {form : FunctionForm} {args : List Expr}
    {ts : List Term} {t : Term} {r : Region} (hform : knownFunction? func = some form)
    (hts : List.Forall₂ (Shows W) ts args) (ht : form.term? ts = some t) :
    t.weigh W = W.total (Expr.call r func args).shown ∧ t.held W = 0 := by
  rw [Expr.shown, Weights.total_cons, hform, show W.node (Expr.call r func args) =
    0 from rfl, zero_add]
  cases form with
  | emptyText =>
    obtain rfl := some.inj ht
    exact ⟨by simp [Term.weigh], hW.empty⟩
  | emptyList =>
    obtain rfl := some.inj ht
    exact ⟨by simp [Term.weigh], rfl⟩
  | extremum x =>
    obtain rfl := some.inj ht
    have hx : x ∉ keywords := by obtain rfl | rfl := knownFunction_extremum hform <;> decide
    exact ⟨(hW.apply hx ts).trans (weighRow_of_forall hts), rfl⟩
  | toText =>
    cases hts with
    | nil => cases ht
    | cons h _ =>
      obtain rfl := some.inj ht
      refine ⟨?_, rfl⟩
      rw [hW.apply (by decide), Term.weighRow_cons, Term.weighRow_nil, add_zero, h.1]
      rw [Expr.shownHead]

/-- A node weighs what its operands weigh, and its own weight. -/
theorem nodeTerm_shows (hW : W.Light) {e : Expr} (h : e.isNode) {ts : List Term}
    (hts : List.Forall₂ (Shows W) ts e.operands) : Shows W (nodeTerm e ts) e := by
  rw [Shows, Expr.shown_eq (by rintro r func args rfl; cases h), Weights.total_cons,
    ← weighRow_of_forall hts]
  cases e with
  | name | call | yield | attempt => cases h
  | literal r value =>
    cases hts
    rw [nodeTerm, ofLiteral_eq]
    exact ⟨by simp [Term.weigh, Weights.node], rfl⟩
  | path =>
    cases hts
    exact ⟨by simp [nodeTerm, Term.weigh, Weights.node], rfl⟩
  | methodCall r receiver method args =>
    obtain _ | ⟨ht, hts⟩ := hts
    rename_i t ts
    simp only [nodeTerm, Weights.node, ← hts.length_eq, ← ht.2, List.tail_cons, List.headD_cons,
      Term.weighRow_cons]
    split
    · next form hform => exact methodForm_weigh hW hform t
    · next hform =>
      refine ⟨?_, rfl⟩
      simp only [Term.weigh, Weights.methodAttr?, hform, elim_some]
      abel
  | field =>
    obtain _ | ⟨ht, _ | _⟩ := hts
    refine ⟨?_, rfl⟩
    simp only [nodeTerm, Term.weigh, Weights.node, ← ht.2, List.headD_cons, Term.weighRow_cons,
      Term.weighRow_nil]
    abel
  | tupleField | await =>
    obtain _ | ⟨ht, _ | _⟩ := hts
    exact ⟨by simp [nodeTerm, Term.component, Term.weigh, Weights.node], rfl⟩
  | borrow =>
    obtain _ | ⟨ht, _ | _⟩ := hts
    exact ⟨by simp [nodeTerm, Weights.node], ht.2⟩
  | unary r op operand =>
    obtain _ | ⟨ht, _ | _⟩ := hts
    cases op with
    | deref => exact ⟨by simp [nodeTerm, Weights.node], ht.2⟩
    | not | neg => exact ⟨by simp [nodeTerm, Term.weigh, Weights.node], rfl⟩
  | index =>
    obtain _ | ⟨ha, _ | ⟨hb, _ | _⟩⟩ := hts
    exact ⟨by simp [nodeTerm, Term.weigh, Weights.node], rfl⟩
  | binary r op left right =>
    obtain _ | ⟨ha, _ | ⟨hb, _ | _⟩⟩ := hts
    obtain ⟨hweigh, hheld⟩ := binaryTerm_weigh hW op _ _
    exact ⟨by simpa [nodeTerm, Weights.node] using hweigh, hheld⟩
  | range r start stop inclusive =>
    obtain _ | ⟨ha, _ | ⟨hb, _ | _⟩⟩ := hts
    refine ⟨?_, rfl⟩
    rw [nodeTerm, hW.apply (by decide)]
    cases inclusive <;> simp [Term.weigh, Weights.node]
  | tuple | array => exact ⟨by simp [nodeTerm, Term.weigh, Weights.node], rfl⟩
  | macroCall r name args =>
    obtain ⟨hweigh, hheld⟩ := macroTerm_weigh hW name ts
    exact ⟨by simp [nodeTerm, hweigh, Weights.node], hheld⟩
  | helper r name args =>
    refine ⟨?_, rfl⟩
    rw [nodeTerm, hW.applySupport (by cases name <;> decide)]
    simp [Weights.node]

theorem emitRow_frames {F : List Frame} {R : Term → Expr → Prop} {es : List Expr}
    (h : ∀ e ∈ es, ∀ {ns t ns'}, ns.frames = F → Emits (emitExpr byScope e) ns t ns' →
      R t e ∧ ns'.frames = F) {ns : Names} {ts : List Term} {ns' : Names} (hns : ns.frames = F)
    (hrun : Emits (emitRow byScope es) ns ts ns') : List.Forall₂ R ts es ∧ ns'.frames = F := by
  induction es generalizing ns ts ns' with
  | nil =>
    rw [emitRow] at hrun
    obtain ⟨rfl, rfl⟩ := emits_pure.1 hrun
    exact ⟨.nil, hns⟩
  | cons e es ih =>
    have h := List.forall_mem_cons.1 h
    simp only [emitRow, emits_bind, emits_pure] at hrun
    obtain ⟨t, _, ht, ts, _, hts, rfl, rfl⟩ := hrun
    obtain ⟨hR, hns⟩ := h.1 hns ht
    exact (ih h.2 hns hts).imp_left (.cons hR)

/-- **What holds of the terms of nodes, names and calls holds of all terms.**  Frames stay as they
are. -/
theorem emitExpr_frames {F : List Frame} {R : Term → Expr → Prop}
    (hnode : ∀ {e : Expr}, e.isNode → ∀ {ts}, List.Forall₂ R ts e.operands → R (nodeTerm e ts) e)
    (hname : ∀ {r x} {ns : Names}, ns.frames = F → R (ns.term x).1 (.name r x))
    (hknown : ∀ {r func args form ts t}, knownFunction? func = some form → List.Forall₂ R ts args →
      form.term? ts = some t → R t (.call r func args))
    (hcall : ∀ {r func args t ts}, knownFunction? func = none → R t func → List.Forall₂ R ts args →
      R (.call t ts) (.call r func args)) (e : Expr) :
    ∀ {ns t ns'}, ns.frames = F → Emits (emitExpr byScope e) ns t ns' → R t e ∧ ns'.frames = F := by
  induction e using Expr.operandInduction with
  | h e ih =>
    intro ns t ns' hns hrun
    by_cases hn : e.isNode
    · rw [emitExpr_node hn] at hrun
      obtain ⟨ts, _, hts, hrun⟩ := emits_bind.1 hrun
      obtain ⟨rfl, rfl⟩ := emits_pure.1 hrun
      exact (emitRow_frames ih hns hts).imp_left (hnode hn)
    cases e with
    | name r x =>
      rw [emitExpr, emits_modifyGet] at hrun
      obtain ⟨rfl, rfl⟩ := Prod.mk.inj hrun
      exact ⟨hname hns, (term_frames ns x).trans hns⟩
    | call r func args =>
      have ih := List.forall_mem_cons.1 ih
      rw [emitExpr] at hrun
      obtain ⟨ts, _, hts, hrun⟩ := emits_bind.1 hrun
      obtain ⟨hRs, hns⟩ := emitRow_frames ih.2 hns hts
      split at hrun
      · next form hform =>
        split at hrun
        · next t ht =>
          obtain ⟨rfl, rfl⟩ := emits_pure.1 hrun
          exact ⟨hknown hform hRs ht, hns⟩
        · exact (not_emits_throw hrun).elim
      · next hform =>
        obtain ⟨t, _, ht, hrun⟩ := emits_bind.1 hrun
        obtain ⟨rfl, rfl⟩ := emits_pure.1 hrun
        exact (ih.1 hns ht).imp_left fun hR => hcall hform hR hRs
    | yield | attempt =>
      rw [emitExpr] at hrun
      exact (not_emits_throw hrun).elim
    | _ => exact absurd rfl hn

/-- **A term weighs what it shows of its expression.** -/
theorem emitExpr_weigh (hW : W.Light) (e : Expr) :
    Soundly k (emitExpr byScope e) (Shows W · e) := by
  intro ns t ns' hns _ hrun
  refine (emitExpr_frames (F := ns.frames) (nodeTerm_shows hW) (fun hframes => ?_)
    (fun hform hts ht => functionForm_weigh hW hform hts ht) (fun hform ht hts => ⟨?_, rfl⟩)
      e rfl hrun).imp_right
    fun h => ⟨hns.of_frames h, .of_frames h⟩
  · obtain ⟨hweigh, hheld⟩ := term_weigh hW (hns.of_frames hframes) _
    exact ⟨by simpa [Expr.shown, Weights.node] using hweigh, hheld⟩
  · rw [Term.weigh, ht.1, weighRow_of_forall hts, Expr.shown, hform]
    simp [Weights.node]

end Weighing

end Yielding.Script
