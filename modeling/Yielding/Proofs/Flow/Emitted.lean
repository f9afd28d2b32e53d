import Yielding.Proofs.Flow.Lowered
import Yielding.Proofs.Rendering.Nodes
import Yielding.Script.Item

/-!
# Proofs/Flow/Emitted — the code of lowered items

Code is **legal** at a place when its lines may stand there: `break` and `continue` inside a loop of
the same function, `yield` in the generator, `return` without a value in the generator and not at
all in the opening, `await` in an asynchronous generator.  Where writing the code of a body under
the law `lowered` fails, it fails as the law says, and elsewhere the code is legal, and has a
`yield` of its own exactly where it **shows** a suspension (`emitContents_fits`): not in the arms of
a match below one that always applies, for which no code is written.
-/

namespace Yielding.Script

open Yielding.Flow

/-! ## Legal code -/

mutual

/-- The term awaits nothing, unless `A`. -/
def Term.AwaitsOnlyIf (A : Prop) : Term → Prop
  | .name _ | .dotted _ | .literal _ => True
  | .attr value _ | .next value | .option _ value => value.AwaitsOnlyIf A
  | .item left right | .pair _ left right => left.AwaitsOnlyIf A ∧ right.AwaitsOnlyIf A
  | .call func args => func.AwaitsOnlyIf A ∧ rowAwaitsOnlyIf A args
  | .group lead operand => (lead = .await → A) ∧ operand.AwaitsOnlyIf A
  | .tuple elements | .list elements => rowAwaitsOnlyIf A elements

def rowAwaitsOnlyIf (A : Prop) : List Term → Prop
  | [] => True
  | t :: ts => t.AwaitsOnlyIf A ∧ rowAwaitsOnlyIf A ts

end

def Test.subject : Test → Term
  | .equals subject _ | .isNone subject | .isVariant subject _ => subject

def Decision.terms : Decision → List Term
  | .holds value => [value]
  | .all tests | .notAll tests => tests.map Test.subject

def Header.terms : Header → List Term
  | .cls _ | .fn .. | .elseDo => []
  | .ifDo decision | .elifDo decision => decision.terms
  | .whileDo value | .forIn _ value | .matchOn value => [value]
  | .caseOf _ guard => guard.toList

section Legal

variable (isAsync : Bool)

/-- Whether something may be awaited at a place. -/
def MayAwait (p : Flow.Place) : Prop := p = .generator ∧ isAsync = true

/-- What a line may be at a place, inside a loop or not. -/
def Line.Legal (p : Flow.Place) (inLoop : Bool) : Line → Prop
  | .assign _ value | .eval value => value.AwaitsOnlyIf (MayAwait isAsync p)
  | .store target _ value => rowAwaitsOnlyIf (MayAwait isAsync p) [target, value]
  | .yield value => p = .generator ∧ rowAwaitsOnlyIf (MayAwait isAsync p) value.toList
  | .ret value =>
    p ≠ .opening ∧ (p = .generator → value = none) ∧
      rowAwaitsOnlyIf (MayAwait isAsync p) value.toList
  | .breakLoop | .continueLoop => inLoop = true
  | .pass | .blank | .doc _ => True
  | .fixed _ => False

mutual

/-- What code may be at a place, inside a loop or not. -/
def Code.Legal : Flow.Place → (inLoop : Bool) → Code → Prop
  | p, l, .line line => line.Legal isAsync p l
  | _, _, .block (.fn async _ _ _) body => async = false ∧ rowLegal .nested false body
  | p, _, .block header@(.whileDo _) body | p, _, .block header@(.forIn _ _) body =>
    rowAwaitsOnlyIf (MayAwait isAsync p) header.terms ∧ rowLegal p true body
  | _, _, .block (.cls _) _ => False
  | p, l, .block header body =>
    rowAwaitsOnlyIf (MayAwait isAsync p) header.terms ∧ rowLegal p l body

def rowLegal : Flow.Place → (inLoop : Bool) → List Code → Prop
  | _, _, [] => True
  | p, l, c :: cs => c.Legal p l ∧ rowLegal p l cs

end

end Legal

/-! ## Suspensions in code -/

mutual

/-- Whether a suspension occurs in a statement, functions apart, where code is written for it. -/
def stmtShowsSuspension : Stmt → Bool
  | .suspend .. => true
  | .letIn _ _ _ _ (some b) => blockShowsSuspension b
  | .ifElse _ _ a none => blockShowsSuspension a
  | .ifElse _ _ a (some b) => blockShowsSuspension a || blockShowsSuspension b
  | .whileDo _ _ b | .loop _ b | .forIn _ _ _ b | .block _ b => blockShowsSuspension b
  | .matchOn _ _ arms => armsShowSuspension arms
  | _ => false

def rowShowsSuspension : List Stmt → Bool
  | [] => false
  | s :: ss => stmtShowsSuspension s || rowShowsSuspension ss

def blockShowsSuspension : Block → Bool
  | .mk stmts _ _ => rowShowsSuspension stmts

/-- The same for the arms of a match: none below one that always applies is written. -/
def armsShowSuspension : List Arm → Bool
  | [] => false
  | .mk _ p guard b :: arms =>
    blockShowsSuspension b || !(guard.isNone && catchesAll p) && armsShowSuspension arms

end

mutual

def Code.yields : Code → Bool
  | .line (.yield _) => true
  | .line _ | .block (.fn ..) _ => false
  | .block _ body => rowYields body

def rowYields : List Code → Bool
  | [] => false
  | c :: cs => c.yields || rowYields cs

end

theorem rowYields_append (cs cs' : List Code) :
    rowYields (cs ++ cs') = (rowYields cs || rowYields cs') := by
  induction cs with
  | nil => rfl
  | cons c cs ih => rw [List.cons_append, rowYields, rowYields, ih, Bool.or_assoc]

/-! ## Fitting code -/

variable {isAsync : Bool} {A : Prop} {p : Flow.Place} {l y : Bool}

variable {cs cs' : List Code}

theorem rowLegal_append : rowLegal isAsync p l (cs ++ cs') ↔ rowLegal isAsync p l cs ∧
    rowLegal isAsync p l cs' := by
  induction cs with
  | nil => simp [rowLegal]
  | cons c cs ih => simp [rowLegal, ih, and_assoc]

theorem rowAwaitsOnlyIf_iff {ts : List Term} :
    rowAwaitsOnlyIf A ts ↔ ∀ t ∈ ts, t.AwaitsOnlyIf A := by
  induction ts with
  | nil => simp [rowAwaitsOnlyIf]
  | cons t ts ih => simp [rowAwaitsOnlyIf, ih]

/-- Legal code, with a `yield` of its own or without. -/
structure Fits (isAsync : Bool) (p : Flow.Place) (l y : Bool) (code : List Code) : Prop where
  legal : rowLegal isAsync p l code
  yields : rowYields code = y

theorem fits_nil : Fits isAsync p l false [] := ⟨trivial, rfl⟩

theorem fits_code {c : Code} (h : c.Legal isAsync p l) (hy : c.yields = y := by rfl) :
    Fits isAsync p l y [c] :=
  ⟨⟨h, trivial⟩, by rw [rowYields, hy, rowYields, Bool.or_false]⟩

theorem Fits.append {y' : Bool} (h : Fits isAsync p l y cs) (h' : Fits isAsync p l y' cs') :
    Fits isAsync p l (y || y') (cs ++ cs') :=
  ⟨rowLegal_append.2 ⟨h.legal, h'.legal⟩, by rw [rowYields_append, h.yields, h'.yields]⟩

theorem Fits.prepend (h : Fits isAsync p l false cs) (h' : Fits isAsync p l y cs') :
    Fits isAsync p l y (cs ++ cs') := h.append h'

theorem Fits.extend (h : Fits isAsync p l y cs) (h' : Fits isAsync p l false cs') :
    Fits isAsync p l y (cs ++ cs') := y.or_false ▸ h.append h'

/-! ## What a run ends with -/

section Ends

variable {F : Failure → Prop} {σ α β : Type} {P : α → Prop} {Q : β → Prop}

/-- Wherever it starts, the generation of code gives a result with the property `P`, or fails as `F`
says. -/
def Ends (F : Failure → Prop) (act : Emit σ α) (P : α → Prop) : Prop :=
  ∀ s, (∃ a s', act.run s = .ok (a, s') ∧ P a) ∨ ∃ f, act.run s = .error f ∧ F f

theorem ends_pure {a : α} (h : P a := by trivial) : Ends F (pure a : Emit σ α) P :=
  fun s => .inl ⟨a, s, rfl, h⟩

theorem ends_throw {f : Failure} (h : F f) : Ends F (throw f : Emit σ α) P :=
  fun _ => .inr ⟨f, rfl, h⟩

theorem ends_modifyGet {f : σ → α × σ} (h : ∀ s, P (f s).1) : Ends F (modifyGet f : Emit σ α) P :=
  fun s => .inl ⟨(f s).1, (f s).2, rfl, h s⟩

theorem ends_any {f : σ → α × σ} : Ends F (modifyGet f : Emit σ α) fun _ => True :=
  ends_modifyGet fun _ => trivial

theorem ends_modify {f : σ → σ} : Ends F (modify f : Emit σ PUnit) fun _ => True :=
  fun s => .inl ⟨⟨⟩, f s, rfl, trivial⟩

theorem ends_get : Ends F (get : Emit σ σ) fun _ => True :=
  fun s => .inl ⟨s, s, rfl, trivial⟩

/-- **Properties of the parts give properties of the whole.** -/
theorem Ends.bind {act : Emit σ α} {f : α → Emit σ β} (h : Ends F act P)
    (hf : ∀ a, P a → Ends F (f a) Q) : Ends F (act >>= f) Q := by
  intro s
  rw [StateT.run_bind]
  obtain ⟨a, s', ha, hP⟩ | ⟨e, he, hF⟩ := h s
  · rw [ha]
    exact hf a hP s'
  · rw [he]
    exact .inr ⟨e, rfl, hF⟩

theorem Ends.within {N : Naming σ} {isBarrier : Bool} {act : Emit σ α} (h : Ends F act P) :
    Ends F (within N isBarrier act) P :=
  ends_modify.bind fun _ _ => h.bind fun _ ha => ends_modify.bind fun _ _ => ends_pure ha

end Ends

/-! ## Terms -/

theorem binaryTerm_awaits {op : BinaryOp} {a b : Term} (ha : a.AwaitsOnlyIf A)
    (hb : b.AwaitsOnlyIf A) : (binaryTerm op a b).AwaitsOnlyIf A := by
  cases op with
  | div | rem => exact ⟨trivial, ha, hb, trivial⟩
  | _ => exact ⟨ha, hb⟩

variable {args : List Term}

theorem macroTerm_awaits {name : MacroName} (h : rowAwaitsOnlyIf A args) :
    (macroTerm name args).AwaitsOnlyIf A := by
  have hformatted : (Term.applySupport "fmt" args).AwaitsOnlyIf A := ⟨trivial, h⟩
  cases name with
  | format | panic | assert => exact ⟨trivial, h⟩
  | print => exact ⟨trivial, hformatted, trivial, trivial⟩
  | println =>
    refine ⟨trivial, ?_⟩
    split
    · trivial
    · exact ⟨hformatted, trivial⟩

theorem headD_awaits (h : rowAwaitsOnlyIf A args) : (args.headD default).AwaitsOnlyIf A := by
  cases args with
  | nil => trivial
  | cons t ts => exact h.1

theorem methodForm_awaits {form : MethodForm} {receiver : Term} (hr : receiver.AwaitsOnlyIf A)
    (h : rowAwaitsOnlyIf A args) : (form.term receiver args).AwaitsOnlyIf A := by
  cases form with
  | function | support => exact ⟨trivial, hr, h⟩
  | attr => exact ⟨hr, h⟩
  | isEmpty => exact ⟨⟨trivial, hr, trivial⟩, trivial⟩
  | member => exact ⟨headD_awaits h, hr⟩
  | power => exact ⟨hr, headD_awaits h⟩

theorem nodeTerm_awaits {e : Expr} (h : rowAwaitsOnlyIf A args)
    (hawait : ∀ r value, e = .await r value → A) : (nodeTerm e args).AwaitsOnlyIf A := by
  have hfirst := headD_awaits h
  have htail : rowAwaitsOnlyIf A args.tail := by
    cases args with
    | nil => trivial
    | cons t ts => exact h.2
  have hsecond := headD_awaits htail
  cases e with
  | literal r value =>
    rw [nodeTerm, ofLiteral_eq]
    trivial
  | methodCall r receiver method row =>
    rw [nodeTerm]
    split
    · exact methodForm_awaits hfirst htail
    · exact ⟨hfirst, htail⟩
  | field => exact hfirst
  | unary r op value =>
    cases op with
    | deref => exact hfirst
    | not | neg => exact ⟨by simp, hfirst⟩
  | borrow => exact hfirst
  | tupleField => exact ⟨hfirst, trivial⟩
  | index => exact ⟨hfirst, hsecond⟩
  | binary => exact binaryTerm_awaits hfirst hsecond
  | range r start stop inclusive =>
    refine ⟨trivial, hfirst, ?_, trivial⟩
    split <;> exact hsecond
  | tuple | array => exact h
  | macroCall => exact macroTerm_awaits h
  | await r value => exact ⟨fun _ => hawait r value rfl, hfirst⟩
  | helper => exact ⟨trivial, h⟩
  | _ => trivial

/-- A known function has a term, unless a text is to be made from nothing. -/
theorem functionForm_term (form : FunctionForm) (h : rowAwaitsOnlyIf A args) :
    (∃ t, form.term? args = some t ∧ t.AwaitsOnlyIf A) ∨
      form.term? args = none ∧ form = .toText ∧ args = [] := by
  cases form with
  | emptyText | emptyList => exact .inl ⟨_, rfl, trivial⟩
  | extremum name => exact .inl ⟨_, rfl, trivial, h⟩
  | toText =>
    cases args with
    | nil => exact .inr ⟨rfl, rfl, rfl⟩
    | cons t ts => exact .inl ⟨_, rfl, trivial, h.1, trivial⟩

/-- A naming that gives names only. -/
def Naming.Plain {σ : Type} (N : Naming σ) : Prop :=
  ∀ A ident s, (N.term ident s).1.AwaitsOnlyIf A

theorem byScope_plain : byScope.Plain := by
  intro A ident ns
  simp only [byScope, Names.term]
  split
  · trivial
  · split
    · trivial
    · split <;> trivial

section Emission

variable {F : Failure → Prop} {σ : Type} {N : Naming σ}

/-! ## Patterns -/

mutual

theorem bindPattern_fits : ∀ (pat : Pattern) (subject : Term),
    subject.AwaitsOnlyIf (MayAwait isAsync p) →
    Ends F (bindPattern N pat subject) (Fits isAsync p l false)
  | .bind _ name _, _, h => ends_any.bind fun x _ => ends_pure (fits_code h)
  | .variant _ v inner, subject, h => bindPattern_fits inner _ h
  | .tuple _ items, subject, h => bindRow_fits items _ subject h
  | .literal .., _, _ | .noneVariant _, _, _ | .wildcard _, _, _ | .rest _, _, _ =>
    ends_pure fits_nil

theorem bindRow_fits : ∀ (pats : List Pattern) (is : List (Option Int)) (subject : Term),
    subject.AwaitsOnlyIf (MayAwait isAsync p) →
    Ends F (bindRow N pats is subject) (Fits isAsync p l false)
  | pat :: pats, some i :: is, subject, h =>
    (bindPattern_fits pat (.component subject i) ⟨h, trivial⟩).bind fun _ ha =>
      (bindRow_fits pats is subject h).bind fun _ hb => ends_pure (ha.prepend hb)
  | _ :: pats, none :: is, subject, h => bindRow_fits pats is subject h
  | [], _, _, _ | _ :: _, [], _, _ => ends_pure fits_nil

end

mutual

theorem patternTests_await : ∀ (pat : Pattern) (subject : Term), subject.AwaitsOnlyIf A →
    ∀ t ∈ patternTests pat subject, t.subject.AwaitsOnlyIf A
  | .literal .., _, h | .noneVariant _, _, h => by
    simpa [patternTests, Test.subject] using h
  | .variant _ v inner, _, h => List.forall_mem_cons.2 ⟨h, patternTests_await inner _ h⟩
  | .tuple _ items, subject, h => rowTests_await items _ subject h
  | .bind .., _, _ | .wildcard _, _, _ | .rest _, _, _ => by
    simp [patternTests]

theorem rowTests_await : ∀ (pats : List Pattern) (is : List (Option Int)) (subject : Term),
    subject.AwaitsOnlyIf A → ∀ t ∈ rowTests pats is subject, t.subject.AwaitsOnlyIf A
  | pat :: pats, some i :: is, subject, h =>
    List.forall_mem_append.2
      ⟨patternTests_await pat _ ⟨h, trivial⟩, rowTests_await pats is subject h⟩
  | _ :: pats, none :: is, subject, h => rowTests_await pats is subject h
  | [], _, _, _ | _ :: _, [], _, _ => by
    simp [rowTests]

end

theorem map_subject_awaits {pat : Pattern} {subject : Term} (h : subject.AwaitsOnlyIf A) :
    rowAwaitsOnlyIf A ((patternTests pat subject).map Test.subject) :=
  rowAwaitsOnlyIf_iff.2 (List.forall_mem_map.2 (patternTests_await pat subject h))

mutual

theorem patternTarget_ends : ∀ pat : Pattern, Ends F (patternTarget N pat) fun _ => True
  | .bind .. => ends_any.bind fun _ _ => ends_pure
  | .tuple _ items => (rowTargets_ends items).bind fun _ _ => ends_pure
  | .rest _ | .literal .. | .noneVariant _ | .wildcard _ | .variant .. => ends_pure

theorem rowTargets_ends : ∀ pats : List Pattern, Ends F (rowTargets N pats) fun _ => True
  | [] => ends_pure
  | pat :: pats =>
    (patternTarget_ends pat).bind fun _ _ => (rowTargets_ends pats).bind fun _ _ =>
      ends_pure

end

mutual

theorem patternCase_ends : ∀ pat : Pattern, Ends F (patternCase N pat) fun _ => True
  | .bind .. => ends_any.bind fun _ _ => ends_pure
  | .variant _ _ inner => (patternCase_ends inner).bind fun _ _ => ends_pure
  | .tuple _ (pat :: pats) =>
    (patternCase_ends pat).bind fun _ _ => (rowCases_ends pats).bind fun _ _ =>
      ends_pure
  | .rest _ | .literal .. | .noneVariant _ | .wildcard _ | .tuple _ [] => ends_pure

theorem rowCases_ends : ∀ pats : List Pattern, Ends F (rowCases N pats) fun _ => True
  | [] => ends_pure
  | pat :: pats =>
    (patternCase_ends pat).bind fun _ _ => (rowCases_ends pats).bind fun _ _ =>
      ends_pure

end

/-! ## Functions and blocks -/

theorem bindFns_ends (names : List String) : Ends F (bindFns N names) fun _ => True := by
  induction names with
  | nil => exact ends_pure
  | cons x names ih =>
    exact ends_any.bind fun _ _ => ih

theorem bindParams_ends (params : List Param) : Ends F (bindParams N params) fun _ => True := by
  induction params with
  | nil => exact ends_pure
  | cons x params ih => exact ends_any.bind fun _ _ => ih.bind fun _ _ => ends_pure

theorem emitFn_fits {target : String} {params : List Param} {body : Emit σ (List Code)}
    (hbody : Ends F body (Fits isAsync .nested false y)) :
    Ends F (emitFn N target params body) fun c => c.Legal isAsync p l ∧ c.yields = false :=
  Ends.within <| (bindParams_ends params).bind fun _ _ => hbody.within.bind fun _ hcode =>
    ends_pure ⟨⟨rfl, hcode.legal⟩, rfl⟩

theorem assemble_fits {fnNames : List String} {fns stmts tail : Emit σ (List Code)}
    (hfns : Ends F fns (Fits isAsync p l false)) (hstmts : Ends F stmts (Fits isAsync p l y))
    (htail : Ends F tail (Fits isAsync p l false)) :
    Ends F (assemble N fnNames fns stmts tail) (Fits isAsync p l y) :=
  (bindFns_ends fnNames).bind fun _ _ => hfns.bind fun _ ha => hstmts.bind fun _ hb =>
    htail.bind fun _ hc => ends_pure ((ha.prepend hb).extend hc)

theorem forever_fits {body : List Code} (h : Fits isAsync p true y body) :
    Fits isAsync p l y [forever body] :=
  fits_code ⟨⟨trivial, trivial⟩, h.legal⟩ h.yields

theorem storeLine_legal {op : AssignOp} {target value : Term}
    (ht : target.AwaitsOnlyIf (MayAwait isAsync p)) (hv : value.AwaitsOnlyIf (MayAwait isAsync p)) :
    (storeLine target value op).Legal isAsync p l := by
  cases op with
  | div | rem => exact ⟨ht, ⟨trivial, ht, hv, trivial⟩, trivial⟩
  | _ => exact ⟨ht, hv, trivial⟩

variable (hN : N.Plain)
include hN

/-! ## Expressions -/

omit hN in
theorem emitRow_ends {es : List Expr} (h : ∀ e ∈ es, Ends F (emitExpr N e) (·.AwaitsOnlyIf A)) :
    Ends F (emitRow N es) fun ts => ts.length = es.length ∧ rowAwaitsOnlyIf A ts := by
  induction es with
  | nil =>
    exact ends_pure ⟨rfl, trivial⟩
  | cons e es ih =>
    have h := List.forall_mem_cons.1 h
    exact h.1.bind fun t ht => (ih h.2).bind fun ts hts =>
      ends_pure ⟨congrArg (· + 1) hts.1, ht, hts.2⟩

/-- **The term of a lowered expression awaits only where its place allows it.** -/
theorem emitExpr_ends (e : Expr) (h : (lowered F isAsync).expr p e) :
    Ends F (emitExpr N e) (·.AwaitsOnlyIf (MayAwait isAsync p)) := by
  induction e using Expr.operandInduction with
  | h e ih =>
    obtain ⟨hself, ho⟩ := lowered_expr_iff.1 h
    replace ih := fun o hm => ih o hm (ho o hm)
    by_cases hn : e.isNode
    · rw [emitExpr_node hn]
      refine (emitRow_ends ih).bind fun ts hts => ends_pure (nodeTerm_awaits hts.2 ?_)
      rintro r value rfl
      exact hself
    cases e with
    | name r x =>
      exact ends_modifyGet (hN _ _)
    | call r func args =>
      have ih := List.forall_mem_cons.1 ih
      refine (emitRow_ends ih.2).bind fun ts hts => ?_
      split
      · next form hform =>
        obtain ⟨t, ht, hawaits⟩ | ⟨hnone, rfl, rfl⟩ := functionForm_term form hts.2
        · rw [ht]
          exact ends_pure hawaits
        · rw [hnone]
          exact ends_throw (hself ⟨List.eq_nil_of_length_eq_zero hts.1.symm, hform⟩)
      · exact ih.1.bind fun t ht => ends_pure ⟨ht, hts.2⟩
    | yield | attempt =>
      exact ends_throw hself
    | _ => exact absurd rfl hn

/-! ## Parts of statements -/

theorem emitSubject_fits {value : Expr} (h : (lowered F isAsync).expr p value) :
    Ends F (emitSubject N value) fun q =>
      Fits isAsync p l false q.1 ∧ ∀ A, q.2.AwaitsOnlyIf A := by
  refine (emitExpr_ends hN value h).bind fun t ht => ?_
  split
  · next hplace =>
    obtain ⟨x, rfl⟩ := eq_name_of_isBareName hplace
    exact ends_pure ⟨fits_nil, fun _ => trivial⟩
  · exact ends_any.bind fun x _ => ends_pure ⟨fits_code ht, fun _ => trivial⟩

theorem emitDecision_fits {condition : Condition}
    (h : (lowered F isAsync).expr p condition.value) :
    Ends F (emitDecision N condition) fun q => Fits isAsync p l false q.1 ∧
      rowAwaitsOnlyIf (MayAwait isAsync p) q.2.1.terms ∧ Fits isAsync p l false q.2.2 := by
  cases condition with
  | test e =>
    exact (emitExpr_ends hN e h).bind fun t ht => ends_pure ⟨fits_nil, ⟨ht, trivial⟩, fits_nil⟩
  | letMatch r pat value =>
    exact (emitSubject_fits hN h).bind fun q hq =>
      (bindPattern_fits pat q.2 (hq.2 _)).bind fun code hcode =>
        ends_pure ⟨hq.1, map_subject_awaits (hq.2 _), hcode⟩

theorem emitTail_fits {returnsTail : Bool} {tail : Option Expr}
    (hp : returnsTail = true → p = .nested) (h : ∀ e ∈ tail, (lowered F isAsync).expr p e) :
    Ends F (emitTail N returnsTail tail) (Fits isAsync p l false) := by
  cases tail with
  | none => exact ends_pure fits_nil
  | some e =>
    refine (emitExpr_ends hN e (h e rfl)).bind fun t ht => ends_pure ?_
    cases returnsTail with
    | false => exact fits_code ht
    | true =>
      obtain rfl := hp rfl
      exact fits_code ⟨nofun, nofun, ht, trivial⟩

theorem emitGuard_awaits {guard : Option Expr} (h : ∀ e ∈ guard, (lowered F isAsync).guard p e) :
    Ends F (emitGuard N guard) fun g => rowAwaitsOnlyIf (MayAwait isAsync p) g.toList := by
  cases guard with
  | none => exact ends_pure
  | some e => exact (emitExpr_ends hN e (h e rfl)).bind fun t ht => ends_pure ⟨ht, trivial⟩

theorem emitBranch_fits {chained : Bool} {condition : Condition} {body : Emit σ (List Code)}
    (h : (lowered F isAsync).expr p condition.value) (hbody : Ends F body (Fits isAsync p l y)) :
    Ends F (emitBranch N chained condition body) (Fits isAsync p l y) := by
  refine Ends.within ((emitDecision_fits hN h).bind fun q hq => hbody.within.bind fun code hcode =>
    ends_pure (hq.1.prepend ?_))
  have hall := hq.2.2.prepend hcode
  cases chained with
  | false | true => exact fits_code ⟨hq.2.1, hall.legal⟩ hall.yields

theorem emitArm_fits {pat : Pattern} {guard : Option Expr} {body : Emit σ (List Code)}
    (h : ∀ e ∈ guard, (lowered F isAsync).guard p e) (hbody : Ends F body (Fits isAsync p l y)) :
    Ends F (emitArm N pat guard body) fun c => Fits isAsync p l y [c] :=
  Ends.within <| (patternCase_ends pat).bind fun _ _ => (emitGuard_awaits hN h).bind fun _ hg =>
    hbody.within.bind fun _ hcode => ends_pure (fits_code ⟨hg, hcode.legal⟩ hcode.yields)

/-! ## Statements -/

omit hN in
mutual

/-- **The code of a lowered statement is legal where the statement stands**, and has a `yield` of
its own when the statement shows a suspension. -/
theorem emitStmt_fits (hN : N.Plain) : ∀ {p : Flow.Place} {l chained : Bool} (s : Stmt),
    s.Under (lowered F isAsync) p l →
    Ends F (emitStmt N chained s) (Fits isAsync p l (stmtShowsSuspension s))
  | _, _, _, .letIn _ pat _ value none, h => by
    refine (emitExpr_ends hN value h.2).bind fun t ht => ?_
    split
    · exact ends_pure (fits_code ht)
    · exact (patternTarget_ends pat).bind fun _ _ => ends_pure (fits_code ht)
  | p, l, _, .letIn _ pat _ value (some b), h => by
    have hbindings (x : String) : Ends F (bindPattern N pat (.name x)) (Fits isAsync p l false) :=
      bindPattern_fits pat (.name x) trivial
    refine (emitExpr_ends hN value h.2.1).bind fun t ht =>
      ends_any.bind fun x _ =>
      (emitContents_fits hN false b nofun h.2.2).within.bind fun otherwise hother =>
      (hbindings x).bind fun bindings hbind => ends_pure ?_
    have hline : Fits isAsync p l false [.line (.assign (.name x) t)] := fits_code ht
    have hblock : Fits isAsync p l (blockShowsSuspension b)
        [.block (.ifDo (.notAll (patternTests pat (.name x)))) otherwise] :=
      fits_code ⟨map_subject_awaits trivial, hother.legal⟩ hother.yields
    exact (hline.prepend hblock).extend hbind
  | _, _, _, .assign _ target value op, h => by
    refine (emitExpr_ends hN value h.2.2).bind fun v hv =>
      (emitExpr_ends hN target h.2.1).bind fun t ht =>
        ends_pure (fits_code (storeLine_legal ht hv) ?_)
    cases op <;> rfl
  | _, _, _, .expr _ value, h =>
    (emitExpr_ends hN value h.2).bind fun t ht => ends_pure (fits_code ht)
  | _, _, _, .suspend _ value, h =>
    (emitExpr_ends hN value h.2).bind fun t ht =>
      ends_pure (fits_code ⟨h.1, ht, trivial⟩)
  | _, _, _, .terminate _, h => by
    obtain rfl : _ = Flow.Place.generator := h
    exact ends_pure (fits_code ⟨nofun, fun _ => rfl, trivial⟩)
  | _, _, _, .ret _ none, h => by
    obtain rfl : _ = Flow.Place.nested := h.1
    exact ends_pure (fits_code ⟨nofun, nofun, trivial⟩)
  | _, _, _, .ret _ (some value), h => by
    obtain rfl : _ = Flow.Place.nested := h.1
    exact (emitExpr_ends hN value (h.2 value rfl)).bind fun t ht =>
      ends_pure (fits_code ⟨nofun, nofun, ht, trivial⟩)
  | _, _, _, .breakLoop _, h | _, _, _, .continueLoop _, h => ends_pure (fits_code h)
  | _, _, _, .ifElse _ condition a none, h =>
    emitBranch_fits hN h.2.1 (emitContents_fits hN false a nofun h.2.2)
  | _, _, _, .ifElse _ condition a (some b), h =>
    (emitBranch_fits hN h.2.1 (emitContents_fits hN false a nofun h.2.2.1)).bind fun x hx =>
      (emitElse_fits hN b h.2.2.2).bind fun y hy => ends_pure (hx.append hy)
  | _, _, _, .whileDo _ (.test e) b, h =>
    (emitExpr_ends hN e h.2.1).bind fun t ht =>
      (emitContents_fits hN false b nofun h.2.2).within.bind fun code hcode =>
        ends_pure (fits_code ⟨⟨ht, trivial⟩, hcode.legal⟩ hcode.yields)
  | p, _, _, .whileDo _ (.letMatch _ pat value) b, h => by
    have hbindings (t : Term) (ht : ∀ A, t.AwaitsOnlyIf A) :
        Ends F (bindPattern N pat t) (Fits isAsync p true false) := bindPattern_fits pat t (ht _)
    refine Ends.bind (Ends.within ?_) fun body hbody => ends_pure (forever_fits hbody)
    refine (emitSubject_fits (l := true) hN h.2.1).bind fun q hq =>
      (hbindings q.2 hq.2).bind fun bindings hbind =>
      (emitContents_fits hN false b nofun h.2.2).within.bind fun code hcode => ends_pure ?_
    have hleave : Fits isAsync p true false
        [.block (.ifDo (.notAll (patternTests pat q.2))) [.line .breakLoop]] :=
      fits_code ⟨map_subject_awaits (hq.2 _), rfl, trivial⟩
    exact hq.1.prepend (hleave.prepend (hbind.prepend hcode))
  | _, _, _, .loop _ b, h =>
    (emitContents_fits hN false b nofun h.2).within.bind fun code hcode =>
      ends_pure (forever_fits hcode)
  | _, _, _, .forIn _ pat iterable b, h =>
    (emitExpr_ends hN iterable h.2.1).bind fun t ht =>
      Ends.within ((patternTarget_ends pat).bind fun _ _ =>
        (emitContents_fits hN false b nofun h.2.2).within.bind fun code hcode =>
          ends_pure (fits_code ⟨⟨ht, trivial⟩, hcode.legal⟩ hcode.yields))
  | _, _, _, .block _ b, h => (emitContents_fits hN false b nofun h.2).within
  | _, _, _, .matchOn _ subject arms, h => by
    refine (emitExpr_ends hN subject h.2.1).bind fun t ht => ?_
    split
    · next hempty =>
      obtain rfl := List.isEmpty_iff.1 hempty
      exact ends_pure (fits_code ht)
    · exact (emitArms_fits hN arms h.2.2).bind fun code hcode =>
        ends_pure (fits_code ⟨⟨ht, trivial⟩, hcode.legal⟩ hcode.yields)
  | _, _, _, .fn .., _ => ends_pure fits_nil

theorem emitStmts_fits (hN : N.Plain) : ∀ {p : Flow.Place} {l chained : Bool} (ss : List Stmt),
    rowUnder (lowered F isAsync) p l ss →
    Ends F (emitStmts N chained ss) (Fits isAsync p l (rowShowsSuspension ss))
  | _, _, _, [], _ => ends_pure fits_nil
  | _, _, _, s :: ss, h =>
    (emitStmt_fits hN s h.1).bind fun _ ha => (emitStmts_fits hN ss h.2).bind fun _ hb =>
      ends_pure (ha.append hb)

theorem emitFns_fits (hN : N.Plain) : ∀ {p : Flow.Place} {l : Bool} (ss : List Stmt),
    rowUnder (lowered F isAsync) p l ss → Ends F (emitFns N ss) (Fits isAsync p l false)
  | _, _, [], _ => ends_pure fits_nil
  | _, _, s :: ss, h => by
    have ih := emitFns_fits hN ss h.2
    cases s with
    | fn r name params result b =>
      exact ends_get.bind fun _ _ =>
        (emitFn_fits (emitContents_fits hN true b (fun _ => rfl) h.1.2)).bind
        fun c hc => ih.bind fun cs hcs => ends_pure ((fits_code hc.1 hc.2).prepend hcs)
    | _ =>
      exact ih

theorem emitContents_fits (hN : N.Plain) : ∀ {p : Flow.Place} {l : Bool} (returnsTail : Bool)
    (b : Block), (returnsTail = true → p = .nested) → b.Under (lowered F isAsync) p l →
    Ends F (emitContents N returnsTail b) (Fits isAsync p l (blockShowsSuspension b))
  | _, _, _, .mk stmts _ _, hp, h =>
    assemble_fits (emitFns_fits hN stmts h.1) (emitStmts_fits hN stmts h.1)
      (emitTail_fits hN hp h.2)

theorem emitElse_fits (hN : N.Plain) : ∀ {p : Flow.Place} {l : Bool} (b : Block),
    b.Under (lowered F isAsync) p l →
    Ends F (emitElse N b) (Fits isAsync p l (blockShowsSuspension b))
  | p, l, .mk stmts _ tail, h => by
    rw [emitElse]
    split
    · exact emitStmts_fits hN stmts h.1
    · have htail : Ends F (emitTail N false tail) (Fits isAsync p l false) :=
        emitTail_fits hN nofun h.2
      refine Ends.bind (P := Fits isAsync p l (rowShowsSuspension stmts)) (Ends.within ?_)
        fun code hcode => ends_pure (fits_code ⟨trivial, hcode.legal⟩ hcode.yields)
      exact assemble_fits (emitFns_fits hN stmts h.1) (emitStmts_fits hN stmts h.1) htail

theorem emitArms_fits (hN : N.Plain) : ∀ {p : Flow.Place} {l : Bool} (arms : List Arm),
    armsUnder (lowered F isAsync) p l arms →
    Ends F (emitArms N arms) (Fits isAsync p l (armsShowSuspension arms))
  | _, _, [], _ => ends_pure fits_nil
  | _, _, .mk _ pat guard b :: arms, h => by
    rw [emitArms, armsShowSuspension]
    refine (emitArm_fits hN h.1 (emitContents_fits hN false b nofun h.2.1)).bind fun c hc => ?_
    split
    · next hlast =>
      rw [hlast, Bool.not_true, Bool.false_and, Bool.or_false]
      exact ends_pure hc
    · next hlast =>
      rw [Bool.not_eq_true] at hlast
      rw [hlast, Bool.not_false, Bool.true_and]
      exact (emitArms_fits hN arms h.2.2).bind fun cs hcs => ends_pure (hc.append hcs)

end

end Emission

end Yielding.Script
