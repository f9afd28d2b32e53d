import Mathlib.Algebra.Order.Group.Multiset
import Yielding.Proofs.Flow.Items
import Yielding.Proofs.Rendering.Statements

/-!
# Proofs/Rendering/Targets — what lines can store to

A line can store to a name that is no keyword, to an attribute and to an item, if no mistake of
spelling stands in it.  The code of an item that passes the checks stores to nothing else, except
where the item assigns to `None` or through `*` to what is no place, or where a keyword stands in a
path or an attribute is taken of an integer (`itemCode_targets`, `assignment_to_none_is_written`).
-/

namespace Yielding

/-!
## What lowered items assign to

The checks let an item assign to places only: names, dereferences, and components of places.
Lowering adds assignments of its own, to temporaries and to the places of swaps, and may keep the
parts of a place in temporaries; the law of lowered items says that what is assigned to is still a
place (`assigned_of_under`).
-/

open List Yielding.Flow Script

/-- Whether the expression is a place, if it is assigned to. -/
def Use.toPlace (u : Use) : Bool := u.target?.all Expr.isAssignable

@[simp]
theorem Use.toPlace_value (e : Expr) : (Use.value e).toPlace = true := rfl

@[simp]
theorem Condition.toPlace_use (condition : Condition) : condition.use.toPlace = true := by
  cases condition <;> rfl

theorem toPlace_usesOption (e : Option Expr) : ∀ u ∈ usesOption e, u.toPlace = true := by
  cases e <;> simp [usesOption]

namespace Lowering

variable {F : Failure → Prop} {isAsync : Bool}

mutual

theorem toPlace_of_under :
    ∀ {p : Flow.Place} {l : Bool} (s : Stmt), s.Under (lowered F isAsync) p l →
    ∀ u ∈ s.uses, u.toPlace = true
  | _, _, .assign .., h => forall_mem_cons.2 ⟨h.1, forall_mem_singleton.2 rfl⟩
  | _, _, .letIn _ _ _ _ (some b), h | _, _, .forIn _ _ _ b, h =>
    forall_mem_cons.2 ⟨rfl, toPlace_of_underBlock b h.2.2⟩
  | _, _, .ifElse _ condition b none, h | _, _, .whileDo _ condition b, h =>
    forall_mem_cons.2 ⟨condition.toPlace_use, toPlace_of_underBlock b h.2.2⟩
  | _, _, .ifElse _ condition a (some b), h =>
    forall_mem_cons.2 ⟨condition.toPlace_use, forall_mem_append.2
      ⟨toPlace_of_underBlock a h.2.2.1, toPlace_of_underBlock b h.2.2.2⟩⟩
  | _, _, .loop _ b, h | _, _, .block _ b, h | _, _, .fn _ _ _ _ b, h => toPlace_of_underBlock b h.2
  | _, _, .matchOn _ _ arms, h => forall_mem_cons.2 ⟨rfl, toPlace_of_underArms arms h.2.2⟩
  | _, _, .letIn _ _ _ _ none, _ | _, _, .expr .., _ | _, _, .suspend .., _ =>
    forall_mem_singleton.2 rfl
  | _, _, .ret _ value, _ => toPlace_usesOption value
  | _, _, .breakLoop _, _ | _, _, .continueLoop _, _ | _, _, .terminate _, _ => forall_mem_nil _

theorem toPlace_of_underRow : ∀ {p : Flow.Place} {l : Bool} (ss : List Stmt),
    rowUnder (lowered F isAsync) p l ss → ∀ u ∈ usesRow ss, u.toPlace = true
  | _, _, [], _ => by simp
  | _, _, s :: ss, h => forall_mem_append.2 ⟨toPlace_of_under s h.1, toPlace_of_underRow ss h.2⟩

theorem toPlace_of_underBlock : ∀ {p : Flow.Place} {l : Bool} (b : Block),
    b.Under (lowered F isAsync) p l → ∀ u ∈ b.uses, u.toPlace = true
  | _, _, .mk stmts _ tail, h =>
    forall_mem_append.2 ⟨toPlace_of_underRow stmts h.1, toPlace_usesOption tail⟩

theorem toPlace_of_underArms : ∀ {p : Flow.Place} {l : Bool} (arms : List Arm),
    armsUnder (lowered F isAsync) p l arms → ∀ u ∈ usesArms arms, u.toPlace = true
  | _, _, [], _ => forall_mem_nil _
  | _, _, .mk _ p guard b :: arms, h => by
    refine forall_mem_append.2 ⟨forall_mem_append.2
      ⟨toPlace_usesOption guard, toPlace_of_underBlock b h.2.1⟩, ?_⟩
    split
    · exact forall_mem_nil _
    · exact toPlace_of_underArms arms h.2.2

end

/-- **A lowered item assigns to places only.** -/
theorem assigned_of_under {d : Definition} (h : d.Under (lowered F isAsync)) :
    ∀ e ∈ d.assigned, e.isAssignable = true := by
  intro e he
  obtain ⟨u, hu, htarget⟩ := mem_filterMap.1 he
  have hplace : u.toPlace = true := forall_mem_append.2 ⟨forall_mem_append.2
    ⟨toPlace_of_underRow d.prelude h.prelude, toPlace_of_underBlock d.body h.body⟩,
    toPlace_usesOption d.sizeHint?⟩ u hu
  rw [Use.toPlace, htarget] at hplace
  exact hplace

end Lowering

end Yielding

namespace Yielding.Script

/-! ## What lines can store to -/

open Scoping Yielding.Flow

/-! ## Spelling -/

/-- Whether a text is that of an integer, of which no attribute can be taken. -/
def isNumeral (text : String) : Bool := text.toList.all fun c => c.isDigit || c == '-'

/-- Weighs code by its mistakes of spelling: keywords that stand as identifiers, and attributes of
integers. -/
def bySpelling : Weights Nat where
  name x := if keywords.contains x && x != "None" then 1 else 0
  attr x := if keywords.contains x then 1 else 0
  path segments := segments.countP fun x => keywords.contains x
  base text := if isNumeral text then 1 else 0
  store _ := 0

/-- Whether a line can store to the term: to a name that is no keyword, an attribute or an item. -/
def Term.isStorable : Term → Bool
  | .name x => !keywords.contains x
  | .dotted segments => !segments.isEmpty
  | .attr .. | .item .. => true
  | _ => false

/-- Whether the term can be assigned to. -/
def Term.isTarget (t : Term) : Bool := t.isStorable && t.weigh bySpelling == 0

mutual

def Code.stores : Code → List Term
  | .line (.store target _ _) => [target]
  | .line _ => []
  | .block _ body => rowStores body

def rowStores : List Code → List Term
  | [] => []
  | c :: cs => c.stores ++ rowStores cs

end

end Yielding.Script

namespace Yielding

open Script

/-- Whether an attribute is taken of an integer, or a keyword stands in a path. -/
def Expr.isMisspelled : Expr → Bool
  | .path _ segments => segments.any fun x => keywords.contains x
  | .field _ value _ => value.literal?.any fun v => isNumeral (Term.ofLiteral v).text
  | .methodCall _ receiver method args =>
    (Weights.methodAttr? method args.length).isSome &&
      receiver.literal?.any fun v => isNumeral (Term.ofLiteral v).text
  | _ => false

/-- The dot of a method ends a number that it is called on. -/
theorem number_before_dot :
    ((emitExpr byScope (.methodCall default (.literal default (.int 1 none)) "foo" [])).run
      (.start [])).toOption.map (·.1.text) = some "1.foo()" := by
  decide

/-- Whether what the expression is written as can be stored to: `*` and `&` are not written. -/
def Expr.isStorable : Expr → Bool
  | .name _ x => x != "None"
  | .path _ segments => !segments.isEmpty
  | .field .. | .tupleField .. | .index .. => true
  | .unary _ .deref operand => operand.isStorable
  | .borrow _ value _ => value.isStorable
  | _ => false

/-- Whether the code can assign to the expression. -/
def Expr.isTarget (e : Expr) : Bool := e.isStorable && !e.shown.any Expr.isMisspelled

/-- **A place cannot be stored to only if it is `None` or a dereference.** -/
theorem Expr.isStorable_of_isAssignable {e : Expr} (h : e.isAssignable = true) :
    e.isStorable = true ∨ (∃ r, e = .name r "None") ∨
      ∃ r x, e = .unary r .deref x ∧ x.isStorable = false := by
  cases e with
  | name r x =>
    by_cases hx : x = "None"
    · exact .inr (.inl ⟨r, by rw [hx]⟩)
    · exact .inl (by simpa [isStorable] using hx)
  | field | tupleField | index => exact .inl rfl
  | unary r op x =>
    cases op with
    | deref =>
      cases hx : x.isStorable with
      | true => exact .inl hx
      | false => exact .inr (.inr ⟨r, x, rfl, hx⟩)
    | not | neg => cases h
  | _ => cases h

end Yielding

namespace Yielding.Script

open Scoping Yielding.Flow

variable {k : List String}

theorem bySpelling_light : bySpelling.Light where
  name := by
    intro x hx
    simp [bySpelling, hx]
  payload v := by cases v <;> decide
  support := by
    intro x hx
    have hrt : supportName ∉ keywords := by decide
    simp [bySpelling, hx, hrt]
  empty := by decide

theorem held_bySpelling (e : Expr) : bySpelling.held e = 0 ↔
    (e.literal?.any fun v => isNumeral (Term.ofLiteral v).text) = false := by
  rw [Weights.held]
  cases e.literal? with
  | none => simp
  | some v => simp [bySpelling]

theorem node_bySpelling (e : Expr) : bySpelling.node e = 0 ↔ e.isMisspelled = false := by
  cases e with
  | name r x =>
    rw [Weights.node]
    split
    · next hx =>
      subst hx
      exact iff_of_true (by decide) rfl
    · exact iff_of_true rfl rfl
  | path r segments => simp [Weights.node, bySpelling, Expr.isMisspelled]
  | field r value attr =>
    have hattr : bySpelling.attr (avoidKeyword attr) = 0 := by
      simp [bySpelling, avoidKeyword_notMem attr]
    rw [Weights.node, hattr, add_zero, held_bySpelling, Expr.isMisspelled]
  | methodCall r receiver method args =>
    rw [Weights.node, Expr.isMisspelled]
    cases h : Weights.methodAttr? method args.length with
    | none => simp
    | some x =>
      have hattr : bySpelling.attr x = 0 := by simp [bySpelling, methodAttr_notMem h]
      rw [Option.elim_some, hattr, add_zero, held_bySpelling, Option.isSome_some, Bool.true_and]
  | _ => exact iff_of_true rfl rfl

theorem total_bySpelling (es : List Expr) :
    bySpelling.total es = 0 ↔ es.any Expr.isMisspelled = false := by
  induction es with
  | nil => simp
  | cons e es ih =>
    rw [Weights.total_cons, Nat.add_eq_zero_iff, node_bySpelling, ih, List.any_cons,
      Bool.or_eq_false_iff]

/-! ## Terms of targets -/

theorem nodeTerm_storable {e : Expr} (h : e.isNode) {ts : List Term}
    (hts : List.Forall₂ (fun t o => t.isStorable = o.isStorable) ts e.operands) :
    (nodeTerm e ts).isStorable = e.isStorable := by
  cases e with
  | name | call | yield | attempt => cases h
  | literal r value =>
    rw [nodeTerm, ofLiteral_eq]
    rfl
  | methodCall r receiver method args =>
    rw [nodeTerm]
    split
    · next form _ => cases form <;> rfl
    · rfl
  | unary r op operand =>
    obtain _ | ⟨ht, _ | _⟩ := hts
    cases op with
    | deref => exact ht
    | not | neg => rfl
  | borrow =>
    obtain _ | ⟨ht, _ | _⟩ := hts
    exact ht
  | binary r op left right => cases op <;> rfl
  | macroCall r name args => cases name <;> rfl
  | _ => rfl

theorem functionForm_storable {form : FunctionForm} {ts : List Term} {t : Term}
    (h : form.term? ts = some t) : t.isStorable = false := by
  cases form with
  | toText =>
    obtain ⟨_, -, rfl⟩ := Option.map_eq_some_iff.1 h
    rfl
  | _ =>
    obtain rfl := Option.some.inj h
    rfl

theorem term_storable {ns : Names} (hns : ns.Sound) (x : String) :
    (ns.term x).1.isStorable = (x != "None") := by
  rw [Names.term]
  split
  · next hx =>
    subst hx
    exact (by decide : (Term.name "None").isStorable = ("None" != "None"))
  · next hx =>
    have hkeep {y : String} (hy : y ∉ keywords) : (Term.name y).isStorable = (x != "None") := by
      simp [Term.isStorable, hx, hy]
    split
    · next target htarget => exact hkeep (hns.resolve htarget)
    · split
      · simp [Term.support, Term.isStorable, hx]
      · exact hkeep (avoidKeyword_notMem x)

/-- **Whether a term can be stored to is read off its expression.** -/
theorem emitExpr_storable (e : Expr) :
    Soundly k (emitExpr byScope e) fun t => t.isStorable = e.isStorable := by
  intro ns t ns' hns _ hrun
  exact (emitExpr_frames (R := fun t e => t.isStorable = e.isStorable) nodeTerm_storable
    (fun hframes => term_storable (hns.of_frames hframes) _)
      (fun _ _ ht => functionForm_storable ht)
    (fun _ _ _ => rfl) e rfl hrun).imp_right fun h => ⟨hns.of_frames h, .of_frames h⟩

theorem emitExpr_target (e : Expr) :
    Soundly k (emitExpr byScope e) fun t => t.isTarget = e.isTarget := by
  refine ((emitExpr_storable e).and (emitExpr_weigh bySpelling_light e)).mono fun t ht => ?_
  have hspelled : (t.weigh bySpelling == 0) = !e.shown.any Expr.isMisspelled := by
    rw [Bool.eq_iff_iff, beq_iff_eq, ht.2.1, total_bySpelling, Bool.not_eq_true']
  rw [Term.isTarget, Expr.isTarget, ht.1, hspelled]

/-! ## Lines that store -/

/-- Weighs code by what its lines store to alone: for each line, whether it stores to a target. -/
def byTargets : Weights (Multiset Bool) where
  name _ := 0
  attr _ := 0
  path _ := 0
  base _ := 0
  store t := {t.isTarget}

theorem byTargets_light : byTargets.Light := ⟨fun _ => rfl, fun _ => rfl, fun _ => rfl, rfl⟩

theorem held_byTargets (t : Term) : t.held byTargets = 0 := by cases t <;> rfl

mutual

theorem weigh_byTargets : ∀ t : Term, t.weigh byTargets = 0
  | .name _ | .dotted _ | .literal _ => by simp [Term.weigh, byTargets]
  | .attr value _ => by
    rw [Term.weigh, held_byTargets, weigh_byTargets value]
    rfl
  | .item a b | .pair _ a b => by rw [Term.weigh, weigh_byTargets a, weigh_byTargets b, add_zero]
  | .call func args => by rw [Term.weigh, weigh_byTargets func, weighRow_byTargets args, add_zero]
  | .group _ value | .next value => by rw [Term.weigh, weigh_byTargets value]
  | .tuple row | .list row => by rw [Term.weigh, weighRow_byTargets row]
  | .option _ value => by
    rw [Term.weigh, weigh_byTargets value]
    rfl

theorem weighRow_byTargets : ∀ ts : List Term, Term.weighRow byTargets ts = 0
  | [] => by rw [Term.weighRow]
  | t :: ts => by rw [Term.weighRow, weigh_byTargets t, weighRow_byTargets ts, add_zero]

end

mutual

theorem Target.weigh_byTargets : ∀ t : Target, t.weigh byTargets = 0
  | .name _ | .rest | .skip => by simp [Target.weigh, byTargets]
  | .tuple items => by rw [Target.weigh, Target.weighRow_byTargets items]

theorem Target.weighRow_byTargets : ∀ ts : List Target, Target.weighRow byTargets ts = 0
  | [] => by rw [Target.weighRow]
  | t :: ts => by rw [Target.weighRow, t.weigh_byTargets, Target.weighRow_byTargets ts, add_zero]

end

mutual

theorem Case.weigh_byTargets : ∀ c : Case, c.weigh byTargets = 0
  | .bind _ | .literal _ | .none | .rest | .skip => by simp [Case.weigh, byTargets]
  | .variant _ inner => by
    rw [Case.weigh, inner.weigh_byTargets]
    rfl
  | .tuple items => by rw [Case.weigh, Case.weighRow_byTargets items]

theorem Case.weighRow_byTargets : ∀ cs : List Case, Case.weighRow byTargets cs = 0
  | [] => by rw [Case.weighRow]
  | c :: cs => by rw [Case.weighRow, c.weigh_byTargets, Case.weighRow_byTargets cs, add_zero]

end

theorem weighOption_byTargets (t : Option Term) : Term.weighOption byTargets t = 0 := by
  cases t with
  | none => rfl
  | some t => exact weigh_byTargets t

theorem Decision.weigh_byTargets (decision : Decision) : decision.weigh byTargets = 0 := by
  have htests (tests : List Test) : Test.weighRow byTargets tests = 0 := by
    induction tests with
    | nil => rfl
    | cons test tests ih =>
      rw [Test.weighRow, List.map_cons, List.sum_cons, ← Test.weighRow, ih, add_zero]
      cases test with
      | isVariant subject v =>
        rw [Test.weigh, Script.weigh_byTargets]
        rfl
      | _ => exact Script.weigh_byTargets _
  cases decision with
  | holds value => exact Script.weigh_byTargets value
  | all tests | notAll tests => exact htests tests

theorem Header.weigh_byTargets (header : Header) : header.weigh byTargets = 0 := by
  cases header with
  | cls | elseDo => rfl
  | fn isAsync x params result =>
    show 0 + (params.map fun _ => (0 : Multiset Bool)).sum = 0
    simp
  | ifDo decision | elifDo decision => exact decision.weigh_byTargets
  | whileDo value | matchOn value => exact Script.weigh_byTargets value
  | forIn target iterable =>
    rw [Header.weigh, target.weigh_byTargets, Script.weigh_byTargets, add_zero]
  | caseOf pattern guard =>
    rw [Header.weigh, pattern.weigh_byTargets, weighOption_byTargets, add_zero]

mutual

/-- **Only lines that store weigh anything.** -/
theorem Code.weigh_byTargets :
    ∀ c : Code, c.weigh byTargets = (c.stores.map Term.isTarget : List Bool)
  | .line l => by
    rw [Code.weigh_line]
    cases l with
    | store target op value =>
      rw [Line.weigh, Script.weigh_byTargets, Script.weigh_byTargets, Code.stores,
        add_zero, add_zero]
      rfl
    | assign target value =>
      rw [Line.weigh, target.weigh_byTargets, Script.weigh_byTargets]
      simp [Code.stores]
    | eval value =>
      rw [Line.weigh, Script.weigh_byTargets]
      simp [Code.stores]
    | yield value | ret value =>
      rw [Line.weigh, weighOption_byTargets]
      simp [Code.stores]
    | _ => simp [Line.weigh, Code.stores]
  | .block header body => by
    rw [Code.weigh_block, header.weigh_byTargets, Code.weighRow_byTargets body,
      Code.stores, zero_add]

theorem Code.weighRow_byTargets : ∀ cs : List Code,
    Code.weighRow byTargets cs = ((rowStores cs).map Term.isTarget : List Bool)
  | [] => by simp [rowStores]
  | c :: cs => by
    rw [Code.weighRow_cons, c.weigh_byTargets, Code.weighRow_byTargets cs, rowStores,
      List.map_append, ← Multiset.coe_add]

end

theorem total_byTargets (es : List Expr) : byTargets.total es = 0 := by
  have hheld (e : Expr) : byTargets.held e = 0 := by
    rw [Weights.held]
    cases e.literal? <;> rfl
  have hnode (e : Expr) : byTargets.node e = 0 := by
    cases e with
    | name r x =>
      rw [Weights.node]
      split <;> rfl
    | field r value attr =>
      rw [Weights.node, hheld]
      rfl
    | methodCall r receiver method args =>
      rw [Weights.node]
      cases Weights.methodAttr? method args.length with
      | none => rfl
      | some x =>
        rw [Option.elim_some, hheld]
        rfl
    | _ => rfl
  induction es with
  | nil => rfl
  | cons e es ih => rw [Weights.total_cons, hnode, ih, add_zero]

theorem itemCode_byTargets {d : Definition} {className : String} {code : List Code}
    (h : itemCode d className = .ok code) : ∃ params result body,
      code = [wrapper d className (valueHint d), .line .blank, .line .blank,
        .block (.fn false d.name params (some result)) body] ∧
      ((rowStores body).map Term.isTarget : Multiset Bool) = d.assigned.map Expr.isTarget := by
  have hT : byTargets.Stores fun e => {e.isTarget} := fun e =>
    (emitExpr_target e).mono fun t ht => congrArg (fun b => ({b} : Multiset Bool)) ht
  obtain ⟨params, result, body, rfl, -, hbody⟩ := itemCode_weigh byTargets_light hT h
  refine ⟨params, result, body, rfl, ?_⟩
  have hassigned : (d.assigned.map fun e => ({e.isTarget} : Multiset Bool)).sum =
      (d.assigned.map Expr.isTarget : List Bool) := by
    induction d.assigned with
    | nil => rfl
    | cons e es ih =>
      rw [List.map_cons, List.sum_cons, ih]
      rfl
  rw [Code.weighRow_byTargets, Weights.load_eq, total_byTargets, ← Definition.assigned, hassigned,
    zero_add] at hbody
  exact hbody.trans (add_zero _)

/-- **What the code of an item that passes the checks stores to are targets**, with exactly these
exceptions.  The lines that store can be paired with the assignments of the lowered item so that a
line stores to a target just if its assignment is to one; and the checks leave only three ways not
to be one: a keyword in a path or an attribute of an integer, the name `None`, and a dereference of
what could not be stored to itself.  No code is written only if a text is to be made from
nothing. -/
theorem itemCode_targets (file : Option String) (d : Definition) (className : String)
    (hw : d.Under (written True)) (hv : hasErrors (d.validate file) = false) :
    (∃ params result body,
      itemCode d.lower className =
        .ok [wrapper d.lower className (valueHint d), .line .blank, .line .blank,
          .block (.fn false d.name params (some result)) body] ∧
      ((rowStores body).map Term.isTarget : Multiset Bool) = d.lower.assigned.map Expr.isTarget ∧
      ∀ e ∈ d.lower.assigned, e.isTarget = true ∨ e.shown.any Expr.isMisspelled = true ∨
        (∃ r, e = .name r "None") ∨ ∃ r x, e = .unary r .deref x ∧ x.isStorable = false) ∨
    itemCode d.lower className = .error .emptyConversion := by
  have hlowered := definition_lowered (F := fun _ => True) (fun _ => trivial) hw hv
  obtain ⟨itemHint, function, hcode, -⟩ | hf := itemCode_checked className hw hv
  · obtain ⟨params, result, body, hfunction, hbody⟩ := itemCode_byTargets hcode
    refine .inl ⟨params, result, body, hfunction ▸ hcode, hbody, fun e he => ?_⟩
    cases hspelled : e.shown.any Expr.isMisspelled with
    | true => exact .inr (.inl rfl)
    | false =>
      obtain hstorable | hrest :=
        Expr.isStorable_of_isAssignable (Lowering.assigned_of_under hlowered e he)
      · exact .inl (by rw [Expr.isTarget, hstorable, hspelled]; rfl)
      · exact .inr (.inr hrest)
  · exact .inr hf

/-- `let mut v = h(); v[g()?].from /= 2; *v = 3; *g() = 4; yield v.take();` -/
def storing : Definition :=
  numbers [] [
    .letIn default (.bind default "v" true) none (.call default (.name default "h") []) none,
    .assign default
      (.field default (.index default (.name default "v")
        (.attempt default (.call default (.name default "g") []))) "from")
      (.literal default (.int 2 none)) .div,
    .assign default (.unary default .deref (.name default "v"))
      (.literal default (.int 3 none)) .set,
    .assign default (.unary default .deref (.call default (.name default "g") []))
      (.literal default (.int 4 none)) .set,
    .expr default (.yield default (some (.methodCall default (.name default "v") "take" [])))]

theorem storing_targets :
    storing.Under (written True) ∧ hasErrors (storing.validate none) = false ∧
    ∃ params result body,
      itemCode storing.lower "_FIteratorItem" =
        .ok [wrapper storing.lower "_FIteratorItem" (valueHint storing), .line .blank, .line .blank,
          .block (.fn false "f" params (some result)) body] ∧
      ((rowStores body).map Term.isTarget : Multiset Bool) = {true, true, false, true} := by
  have hw : storing.Under (written True) :=
    ⟨trivial, ⟨⟨⟨trivial, fun _ _ _ => trivial⟩,
      ⟨trivial, fun _ _ _ => trivial, fun _ _ _ => trivial⟩,
      ⟨trivial, fun _ _ _ => trivial, fun _ _ _ => trivial⟩,
      ⟨trivial, fun _ _ _ => trivial, fun _ _ _ => trivial⟩,
      ⟨trivial, fun _ _ _ => trivial⟩, trivial⟩, nofun⟩, nofun⟩
  have hv : hasErrors (storing.validate none) = false := by decide
  refine ⟨hw, hv, ?_⟩
  have hok : (itemCode storing.lower "_FIteratorItem").toBool = true := by decide +kernel
  have hassigned : storing.lower.assigned.map Expr.isTarget = [true, true, false, true] := by
    decide
  obtain ⟨params, result, body, hcode, hbody, -⟩ | hf :=
    itemCode_targets none storing "_FIteratorItem" hw hv
  · exact ⟨params, result, body, hcode, hbody.trans (by rw [hassigned]; rfl)⟩
  · rw [hf] at hok
    cases hok

/-- `None = g(); yield 1;` -/
def storingNone : Definition :=
  numbers [] [
    .assign default (.name default "None") (.call default (.name default "g") []) .set,
    yieldOne]

/-- **An assignment to `None` passes the checks and is written**, as a line that stores to a
keyword. -/
theorem assignment_to_none_is_written :
    storingNone.Under (written True) ∧ hasErrors (storingNone.validate none) = false ∧
    ∃ code, itemCode storingNone.lower "_FIteratorItem" = .ok code ∧
      ∃ t ∈ rowStores code, t.text = "None" ∧ t.isTarget = false := by
  refine ⟨⟨trivial, ⟨⟨⟨trivial, fun _ _ _ => trivial, fun _ _ _ => trivial⟩,
    ⟨trivial, fun _ _ _ => trivial⟩, trivial⟩, nofun⟩, nofun⟩, by decide, ?_⟩
  have hstores : (itemCode storingNone.lower "_FIteratorItem").toOption.map
      (fun code => (rowStores code).map fun t => (t.text, t.isTarget)) =
        some [("None", false)] := by
    decide
  cases hcode : itemCode storingNone.lower "_FIteratorItem" with
  | error f =>
    rw [hcode] at hstores
    cases hstores
  | ok code =>
    rw [hcode] at hstores
    have hrow : (rowStores code).map (fun t => (t.text, t.isTarget)) = [("None", false)] :=
      Option.some.inj hstores
    have hmem : ("None", false) ∈ (rowStores code).map fun t => (t.text, t.isTarget) := by
      rw [hrow]
      exact List.mem_cons_self
    obtain ⟨t, ht, heq⟩ := List.mem_map.1 hmem
    exact ⟨code, rfl, t, ht, (Prod.mk.inj heq).1, (Prod.mk.inj heq).2⟩

end Yielding.Script
