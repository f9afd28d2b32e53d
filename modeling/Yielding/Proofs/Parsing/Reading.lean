import Yielding.Proofs.Moving.Values
import Yielding.Proofs.Parsing.Phrases

/-!
# Proofs/Parsing/Reading — what is read is source

One lemma for each function that reads a phrase: from parts that are source it builds something that
is source, or a problem of the text stands in for it.
-/

namespace Yielding.Value

open Option List Grammar Yielding.Flow

variable (region : Region) {d : Draft} {typed : Bool}

/-! ## Words -/

theorem unquoted_fine (t : Token) :
    Fine (fun cs => Text.unescape ((t.text.toList.drop 1).dropLast) = .ok cs)
      (unquoted region t) := by
  unfold unquoted
  split
  · assumption
  · exact nofun

theorem whole_suffix {text s : String} (h : (splitSuffix text).2 = some s) :
    (Ty.ofName s).Whole := by
  simp only [splitSuffix] at h
  split at h
  · cases h
  · next hne =>
    cases h
    rw [Bool.not_eq_true, isEmpty_eq_false_iff] at hne
    have hletter := head_dropWhile_not _ hne
    refine Ty.whole_ofName (Ty.not_mem_aroundNames (c := head _ hne) ?_ ?_)
    · rw [String.toList_ofList, head?_eq_some_head hne]
    · intro hsign
      simp only [mem_cons, not_mem_nil, or_false] at hsign
      rcases hsign with hsign | hsign <;> rw [hsign] at hletter <;>
        exact absurd hletter (by decide)

theorem path_not_mem_aroundNames {t : Token} (hk : t.kind = .name) (ht : t.Formed)
    (names : List String) : "::".intercalate (t.text :: names) ∉ Ty.aroundNames := by
  obtain ⟨c, cs, htext, hc⟩ := ht.name hk
  refine Ty.not_mem_aroundNames (c := c) ?_ ?_
  · cases names with
    | nil => rw [String.intercalate_singleton, htext, head?_cons]
    | cons n names =>
      rw [String.intercalate_cons_cons, String.append_assoc, String.toList_append, htext,
        cons_append, head?_cons]
  · rintro hsign
    simp only [mem_cons, not_mem_nil, or_false] at hsign
    rcases hsign with rfl | rfl <;> simp [Lexer.isNameStart] at hc

/-- The literal has no suffix but the name of a type. -/
def IsWhole (l : Literal) : Prop := ∀ r, ∀ t ∈ (Expr.literal r l).suffix?, t.Whole

theorem numberOf_fine (digits : List Char) : Fine (fun _ => True) (numberOf region digits) := by
  unfold numberOf
  split
  · trivial
  · exact nofun

theorem literalOf_fine {t : Token} (ht : t.Formed)
    (hk : t.kind ∈ [.int, .float, .string, .char, .kwTrue, .kwFalse]) :
    Fine IsWhole (literalOf region t) := by
  have hnumber :
      ∀ l : Literal, (∀ r, (Expr.literal r l).suffix? = (splitSuffix t.text).2.map .ofName) →
      IsWhole l := by
    intro l hl r ty hty
    rw [hl r] at hty
    obtain ⟨s, hs, rfl⟩ := map_eq_some_iff.1 hty
    exact whole_suffix hs
  unfold literalOf
  split
  · exact (numberOf_fine region _).bind fun _ _ => hnumber _ fun _ => rfl
  · exact hnumber _ fun _ => rfl
  · exact (unquoted_fine region t).bind fun cs _ => nofun
  · next hchar =>
    refine (unquoted_fine region t).bind fun cs hcs => ?_
    obtain ⟨c, rfl⟩ := ht.char hchar cs hcs
    exact nofun
  · exact nofun
  · exact nofun
  · simp_all

/-! ## Types -/

section Types

variable {slots : List Slot} {vs : List Value}

theorem whole_types (h : SlotsRead slots vs) : ∀ t ∈ vs.filterMap type?, t.Whole := by
  intro t ht
  obtain ⟨v, hv, hvt⟩ := mem_filterMap.1 ht
  cases v <;> cases hvt
  exact h.picked _ hv

theorem whole_assocs (h : SlotsRead slots vs) :
    ∀ b ∈ vs.filterMap (fun | .assoc called t => some (called, t) | _ => none), b.2.Whole := by
  intro b hb
  obtain ⟨v, hv, hvb⟩ := mem_filterMap.1 hb
  cases v <;> cases hvb
  exact h.picked _ hv

theorem whole_typePath {t : Token} (hk : t.kind = .name) (ht : t.Formed) (h : SlotsRead slots vs) :
    (readTypePath (.token t :: vs)).Whole := by
  have hpath := path_not_mem_aroundNames hk ht (vs.filterMap fun v => v.token?.map Token.text)
  unfold readTypePath
  dsimp only
  split
  · next ts bs hlast =>
    have hmem : .typeArgs ts bs ∈ vs := by
      simpa using mem_of_getLast? hlast
    obtain ⟨hts, hbs⟩ := h.picked _ hmem
    exact Ty.whole_path hpath hts hbs
  · exact Ty.whole_ofName hpath

end Types

/-! ## Parameters -/

theorem checkParams_fine {ps : List Param} (h : ∀ p ∈ ps, p.IsSource) (isFirst : Bool)
    (seen : List String) : Fine (∀ p ∈ ·, p.IsSource) (checkParams isFirst seen ps) := by
  induction ps generalizing isFirst seen with
  | nil => exact h
  | cons p ps ih =>
    rw [forall_mem_cons] at h
    unfold checkParams
    split
    · rintro ⟨⟩
    · split
      · rintro ⟨⟩
      · exact (ih h.2 _ _).bind fun ps hps => forall_mem_cons.2 ⟨h.1, hps⟩

variable {vs : List Value}

theorem isSource_params {slots : List Slot} (h : SlotsRead slots vs) :
    ∀ p ∈ vs.filterMap (fun | .param p => some p | _ => none), p.IsSource := by
  intro p hp
  obtain ⟨v, hv, hvp⟩ := mem_filterMap.1 hp
  cases v <;> cases hvp
  exact h.picked _ hv

/-! ## Expressions -/

/-- An expression that is no call of a support function and has no suffix is source when its
operands are. -/
theorem isSource_of_operands {e : Expr} (hnode : ∀ r name args, e ≠ .helper r name args)
    (hsuffix : e.suffix? = none) (h : ∀ o ∈ e.operands, o.IsSource) : e.IsSource :=
  Expr.isSource_iff.2 ⟨⟨hnode, by simp [hsuffix]⟩, h⟩

theorem isSource_literal {l : Literal} (h : IsWhole l) : (Expr.literal region l).IsSource :=
  Expr.isSource_iff.2 ⟨⟨nofun, h region⟩, nofun⟩

section Operands

variable {a b : Build Expr} (ha : Fine Expr.IsSource a)

include ha

theorem operand_fine {f : Expr → Expr}
    (hf : ∀ e, (∀ r name args, f e ≠ .helper r name args) ∧ (f e).suffix? = none ∧
      (f e).operands = [e]) : Fine Expr.IsSource (do return f (← a)) :=
  ha.bind fun e he =>
    isSource_of_operands (hf e).1 (hf e).2.1 ((hf e).2.2 ▸ forall_mem_singleton.2 he)

theorem operands_fine (hb : Fine Expr.IsSource b) {f : Expr → Expr → Expr}
    (hf : ∀ e o, (∀ r name args, f e o ≠ .helper r name args) ∧
      (f e o).suffix? = none ∧ (f e o).operands = [e, o]) :
    Fine Expr.IsSource (do return f (← a) (← b)) :=
  ha.bind fun e he => hb.bind fun o ho => isSource_of_operands (hf e o).1 (hf e o).2.1
    ((hf e o).2.2 ▸ forall_mem_cons.2 ⟨he, forall_mem_singleton.2 ho⟩)

end Operands

theorem mapM_expr_fine (h : ∀ v ∈ vs, Shape.expr.Describes v) :
    Fine (∀ e ∈ ·, e.IsSource) (vs.mapM (expr? region)) := by
  refine Fine.mapM fun v hv => ?_
  obtain ⟨e, rfl, he⟩ := h v hv
  exact he

theorem args_fine (h : Shape.args.Optional vs) : Fine (∀ e ∈ ·, e.IsSource)
    (args? region vs) := by
  rcases h with rfl | ⟨_, rfl, es, rfl, hes⟩
  · exact (nofun : ∀ e ∈ ([] : List Expr), e.IsSource)
  · exact hes

theorem readMacro_fine (called : String) (h : Shape.args.Optional vs) :
    Fine Expr.IsSource (readMacro region called vs) := by
  unfold readMacro
  split
  · exact nofun
  · exact (args_fine region h).bind fun es hes => isSource_of_operands nofun rfl hes
  · exact (args_fine region h).bind fun es hes => isSource_of_operands nofun rfl hes

theorem readCall_fine {func : Build Expr} (hfunc : Fine Expr.IsSource func)
    (h : Shape.args.Optional vs) : Fine Expr.IsSource (readCall region func vs) := by
  refine hfunc.bind fun func hfunc => (args_fine region h).bind fun es hes => ?_
  split
  · next receiver method =>
    have hreceiver := (Expr.isSource_iff.1 hfunc).2 receiver (by simp [Expr.operands])
    exact isSource_of_operands nofun rfl (forall_mem_cons.2 ⟨hreceiver, hes⟩)
  · exact isSource_of_operands nofun rfl (forall_mem_cons.2 ⟨hfunc, hes⟩)

theorem readTupleField_fine {value : Build Expr}
    (h : Fine Expr.IsSource value) (t : Token) :
    Fine Expr.IsSource (readTupleField region value t) := by
  unfold readTupleField
  split
  · exact nofun
  · next digits _ =>
    refine h.bind fun e he => (numberOf_fine region digits).bind fun i _ => ?_
    exact isSource_of_operands nofun rfl (forall_mem_singleton.2 he)

/-! ## Patterns -/

def IsPattern (v : Value) : Prop := Shape.pattern.Describes v ∨ Shape.restPattern.Describes v

variable {v : Value}

theorem isPattern_of_admits (h : (Symbol.category .pattern).Admits v) : IsPattern v := by
  simpa [Symbol.Admits, Symbol.shapes, Category.shapes, IsPattern] using h

theorem pattern_fine (h : IsPattern v) : Fine Pattern.IsProper (v.pattern? region)
    := by
  obtain ⟨p, rfl, hp⟩ | ⟨r, rfl⟩ := h
  · exact hp
  · exact nofun

theorem tupleItem_fine (h : IsPattern v) :
    Fine (fun p => p.isRest = false → p.IsProper) (v.tupleItem? region) := by
  obtain ⟨p, rfl, hp⟩ | ⟨r, rfl⟩ := h
  · cases p with
    | ok p => exact fun _ => hp
    | error p => exact hp
  · exact nofun

theorem readVariant_fine (called : String) {inner : Value} (h : IsPattern inner) :
    Fine Pattern.IsProper (readVariant region called inner) := by
  unfold readVariant
  split
  · exact nofun
  · split
    · trivial
    · exact (pattern_fine region h).bind fun _ h => h

theorem readTuplePattern_fine (h : ∀ v ∈ vs, IsPattern v) :
    Fine Pattern.IsProper (readTuplePattern region vs) := by
  have hitems : Fine (∀ p ∈ ·, p.isRest = false → p.IsProper) (vs.mapM (tupleItem? region)) :=
    Fine.mapM fun v hv => tupleItem_fine region (h v hv)
  refine hitems.bind fun items hitems => ?_
  split
  · exact nofun
  · next hcount => exact ⟨Nat.le_of_not_gt hcount, Pattern.rowProper_iff.2 hitems⟩

theorem readLiteralPattern_fine (negative : Bool) {t : Token} (ht : t.Formed)
    (hk : t.kind ∈ [.int, .float, .string, .char, .kwTrue, .kwFalse]) :
    Fine Pattern.IsProper (readLiteralPattern region negative t) := by
  refine (literalOf_fine region ht hk).bind fun l _ => ?_
  split <;> trivial

/-! ## Statements -/

def IsStmt (v : Value) : Prop := (Symbol.category .stmts).Admits v

theorem readStmts_fine {us : List Value} (hus : ∀ u ∈ us, IsStmt u)
    (hvs : Shape.expr.Optional vs) :
    Fine (fun (ss, tail) => (∀ s ∈ ss, s.IsSource) ∧ ∀ e ∈ tail, e.IsSource)
      (readStmts region (us ++ vs)) := by
  induction us with
  | nil =>
    obtain rfl | ⟨_, rfl, e, rfl, he⟩ := hvs
    · exact ⟨forall_mem_nil _, by simp⟩
    · exact he.bind fun e he => ⟨forall_mem_nil _, fun _ h => some.inj h ▸ he⟩
  | cons u us ih =>
    rw [forall_mem_cons] at hus
    have hrest := ih hus.2
    obtain ⟨shape, hshape, hu⟩ := hus.1
    simp only [Symbol.shapes, Category.shapes, mem_cons, not_mem_nil, or_false] at hshape
    rcases hshape with rfl | rfl | rfl
    · obtain rfl : u = _ := hu
      exact hrest.bind fun _ h => h
    · obtain ⟨s, rfl, hs⟩ := hu
      refine hs.bind fun s hs => hrest.bind fun _ h => ⟨?_, h.2⟩
      obtain ⟨x, rfl, hx⟩ := hs
      exact forall_mem_cons.2 ⟨hx, h.1⟩
    · obtain ⟨b, rfl, hb⟩ := hu
      refine hb.bind fun b hb => hrest.bind fun _ h => ⟨?_, h.2⟩
      exact forall_mem_cons.2 ⟨fun p l => ⟨⟨trivial, by rintro _ ⟨⟩⟩, hb p l⟩, h.1⟩

theorem readBlock_fine {us : List Value} (hus : ∀ u ∈ us, IsStmt u)
    (hvs : Shape.expr.Optional vs) : Fine Block.IsSource (readBlock region (us ++ vs)) :=
  (readStmts_fine region hus hvs).bind fun (_, _) h => isSource_block h.1 h.2

theorem readLet_fine {bound : Value} (hbound : IsPattern bound)
    {value : Build Expr} (hvalue : Fine Expr.IsSource value) {types blocks : List Value}
    (htypes : Shape.ascription.Optional types) (hblocks : Shape.letElse.Optional blocks) :
    Fine Stmt.IsSource (readLet region bound (types ++ .expr value :: blocks)) := by
  refine (pattern_fine region hbound).bind fun bound _ => ?_
  obtain rfl | ⟨_, rfl, t, rfl, ht⟩ := htypes <;> obtain rfl | ⟨_, rfl, b, rfl, hb⟩ := hblocks
  · exact hvalue.bind fun e he p l => ⟨⟨trivial, by rintro _ ⟨⟩⟩, he⟩
  · exact hvalue.bind fun e he => hb.bind fun b hb p l => ⟨⟨trivial, by rintro _ ⟨⟩⟩, he, hb p l⟩
  · exact hvalue.bind fun e he p l => ⟨⟨trivial, fun _ h => some.inj h ▸ ht⟩, he⟩
  · exact hvalue.bind fun e he => hb.bind fun b hb p l =>
      ⟨⟨trivial, fun _ h => some.inj h ▸ ht⟩, he, hb p l⟩

def IsCondition (v : Value) : Prop := Shape.condition.Describes v ∨ Shape.expr.Describes v

theorem isCondition_of_admits (h : (Symbol.category .condition).Admits v) : IsCondition v := by
  simpa [Symbol.Admits, Symbol.shapes, Category.shapes, IsCondition] using h

theorem condition_fine (h : IsCondition v) : Fine (fun c => c.value.IsSource)
    (v.condition? region) := by
  obtain ⟨c, rfl, hc⟩ | ⟨e, rfl, he⟩ := h
  · exact hc
  · exact he.map fun e he => he

theorem readIf_fine {head : Value} (hhead : IsCondition head)
    {thenBlock : Build Block} (hthen : Fine Block.IsSource thenBlock)
    (hvs : Shape.elseClause.Optional vs) :
    Fine Stmt.IsSource (readIf region head (.block thenBlock) vs) := by
  refine (condition_fine region hhead).bind fun c hc => hthen.bind fun a ha => ?_
  obtain rfl | ⟨_, rfl, b, rfl, hb⟩ := hvs
  · exact fun p l => ⟨⟨trivial, nofun⟩, hc, ha p l⟩
  · exact hb.bind fun b hb => fun p l => ⟨⟨trivial, nofun⟩, hc, ha p l, hb p l⟩

theorem readElseIf_fine {s : Build (Option Stmt)}
    (h : Fine (fun s => ∃ x, s = some x ∧ x.IsSource) s) :
    Fine Block.IsSource (readElseIf region s) := by
  refine h.bind fun s hs => ?_
  obtain ⟨x, rfl, hx⟩ := hs
  exact isSource_block (forall_mem_singleton.2 hx) nofun

def IsArmBody (v : Value) : Prop := Shape.block.Describes v ∨ Shape.expr.Describes v

theorem armBody_fine (h : IsArmBody v) : Fine Block.IsSource (v.armBody? region)
    := by
  obtain ⟨b, rfl, hb⟩ | ⟨e, rfl, he⟩ := h
  · exact hb
  · refine he.bind fun e he => isSource_block (forall_mem_singleton.2 ?_) nofun
    exact fun p l => ⟨⟨trivial, nofun⟩, he⟩

theorem readArm_fine {matched : Value} (hmatched : IsPattern matched)
    {guards : List Value} (hguards : Shape.matchGuard.Optional guards) {body : Value}
    (hbody : IsArmBody body) : Fine Arm.IsSource (readArm region matched (guards ++ [body])) := by
  refine (pattern_fine region hmatched).bind fun matched _ => ?_
  have hblock := armBody_fine region hbody
  obtain rfl | ⟨_, rfl, e, rfl, he⟩ := hguards
  · exact hblock.bind fun b hb => ⟨nofun, hb⟩
  · exact he.bind fun e he => hblock.bind fun b hb => ⟨fun _ h => some.inj h ▸ he, hb⟩

theorem mapM_arm_fine (h : ∀ v ∈ vs, Shape.arm.Describes v) :
    Fine (∀ a ∈ ·, a.IsSource) (vs.mapM (arm? region)) := by
  refine Fine.mapM fun v hv => ?_
  obtain ⟨a, rfl, ha⟩ := h v hv
  exact ha

variable {body : Build Block}

theorem readFn_fine (called : Token) {params results : List Value}
    (hparams : Shape.params.Optional params) (hresults : Shape.resultType.Optional results)
    (hbody : Fine Block.IsSource body) :
    Fine Stmt.IsSource (readFn region called (params ++ (results ++ [.block body]))) := by
  have hbuilt (ps : List Param) {result : Option Ty} (hresult : ∀ t ∈ result, t.Whole) :
      Fine Stmt.IsSource (finishFn region called ps result [.block body]) := by
    refine hbody.bind fun b hb => ?_
    split
    · exact nofun
    · exact fun p l => ⟨⟨trivial, hresult⟩, hb _ _⟩
  have hresult (ps : List Param) : Fine Stmt.IsSource (finishFn region called ps
      (resultOf (results ++ [.block body])).1 (resultOf (results ++ [.block body])).2) := by
    obtain rfl | ⟨_, rfl, t, rfl, ht⟩ := hresults
    · exact hbuilt ps nofun
    · exact hbuilt ps fun _ h => some.inj h ▸ ht
  obtain rfl | ⟨_, rfl, ps, rfl, hps⟩ := hparams
  · obtain rfl | ⟨_, rfl, t, rfl, ht⟩ := hresults <;> exact hresult []
  · cases ps with
    | ok ps => exact hresult ps
    | error p => exact hps

/-! ## Items -/

theorem readAttr_fine (called : Token) (h : Shape.args.Optional vs) :
    Fine Attr.IsSource (readAttr region called vs) := by
  refine (args_fine region h).bind fun es hes => ?_
  split
  · exact nofun
  · next harity => exact ⟨hes, fun hname => by simpa [show called.text = _ from hname] using harity⟩

theorem readYields_fine (form : ItemForm) (marker : Token) {t : Ty} (h : t.Whole) :
    Fine Ty.Whole (readYields form marker t) := by
  unfold readYields
  split
  · exact h
  · exact h
  · exact h
  · exact nofun
  · exact nofun

theorem itemTypeOf_fine {result : Option Ty} (h : ∀ t ∈ result, t.Whole) :
    Fine Ty.Whole (itemTypeOf region result) := by
  unfold itemTypeOf
  split
  · exact Ty.inferable_whole.unknown
  · next t =>
    have ht : t.Whole := h t rfl
    split
    · next element helement =>
      obtain ⟨u, hu, helement⟩ := exists_of_findSome?_eq_some helement
      have huwhole : u.Whole := by
        split at hu
        · exact ht.args hu
        · exact mem_singleton.1 hu ▸ ht
      exact huwhole.binding helement
    · exact fun h => by cases h

/-- A draft made of source, with a name and a yielded type where they are due. -/
structure Drafted (named typed : Bool) (d : Draft) : Prop where
  attrs : ∀ a ∈ d.attrs, a.IsSource
  params : ∀ p ∈ d.params, p.IsSource
  yielded : ∀ t ∈ d.yielded, t.Whole
  result : ∀ t ∈ d.result, t.Whole
  prelude : ∀ s ∈ d.prelude, s.IsSource
  name : named = true → d.name.isSome
  type : typed = true → d.yielded.isSome

def isYields : Value → Bool
  | .yields .. => true
  | _ => false

theorem add_token_fine {named typed : Bool} (h : Drafted named typed d)
    (t : Token) :
    Fine (Drafted (named || isToken .name (.token t)) (typed || isYields (.token t)))
      (d.add region (.token t)) := by
  have htype : (typed || isYields (.token t)) = true → d.yielded.isSome := by
    simpa [isYields] using h.type
  have hname : t.kind ≠ .name → (named || isToken .name (.token t)) = true → d.name.isSome := by
    intro hkind
    simpa [isToken, hkind] using h.name
  unfold Draft.add
  dsimp only
  split
  · next hk => exact { h with name := hname (by simp [hk]), type := htype }
  · next hk => exact { h with name := hname (by simp [hk]), type := htype }
  · next hk => exact { h with name := hname (by simp [hk]), type := htype }
  · exact { h with name := fun _ => rfl, type := htype }
  · next hk => exact { h with name := hname hk, type := htype }

theorem add_fine {named typed : Bool} (h : Drafted named typed d)
    {shape : Grammar.Shape} (hshape : shape.isHeader) (hv : shape.Describes v) :
    Fine (Drafted (named || v.isToken .name) (typed || v.isYields)) (d.add region v) := by
  cases shape <;> try cases hshape
  case token kind =>
    obtain ⟨t, rfl, -, -⟩ := hv
    exact add_token_fine region h t
  case yields =>
    obtain ⟨marker, t, rfl, ht⟩ := hv
    refine (readYields_fine d.form marker ht).bind fun u hu => ?_
    exact { h with
      yielded := fun _ hmem => some.inj hmem ▸ hu
      name := by simpa [isToken] using h.name
      type := fun _ => rfl }
  -- what is left is neither a name nor a type
  case keyword | generics =>
    obtain ⟨_, rfl⟩ := hv
    simp only [isToken, isYields, Bool.or_false]
    exact { h with }
  case attr =>
    obtain ⟨a, rfl, ha⟩ := hv
    simp only [isToken, isYields, Bool.or_false]
    exact ha.bind fun a ha =>
      { h with attrs := forall_mem_append.2 ⟨h.attrs, forall_mem_singleton.2 ha⟩ }
  case params =>
    obtain ⟨ps, rfl, hps⟩ := hv
    simp only [isToken, isYields, Bool.or_false]
    exact hps.bind fun ps hps => { h with params := hps }
  case resultType =>
    obtain ⟨t, rfl, ht⟩ := hv
    simp only [isToken, isYields, Bool.or_false]
    exact { h with result := fun _ hmem => some.inj hmem ▸ ht }

def IsHeader (v : Value) : Prop := ∃ shape : Grammar.Shape, shape.isHeader ∧ shape.Describes v

theorem addAll_fine (hvs : ∀ v ∈ vs, IsHeader v) {named typed : Bool}
    (h : Drafted named typed d) :
    Fine (Drafted (named || vs.any (isToken .name)) (typed || vs.any isYields))
      (vs.foldlM (Draft.add region) d) := by
  induction vs generalizing named typed d with
  | nil =>
    rw [any_nil, any_nil, Bool.or_false, Bool.or_false]
    exact h
  | cons v vs ih =>
    rw [forall_mem_cons] at hvs
    obtain ⟨⟨shape, hshape, hv⟩, hvs⟩ := hvs
    simp only [any_cons, ← Bool.or_assoc, foldlM_cons]
    exact (add_fine region h hshape hv).bind fun d hd => ih hvs hd

theorem header_fine (hvs : ∀ v ∈ vs, IsHeader v) :
    Fine (Drafted (vs.any (isToken .name)) (vs.any isYields))
      (vs.foldlM (Draft.add region) {}) := by
  have hempty : Drafted false false {} := by constructor <;> simp
  simpa using addAll_fine region hvs hempty

/-- A draft with a name and a body, and a type if its form asks for one, is an item. -/
theorem finish_fine (h : Drafted true typed d)
    (htyped : d.form = .block ∨ typed = true) {body : Block} (hbody : d.body = some body)
    (hsource : body.IsSource) : Fine Definition.IsSource (d.finish region) := by
  obtain ⟨called, hcalled⟩ := isSome_iff_exists.1 (h.name rfl)
  unfold Draft.finish
  rw [hcalled, hbody]
  dsimp only
  split
  · exact (itemTypeOf_fine _ h.result).bind fun t ht =>
      ⟨ht, h.params, h.attrs, h.prelude, hsource⟩
  · next hform =>
    obtain ⟨t, ht⟩ := isSome_iff_exists.1 (h.type (htyped.resolve_left hform))
    rw [ht]
    exact ⟨h.yielded t ht, h.params, h.attrs, h.prelude, hsource⟩

/-- The last part of an item gives it its body. -/
theorem readItem_fine_of (hvs : ∀ v ∈ vs, IsHeader v) (typed : Bool)
    (hlast : ∀ d, Drafted (vs.any (isToken .name)) (vs.any isYields) d →
      Fine (fun d => Drafted true typed d ∧ (d.form = .block ∨ typed = true) ∧
        ∃ b, d.body = some b ∧ b.IsSource) (d.add region v)) :
    Fine Definition.IsSource (readItem region (vs ++ [v])) := by
  simp only [readItem, foldlM_append, foldlM_cons, foldlM_nil, bind_pure]
  exact ((header_fine region hvs).bind hlast).bind fun d ⟨hd, htyped, b, hb, hsource⟩ =>
    finish_fine region hd htyped hb hsource

theorem readItem_fine (hvs : ∀ v ∈ vs, IsHeader v)
    (hname : vs.any (isToken .name) = true) (htype : vs.any isYields = true)
    (hbody : Fine Block.IsSource body) :
    Fine Definition.IsSource (readItem region (vs ++ [.block body])) := by
  refine readItem_fine_of region hvs true fun d hd => hbody.bind fun b hb => ?_
  rw [hname, htype] at hd
  exact ⟨{ hd with }, .inr rfl, b, rfl, hb⟩

theorem readGenItem_fine (hvs : ∀ v ∈ vs, IsHeader v)
    (hname : vs.any (isToken .name) = true) (hv : Shape.genBody.Describes v) :
    Fine Definition.IsSource (readItem region (vs ++ [v])) := by
  obtain ⟨prelude, attrs, isAsync, body, rfl, hprelude, hattrs, hbody⟩ := hv
  refine readItem_fine_of region hvs (vs.any isYields) fun d hd =>
    hprelude.bind fun prelude hprelude =>
    hattrs.bind fun attrs hattrs => hbody.bind fun b hb => ?_
  rw [hname] at hd
  have hall := forall_mem_append.2 ⟨hd.attrs, hattrs⟩
  exact ⟨{ hd with attrs := hall, prelude := hprelude }, .inl rfl, b, rfl, hb⟩

theorem describes_genBlock {slots : List Slot} (h : SlotsRead slots vs)
    (hbody : Fine Block.IsSource body) :
    Shape.genBlock.Describes (readGenBlock region (vs ++ [.block body])) := by
  unfold readGenBlock
  rw [getLast?_concat]
  refine ⟨_, _, _, rfl, Fine.mapM fun v hv => ?_, hbody⟩
  obtain ⟨hmem, hattr⟩ := mem_filter.1 hv
  cases v <;> cases hattr
  simp only [mem_append, mem_singleton, reduceCtorEq, or_false] at hmem
  exact h.picked _ hmem

theorem describes_genBody {us : List Value} (hus : ∀ u ∈ us, IsStmt u)
    (hv : Shape.genBlock.Describes v) :
    Shape.genBody.Describes (readGenBody region (us ++ [v])) := by
  obtain ⟨attrs, isAsync, body, rfl, hattrs, hbody⟩ := hv
  unfold readGenBody
  rw [getLast?_concat, dropLast_concat]
  have hstmts := readStmts_fine region hus (.inl rfl)
  rw [append_nil] at hstmts
  exact ⟨_, _, _, _, rfl, hstmts.map fun _ h => h.1, hattrs, hbody⟩

end Yielding.Value
