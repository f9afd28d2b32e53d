import Yielding.Grammar.Items
import Yielding.Proofs.Parsing.Reading

/-!
# Proofs/Parsing/Rules — the rules of items are sound

Each rule of items makes values of its category's shapes from parts of their categories' shapes
(`sound_itemRules`), so no phrase that the rules derive has parts that do not fit its rule.
-/

namespace Yielding.Grammar

open List Value

/-! ## Types -/

theorem sound_refType : Sound (scheme .type .refType
    [keep .amp, may (keep .lifetime), may (keep .kwMut), sub .type]) := by
  refine sound_scheme fun region vs h => ?_
  obtain ⟨us, _, rfl, -, t, rfl, ht⟩ := h.last rfl rfl rfl
  refine .of .type rfl ?_
  simp only [readType, getLast?_concat]
  exact ⟨_, rfl, Ty.whole_app ht (forall_mem_nil _)⟩

variable {slots : List Slot}

theorem sound_tupleType : Sound (scheme .type .tupleType slots) :=
  sound_scheme fun _ _ h => .of .type rfl ⟨_, rfl, Ty.inferable_whole.tuple _ (whole_types h)⟩

theorem sound_sliceType : Sound (scheme .type .sliceType [skip .lsqb, sub .type, skip .rsqb]) :=
  sound_scheme fun _ => .skip <| .type fun _ ht => .skip <| .nil <|
    .of .type rfl ⟨_, rfl, Ty.whole_app ht nofun⟩

theorem sound_assocType : Sound (scheme .typeArg .assocType [keep .name, skip .equal, sub .type]) :=
  sound_scheme fun _ => .keep fun _ _ _ => .skip <| .type fun _ ht => .nil <|
    .of .assoc rfl ⟨_, _, rfl, ht⟩

theorem sound_typeRules : Sound typeRules := by
  refine sound_flatten ?_
  simp only [forall_mem_cons]
  refine ⟨sound_refType, ?_, ?_, sound_tupleType, sound_tupleType, sound_sliceType, ?_, ?_, ?_, ?_,
    ?_, ?_, ?_, ?_, sound_assocType, ?_, ?_, ?_, ?_, ?_, ?_, ?_, ?_, forall_mem_nil _⟩
  any_goals exact .handsOn rfl
  · -- `()`
    exact sound_scheme fun _ _ _ => .of .type rfl ⟨_, rfl, Ty.inferable_whole.unit⟩
  · -- `impl A + B`
    exact sound_scheme fun _ _ h =>
      .of .type rfl ⟨_, rfl, Ty.whole_path (by decide) (whole_types h) nofun⟩
  · -- `_`
    exact sound_scheme fun _ _ _ => .of .type rfl ⟨_, rfl, Ty.inferable_whole.unknown⟩
  · -- a path
    exact sound_scheme fun _ => .keep fun t hk ht vs h =>
      .of .type rfl ⟨_, rfl, whole_typePath hk ht h⟩
  · -- `<A, B = C>`
    exact sound_scheme fun _ _ h => .of .typeArgs rfl ⟨_, _, rfl, whole_types h, whole_assocs h⟩

/-! ## Expressions -/

section Expressions

theorem sound_range {op : Terminal} :
    Sound (scheme .range .range [sub .disjunction, keep op, sub .disjunction]) :=
  sound_scheme fun _ => .expr ⟨rfl, rfl⟩ fun _ ha => .keep fun _ _ _ => .expr ⟨rfl, rfl⟩ fun _ hb =>
    .nil <| .of .expr rfl ⟨_, rfl, operands_fine ha hb fun _ _ => ⟨nofun, rfl, rfl⟩⟩

theorem sound_binary {c left right : Category} {op : Symbol} (kinds : List Terminal)
    (hkinds : ∀ k ∈ kinds, (binaryOp? k).isSome := by decide)
    (hop : op.isRow = false ∧ op.shapes = kinds.map .token := by exact ⟨rfl, rfl⟩)
    (hl : left.isRow = false ∧ left.shapes = [.expr] := by exact ⟨rfl, rfl⟩)
    (hr : right.isRow = false ∧ right.shapes = [.expr] := by exact ⟨rfl, rfl⟩)
    (hc : c.shapes.contains .expr = true := by rfl) :
    Sound (scheme c .binary [sub left, .need ⟨op, true⟩, sub right]) := by
  refine sound_scheme fun region => .expr hl fun a ha => .word kinds hop.1 hop.2 fun t ht _ =>
    .expr hr fun b hb => .nil <| .of .expr hc ⟨_, rfl, ?_⟩
  obtain ⟨o, ho⟩ := Option.isSome_iff_exists.1 (hkinds _ ht)
  simp only [readExpr, ho]
  exact operands_fine ha hb fun _ _ => ⟨nofun, rfl, rfl⟩

theorem sound_unary {op : Terminal} (hop : (unaryOp? op).isSome) :
    Sound (scheme .unary .unary [keep op, sub .unary]) := by
  refine sound_scheme fun region => .keep fun t ht _ => .expr ⟨rfl, rfl⟩ fun a ha => .nil <|
    .of .expr rfl ⟨_, rfl, ?_⟩
  obtain ⟨o, ho⟩ := Option.isSome_iff_exists.1 hop
  simp only [readExpr, ht, ho]
  exact operand_fine ha fun _ => ⟨nofun, rfl, rfl⟩

theorem sound_literal {kind : Terminal}
    (h : kind ∈ [.int, .float, .string, .char, .kwTrue, .kwFalse] := by decide) :
    Sound (scheme .primary .literal [keep kind]) :=
  sound_scheme fun region => .keep fun _ hk ht => .nil <| .of .expr rfl ⟨_, rfl,
    (literalOf_fine region ht (hk ▸ h)).bind fun _ hl => isSource_literal region hl⟩

theorem sound_tuple (h : ∀ s ∈ keptSymbols slots, s.shapes = [.expr] := by decide) :
    Sound (scheme .primary .tuple slots) := by
  refine sound_scheme fun region vs hvs => .of .expr rfl ⟨_, rfl, ?_⟩
  exact (mapM_expr_fine region (hvs.describes .expr h)).bind fun es hes =>
    isSource_of_operands nofun rfl hes

theorem sound_macroCall {opens closes : Terminal} : Sound (scheme .primary .macroCall
    [keep .name, skip .bang, skip opens, may (sub .callArgs), skip closes]) :=
  sound_scheme fun region => .keep fun called _ _ => .skip <| .skip <|
    .optionalLast .args ⟨rfl, rfl⟩ rfl fun _ h =>
      .of .expr rfl ⟨_, rfl, readMacro_fine region called.text h⟩

theorem sound_borrow : Sound (scheme .unary .borrow [keep .amp, may (keep .kwMut), sub .unary]) :=
  sound_scheme fun _ => .keep fun _ _ _ => .may
    (.expr ⟨rfl, rfl⟩ fun _ he => .nil <|
      .of .expr rfl ⟨_, rfl, operand_fine he fun _ => ⟨nofun, rfl, rfl⟩⟩)
    (.keep fun _ _ _ => .expr ⟨rfl, rfl⟩ fun _ he => .nil <|
      .of .expr rfl ⟨_, rfl, operand_fine he fun _ => ⟨nofun, rfl, rfl⟩⟩)

theorem sound_index :
    Sound (scheme .postfixed .index [sub .postfixed, skip .lsqb, sub .expr, skip .rsqb]) :=
  sound_scheme fun _ => .expr ⟨rfl, rfl⟩ fun _ ha => .skip <| .expr ⟨rfl, rfl⟩ fun _ hb => .skip <|
    .nil <| .of .expr rfl ⟨_, rfl, operands_fine ha hb fun _ _ => ⟨nofun, rfl, rfl⟩⟩

theorem sound_yieldExpr :
    Sound (scheme .yieldExpr .yieldExpr [skip .kwYield, may (sub .range)]) := by
  refine sound_scheme fun region => .skip <| .optionalLast .expr ⟨rfl, rfl⟩ rfl ?_
  rintro _ (rfl | ⟨_, rfl, e, rfl, he⟩)
  · exact .of .expr rfl ⟨_, rfl, isSource_of_operands nofun rfl nofun⟩
  · exact .of .expr rfl ⟨_, rfl, operand_fine he fun _ => ⟨nofun, rfl, rfl⟩⟩

end Expressions

theorem sound_exprRules : Sound exprRules := by
  refine sound_flatten ?_
  simp only [forall_mem_cons]
  refine ⟨?_, ?_, sound_yieldExpr, ?_, sound_range, sound_range, ?_, ?or, ?_, ?and, ?_, ?comparison,
    ?_, ?_, ?_, ?_, ?_, ?_, ?_, ?sum, ?_, ?_, ?_, ?product, ?_, ?_, ?_, ?_, sound_unary rfl,
    sound_unary rfl, sound_unary rfl, sound_borrow, ?_, ?call, ?field, ?tupleField, sound_index,
    ?tryExpr, ?awaitExpr, ?callArgs, ?name, ?selfName, ?path, sound_literal, sound_literal,
    sound_literal, sound_literal, sound_literal, sound_literal, ?unit, ?_, sound_tuple, sound_tuple,
    ?array, sound_macroCall, sound_macroCall, ?_, ?_, forall_mem_nil _⟩
  any_goals exact .handsOn rfl
  case or => exact sound_binary [.barBar]
  case and => exact sound_binary [.ampAmp]
  case comparison => exact sound_binary [.eqEq, .notEq, .lt, .ltEq, .gt, .gtEq]
  case sum => exact sound_binary [.plus, .minus]
  case product => exact sound_binary [.star, .slash, .percent]
  case call =>
    exact sound_scheme fun region => .expr ⟨rfl, rfl⟩ fun _ hfunc => .skip <|
      .optionalLast .args ⟨rfl, rfl⟩ rfl fun _ h =>
        .of .expr rfl ⟨_, rfl, readCall_fine region hfunc h⟩
  case field =>
    exact sound_scheme fun _ => .expr ⟨rfl, rfl⟩ fun _ he => .skip <| .keep fun _ _ _ => .nil <|
      .of .expr rfl ⟨_, rfl, operand_fine he fun _ => ⟨nofun, rfl, rfl⟩⟩
  case tupleField =>
    exact sound_scheme fun region => .expr ⟨rfl, rfl⟩ fun _ he =>
      .skip <| .keep fun t _ _ => .nil <|
      .of .expr rfl ⟨_, rfl, readTupleField_fine region he t⟩
  case tryExpr =>
    exact sound_scheme fun _ => .expr ⟨rfl, rfl⟩ fun _ he => .skip <| .nil <|
      .of .expr rfl ⟨_, rfl, operand_fine he fun _ => ⟨nofun, rfl, rfl⟩⟩
  case awaitExpr =>
    exact sound_scheme fun _ => .expr ⟨rfl, rfl⟩ fun _ he => .skip <| .keep fun _ _ _ => .nil <|
      .of .expr rfl ⟨_, rfl, operand_fine he fun _ => ⟨nofun, rfl, rfl⟩⟩
  case callArgs =>
    exact sound_scheme fun region _ h =>
      .of .args rfl ⟨_, rfl, mapM_expr_fine region (h.describes .expr (by decide))⟩
  case name =>
    exact sound_scheme fun region => .keep fun t _ _ => .nil <|
      .of .expr rfl ⟨_, rfl, isSource_of_operands nofun rfl nofun⟩
  case selfName | path | unit =>
    exact sound_scheme fun _ _ _ => .of .expr rfl ⟨_, rfl, isSource_of_operands nofun rfl nofun⟩
  case array =>
    refine sound_scheme fun region => .skip <| .optionalLast .args ⟨rfl, rfl⟩ rfl fun _ h => ?_
    exact .of .expr rfl ⟨_, rfl, (args_fine region h).bind fun es hes =>
      isSource_of_operands nofun rfl hes⟩

/-! ## Patterns -/

theorem sound_literalPattern {kind : Terminal}
    (h : kind ∈ [.int, .float, .string, .char, .kwTrue, .kwFalse] := by decide) :
    Sound (scheme .pattern .literalPattern [keep kind]) :=
  sound_scheme fun region => .keep fun _ hk ht => .nil <|
    .of .pattern rfl ⟨_, rfl, readLiteralPattern_fine region false ht (hk ▸ h)⟩

theorem sound_tuplePattern
    (h : ∀ s ∈ keptSymbols slots, s.shapes = Category.pattern.shapes := by decide) :
    Sound (scheme .pattern .tuplePattern slots) := by
  refine sound_scheme fun region vs hvs => .of .pattern rfl ⟨_, rfl, ?_⟩
  refine readTuplePattern_fine region fun v hv => isPattern_of_admits ?_
  obtain ⟨s, hs, hsv⟩ := hvs.admits v hv
  exact hsv.mono fun _ hshape => by rwa [h s hs] at hshape

theorem sound_patternRules : Sound patternRules := by
  refine sound_flatten ?_
  simp only [forall_mem_cons]
  refine ⟨?bind, ?wildcard, ?variant, ?unit, ?paren, sound_tuplePattern, sound_tuplePattern, ?rest,
    ?negative, sound_literalPattern, sound_literalPattern, sound_literalPattern,
    sound_literalPattern, ?_, ?_, forall_mem_nil _⟩
  any_goals exact .handsOn rfl
  case bind =>
    refine sound_scheme fun region => .may ?_ (.keep fun _ _ _ => ?_)
    · refine .keep fun t _ _ => .nil <| .of .pattern rfl ⟨_, rfl, ?_⟩
      show Pattern.IsProper (if t.text = "None" then _ else _)
      split <;> trivial
    · exact .keep fun t _ _ => .nil <| .of .pattern rfl ⟨_, rfl, trivial⟩
  case wildcard => exact sound_scheme fun _ _ _ => .of .pattern rfl ⟨_, rfl, trivial⟩
  case variant =>
    refine sound_scheme fun region => .keep fun t _ _ => .skip <| .need rfl fun v hv => ?_
    exact .skip <| .nil <|
      .of .pattern rfl ⟨_, rfl, readVariant_fine region t.text (isPattern_of_admits hv)⟩
  case unit => exact sound_scheme fun _ _ _ => .of .pattern rfl ⟨_, rfl, Nat.zero_le _, trivial⟩
  case paren =>
    refine sound_scheme fun region => .skip <| .need rfl fun v hv => .skip <| .nil ?_
    obtain ⟨p, rfl, hp⟩ | ⟨r, rfl⟩ := isPattern_of_admits hv
    · exact .of .pattern rfl ⟨_, rfl, hp⟩
    · exact .of .pattern rfl ⟨_, rfl, Nat.le_refl _, nofun, trivial⟩
  case rest => exact sound_scheme fun _ _ _ => .of .restPattern rfl ⟨_, rfl⟩
  case negative =>
    refine sound_scheme fun region => .may ?_ (.keep fun _ _ _ => ?_)
    · exact .keep fun t hk ht => .nil <|
        .of .pattern rfl ⟨_, rfl, readLiteralPattern_fine region false ht (by simp [hk])⟩
    · exact .keep fun t hk ht => .nil <|
        .of .pattern rfl ⟨_, rfl, readLiteralPattern_fine region true ht (by simp [hk])⟩

/-! ## Statements -/

theorem reads_stmt {c : Category} {s : Build Stmt} (hc : c.shapes.contains .oneStmt = true)
    (h : Fine Stmt.IsSource s) :
    (Symbol.category c).Reads [.stmt (some <$> s)] :=
  .of .oneStmt hc ⟨_, rfl, h.map fun s hs => ⟨s, rfl, hs⟩⟩

theorem sound_letStmt : Sound (scheme .letStmt .letStmt
    [skip .kwLet, sub .pattern, may (sub .ascription), skip .equal, sub .expr, may (sub .letElse),
     skip .semicolon]) :=
  sound_scheme fun region => .skip <| .need rfl fun _ hbound =>
    .optional .ascription ⟨rfl, rfl⟩ fun _ htypes => .skip <| .expr ⟨rfl, rfl⟩ fun _ hvalue =>
      .optionalLast .letElse ⟨rfl, rfl⟩ rfl fun _ hblocks =>
        reads_stmt rfl (readLet_fine region (isPattern_of_admits hbound) hvalue htypes hblocks)

theorem sound_assignStmt : Sound (scheme .assignStmt .assignStmt
    [sub .expr, sub .assignOp, sub .expr, skip .semicolon]) := by
  refine sound_scheme fun region => .expr ⟨rfl, rfl⟩ fun target htarget =>
    .word [.equal, .plusEq, .minusEq, .starEq, .slashEq, .percentEq] rfl rfl fun op hop _ =>
      .expr ⟨rfl, rfl⟩ fun value hvalue => .skip <| .nil <| .of .oneStmt rfl ⟨_, rfl, ?_⟩
  have hassigns : ∀ kind ∈ [Terminal.equal, .plusEq, .minusEq, .starEq, .slashEq, .percentEq],
      (assignOp? kind).isSome := by decide
  obtain ⟨o, ho⟩ := Option.isSome_iff_exists.1 (hassigns op.kind hop)
  refine htarget.bind fun target htarget => hvalue.bind fun value hvalue => ?_
  rw [ho]
  exact ⟨_, rfl, fun p l => ⟨⟨trivial, nofun⟩, htarget, hvalue⟩⟩

theorem sound_returnStmt : Sound (scheme .returnStmt .returnStmt
    [skip .kwReturn, may (sub .expr), skip .semicolon]) := by
  refine sound_scheme fun region => .skip <| .optionalLast .expr ⟨rfl, rfl⟩ rfl ?_
  rintro _ (rfl | ⟨_, rfl, e, rfl, he⟩)
  · exact .of .oneStmt rfl ⟨_, rfl, _, rfl, fun p l => ⟨⟨trivial, nofun⟩, nofun⟩⟩
  · refine .of .oneStmt rfl ⟨_, rfl, he.bind fun e he => ?_⟩
    refine ⟨_, rfl, fun p l => ⟨⟨trivial, nofun⟩, ?_⟩⟩
    exact fun _ h => Option.some.inj h ▸ he

theorem sound_ifStmt : Sound (scheme .ifStmt .ifStmt
    [skip .kwIf, sub .condition, sub .block, may (sub .elseClause)]) :=
  sound_scheme fun region => .skip <| .need rfl fun _ hhead => .block fun _ hthen =>
    .optionalLast .elseClause ⟨rfl, rfl⟩ rfl fun _ hvs =>
      reads_stmt rfl (readIf_fine region (isCondition_of_admits hhead) hthen hvs)

theorem sound_whileStmt :
    Sound (scheme .whileStmt .whileStmt [skip .kwWhile, sub .condition, sub .block]) :=
  sound_scheme fun region => .skip <| .need rfl fun _ hhead => .block fun _ hbody => .nil <|
    .of .oneStmt rfl ⟨_, rfl, (condition_fine region (isCondition_of_admits hhead)).bind
      fun _ hc => hbody.bind fun _ hb => ⟨_, rfl, fun _ _ => ⟨⟨trivial, nofun⟩, hc, hb _ _⟩⟩⟩

theorem sound_forStmt : Sound (scheme .forStmt .forStmt
    [skip .kwFor, sub .pattern, skip .kwIn, sub .expr, sub .block]) :=
  sound_scheme fun region => .skip <| .need rfl fun _ hbound => .skip <|
    .expr ⟨rfl, rfl⟩ fun _ hiterable => .block fun _ hbody => .nil <| .of .oneStmt rfl ⟨_, rfl,
      (pattern_fine region (isPattern_of_admits hbound)).bind fun _ _ => hiterable.bind fun _ he =>
        hbody.bind fun _ hb => ⟨_, rfl, fun _ _ => ⟨⟨trivial, nofun⟩, he, hb _ _⟩⟩⟩

theorem sound_matchStmt : Sound (scheme .matchStmt .matchStmt
    [skip .kwMatch, sub .expr, skip .lbrace, may (sub .arms), may (sub .lastArm),
     skip .rbrace]) := by
  refine sound_scheme fun region => .skip <| .expr ⟨rfl, rfl⟩ fun subject hsubject vs hvs => ?_
  have harms := mapM_arm_fine region (hvs.describes .arm (by decide))
  refine .of .oneStmt rfl ⟨_, rfl, hsubject.bind fun e he => harms.bind fun arms harms => ?_⟩
  exact ⟨_, rfl, fun p l => ⟨⟨trivial, nofun⟩, he, armsUnder_source harms⟩⟩

theorem sound_matchArm {c body : Category} (shape : Shape) (hshape : shape = .block ∨ shape = .expr)
    (hbody : body.isRow = false ∧ body.shapes = [shape] := by exact ⟨rfl, rfl⟩)
    (hc : c.shapes.contains .arm = true := by rfl) (hslots : keptSymbols slots = [] := by rfl) :
    Sound (scheme c .matchArm
      (sub .pattern :: may (sub .matchGuard) :: skip .fatArrow :: sub body :: slots)) := by
  refine sound_scheme fun region => .need rfl fun matched hmatched => ?_
  refine .optional .matchGuard ⟨rfl, rfl⟩ fun guards hguards => .skip <| .sub shape hbody ?_
  intro v hv vs hvs
  have hv : IsArmBody v := by
    rcases hshape with rfl | rfl
    · exact .inl hv
    · exact .inr hv
  rw [hvs.eq_nil hslots]
  exact .of .arm hc ⟨_, rfl, readArm_fine region (isPattern_of_admits hmatched) hguards hv⟩

theorem sound_fnItem : Sound (scheme .fnItem .fnItem
    [skip .kwFn, keep .name, skip .lpar, may (sub .params), skip .rpar, may (sub .resultType),
     sub .block]) :=
  sound_scheme fun region => .skip <| .keep fun called _ _ => .skip <|
    .optional .params ⟨rfl, rfl⟩ fun _ hparams => .skip <|
      .optional .resultType ⟨rfl, rfl⟩ fun _ hresults => .block fun _ hbody => .nil <|
        reads_stmt rfl (readFn_fine region called hparams hresults hbody)

theorem sound_block : Sound (scheme .block .block
    [skip .lbrace, may (sub .stmts), may (sub .expr), skip .rbrace]) :=
  sound_scheme fun region => .skip <| .mayRow fun _ hus => .optionalLast .expr ⟨rfl, rfl⟩ rfl
    fun _ hvs => .of .block rfl ⟨_, rfl, readBlock_fine region hus hvs⟩

theorem sound_letCondition : Sound (scheme .condition .letCondition
    [skip .kwLet, sub .pattern, skip .equal, sub .expr]) :=
  sound_scheme fun region => .skip <| .need rfl fun _ hbound => .skip <|
    .expr ⟨rfl, rfl⟩ fun _ hvalue => .nil <| .of .condition rfl ⟨_, rfl,
      (pattern_fine region (isPattern_of_admits hbound)).bind fun _ _ => hvalue.bind fun _ he => he⟩

theorem sound_stmtRules : Sound stmtRules := by
  refine sound_flatten ?_
  simp only [forall_mem_cons]
  refine ⟨sound_block, ?_, ?_, ?_, ?_, ?_, ?_, ?_, ?_, ?_, ?_, ?_, ?_, ?_, ?_, ?_, ?empty,
    sound_letStmt, ?ascription, ?letElse, sound_assignStmt, ?_, ?_, ?_, ?_, ?_, ?_, ?exprStmt,
    sound_returnStmt, ?breakStmt, ?continueStmt, sound_ifStmt, ?elseIf, ?elseBlock, ?_,
    sound_letCondition, sound_whileStmt, ?loopStmt, sound_forStmt, sound_matchStmt, sound_matchArm
    .block (.inl rfl), sound_matchArm .expr (.inr rfl), sound_matchArm .expr (.inr rfl), ?guard, ?_,
    ?_, sound_fnItem, ?result, forall_mem_nil _⟩
  any_goals exact .handsOn rfl
  case empty => exact sound_scheme fun _ _ _ => .of .noStmt rfl rfl
  case ascription =>
    exact sound_scheme fun _ => .skip <| .type fun _ ht => .nil <| .of .ascription rfl ⟨_, rfl, ht⟩
  case letElse =>
    exact sound_scheme fun _ => .skip <| .block fun _ hb => .nil <| .of .letElse rfl ⟨_, rfl, hb⟩
  case exprStmt =>
    exact sound_scheme fun _ => .expr ⟨rfl, rfl⟩ fun _ he => .skip <| .nil <| .of .oneStmt rfl
      ⟨_, rfl, he.bind fun _ he => ⟨_, rfl, fun _ _ => ⟨⟨trivial, nofun⟩, he⟩⟩⟩
  case breakStmt | continueStmt =>
    exact sound_scheme fun _ _ _ => .of .oneStmt rfl ⟨_, rfl, _, rfl, fun _ _ => ⟨trivial, nofun⟩⟩
  case elseIf =>
    refine sound_scheme fun region => .skip <| .sub .oneStmt ⟨rfl, rfl⟩ ?_
    rintro _ ⟨s, rfl, hs⟩
    exact .nil <| .of .elseClause rfl ⟨_, rfl, readElseIf_fine region hs⟩
  case elseBlock =>
    exact sound_scheme fun _ => .skip <| .block fun _ hb => .nil <|
      .of .elseClause rfl ⟨_, rfl, hb⟩
  case loopStmt =>
    exact sound_scheme fun _ => .skip <| .block fun _ hb => .nil <| .of .oneStmt rfl
      ⟨_, rfl, hb.bind fun _ hb => ⟨_, rfl, fun _ _ => ⟨⟨trivial, nofun⟩, hb _ _⟩⟩⟩
  case guard =>
    exact sound_scheme fun _ => .skip <| .expr ⟨rfl, rfl⟩ fun _ he => .nil <|
      .of .matchGuard rfl ⟨_, rfl, he⟩
  case result =>
    exact sound_scheme fun _ => .skip <| .type fun _ ht => .nil <| .of .resultType rfl ⟨_, rfl, ht⟩

/-! ## Items -/

theorem isHeader_of_slotsRead {vs : List Value} (h : SlotsRead slots vs)
    (hslots : ∀ s ∈ keptSymbols slots, ∀ shape ∈ s.shapes, shape.isHeader) :
    ∀ v ∈ vs, IsHeader v := by
  intro v hv
  obtain ⟨s, hs, shape, hshape, hv⟩ := h.admits v hv
  exact ⟨shape, hslots s hs shape hshape, hv⟩

theorem any_isToken_name {vs : List Value} (h : SlotsRead slots vs) (hslots : keep .name ∈ slots) :
    vs.any (isToken .name) = true := by
  obtain ⟨_, hmem, t, rfl, hkind, -⟩ := h.exists_mem hslots rfl rfl
  exact any_eq_true.2 ⟨_, hmem, by simp [isToken, hkind]⟩

theorem any_isYields {vs : List Value} (h : SlotsRead slots vs) (hslots : sub .yieldsClause ∈ slots)
    : vs.any isYields = true := by
  obtain ⟨_, hmem, marker, t, rfl, -⟩ := h.exists_mem hslots rfl rfl
  exact any_eq_true.2 ⟨_, hmem, rfl⟩

theorem sound_item (hlast : slots.getLast? = some (sub .block))
    (hheader : ∀ s ∈ keptSymbols slots.dropLast, ∀ shape ∈ s.shapes, shape.isHeader)
    (hname : keep .name ∈ slots.dropLast) (htype : sub .yieldsClause ∈ slots.dropLast) :
    Sound (scheme .item .item slots) := by
  refine sound_scheme fun region vs h => ?_
  obtain ⟨us, _, rfl, hus, body, rfl, hbody⟩ := h.last hlast rfl rfl
  exact .of .item rfl ⟨_, rfl, readItem_fine region (isHeader_of_slotsRead hus hheader)
    (any_isToken_name hus hname) (any_isYields hus htype) hbody⟩

theorem sound_genItem (hlast : slots.getLast? = some (sub .genBody))
    (hheader : ∀ s ∈ keptSymbols slots.dropLast, ∀ shape ∈ s.shapes, shape.isHeader)
    (hname : keep .name ∈ slots.dropLast) :
    Sound (scheme .item .genItem slots) := by
  refine sound_scheme fun region vs h => ?_
  obtain ⟨us, v, rfl, hus, hv⟩ := h.last hlast rfl rfl
  exact .of .item rfl ⟨_, rfl, readGenItem_fine region (isHeader_of_slotsRead hus hheader)
    (any_isToken_name hus hname) hv⟩

theorem sound_yieldsClause {marker : Terminal} :
    Sound (scheme .yieldsClause .yieldsClause [keep marker, sub .type]) :=
  sound_scheme fun _ => .keep fun _ _ _ => .type fun _ ht => .nil <|
    .of .yields rfl ⟨_, _, rfl, ht⟩

theorem sound_genBody : Sound (scheme .genBody .genBody
    [skip .lbrace, may (sub .stmts), sub .genBlock, skip .rbrace]) :=
  sound_scheme fun region => .skip <| .mayRow fun _ hus => .sub .genBlock ⟨rfl, rfl⟩ fun _ hv =>
    .skip <| .nil <| .of .genBody rfl (describes_genBody region hus hv)

theorem sound_genBlock (hlast : slots.getLast? = some (sub .block)) :
    Sound (scheme .genBlock .genBlock slots) := by
  refine sound_scheme fun region vs h => ?_
  obtain ⟨us, _, rfl, hus, body, rfl, hbody⟩ := h.last hlast rfl rfl
  exact .of .genBlock rfl (describes_genBlock region hus hbody)

theorem sound_genericParam : Sound (scheme .genericParam .genericParam (keep .name :: slots)) :=
  sound_scheme fun _ => .keep fun _ _ _ _ _ => .of .genericParam rfl ⟨_, rfl⟩

theorem isSource_typed {t : Ty} (h : t.Whole) (name : String) (region : Region) (isMut : Bool) :
    Param.IsSource ⟨name, .typed t, region, isMut⟩ := by
  rintro _ ⟨⟩
  exact h

theorem isSource_receiver (name : String) (kind : Receiver) (region : Region) (isMut : Bool) :
    Param.IsSource ⟨name, .receiver kind, region, isMut⟩ := nofun

theorem sound_typedParam : Sound (scheme .param .typedParam
    [may (keep .kwMut), keep .name, skip .colon, sub .type]) :=
  sound_scheme fun _ => .may
    (.keep fun _ _ _ => .skip <| .type fun _ ht => .nil <|
      .of .param rfl ⟨_, rfl, isSource_typed ht _ _ _⟩)
    (.keep fun _ _ _ => .keep fun _ _ _ => .skip <| .type fun _ ht => .nil <|
      .of .param rfl ⟨_, rfl, isSource_typed ht _ _ _⟩)

theorem sound_headerRules : Sound headerRules := by
  refine sound_flatten ?_
  simp only [forall_mem_cons]
  refine ⟨?_, sound_item rfl (by decide) (by decide) (by decide), sound_genItem rfl (by decide) (by
    decide), ?star, ?gen, sound_yieldsClause, sound_yieldsClause, sound_genBody, sound_genBlock rfl,
    ?attr, ?attrArgs, ?generics, sound_genericParam, sound_genericParam, ?lifetime, ?params, ?self,
    sound_typedParam, ?_, ?_, ?_, ?_, ?_, ?_, ?_, ?_, ?_, ?_, forall_mem_nil _⟩
  any_goals exact .handsOn rfl
  case star | gen => exact sound_scheme fun _ _ _ => .of .keyword rfl ⟨_, rfl⟩
  case attr =>
    exact sound_scheme fun region => .keep fun _ _ _ => .skip <| .keep fun called _ _ =>
      .optionalLast .args ⟨rfl, rfl⟩ rfl fun _ h =>
        .of .attr rfl ⟨_, rfl, readAttr_fine region called h⟩
  case attrArgs =>
    exact sound_scheme fun region => .skip <| .optionalLast .args ⟨rfl, rfl⟩ rfl fun _ h =>
      .of .args rfl ⟨_, rfl, args_fine region h⟩
  case generics => exact sound_scheme fun _ _ _ => .of .generics rfl ⟨_, rfl⟩
  case lifetime => exact sound_scheme fun _ _ _ => .of .lifetimeParam rfl rfl
  case params =>
    exact sound_scheme fun _ _ h =>
      .of .params rfl ⟨_, rfl, checkParams_fine (isSource_params h) true []⟩
  case self =>
    refine sound_scheme fun region vs h => .of .param rfl ?_
    obtain ⟨us, _, rfl, -, t, rfl, -, -⟩ := h.last rfl rfl rfl
    simp only [readSelfParam, getLast?_concat]
    exact ⟨_, rfl, isSource_receiver _ _ _ _⟩

theorem sound_itemRules : Sound itemRules :=
  sound_append (sound_append (sound_append (sound_append sound_headerRules sound_typeRules)
    sound_stmtRules) sound_patternRules) sound_exprRules

end Yielding.Grammar
