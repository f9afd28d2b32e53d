import Yielding.Proofs.Lexing.Words
import Yielding.Proofs.Parsing.Sources

/-!
# Proofs/Parsing/Phrases — what the phrases of a category are read as

A phrase is read as values whose **shapes** only depend on its category.  A rule is **sound** when
it keeps to that: from parts with the shapes of their categories it makes values with the shapes of
its result.  For the rules of a scheme that is one statement about all choices of its optional
parts.
-/

namespace Yielding.Grammar

open List

variable {vs : List Value} {s : Symbol} {shape : Shape}

/-! ## Shapes -/

/-- What a value is, without what it holds. -/
inductive Shape
  | token (kind : Terminal)
  | keyword | yields | genBlock | genBody | attr | args | generics | genericParam | lifetimeParam
  | params | param | type | typeArgs | assoc | ascription | resultType | block
  /-- The statement `;`. -/
  | noStmt
  | oneStmt
  | letElse | elseClause | condition | arm | matchGuard | pattern | restPattern | expr | item
deriving DecidableEq, Repr

/-- The value has the shape, and what it holds is source, unless a problem stands in for it. -/
def Shape.Describes : Shape → Value → Prop
  | token kind, v => ∃ t, v = .token t ∧ t.kind = kind ∧ t.Formed
  | keyword, v => ∃ form, v = .keyword form
  | yields, v => ∃ marker t, v = .yields marker t ∧ t.Whole
  | genBlock, v => ∃ attrs isAsync body, v = .genBlock attrs isAsync body ∧
      Fine (∀ a ∈ ·, a.IsSource) attrs ∧ Fine Block.IsSource body
  | genBody, v => ∃ prelude attrs isAsync body, v = .genBody prelude attrs isAsync body ∧
      Fine (∀ s ∈ ·, s.IsSource) prelude ∧ Fine (∀ a ∈ ·, a.IsSource) attrs ∧
      Fine Block.IsSource body
  | attr, v => ∃ a, v = .attr a ∧ Fine Attr.IsSource a
  | args, v => ∃ es, v = .args es ∧ Fine (∀ e ∈ ·, e.IsSource) es
  | generics, v => ∃ ps, v = .generics ps
  | genericParam, v => ∃ p, v = .genericParam p
  | lifetimeParam, v => v = .lifetimeParam
  | params, v => ∃ ps, v = .params ps ∧ Fine (∀ p ∈ ·, p.IsSource) ps
  | param, v => ∃ p, v = .param p ∧ p.IsSource
  | type, v => ∃ t, v = .type t ∧ t.Whole
  | typeArgs, v => ∃ ts bs, v = .typeArgs ts bs ∧ (∀ t ∈ ts, t.Whole) ∧ ∀ b ∈ bs, b.2.Whole
  | assoc, v => ∃ name t, v = .assoc name t ∧ t.Whole
  | ascription, v => ∃ t, v = .ascription t ∧ t.Whole
  | resultType, v => ∃ t, v = .resultType t ∧ t.Whole
  | block, v => ∃ b, v = .block b ∧ Fine Block.IsSource b
  | noStmt, v => v = .stmt (.ok none)
  | oneStmt, v => ∃ s, v = .stmt s ∧ Fine (fun s => ∃ x, s = some x ∧ x.IsSource) s
  | letElse, v => ∃ b, v = .letElse b ∧ Fine Block.IsSource b
  | elseClause, v => ∃ b, v = .elseClause b ∧ Fine Block.IsSource b
  | condition, v => ∃ c, v = .condition c ∧ Fine (fun c => c.value.IsSource) c
  | arm, v => ∃ a, v = .arm a ∧ Fine Arm.IsSource a
  | matchGuard, v => ∃ e, v = .matchGuard e ∧ Fine Expr.IsSource e
  | pattern, v => ∃ p, v = .pattern p ∧ Fine Pattern.IsProper p
  | restPattern, v => ∃ r, v = .restPattern r
  | expr, v => ∃ e, v = .expr e ∧ Fine Expr.IsSource e
  | item, v => ∃ d, v = .item d ∧ Fine Definition.IsSource d

/-- The shapes of the parts of an item that stand before its body. -/
def Shape.isHeader : Shape → Bool
  | token _ | attr | keyword | generics | params | yields | resultType => true
  | _ => false

/-- The values are one of the shape, or none. -/
def Shape.Optional (shape : Shape) (vs : List Value) : Prop :=
  vs = [] ∨ ∃ v, vs = [v] ∧ shape.Describes v

/-- What values that are picked from a row hold is source. -/
def Picked : Value → Prop
  | .attr a => Fine Attr.IsSource a
  | .param p => p.IsSource
  | .type t | .assoc _ t => t.Whole
  | .typeArgs ts bs => (∀ t ∈ ts, t.Whole) ∧ ∀ b ∈ bs, b.2.Whole
  | _ => True

theorem Shape.Describes.picked {v : Value} (h : shape.Describes v) : Picked v := by
  cases shape <;> grind [Describes, Picked]

/-- The shapes of the values that phrases of a category are read as. -/
def Category.shapes : Category → List Shape
  | root | item => [.item]
  | itemKeyword => [.keyword]
  | yieldsClause => [.yields]
  | genBody => [.genBody]
  | genBlock => [.genBlock]
  | attr | attrs => [.attr]
  | attrArgs | callArgs => [.args]
  | generics => [.generics]
  | genericParam | moreGenericParams => [.genericParam, .lifetimeParam]
  | params => [.params]
  | param | moreParams => [.param]
  | type | typePath | moreTypes | moreTypePaths => [.type]
  | bound | moreBounds => [.type, .token .lifetime]
  | typeArgs => [.typeArgs]
  | typeArg | moreTypeArgs => [.type, .assoc]
  | moreSegments => [.token .name]
  | docLines => [.token .docComment]
  | block => [.block]
  | stmt | stmts => [.noStmt, .oneStmt, .block]
  | letStmt | assignStmt | exprStmt | returnStmt | breakStmt | continueStmt | ifStmt | whileStmt
  | loopStmt | forStmt | matchStmt | fnItem => [.oneStmt]
  | ascription => [.ascription]
  | letElse => [.letElse]
  | assignOp =>
    [.token .equal, .token .plusEq, .token .minusEq, .token .starEq, .token .slashEq,
     .token .percentEq]
  | elseClause => [.elseClause]
  | condition => [.condition, .expr]
  | matchArm | lastArm | arms => [.arm]
  | matchGuard => [.matchGuard]
  | resultType => [.resultType]
  | pattern | morePatterns => [.pattern, .restPattern]
  | compareOp =>
    [.token .eqEq, .token .notEq, .token .lt, .token .ltEq, .token .gt, .token .gtEq]
  | sumOp => [.token .plus, .token .minus]
  | productOp => [.token .star, .token .slash, .token .percent]
  | expr | yieldExpr | range | disjunction | conjunction | comparison | sum | product | unary
  | postfixed | primary | moreExprs => [.expr]

/-- The categories whose phrases are read as any number of values; those of all others are read as
one. -/
def Category.isRow : Category → Bool
  | docLines | attrs | stmts | moreGenericParams | moreTypePaths | moreParams | moreTypes
  | moreBounds | moreSegments | moreTypeArgs | arms | morePatterns | moreExprs => true
  | _ => false

namespace Symbol

def shapes : Symbol → List Shape
  | terminal t => [.token t]
  | category c => c.shapes

def isRow : Symbol → Bool
  | terminal _ => false
  | category c => c.isRow

/-- The value has one of the shapes of the symbol. -/
def Admits (s : Symbol) (v : Value) : Prop := ∃ shape ∈ s.shapes, shape.Describes v

/-- The values are what a phrase of the symbol can be read as. -/
structure Reads (s : Symbol) (vs : List Value) : Prop where
  admits : ∀ v ∈ vs, s.Admits v
  one : s.isRow = false → ∃ v, vs = [v]

theorem Reads.of {s : Symbol} {v : Value} (shape : Shape) (hs : s.shapes.contains shape = true)
    (h : shape.Describes v) : s.Reads [v] where
  admits := forall_mem_singleton.2 ⟨shape, contains_iff_mem.1 hs, h⟩
  one _ := ⟨v, rfl⟩

theorem reads_iff_of_one {s : Symbol} {vs : List Value} (h : s.isRow = false) :
    s.Reads vs ↔ ∃ v, vs = [v] ∧ s.Admits v := by
  constructor
  · intro hvs
    obtain ⟨v, rfl⟩ := hvs.one h
    exact ⟨v, rfl, hvs.admits v mem_cons_self⟩
  · rintro ⟨v, rfl, hv⟩
    exact ⟨forall_mem_singleton.2 hv, fun _ => ⟨v, rfl⟩⟩

theorem Admits.mono {s s' : Symbol} {v : Value} (h : s.Admits v) (hs : s.shapes ⊆ s'.shapes) :
    s'.Admits v := by
  obtain ⟨shape, hshape, hv⟩ := h
  exact ⟨shape, hs hshape, hv⟩

end Symbol

/-! ## Parts -/

def Part.Reads (p : Part) (vs : List Value) : Prop := if p.kept then p.symbol.Reads vs else vs = []

def PartsRead : List Part → List Value → Prop
  | [], vs => vs = []
  | p :: ps, vs => ∃ us ws, vs = us ++ ws ∧ p.Reads us ∧ PartsRead ps ws

/-- The rules keep to the shapes of their categories. -/
def Sound (rules : List Rule) : Prop :=
  ∀ r ∈ rules, ∀ region vs, PartsRead r.parts vs →
    (Symbol.category r.result).Reads (Value.read r.form region vs)

theorem sound_append {rules rules' : List Rule} (h : Sound rules) (h' : Sound rules') :
    Sound (rules ++ rules') := by
  intro r hr
  rcases mem_append.1 hr with hr | hr
  · exact h r hr
  · exact h' r hr

theorem sound_flatten {lists : List (List Rule)} (h : ∀ rules ∈ lists, Sound rules) :
    Sound lists.flatten := by
  intro r hr
  obtain ⟨rules, hrules, hr⟩ := mem_flatten.1 hr
  exact h rules hrules r hr

/-! ## Rules that hand their parts on -/

def Rule.keptSymbols (r : Rule) : List Symbol := (r.parts.filter Part.kept).map Part.symbol

/-- The rule hands on what its parts are read as: all of it to a row, or that of the one part that
is kept. -/
def Rule.IsTransparent (r : Rule) : Prop :=
  (r.form = .row ∧ r.result.isRow = true ∨
    r.form = .same ∧ r.keptSymbols.length = 1 ∧ ∀ s ∈ r.keptSymbols, s.isRow = false) ∧
  ∀ s ∈ r.keptSymbols, s.shapes ⊆ r.result.shapes

instance (r : Rule) : Decidable r.IsTransparent := by
  unfold Rule.IsTransparent
  infer_instance

theorem PartsRead.admits {parts : List Part} (h : PartsRead parts vs) :
    ∀ v ∈ vs, ∃ s ∈ (parts.filter Part.kept).map Part.symbol, s.Admits v := by
  induction parts generalizing vs with
  | nil =>
    rw [PartsRead] at h
    simp [h]
  | cons p parts ih =>
    rw [PartsRead] at h
    obtain ⟨us, ws, rfl, hus, hws⟩ := h
    intro v hv
    rw [Part.Reads] at hus
    rcases mem_append.1 hv with hv | hv
    · split at hus
      · next hp => exact ⟨p.symbol, by simp [hp], hus.admits v hv⟩
      · simp [hus] at hv
    · obtain ⟨s, hs, hsv⟩ := ih hws v hv
      have hsub : parts.filter Part.kept ⊆ (p :: parts).filter Part.kept :=
        ((sublist_cons_self p parts).filter _).subset
      exact ⟨s, map_subset _ hsub hs, hsv⟩

theorem PartsRead.one {parts : List Part} (h : PartsRead parts vs)
    (hlength : ((parts.filter Part.kept).map Part.symbol).length = 1)
    (hone : ∀ s ∈ (parts.filter Part.kept).map Part.symbol, s.isRow = false) : ∃ v, vs = [v] := by
  induction parts generalizing vs with
  | nil => simp at hlength
  | cons p parts ih =>
    rw [PartsRead] at h
    obtain ⟨us, ws, rfl, hus, hws⟩ := h
    rw [Part.Reads] at hus
    by_cases hp : p.kept
    · -- the other parts are not kept
      simp only [filter_cons, hp, if_true, map_cons, length_cons, Nat.add_eq_right,
        length_map, length_eq_zero_iff, forall_mem_cons] at hlength hone hus
      have hnil : ws = [] := by
        refine eq_nil_iff_forall_not_mem.2 fun v hv => ?_
        obtain ⟨s, hs, -⟩ := hws.admits v hv
        simp [hlength] at hs
      obtain ⟨v, rfl⟩ := hus.one hone.1
      exact ⟨v, by rw [hnil, append_nil]⟩
    · simp only [filter_cons, hp, if_false, Bool.false_eq_true] at hlength hone hus
      rw [hus, nil_append]
      exact ih hws hlength hone

theorem Sound.handsOn {rules : List Rule} (h : decide (∀ r ∈ rules, r.IsTransparent) = true) :
    Sound rules := by
  intro r hr region vs hvs
  obtain ⟨hform, hshapes⟩ := of_decide_eq_true h r hr
  have hadmits : ∀ v ∈ vs, (Symbol.category r.result).Admits v := by
    intro v hv
    obtain ⟨s, hs, hsv⟩ := hvs.admits v hv
    exact hsv.mono (hshapes s hs)
  rcases hform with ⟨hform, hrow⟩ | ⟨hform, hlength, hone⟩
  · rw [hform]
    exact ⟨hadmits, fun hone => absurd (hrow.symm.trans hone) (by decide)⟩
  · rw [hform]
    exact ⟨hadmits, fun _ => hvs.one hlength hone⟩

/-! ## Schemes -/

/-- The values are what a scheme with some of its optional parts may be read as. -/
def SlotsRead (slots : List Slot) (vs : List Value) : Prop :=
  ∃ parts ∈ Slot.choices slots, PartsRead parts vs

/-- Whatever the slots are read as has the property. -/
def Always (slots : List Slot) (Q : List Value → Prop) : Prop := ∀ vs, SlotsRead slots vs → Q vs

theorem sound_scheme {c : Category} {form : Form} {slots : List Slot}
    (h : ∀ region, Always slots fun vs => (Symbol.category c).Reads (Value.read form region vs)) :
    Sound (scheme c form slots) := by
  intro r hr region vs hvs
  obtain ⟨parts, hparts, rfl⟩ := mem_map.1 hr
  exact h region vs ⟨parts, hparts, hvs⟩

theorem slotsRead_nil : SlotsRead [] vs ↔ vs = [] := by
  simp [SlotsRead, Slot.choices, PartsRead]

theorem slotsRead_need {p : Part} {slots : List Slot} :
    SlotsRead (.need p :: slots) vs ↔
      ∃ us ws, vs = us ++ ws ∧ p.Reads us ∧ SlotsRead slots ws := by
  simp only [SlotsRead, Slot.choices, mem_map, exists_exists_and_eq_and, PartsRead]
  grind

theorem slotsRead_may {p : Part} {slots : List Slot} :
    SlotsRead (.may p :: slots) vs ↔ SlotsRead slots vs ∨ SlotsRead (.need p :: slots) vs := by
  simp only [SlotsRead, Slot.choices, mem_append, or_and_right, exists_or]
  exact or_comm

theorem slotsRead_append {slots slots' : List Slot} :
    SlotsRead (slots ++ slots') vs ↔
      ∃ us ws, vs = us ++ ws ∧ SlotsRead slots us ∧ SlotsRead slots' ws := by
  induction slots generalizing vs with
  | nil => simp [slotsRead_nil]
  | cons slot slots ih =>
    have hneed (p : Part) : SlotsRead (.need p :: (slots ++ slots')) vs ↔
        ∃ us ws, vs = us ++ ws ∧ SlotsRead (.need p :: slots) us ∧ SlotsRead slots' ws := by
      simp only [slotsRead_need, ih]
      constructor
      · rintro ⟨us, _, rfl, hus, ws, xs, rfl, hws, hxs⟩
        exact ⟨us ++ ws, xs, by simp, ⟨us, ws, rfl, hus, hws⟩, hxs⟩
      · rintro ⟨_, xs, rfl, ⟨us, ws, rfl, hus, hws⟩, hxs⟩
        exact ⟨us, ws ++ xs, by simp, hus, ws, xs, rfl, hws, hxs⟩
    cases slot with
    | need p => exact hneed p
    | may p =>
      rw [cons_append, slotsRead_may, ih, hneed]
      simp only [slotsRead_may, and_or_left, or_and_right, exists_or]

def keptSymbols (slots : List Slot) : List Symbol :=
  slots.filterMap fun
    | .need p | .may p => if p.kept then some p.symbol else none

theorem mem_keptSymbols {slots : List Slot} {parts : List Part} (h : parts ∈ Slot.choices slots)
    (hs : s ∈ (parts.filter Part.kept).map Part.symbol) : s ∈ keptSymbols slots := by
  induction slots generalizing parts with
  | nil =>
    rw [mem_singleton.1 h] at hs
    cases hs
  | cons slot slots ih =>
    cases slot <;> simp only [Slot.choices, mem_append, mem_map] at h <;>
      grind [keptSymbols]

theorem SlotsRead.admits {slots : List Slot} (h : SlotsRead slots vs) :
    ∀ v ∈ vs, ∃ s ∈ keptSymbols slots, s.Admits v := by
  intro v hv
  obtain ⟨parts, hparts, h⟩ := h
  obtain ⟨s, hs, hsv⟩ := h.admits v hv
  exact ⟨s, mem_keptSymbols hparts hs, hsv⟩

theorem SlotsRead.eq_nil {slots : List Slot} (h : SlotsRead slots vs)
    (hslots : keptSymbols slots = []) : vs = [] := by
  refine eq_nil_iff_forall_not_mem.2 fun v hv => ?_
  obtain ⟨s, hmem, -⟩ := h.admits v hv
  rw [hslots] at hmem
  cases hmem

theorem SlotsRead.picked {slots : List Slot} (h : SlotsRead slots vs) : ∀ v ∈ vs, Picked v := by
  intro v hv
  obtain ⟨_, _, _, _, hshape⟩ := h.admits v hv
  exact hshape.picked

theorem slotsRead_one (hone : s.isRow = false) {slots : List Slot} :
    SlotsRead (.need ⟨s, true⟩ :: slots) vs ↔
      ∃ v ws, vs = v :: ws ∧ s.Admits v ∧ SlotsRead slots ws := by
  simp only [slotsRead_need, Part.Reads, if_true, Symbol.reads_iff_of_one hone]
  constructor
  · rintro ⟨_, ws, rfl, ⟨v, rfl, hv⟩, hws⟩
    exact ⟨v, ws, rfl, hv, hws⟩
  · rintro ⟨v, ws, rfl, hv, hws⟩
    exact ⟨[v], ws, rfl, ⟨v, rfl, hv⟩, hws⟩

theorem Symbol.Admits.describes {v : Value} (h : s.Admits v)
    (hs : s.shapes = [shape]) : shape.Describes v := by
  obtain ⟨_, hmem, hv⟩ := h
  rw [hs, mem_singleton] at hmem
  exact hmem ▸ hv

theorem SlotsRead.exists_mem {slots : List Slot} (h : SlotsRead slots vs)
    (hs : .need ⟨s, true⟩ ∈ slots) (hone : s.isRow = false) (hshape : s.shapes = [shape]) :
    ∃ v ∈ vs, shape.Describes v := by
  obtain ⟨before, after, rfl⟩ := append_of_mem hs
  obtain ⟨us, ws, rfl, -, hws⟩ := slotsRead_append.1 h
  obtain ⟨v, ys, rfl, hv, -⟩ := (slotsRead_one hone).1 hws
  exact ⟨v, by simp, hv.describes hshape⟩

theorem SlotsRead.last {slots : List Slot} (h : SlotsRead slots vs)
    (hs : slots.getLast? = some (.need ⟨s, true⟩)) (hone : s.isRow = false)
    (hshape : s.shapes = [shape]) :
    ∃ us v, vs = us ++ [v] ∧ SlotsRead slots.dropLast us ∧ shape.Describes v := by
  rw [← dropLast_append_getLast? _ hs] at h
  obtain ⟨us, ws, rfl, hus, hws⟩ := slotsRead_append.1 h
  obtain ⟨v, xs, rfl, hv, hxs⟩ := (slotsRead_one hone).1 hws
  exact ⟨us, v, by rw [slotsRead_nil.1 hxs], hus, hv.describes hshape⟩

theorem SlotsRead.describes {slots : List Slot} (h : SlotsRead slots vs)
    (shape : Shape) (hs : ∀ s ∈ keptSymbols slots, s.shapes = [shape]) :
    ∀ v ∈ vs, shape.Describes v := by
  intro v hv
  obtain ⟨s, hmem, hv⟩ := h.admits v hv
  exact hv.describes (hs s hmem)

/-! ## All that a scheme is read as -/

namespace Always

variable {slots : List Slot} {Q : List Value → Prop} {t : Terminal} {c : Category}

theorem nil (h : Q []) : Always [] Q := by
  intro vs hvs
  rwa [slotsRead_nil.1 hvs]

theorem skip (h : Always slots Q) : Always (skip t :: slots) Q := by
  intro vs hvs
  obtain ⟨us, ws, rfl, hus, hws⟩ := slotsRead_need.1 hvs
  rw [Part.Reads, if_neg Bool.false_ne_true] at hus
  rw [hus]
  exact h ws hws

theorem may {p : Part} (h : Always slots Q) (h' : Always (.need p :: slots) Q) :
    Always (.may p :: slots) Q := by
  intro vs hvs
  exact (slotsRead_may.1 hvs).elim (h vs) (h' vs)

theorem need {s : Symbol} (hs : s.isRow = false)
    (h : ∀ v, s.Admits v → Always slots fun vs => Q (v :: vs)) :
    Always (.need ⟨s, true⟩ :: slots) Q := by
  intro vs hvs
  obtain ⟨v, ws, rfl, hv, hws⟩ := (slotsRead_one hs).1 hvs
  exact h v hv ws hws

theorem word {s : Symbol} (kinds : List Terminal) (hone : s.isRow = false)
    (hs : s.shapes = kinds.map .token) (h : ∀ token : Token, token.kind ∈ kinds →
      token.Formed → Always slots fun vs => Q (.token token :: vs)) :
    Always (.need ⟨s, true⟩ :: slots) Q := by
  refine need hone fun v hv => ?_
  obtain ⟨_, hmem, hv⟩ := hv
  rw [hs] at hmem
  obtain ⟨kind, hkind, rfl⟩ := mem_map.1 hmem
  obtain ⟨token, rfl, rfl, hformed⟩ := hv
  exact h token hkind hformed

theorem keep (h : ∀ token : Token, token.kind = t → token.Formed →
    Always slots fun vs => Q (.token token :: vs)) : Always (keep t :: slots) Q :=
  word [t] rfl rfl fun token hkind => h token (mem_singleton.1 hkind)

theorem sub (shape : Shape) (hc : c.isRow = false ∧ c.shapes = [shape])
    (h : ∀ v, shape.Describes v → Always slots fun vs => Q (v :: vs)) :
    Always (sub c :: slots) Q :=
  need hc.1 fun v hv => h v (hv.describes hc.2)

theorem expr (hc : c.isRow = false ∧ c.shapes = [.expr])
    (h : ∀ e, Fine Expr.IsSource e → Always slots fun vs => Q (.expr e :: vs)) :
    Always (Grammar.sub c :: slots) Q := by
  refine sub .expr hc ?_
  rintro _ ⟨e, rfl, he⟩
  exact h e he

theorem block (h : ∀ b, Fine Block.IsSource b → Always slots fun vs => Q (.block b :: vs)) :
    Always (Grammar.sub .block :: slots) Q := by
  refine sub .block ⟨rfl, rfl⟩ ?_
  rintro _ ⟨b, rfl, hb⟩
  exact h b hb

theorem type (h : ∀ t, t.Whole → Always slots fun vs => Q (.type t :: vs)) :
    Always (Grammar.sub .type :: slots) Q := by
  refine sub .type ⟨rfl, rfl⟩ ?_
  rintro _ ⟨t, rfl, ht⟩
  exact h t ht

theorem optional (shape : Shape) (hc : c.isRow = false ∧ c.shapes = [shape])
    (h : ∀ us, shape.Optional us → Always slots fun vs => Q (us ++ vs)) :
    Always (.may ⟨.category c, true⟩ :: slots) Q :=
  may (h [] (.inl rfl)) (sub shape hc fun v hv => h [v] (.inr ⟨v, rfl, hv⟩))

theorem optionalLast (shape : Shape) (hc : c.isRow = false ∧ c.shapes = [shape])
    (hslots : keptSymbols slots = []) (h : ∀ us, shape.Optional us → Q us) :
    Always (.may ⟨.category c, true⟩ :: slots) Q := by
  refine optional shape hc fun us hus vs hvs => ?_
  dsimp only
  rw [hvs.eq_nil hslots, append_nil]
  exact h us hus

theorem mayRow (h : ∀ us, (∀ u ∈ us, (Symbol.category c).Admits u) →
    Always slots fun vs => Q (us ++ vs)) : Always (.may ⟨.category c, true⟩ :: slots) Q := by
  refine may (h [] (forall_mem_nil _)) fun vs hvs => ?_
  obtain ⟨us, ws, rfl, hus, hws⟩ := slotsRead_need.1 hvs
  exact h us hus.admits ws hws

end Always

end Yielding.Grammar
