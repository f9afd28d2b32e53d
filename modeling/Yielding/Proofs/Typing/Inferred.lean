import Yielding.Proofs.Every
import Yielding.Typing.Yields

/-!
# Proofs/Typing/Inferred — what holds of written types holds of inferred ones

Inference takes written types apart, puts a few known types around them and unifies them.  A
property of types that survives these steps is **inferable**: when all types that are written in an
item have it, so have all types that its body shows (`Inferable.observations`).
-/

namespace Yielding

open List

/-! ## Written types -/

def Expr.suffix? : Expr → Option Ty
  | .literal _ (.int _ suffix) | .literal _ (.float _ suffix) => suffix.map .ofName
  | _ => none

/-- The type that a statement declares: that of a binding, or the result of a function. -/
def Stmt.type? : Stmt → Option Ty
  | .letIn _ _ type _ _ => type
  | .fn _ _ _ result _ => result
  | _ => none

/-- The type that the statement declares, if any, has the property. -/
def Stmt.Declares (P : Ty → Prop) (s : Stmt) : Prop := ∀ t ∈ s.type?, P t

def Expr.EveryType (P : Ty → Prop) (e : Expr) : Prop := ∀ x ∈ e.walk, ∀ t ∈ x.suffix?, P t

/-- **All types that are written in an item have the property.**  What stands inside nested
functions plays no part. -/
structure Definition.EveryType (P : Ty → Prop) (d : Definition) : Prop where
  yielded : P d.yielded
  params : ∀ p ∈ d.params, ∀ t ∈ p.type?, P t
  prelude : everyStmt (Stmt.Declares P) (Expr.EveryType P) d.prelude
  body : d.body.Every (Stmt.Declares P) (Expr.EveryType P)

/-! ## Inferable properties -/

def Ty.basicNames : List String :=
  ["()", "_", "bool", "char", "String", "usize", "str", Ty.intLiteral, Ty.floatLiteral]

def Ty.wrapperNames : List String :=
  ["&", "&mut", "Option", "Result", "Vec", "Range", "RangeInclusive"]

/-- A property of types that inference keeps. -/
structure Inferable (P : Ty → Prop) : Prop where
  basic : ∀ n ∈ Ty.basicNames, P (.ofName n)
  wrap : ∀ n ∈ Ty.wrapperNames, ∀ t ts, P t → (∀ u ∈ ts, P u) → P (.app n (t :: ts))
  tuple : ∀ ts, (∀ t ∈ ts, P t) → P (.tuple ts)
  iteratorOf : ∀ t, P t → P (.iteratorOf t)
  arg : ∀ {t a}, P t → a ∈ t.args → P a
  binding : ∀ {t u n}, P t → t.binding? n = some u → P u
  unify : ∀ {a b m}, P a → P b → a.unify b = some m → P m

namespace Inferable

section

variable {P : Ty → Prop} (hP : Inferable P)

include hP

theorem ofName {n : String} (h : n ∈ Ty.basicNames := by simp [Ty.basicNames]) : P (.ofName n) :=
  hP.basic n h

theorem unknown : P .unknown := hP.ofName

theorem unit : P .unit := hP.ofName

theorem bool : P .bool := hP.ofName

theorem string : P .string := hP.ofName

theorem wrapOne {n : String} (hn : n ∈ Ty.wrapperNames) {t : Ty} (h : P t) : P (.app n [t]) :=
  hP.wrap n hn t [] h (by simp)

theorem ref (mutable : Bool) {t : Ty} (h : P t) : P (.ref mutable t) := by
  refine hP.wrapOne ?_ h
  cases mutable <;> simp [Ty.refName, Ty.wrapperNames]

theorem option {t : Ty} (h : P t) : P (.option t) := hP.wrapOne (by simp [Ty.wrapperNames]) h

theorem result {t u : Ty} (h : P t) (h' : P u) : P (.result t u) :=
  hP.wrap _ (by simp [Ty.wrapperNames]) _ _ h (by simpa using h')

theorem vec {t : Ty} (h : P t) : P (.vec t) := hP.wrapOne (by simp [Ty.wrapperNames]) h

theorem getD {o : Option Ty} (h : ∀ t ∈ o, P t) : P (o.getD .unknown) := by
  cases o with
  | none => exact hP.unknown
  | some t => exact h t rfl

theorem ifKnown {t : Ty} {f : Ty → Ty} (h : P t) (hf : ∀ t, P t → P (f t)) : P (t.ifKnown f) := by
  unfold Ty.ifKnown
  split
  · exact hP.unknown
  · exact hf t h

theorem firstArg {t : Ty} (h : P t) : P t.firstArg :=
  hP.getD fun _ ha => hP.arg h (mem_of_mem_head? ha)

theorem common {a b : Ty} (ha : P a) (hb : P b) : P (a.common b) :=
  hP.getD fun _ hm => hP.unify ha hb hm

theorem stripRefs : ∀ {t : Ty}, P t → P t.stripRefs
  | .mk _ [] _, h => h
  | .mk name (t :: ts) bs, h => by
    rw [Ty.stripRefs]
    split
    · exact stripRefs (hP.arg h mem_cons_self)
    · exact h

theorem boundItem {ts : List Ty} (h : ∀ t ∈ ts, P t) : P ((Ty.boundItem? ts).getD .unknown) := by
  refine hP.getD fun u hu => ?_
  obtain ⟨t, ht, hu⟩ := exists_of_findSome?_eq_some hu
  exact hP.binding (h t ht) hu

theorem elementType : ∀ {t : Ty}, P t → P t.elementType
  | .mk name [] bs, h => by
    have hu := hP.unknown
    simpa [Ty.elementType] using hu
  | .mk name (t :: ts) bs, h => by
    have ht : P t := hP.arg h mem_cons_self
    simp only [Ty.elementType]
    split
    · rename_i hn
      split
      · refine hP.wrapOne ?_ (elementType ht)
        simp only [Bool.or_eq_true, decide_eq_true_eq] at hn
        rcases hn with rfl | rfl <;> simp [Ty.wrapperNames]
      · exact elementType ht
    · split
      · exact ht
      · split
        · exact hP.boundItem fun u hu => hP.arg h hu
        · exact hP.unknown

/-! ## Patterns -/

theorem itemTypes (items : List Pattern) {t : Ty} (h : P t) :
    ∀ u ∈ Pattern.itemTypes items t, P u := by
  have open_items : ∀ u ∈ items.map fun _ => Ty.unknown, P u := by
    rintro u hu
    obtain ⟨_, -, rfl⟩ := mem_map.1 hu
    exact hP.unknown
  unfold Pattern.itemTypes
  split
  · exact open_items
  · split
    · split
      · exact fun u hu => hP.arg h hu
      · exact open_items
    · simp only
      split
      · exact open_items
      · simp only [append_assoc, forall_mem_append, forall_mem_singleton]
        exact ⟨fun u hu => hP.arg h (mem_of_mem_take hu), hP.unknown,
          fun u hu => hP.arg h (mem_of_mem_drop hu)⟩

theorem payload (v : Variant) {t : Ty} (h : P t) : P (v.payload t) := by
  unfold Variant.payload
  split
  · rename_i ha
    exact hP.arg h (ha ▸ mem_cons_self)
  · rename_i ha
    exact hP.arg h (ha ▸ mem_cons_self)
  · rename_i ha
    exact hP.arg h (ha ▸ mem_cons_of_mem _ mem_cons_self)
  · exact hP.unknown

end

variable {P : Ty → Prop}

mutual

theorem bindPattern (hP : Inferable P) : ∀ (p : Pattern) {s : Scope} {t : Ty},
    (∀ b ∈ s, P b.2) → P t → ∀ b ∈ s.bindPattern p t, P b.2
  | .bind .., s, t, hs, ht => by
    rw [Scope.bindPattern, Scope.define, forall_mem_cons]
    exact ⟨ht, hs⟩
  | .tuple _ items, s, t, hs, ht => bindRow hP items hs (hP.itemTypes items ht)
  | .variant _ v inner, s, t, hs, ht => bindPattern hP inner hs (hP.payload v ht)
  | .wildcard _, s, t, hs, _ | .literal .., s, t, hs, _ | .rest _, s, t, hs, _
  | .noneVariant _, s, t, hs, _ => by simpa only [Scope.bindPattern] using hs

theorem bindRow (hP : Inferable P) : ∀ (ps : List Pattern) {s : Scope} {ts : List Ty},
    (∀ b ∈ s, P b.2) → (∀ t ∈ ts, P t) → ∀ b ∈ s.bindRow ps ts, P b.2
  | [], s, ts, hs, _ => by simpa only [Scope.bindRow] using hs
  | p :: ps, s, [], hs, _ => by simpa only [Scope.bindRow] using hs
  | p :: ps, s, t :: ts, hs, hts => by
    rw [forall_mem_cons] at hts
    exact bindRow hP ps (bindPattern hP p hs hts.1) hts.2

end

/-! ## Expressions -/

section

variable (hP : Inferable P)

theorem ofIte {c : Prop} [Decidable c] {t u : Ty} (ht : P t) (hu : P u) :
    P (if c then t else u) := by
  split
  · exact ht
  · exact hu

theorem lookup {bs : List (String × Ty)} (h : ∀ b ∈ bs, P b.2) {n : String} {t : Ty}
    (ht : bs.lookup n = some t) : P t := by
  obtain ⟨l₁, l₂, rfl, -⟩ := lookup_eq_some_iff.1 ht
  exact h (n, t) (by simp)

include hP

theorem literal {l : Literal} {r : Region} (h : ∀ t ∈ (Expr.literal r l).suffix?, P t) :
    P l.type := by
  cases l with
  | int v suffix | float v suffix =>
    cases suffix with
    | none => exact hP.ofName
    | some n => exact h (.ofName n) (by simp [Expr.suffix?])
  | str v => exact hP.ref false hP.ofName
  | char v | bool v | unit => exact hP.ofName

theorem typeOf {s : Scope} (hs : ∀ b ∈ s, P b.2) (n : String) : P (s.typeOf n) :=
  hP.getD fun _ ht => lookup hs ht

theorem fixedMethod {method : String} {t : Ty} (h : fixedMethods.lookup method = some t) : P t := by
  refine @lookup P fixedMethods ?_ _ _ h
  have hchar : P .char := hP.ofName
  have husize : P .usize := hP.ofName
  simp [fixedMethods, hP.bool, hP.string, husize, hP.iteratorOf _ hchar]

theorem methodType (method : String) {t : Ty} (h : P t) : P (methodType method t) := by
  have base := hP.stripRefs h
  unfold Yielding.methodType
  split
  · exact hP.fixedMethod ‹_›
  · split
    · exact ofIte hP.string base
    · exact ofIte hP.string base
    · exact hP.ifKnown (hP.elementType base) fun t ht => hP.iteratorOf _ (hP.ref false ht)
    · exact hP.ifKnown (hP.elementType base) fun t ht => hP.iteratorOf _ (hP.ref true ht)
    · exact hP.ifKnown (hP.elementType h) fun t ht => hP.iteratorOf _ ht
    · exact hP.ifKnown (hP.elementType base) fun t ht => hP.option ht
    · exact hP.ifKnown (hP.elementType base) fun t ht => hP.option ht
    · exact hP.ifKnown (hP.elementType base) fun t ht => hP.option (hP.ref false ht)
    · exact hP.ifKnown (hP.elementType base) fun t ht => hP.option (hP.ref false ht)
    · exact ofIte base hP.unknown
    · exact ofIte base hP.unknown
    · exact ofIte (hP.firstArg base) hP.unknown
    · exact ofIte (hP.firstArg base) hP.unknown
    · exact hP.unknown

theorem pathCallType (segments : List String) : P (pathCallType segments) := by
  unfold Yielding.pathCallType
  split
  · exact hP.string
  · exact hP.string
  · exact hP.vec hP.unknown
  · exact hP.vec hP.unknown
  · exact hP.unknown

theorem nameCallType {fns : FnTypes} (hfns : ∀ b ∈ fns, P b.2) (name : String) {ts : List Ty}
    (hts : ∀ t ∈ ts, P t) : P (nameCallType fns name ts) := by
  unfold Yielding.nameCallType
  split
  · exact hP.option (hts _ mem_cons_self)
  · exact hP.result (hts _ mem_cons_self) hP.unknown
  · exact hP.result hP.unknown (hts _ mem_cons_self)
  · exact hP.getD fun _ ht => lookup hfns ht

theorem foldl_common {ts : List Ty} (hts : ∀ t ∈ ts, P t) {t : Ty} (ht : P t) :
    P (ts.foldl Ty.common t) :=
  foldlRecOn ts Ty.common ht fun _ h u hu => hP.common h (hts u hu)

end

theorem rowTypes {fns : FnTypes} {s : Scope} {es : List Expr} (h : ∀ e ∈ es, P (e.type fns s)) :
    ∀ t ∈ Yielding.rowTypes fns s es, P t := by
  induction es with
  | nil => simp [Yielding.rowTypes]
  | cons e es ih =>
    rw [forall_mem_cons] at h
    rw [Yielding.rowTypes, forall_mem_cons]
    exact ⟨h.1, ih h.2⟩

/-- The type of an expression has the property when those of its names and suffixes do. -/
theorem type (hP : Inferable P) {fns : FnTypes} {s : Scope} (hfns : ∀ b ∈ fns, P b.2)
    (hs : ∀ b ∈ s, P b.2) (e : Expr) (h : e.EveryType P) : P (e.type fns s) := by
  induction e using Expr.operandInduction with
  | h e ih =>
    obtain ⟨hself, ho⟩ := Expr.forall_mem_walk.1 h
    replace ih := fun o hm => ih o hm (ho o hm)
    cases e with
    | path | field | await | helper => simpa only [Expr.type] using hP.unknown
    | yield => simpa only [Expr.type] using hP.unit
    | literal r l =>
      exact hP.literal hself
    | name r ident =>
      exact ofIte (hP.option hP.unknown) (hP.typeOf hs ident)
    | call r func args =>
      cases func with
      | name r ident =>
        exact hP.nameCallType hfns ident (rowTypes (forall_mem_cons.1 ih).2)
      | path r segments =>
        exact hP.pathCallType segments
      | _ => simpa only [Expr.type] using hP.unknown
    | methodCall r receiver method args =>
      exact hP.methodType method (ih receiver mem_cons_self)
    | tuple r elements =>
      exact hP.tuple _ (rowTypes ih)
    | array r elements =>
      exact hP.vec (hP.foldl_common (rowTypes ih) hP.unknown)
    | borrow r value mutable =>
      exact hP.ifKnown (ih value mem_cons_self) fun t ht => hP.ref mutable ht
    | unary r op operand =>
      have hoperand := ih operand mem_cons_self
      cases op <;> rw [Expr.type]
      · exact hoperand
      · exact ofIte hP.bool hP.unknown
      · exact ofIte (hP.firstArg hoperand) hP.unknown
    | binary r op left right =>
      obtain ⟨hleft, hright⟩ := forall_mem_cons.1 ih
      exact ofIte hP.bool (hP.common hleft (hright right mem_cons_self))
    | range r start stop inclusive =>
      obtain ⟨hstart, hstop⟩ := forall_mem_cons.1 ih
      refine hP.wrapOne ?_ (hP.common hstart (hstop stop mem_cons_self))
      cases inclusive <;> simp [Ty.wrapperNames]
    | index r value i =>
      exact ofIte (hP.firstArg (hP.stripRefs (ih value mem_cons_self))) hP.unknown
    | tupleField r value i =>
      refine ofIte (hP.getD fun t ht => ?_) hP.unknown
      exact hP.arg (hP.stripRefs (ih value mem_cons_self)) (mem_of_getElem? ht)
    | attempt r operand =>
      exact ofIte (hP.firstArg (ih operand mem_cons_self)) hP.unknown
    | macroCall r called args =>
      cases called with
      | format => simpa only [Expr.type] using hP.string
      | panic => simpa only [Expr.type] using hP.unknown
      | println | print | assert => simpa only [Expr.type] using hP.unit

/-! ## Items -/

mutual

theorem stmtFns (hP : Inferable P) {Q : Expr → Prop} : ∀ {s : Stmt},
    s.Every (Stmt.Declares P) Q → ∀ b ∈ s.fnTypes, P b.2
  | .fn _ name _ none _, _ => by simpa [Stmt.fnTypes] using hP.unit
  | .fn _ name _ (some t) _, h => by
    have ht : P t := h t rfl
    simpa [Stmt.fnTypes] using ht
  | .letIn _ _ _ _ (some _), h | .whileDo .., h | .forIn .., h | .ifElse _ _ _ none, h => by
    simpa only [Stmt.fnTypes] using blockFns hP h.2.2
  | .loop .., h | .block .., h => by simpa only [Stmt.fnTypes] using blockFns hP h.2
  | .ifElse _ _ _ (some _), h => by
    rw [Stmt.fnTypes, forall_mem_append]
    exact ⟨blockFns hP h.2.2.1, blockFns hP h.2.2.2⟩
  | .matchOn .., h => by simpa only [Stmt.fnTypes] using armFns hP h.2.2
  | .letIn _ _ _ _ none, _ | .assign .., _ | .expr .., _ | .ret .., _ | .breakLoop _, _
  | .continueLoop _, _ | .suspend .., _ | .terminate _, _ => by simp [Stmt.fnTypes]

theorem rowFns (hP : Inferable P) {Q : Expr → Prop} : ∀ {ss : List Stmt},
    everyStmt (Stmt.Declares P) Q ss → ∀ b ∈ stmtFnTypes ss, P b.2
  | [], _ => by simp [stmtFnTypes]
  | _ :: _, h => by
    rw [stmtFnTypes, forall_mem_append]
    exact ⟨stmtFns hP h.1, rowFns hP h.2⟩

theorem blockFns (hP : Inferable P) {Q : Expr → Prop} : ∀ {body : Block},
    body.Every (Stmt.Declares P) Q → ∀ b ∈ body.fnTypes, P b.2
  | .mk .., h => rowFns hP h.1

theorem armFns (hP : Inferable P) {Q : Expr → Prop} : ∀ {arms : List Arm},
    everyArm (Stmt.Declares P) Q arms → ∀ b ∈ armFnTypes arms, P b.2
  | [], _ => by simp [armFnTypes]
  | .mk .. :: _, h => by
    rw [armFnTypes, forall_mem_append]
    exact ⟨blockFns hP h.2.1, armFns hP h.2.2⟩

end

section

variable (hP : Inferable P)

include hP

theorem fnTypes {d : Definition} (h : d.EveryType P) : ∀ b ∈ d.fnTypes, P b.2 := by
  intro b hb
  rw [Definition.fnTypes, mem_reverse, mem_append] at hb
  exact hb.elim (hP.rowFns h.prelude b) (hP.blockFns h.body b)

theorem letType {fns : FnTypes} {s : Scope} (hfns : ∀ b ∈ fns, P b.2) (hs : ∀ b ∈ s, P b.2)
    {type : Option Ty} (ht : ∀ t ∈ type, P t) {value : Expr} (hv : value.EveryType P) :
    P (type.getD (value.type fns s)) := by
  cases type with
  | none => exact hP.type hfns hs value hv
  | some t => exact ht t rfl

theorem bindLets {fns : FnTypes} (hfns : ∀ b ∈ fns, P b.2) : ∀ {ss : List Stmt} {s : Scope},
    everyStmt (Stmt.Declares P) (Expr.EveryType P) ss → (∀ b ∈ s, P b.2) →
    ∀ b ∈ Definition.bindLets fns s ss, P b.2
  | [], _, _, hs => hs
  | stmt :: ss, s, h, hs => by
    rw [Definition.bindLets, foldl_cons]
    refine bindLets hfns h.2 ?_
    split
    · rename_i p type value otherwise
      have hstmt : (∀ t ∈ type, P t) ∧ value.EveryType P := by
        cases otherwise
        · exact ⟨h.1.1, h.1.2⟩
        · exact ⟨h.1.1, h.1.2.1⟩
      exact hP.bindPattern p hs (hP.letType hfns hs hstmt.1 hstmt.2)
    · exact hs

theorem scope {d : Definition} (h : d.EveryType P) : ∀ b ∈ d.scope, P b.2 := by
  refine hP.bindLets (hP.fnTypes h) h.prelude ?_
  refine foldlRecOn (motive := fun s : Scope => ∀ b ∈ s, P b.2) d.params _ (by simp) ?_
  intro s hs p hp
  split
  · rename_i t ht
    rw [Scope.define, forall_mem_cons]
    exact ⟨h.params p hp t (by simp [Param.type?, ht]), hs⟩
  · exact hs

end

/-! ## Observations -/

open Typing

section

variable (hP : Inferable P) {k : Setting} (hk : ∀ b ∈ k.fns, P b.2)

include hP

theorem residualOf {t u : Ty} (h : P t) (hu : residualOf? t = some u) : P u := by
  unfold residualOf? at hu
  split at hu
  · cases hu
    exact hP.option hP.unknown
  · cases hu
    exact hP.result hP.unknown (hP.getD fun a ha => hP.arg h (mem_of_getElem? ha))
  · cases hu

include hk

theorem observe {s : Scope} (hs : ∀ b ∈ s, P b.2) {e : Expr} (he : e.EveryType P)
    {o : Observation} (h : observe k s e = some o) : P o.type := by
  unfold Typing.observe at h
  split at h
  · cases h
    exact hP.unit
  · cases h
    exact hP.type hk hs _ ((Expr.forall_mem_walk.1 he).2 _ mem_cons_self)
  · split at h
    · obtain ⟨t, ht, rfl⟩ := Option.map_eq_some_iff.1 h
      exact hP.residualOf (hP.type hk hs _ ((Expr.forall_mem_walk.1 he).2 _ mem_cons_self)) ht
    · cases h
  · cases h

theorem observeExpr {s : Scope} (hs : ∀ b ∈ s, P b.2) {e : Expr} (he : e.EveryType P) :
    ∀ o ∈ observeExpr k s e, P o.type := by
  intro o ho
  obtain ⟨x, hx, ho⟩ := mem_filterMap.1 ho
  exact hP.observe hk hs (fun y hy => he y (Expr.walk_trans hy hx)) ho

theorem observeOptional {s : Scope} (hs : ∀ b ∈ s, P b.2) {e : Option Expr}
    (he : ∀ x ∈ e, x.EveryType P) : ∀ o ∈ observeOptional k s e, P o.type := by
  cases e with
  | none => simp [Typing.observeOptional]
  | some e => exact hP.observeExpr hk hs (he e rfl)

theorem conditionScope {s : Scope} (hs : ∀ b ∈ s, P b.2) {c : Condition}
    (hc : c.value.EveryType P) : ∀ b ∈ conditionScope k s c, P b.2 := by
  cases c with
  | test e => exact hs
  | letMatch r p value => exact hP.bindPattern p hs (hP.type hk hs value hc)

end

mutual

theorem observeStmt (hP : Inferable P) {k : Setting} (hk : ∀ b ∈ k.fns, P b.2) :
    ∀ {stmt : Stmt} {s : Scope}, (∀ b ∈ s, P b.2) →
      stmt.Every (Stmt.Declares P) (Expr.EveryType P) →
      (∀ o ∈ (observeStmt k s stmt).1, P o.type) ∧ ∀ b ∈ (observeStmt k s stmt).2, P b.2
  | .letIn _ p type value none, s, hs, h =>
    ⟨hP.observeExpr hk hs h.2, hP.bindPattern p hs (hP.letType hk hs h.1 h.2)⟩
  | .letIn _ p type value (some b), s, hs, h =>
    ⟨forall_mem_append.2 ⟨hP.observeExpr hk hs h.2.1, observeBlock hP hk hs h.2.2⟩,
      hP.bindPattern p hs (hP.letType hk hs h.1 h.2.1)⟩
  | .assign .., s, hs, h =>
    ⟨forall_mem_append.2 ⟨hP.observeExpr hk hs h.2.1, hP.observeExpr hk hs h.2.2⟩, hs⟩
  | .expr .., s, hs, h => ⟨hP.observeExpr hk hs h.2, hs⟩
  | .ret .., s, hs, h => ⟨hP.observeOptional hk hs h.2, hs⟩
  | .ifElse _ _ _ none, s, hs, h | .whileDo .., s, hs, h =>
    ⟨forall_mem_append.2 ⟨hP.observeExpr hk hs h.2.1,
      observeBlock hP hk (hP.conditionScope hk hs h.2.1) h.2.2⟩, hs⟩
  | .ifElse _ _ _ (some _), s, hs, h =>
    ⟨forall_mem_append.2 ⟨forall_mem_append.2 ⟨hP.observeExpr hk hs h.2.1,
      observeBlock hP hk (hP.conditionScope hk hs h.2.1) h.2.2.1⟩,
      observeBlock hP hk hs h.2.2.2⟩, hs⟩
  | .loop _ b, s, hs, h | .block _ b, s, hs, h => ⟨observeBlock hP hk hs h.2, hs⟩
  | .forIn _ p iterable b, s, hs, h => by
    have hitem := hP.elementType (hP.type hk hs iterable h.2.1)
    exact ⟨forall_mem_append.2 ⟨hP.observeExpr hk hs h.2.1,
      observeBlock hP hk (hP.bindPattern p hs hitem) h.2.2⟩, hs⟩
  | .matchOn _ subject arms, s, hs, h =>
    ⟨forall_mem_append.2 ⟨hP.observeExpr hk hs h.2.1,
      observeArms hP hk hs (hP.type hk hs subject h.2.1) h.2.2⟩, hs⟩
  | .breakLoop _, s, hs, _ | .continueLoop _, s, hs, _ | .fn .., s, hs, _ | .suspend .., s, hs, _
  | .terminate _, s, hs, _ => ⟨forall_mem_nil _, hs⟩

theorem observeStmts (hP : Inferable P) {k : Setting} (hk : ∀ b ∈ k.fns, P b.2) :
    ∀ {stmts : List Stmt} {s : Scope}, (∀ b ∈ s, P b.2) →
      everyStmt (Stmt.Declares P) (Expr.EveryType P) stmts →
      (∀ o ∈ (observeStmts k s stmts).1, P o.type) ∧ ∀ b ∈ (observeStmts k s stmts).2, P b.2
  | [], s, hs, _ => by
    rw [Typing.observeStmts]
    exact ⟨by simp, hs⟩
  | stmt :: stmts, s, hs, h => by
    obtain ⟨hfirst, hs⟩ := observeStmt hP hk hs h.1
    obtain ⟨hrest, hs⟩ := observeStmts hP hk hs h.2
    rw [Typing.observeStmts]
    simp only [forall_mem_append]
    exact ⟨⟨hfirst, hrest⟩, hs⟩

theorem observeBlock (hP : Inferable P) {k : Setting} (hk : ∀ b ∈ k.fns, P b.2) :
    ∀ {body : Block} {s : Scope}, (∀ b ∈ s, P b.2) →
      body.Every (Stmt.Declares P) (Expr.EveryType P) →
      ∀ o ∈ observeBlock k s body, P o.type
  | .mk stmts _ tail, s, hs, h => by
    obtain ⟨hfound, hs⟩ := observeStmts hP hk hs h.1
    rw [Typing.observeBlock]
    simp only [forall_mem_append]
    exact ⟨hfound, hP.observeOptional hk hs h.2⟩

theorem observeArms (hP : Inferable P) {k : Setting} (hk : ∀ b ∈ k.fns, P b.2) :
    ∀ {arms : List Arm} {s : Scope} {t : Ty}, (∀ b ∈ s, P b.2) → P t →
      everyArm (Stmt.Declares P) (Expr.EveryType P) arms →
      ∀ o ∈ observeArms k s t arms, P o.type
  | [], s, t, _, _, _ => by simp [Typing.observeArms]
  | .mk _ p guard b :: arms, s, t, hs, ht, h => by
    have hinner := hP.bindPattern p hs ht
    rw [Typing.observeArms]
    simp only [forall_mem_append]
    exact ⟨⟨hP.observeOptional hk hinner h.1, observeBlock hP hk hinner h.2.1⟩,
      observeArms hP hk hs ht h.2.2⟩

end

/-- **What holds of all types written in an item holds of all types that its body shows**, when
inference keeps it. -/
theorem observations (hP : Inferable P) {d : Definition} (h : d.EveryType P) :
    ∀ o ∈ observations d, P o.type :=
  hP.observeBlock (hP.fnTypes h) (hP.scope h) h.body

end Inferable

end Yielding
