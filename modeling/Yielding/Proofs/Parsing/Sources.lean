import Yielding.Item.Value
import Yielding.Proofs.Flow.Laws
import Yielding.Proofs.Typing.Whole

/-!
# Proofs/Parsing/Sources — what items hold as they are written

Of all that items can hold, some arises only when a body is lowered, and some types have no text.
Neither is in an item that is read from its text: its parts are **source**.  What reading builds may
be spoilt by a problem, but it is **fine** as long as no parts of a phrase fail to fit its rule.
-/

namespace Yielding

open Yielding.Flow

/-! ## Source -/

/-- What can be written as an expression, its parts apart: no call of a support function, and a
suffix that names a type. -/
def Expr.IsSourceNode (e : Expr) : Prop :=
  (∀ r name args, e ≠ .helper r name args) ∧ ∀ t ∈ e.suffix?, t.Whole

/-- The expression and everything inside it can be written. -/
def Expr.IsSource (e : Expr) : Prop := ∀ x ∈ e.walk, x.IsSourceNode

namespace Pattern

mutual

/-- The pattern can be written: `..` only stands among the items of a tuple pattern, once. -/
def IsProper : Pattern → Prop
  | rest _ => False
  | variant _ _ inner => inner.IsProper
  | tuple _ items => items.countP isRest ≤ 1 ∧ rowProper items
  | _ => True

def rowProper : List Pattern → Prop
  | [] => True
  | p :: ps => (p.isRest = false → p.IsProper) ∧ rowProper ps

end

theorem rowProper_iff {ps : List Pattern} : rowProper ps ↔ ∀ p ∈ ps, p.isRest = false →
    p.IsProper := by
  induction ps with
  | nil => simp [rowProper]
  | cons p ps ih => rw [rowProper, ih, List.forall_mem_cons]

end Pattern

/-- The law of items as they are read: nothing that only lowering makes, and no type without a
text. -/
def Flow.source : Law where
  stmt _ _ s := IsWritten s ∧ s.Declares Ty.Whole
  expr _ e := e.IsSource
  guard _ e := e.IsSource

def Stmt.IsSource (s : Stmt) : Prop := ∀ p l, s.Under source p l

def Block.IsSource (b : Block) : Prop := ∀ p l, b.Under source p l

def Arm.IsSource (a : Arm) : Prop := (∀ e ∈ a.guard, e.IsSource) ∧ a.body.IsSource

def Param.IsSource (p : Param) : Prop := ∀ t ∈ p.type?, t.Whole

/-- The attribute can be written, and a size hint has its one argument. -/
structure Attr.IsSource (a : Attr) : Prop where
  args : ∀ e ∈ a.args, e.IsSource
  bounds : a.name = "size_hint" → a.args.length = 1

/-- An item as it can be written. -/
structure Definition.IsSource (d : Definition) : Prop where
  yielded : d.yielded.Whole
  params : ∀ p ∈ d.params, p.IsSource
  attrs : ∀ a ∈ d.attrs, a.IsSource
  prelude : ∀ s ∈ d.prelude, s.IsSource
  body : d.body.IsSource

theorem Expr.isSource_iff {e : Expr} : e.IsSource ↔ e.IsSourceNode ∧ ∀ o ∈ e.operands, o.IsSource :=
  Expr.forall_mem_walk

theorem rowUnder_source {p : Flow.Place} {l : Bool} {ss : List Stmt} (h : ∀ s ∈ ss, s.IsSource) :
    rowUnder source p l ss := by
  induction ss with
  | nil => trivial
  | cons s ss ih =>
    rw [List.forall_mem_cons] at h
    exact ⟨h.1 p l, ih h.2⟩

theorem armsUnder_source {p : Flow.Place} {l : Bool} {arms : List Arm}
    (h : ∀ a ∈ arms, a.IsSource) : armsUnder source p l arms := by
  induction arms with
  | nil => trivial
  | cons a arms ih =>
    rw [List.forall_mem_cons] at h
    obtain ⟨r, matched, guard, b⟩ := a
    exact ⟨h.1.1, h.1.2 p l, ih h.2⟩

theorem isSource_block {stmts : List Stmt} {r : Region} {tail : Option Expr}
    (hs : ∀ s ∈ stmts, s.IsSource) (he : ∀ e ∈ tail, e.IsSource) :
    (Block.mk stmts r tail).IsSource :=
  fun _ _ => ⟨rowUnder_source hs, he⟩

theorem Definition.IsSource.sizeHint {d : Definition} (h : d.IsSource) :
    ∀ e ∈ d.sizeHint?, e.IsSource := by
  intro e he
  obtain ⟨a, ha, hfirst⟩ := Option.bind_eq_some_iff.1 he
  exact (h.attrs a (List.mem_of_find?_eq_some ha)).args e (List.mem_of_mem_head? hfirst)

theorem Definition.IsSource.under {d : Definition} (h : d.IsSource) : d.Under source where
  prelude := rowUnder_source h.prelude
  body := h.body _ _
  bounds := h.sizeHint

theorem Definition.IsSource.everyType {d : Definition} (h : d.IsSource) : d.EveryType Ty.Whole := by
  have hforces : source.Forces (Stmt.Declares Ty.Whole) (Expr.EveryType Ty.Whole) :=
    ⟨fun hs => hs.2, fun he x hx => (he x hx).2, fun he x hx => (he x hx).2⟩
  exact ⟨h.yielded, h.params, everyStmt_of_under hforces h.under.prelude,
    h.under.body.every hforces⟩

/-! ## Results of reading -/

/-- What is built has the property, or a problem of the text stands in for it. -/
def Fine {α : Type} (P : α → Prop) : Build α → Prop
  | .ok a => P a
  | .error p => p.cause ≠ .incoherent

section Fine

variable {α β : Type} {P : α → Prop} {Q : β → Prop}

theorem Fine.bind {b : Build α} {f : α → Build β} (h : Fine P b) (hf : ∀ a, P a → Fine Q (f a)) :
    Fine Q (b >>= f) := by
  cases b with
  | ok a => exact hf a h
  | error p => exact h

theorem Fine.map {b : Build α} {f : α → β} (h : Fine P b) (hf : ∀ a, P a → Q (f a)) :
    Fine Q (f <$> b) := by
  cases b with
  | ok a => exact hf a h
  | error p => exact h

theorem Fine.mapM {f : α → Build β} : ∀ {xs : List α}, (∀ x ∈ xs, Fine Q (f x)) →
    Fine (∀ y ∈ ·, Q y) (xs.mapM f)
  | [], _ => nofun
  | x :: xs, h => by
    rw [List.forall_mem_cons] at h
    rw [List.mapM_cons]
    exact h.1.bind fun y hy => (Fine.mapM h.2).bind fun ys hys => List.forall_mem_cons.2 ⟨hy, hys⟩

end Fine

end Yielding
