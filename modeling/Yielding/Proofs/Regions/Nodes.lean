import Mathlib.Data.List.Forall2
import Mathlib.Data.Prod.Lex
import Yielding.Syntax.Stmt

/-!
# Proofs/Regions/Nodes — regions that nest

The **nodes** of a body are its statements, blocks, conditions, arms, expressions and patterns; the
**parts** of a node are the nodes that it is directly made of, in the order of the source.  A node
is **nested** when its region is proper, holds the regions of its parts, the parts follow one
another, and each of them is nested in its turn.

A row of nodes **sits** in a region when the nodes are nested, lie in the region and follow one
another. What is read from a phrase is a new node over such a row or the row itself, up to nodes
that take the place of others (`Follows`), so it sits where the row sat (`Sits.follows`).
-/

namespace Yielding

open List

/-! ## Positions and regions -/

theorem Pos.lex_injective : Function.Injective fun p : Pos => toLex (p.line, p.column) := by
  rintro ⟨l, c⟩ ⟨l', c'⟩ h
  simpa using h

/-- Positions in reading order. -/
instance : PartialOrder Pos := .lift (fun p => toLex (p.line, p.column)) Pos.lex_injective

theorem Pos.lt_iff {p q : Pos} : p < q ↔ p.line < q.line ∨ p.line = q.line ∧ p.column < q.column :=
  Prod.Lex.lt_iff ..

theorem Pos.lt_after (p : Pos) (c : Char) : p < p.after c := by
  rw [lt_iff, after]
  split <;> simp

theorem Pos.le_advance (p : Pos) (cs : List Char) : p ≤ p.advance cs := by
  induction cs generalizing p with
  | nil => exact le_rfl
  | cons c cs ih => exact (p.lt_after c).le.trans (ih _)

theorem Pos.lt_advance (p : Pos) {cs : List Char} (h : cs ≠ []) : p < p.advance cs := by
  cases cs with
  | nil => exact absurd rfl h
  | cons c cs => exact (p.lt_after c).trans_le (le_advance _ cs)

theorem Pos.advance_take_le (p : Pos) (n : ℕ) (cs : List Char) :
    p.advance (cs.take n) ≤ p.advance cs := by
  conv_rhs => rw [← take_append_drop n cs, advance_append]
  exact le_advance _ _

/-- Regions by containment. -/
instance : Preorder Region := .lift fun r => (OrderDual.toDual r.start, r.stop)

namespace Region

variable {r s : Region}

theorem le_iff : r ≤ s ↔ s.start ≤ r.start ∧ r.stop ≤ s.stop := Iff.rfl

/-- A genuine stretch of a text: its first character has a line and a column, and its end comes
later. -/
structure IsProper (r : Region) : Prop where
  start : Pos.first ≤ r.start
  stop : r.start < r.stop

/-- The one region ends before the other begins. -/
def Precedes (r s : Region) : Prop := r.stop ≤ s.start

/-- Regions that follow one another lie in one that spans both. -/
theorem IsProper.join (hr : r.IsProper) (hs : s.IsProper) (h : r.Precedes s) :
    IsProper ⟨r.start, s.stop⟩ ∧ r ≤ ⟨r.start, s.stop⟩ ∧ s ≤ ⟨r.start, s.stop⟩ := by
  have hstart : r.start ≤ s.start := hr.stop.le.trans h
  exact ⟨⟨hr.start, hstart.trans_lt hs.stop⟩, ⟨le_rfl, h.trans hs.stop.le⟩, hstart, le_rfl⟩

theorem Precedes.mono {r' s' : Region} (h : Precedes r s) (hr : r' ≤ r) (hs : s' ≤ s) :
    Precedes r' s' :=
  hr.2.trans (h.trans hs.1)

end Region

/-! ## Nodes -/

/-- A part of an item that has a region. -/
inductive Node
  | stmt (s : Stmt)
  | block (b : Block)
  | condition (c : Condition)
  | arm (a : Arm)
  | expr (e : Expr)
  | pattern (p : Pattern)

def Condition.region : Condition → Region
  | test e => e.region
  | letMatch r _ _ => r

namespace Node

def region : Node → Region
  | stmt s => s.region
  | block b => b.region
  | condition c => c.region
  | arm a => a.region
  | expr e => e.region
  | pattern p => p.region

/-- The nodes that a node is directly made of, in the order of the source. -/
def parts : Node → List Node
  | stmt (.letIn _ p _ value otherwise) => pattern p :: expr value :: otherwise.toList.map block
  | stmt (.assign _ target value _) => [expr target, expr value]
  | stmt (.expr _ value) | stmt (.suspend _ value) => [expr value]
  | stmt (.ret _ value) => value.toList.map expr
  | stmt (.breakLoop _) | stmt (.continueLoop _) | stmt (.terminate _) => []
  | stmt (.ifElse _ c a b) => condition c :: block a :: b.toList.map block
  | stmt (.whileDo _ c b) => [condition c, block b]
  | stmt (.loop _ b) | stmt (.block _ b) | stmt (.fn _ _ _ _ b) => [block b]
  | stmt (.forIn _ p iterable b) => [pattern p, expr iterable, block b]
  | stmt (.matchOn _ subject arms) => expr subject :: arms.map arm
  | block (.mk stmts _ tail) => stmts.map stmt ++ tail.toList.map expr
  | condition (.test e) => [expr e]
  | condition (.letMatch _ p value) => [pattern p, expr value]
  | arm (.mk _ p guard b) => pattern p :: (guard.toList.map expr ++ [block b])
  | expr e => e.operands.map expr
  | pattern (.tuple _ items) => items.map pattern
  | pattern (.variant _ _ inner) => [pattern inner]
  | pattern _ => []

/-- The one node ends before the other begins. -/
def Precedes (m n : Node) : Prop := m.region.Precedes n.region

/-- The region of the node is proper and holds the regions of its parts, which follow one another;
and so for all nodes inside it. -/
inductive Nested : Node → Prop
  | mk {n : Node} (proper : n.region.IsProper) (inside : ∀ m ∈ n.parts, m.region ≤ n.region)
      (inOrder : n.parts.Pairwise Precedes) (nested : ∀ m ∈ n.parts, Nested m) : Nested n

end Node

open Node

/-- A row of nested nodes that follow one another inside a region. -/
structure Sits (r : Region) (ns : List Node) : Prop where
  inside : ∀ n ∈ ns, n.region ≤ r
  inOrder : ns.Pairwise Precedes
  nested : ∀ n ∈ ns, n.Nested

variable {r r' : Region} {m n : Node} {ms ns : List Node}

theorem nested_iff : n.Nested ↔ n.region.IsProper ∧ Sits n.region n.parts :=
  ⟨fun ⟨hproper, hinside, horder, hnested⟩ => ⟨hproper, hinside, horder, hnested⟩,
    fun ⟨hproper, hsits⟩ => .mk hproper hsits.inside hsits.inOrder hsits.nested⟩

theorem sits_nil (r : Region) : Sits r [] := ⟨nofun, .nil, nofun⟩

theorem sits_singleton : Sits r [n] ↔ n.region ≤ r ∧ n.Nested := by
  refine ⟨fun h => ⟨h.inside n mem_cons_self, h.nested n mem_cons_self⟩, fun h => ?_⟩
  exact ⟨forall_mem_singleton.2 h.1, pairwise_singleton _ _, forall_mem_singleton.2 h.2⟩

theorem Sits.mono (h : Sits r ns) (hr : r ≤ r') : Sits r' ns :=
  ⟨fun n hn => (h.inside n hn).trans hr, h.inOrder, h.nested⟩

theorem Sits.sublist (h : Sits r ns) (hs : ms <+ ns) : Sits r ms :=
  ⟨fun n hn => h.inside n (hs.subset hn), h.inOrder.sublist hs, fun n hn =>
    h.nested n (hs.subset hn)⟩

/-- Rows in regions that follow one another make up a row. -/
theorem Sits.append {s : Region} (hm : Sits r ms) (hn : Sits s ns) (h : r.Precedes s)
    (hr : r ≤ r') (hs : s ≤ r') : Sits r' (ms ++ ns) where
  inside := forall_mem_append.2 ⟨(hm.mono hr).inside, (hn.mono hs).inside⟩
  inOrder := pairwise_append.2
    ⟨hm.inOrder, hn.inOrder, fun m hm' n hn' => h.mono (hm.inside m hm') (hn.inside n hn')⟩
  nested := forall_mem_append.2 ⟨hm.nested, hn.nested⟩

/-! ## Nodes that take the place of others -/

namespace Node

/-- The one node can take the place of the other. -/
def Refines (m n : Node) : Prop := n.Nested → m.region ≤ n.region ∧ m.Nested

theorem Refines.trans {l : Node} (h : l.Refines m) (h' : m.Refines n) : l.Refines n := fun hn =>
  ⟨(h (h' hn).2).1.trans (h' hn).1, (h (h' hn).2).2⟩

instance : Std.Refl Refines := ⟨fun _ h => ⟨le_rfl, h⟩⟩

instance : IsTrans Node Refines := ⟨fun _ _ _ => .trans⟩

theorem refines_of_mem (h : m ∈ n.parts) : m.Refines n := by
  intro hn
  obtain ⟨-, hsits⟩ := nested_iff.1 hn
  exact ⟨hsits.inside m h, hsits.nested m h⟩

/-- A node can be wrapped in one of the same region. -/
theorem refines_wrapped (hparts : m.parts = [n]) (hregion : m.region = n.region) : m.Refines n := by
  intro hn
  refine ⟨hregion.le, nested_iff.2 ⟨hregion ▸ (nested_iff.1 hn).1, ?_⟩⟩
  rw [hparts, hregion]
  exact sits_singleton.2 ⟨le_rfl, hn⟩

/-- A node without parts can be told otherwise. -/
theorem refines_leaf (hparts : m.parts = []) (hregion : m.region = n.region) : m.Refines n := by
  intro hn
  refine ⟨hregion.le, nested_iff.2 ⟨hregion ▸ (nested_iff.1 hn).1, ?_⟩⟩
  rw [hparts]
  exact sits_nil _

end Node

/-- Nodes that take the places of some of the given ones, in their order. -/
abbrev Kept : List Node → List Node → Prop := SublistForall₂ Refines

theorem kept_of_sublist (h : ms <+ ns) : Kept ms ns := h.sublistForall₂

theorem Kept.refl (ns : List Node) : Kept ns ns := kept_of_sublist (.refl ns)

theorem kept_singleton (h : m.Refines n) : Kept [m] [n] := .cons h .nil

theorem Kept.append {ms' ns' : List Node} (h : Kept ms ns) (h' : Kept ms' ns') :
    Kept (ms ++ ms') (ns ++ ns') := by
  induction h with
  | @nil ns => exact Trans.trans h' (kept_of_sublist (sublist_append_right ns ns'))
  | cons hm _ ih => exact .cons hm ih
  | cons_right _ ih => exact .cons_right ih

/-- Nodes that take the places of nodes sit where those sat, each inside one of them. -/
theorem Sits.replaced (h : Sits r ns) (hk : Kept ms ns) :
    Sits r ms ∧ ∀ m ∈ ms, ∃ n ∈ ns, m.region ≤ n.region := by
  induction hk with
  | nil => exact ⟨sits_nil r, nofun⟩
  | @cons m n ms ns hm _ ih =>
    obtain ⟨hsits, hin⟩ := ih (h.sublist (sublist_cons_self n ns))
    obtain ⟨hregion, hnested⟩ := hm (h.nested n mem_cons_self)
    have hfirst : ∀ m' ∈ ms, m.Precedes m' := by
      intro m' hm'
      obtain ⟨n', hn', hle⟩ := hin m' hm'
      exact ((pairwise_cons.1 h.inOrder).1 n' hn').mono hregion hle
    refine ⟨⟨forall_mem_cons.2 ⟨hregion.trans (h.inside n mem_cons_self), hsits.inside⟩,
      pairwise_cons.2 ⟨hfirst, hsits.inOrder⟩, forall_mem_cons.2 ⟨hnested, hsits.nested⟩⟩, ?_⟩
    refine forall_mem_cons.2 ⟨⟨n, mem_cons_self, hregion⟩, fun m' hm' => ?_⟩
    obtain ⟨n', hn', hle⟩ := hin m' hm'
    exact ⟨n', mem_cons_of_mem n hn', hle⟩
  | @cons_right n ms ns _ ih =>
    obtain ⟨hsits, hin⟩ := ih (h.sublist (sublist_cons_self n ns))
    refine ⟨hsits, fun m hm => ?_⟩
    obtain ⟨n', hn', hle⟩ := hin m hm
    exact ⟨n', mem_cons_of_mem n hn', hle⟩

theorem Sits.kept (h : Sits r ns) (hk : Kept ms ns) : Sits r ms := (h.replaced hk).1

/-- What is read from a row of nodes: nodes that take their places, or one node over them. -/
def Follows (r : Region) (ns ms : List Node) : Prop :=
  Kept ms ns ∨ ∃ n, ms = [n] ∧ n.region = r ∧ Kept n.parts ns

theorem Sits.follows (h : Sits r ns) (hr : r.IsProper) (hf : Follows r ns ms) : Sits r ms := by
  obtain hkept | ⟨n, rfl, rfl, hkept⟩ := hf
  · exact h.kept hkept
  · exact sits_singleton.2 ⟨le_rfl, nested_iff.2 ⟨hr, h.kept hkept⟩⟩

theorem follows_node (hparts : n.parts = ns) (hregion : n.region = r) : Follows r ns [n] :=
  .inr ⟨n, rfl, hregion, hparts ▸ .refl _⟩

theorem follows_leaf (hparts : n.parts = []) (hregion : n.region = r) : Follows r ns [n] :=
  .inr ⟨n, rfl, hregion, hparts ▸ .nil⟩

theorem follows_nil (r : Region) (ns : List Node) : Follows r ns [] := .inl .nil

end Yielding
