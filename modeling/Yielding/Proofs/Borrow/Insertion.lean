import Mathlib.Order.Monotone.Basic
import Yielding.Proofs.Borrow.Acts
import Yielding.Proofs.Borrow.Escapes

/-!
# Proofs/Borrow/Insertion — another suspension excuses nothing

A `yield;` put between two statements of a body adds one act to the walk.  The rest of the walk
finds the same bindings and notes the same events, those after the suspension one position later
(`Delayed`).  Positions keep their order, so what escaped before still escapes
(`checkEscapes_of_inserts`).
-/

namespace Yielding

open List

/-! ## Inserting a statement -/

mutual

/-- The second statement is the first with a `yield;` put into one of its blocks. -/
inductive Stmt.Inserts : Stmt → Stmt → Prop
  | otherwise (r p type value) {b b' : Block} (h : Block.Inserts b b') :
    Stmt.Inserts (.letIn r p type value (some b)) (.letIn r p type value (some b'))
  | thenBlock (r c e) {b b' : Block} (h : Block.Inserts b b') :
    Stmt.Inserts (.ifElse r c b e) (.ifElse r c b' e)
  | elseBlock (r c a) {b b' : Block} (h : Block.Inserts b b') :
    Stmt.Inserts (.ifElse r c a (some b)) (.ifElse r c a (some b'))
  | whileDo (r c) {b b' : Block} (h : Block.Inserts b b') :
    Stmt.Inserts (.whileDo r c b) (.whileDo r c b')
  | loop (r) {b b' : Block} (h : Block.Inserts b b') : Stmt.Inserts (.loop r b) (.loop r b')
  | forIn (r p iterable) {b b' : Block} (h : Block.Inserts b b') :
    Stmt.Inserts (.forIn r p iterable b) (.forIn r p iterable b')
  | block (r) {b b' : Block} (h : Block.Inserts b b') : Stmt.Inserts (.block r b) (.block r b')
  | arm (r subject before q p guard after) {b b' : Block} (h : Block.Inserts b b') :
    Stmt.Inserts (.matchOn r subject (before ++ .mk q p guard b :: after))
      (.matchOn r subject (before ++ .mk q p guard b' :: after))

/-- The second block has one more `yield;` in it than the first. -/
inductive Block.Inserts : Block → Block → Prop
  | here (before after r tail q q') :
    Block.Inserts (.mk (before ++ after) r tail)
      (.mk (before ++ .expr q (.yield q' none) :: after) r tail)
  | inside (before after r tail) {s s' : Stmt} (h : Stmt.Inserts s s') :
    Block.Inserts (.mk (before ++ s :: after) r tail) (.mk (before ++ s' :: after) r tail)

end

namespace Borrow

/-! ## The acts of a longer body -/

/-- The same act, except that a loop may have come to yield. -/
inductive Act.Raised : Act → Act → Prop
  | refl (a : Act) : Act.Raised a a
  | iterate (iterable : Expr) (yields : Bool) :
    Act.Raised (.iterate iterable yields) (.iterate iterable true)

/-- The second sequence is the first with one suspension put into it; loops before it may have come
to yield. -/
def Suspended (as as' : List Act) : Prop :=
  ∃ before before' after r, as = before ++ after ∧
    as' = before' ++ .visit (.yield r none) :: after ∧ Forall₂ Act.Raised before before'

theorem raised_refl (as : List Act) : Forall₂ Act.Raised as as :=
  forall₂_same.2 fun a _ => .refl a

theorem Suspended.around {as as' bs bs' : List Act} (h : Suspended as as') {xs xs' : List Act}
    (hxs : Forall₂ Act.Raised xs xs') (ys : List Act)
    (hbs : bs = xs ++ as ++ ys := by simp [stmtActs])
    (hbs' : bs' = xs' ++ as' ++ ys := by simp [stmtActs]) : Suspended bs bs' := by
  obtain ⟨before, before', after, r, rfl, rfl, hraised⟩ := h
  exact ⟨xs ++ before, xs' ++ before', after ++ ys, r, by simp [hbs], by simp [hbs'],
    rel_append hxs hraised⟩

theorem rowYields_append (ss ss' : List Stmt) :
    rowYields (ss ++ ss') = (rowYields ss || rowYields ss') := by
  induction ss with
  | nil => rfl
  | cons s ss ih => simp [rowYields, ih, Bool.or_assoc]

theorem armsYield_append (arms arms' : List Arm) :
    armsYield (arms ++ arms') = (armsYield arms || armsYield arms') := by
  induction arms with
  | nil => rfl
  | cons arm arms ih =>
    obtain ⟨r, p, guard, b⟩ := arm
    simp [armsYield, ih, Bool.or_assoc]

theorem stmtFnTypes_append (ss ss' : List Stmt) :
    stmtFnTypes (ss ++ ss') = stmtFnTypes ss ++ stmtFnTypes ss' := by
  induction ss with
  | nil => rfl
  | cons s ss ih => simp [stmtFnTypes, ih]

theorem armFnTypes_append (arms arms' : List Arm) :
    armFnTypes (arms ++ arms') = armFnTypes arms ++ armFnTypes arms' := by
  induction arms with
  | nil => rfl
  | cons arm arms ih =>
    obtain ⟨r, p, guard, b⟩ := arm
    simp [armFnTypes, ih]

mutual

theorem stmt_of_inserts : ∀ {s s' : Stmt}, s.Inserts s' → stmtYields s' = true ∧
    s'.fnTypes = s.fnTypes
  | _, _, .otherwise _ _ _ _ h | _, _, .thenBlock _ _ none h | _, _, .thenBlock _ _ (some _) h
  | _, _, .elseBlock _ _ _ h | _, _, .whileDo _ _ h | _, _, .loop _ h | _, _, .forIn _ _ _ h
  | _, _, .block _ h => by
    simp [stmtYields, Stmt.fnTypes, block_of_inserts h]
  | _, _, .arm _ _ _ _ _ _ _ h => by
    simp [stmtYields, armsYield_append, armsYield, Stmt.fnTypes, armFnTypes_append, armFnTypes,
      block_of_inserts h]

/-- A block with one suspension more yields, and has the same functions. -/
theorem block_of_inserts : ∀ {b b' : Block}, b.Inserts b' →
    blockYields b' = true ∧ b'.fnTypes = b.fnTypes
  | _, _, .here .. => by
    simp [blockYields, rowYields_append, rowYields, stmtYields, Expr.yields, Expr.walk,
      Expr.isYield, Block.fnTypes, stmtFnTypes_append, stmtFnTypes, Stmt.fnTypes]
  | _, _, .inside _ _ _ _ h => by
    simp [blockYields, rowYields_append, rowYields, Block.fnTypes, stmtFnTypes_append, stmtFnTypes,
      stmt_of_inserts h]

end

mutual

theorem stmtActs_of_inserts : ∀ {s s' : Stmt}, s.Inserts s' → Suspended (stmtActs s) (stmtActs s')
  | _, _, .otherwise _ p type value h =>
    (blockActs_of_inserts h).around (raised_refl (exprActs value ++ [.hold value type]))
      [.bind p type value, .drop]
  | _, _, .thenBlock _ c none h =>
    (blockActs_of_inserts h).around (raised_refl (.openScope :: conditionActs c)) [.closeScope]
  | _, _, .thenBlock _ c (some b) h =>
    (blockActs_of_inserts h).around (raised_refl (.openScope :: conditionActs c))
      (.closeScope :: blockActs b)
  | _, _, .elseBlock _ c a h =>
    (blockActs_of_inserts h).around
      (raised_refl (.openScope :: conditionActs c ++ blockActs a ++ [.closeScope])) []
  | _, _, .whileDo _ c h =>
    (blockActs_of_inserts h).around (raised_refl (.enter :: .openScope :: conditionActs c))
      [.closeScope, .leave]
  | _, _, .loop _ h =>
    (blockActs_of_inserts h).around (raised_refl [.enter, .openScope]) [.closeScope, .leave]
  | _, _, .forIn _ p iterable (b := b) h =>
    -- the loop around the new suspension yields now
    (blockActs_of_inserts h).around
      (rel_append (raised_refl (exprActs iterable ++ [.hold iterable none]))
        (.cons (.iterate iterable (blockYields b))
          (raised_refl [.enter, .openScope, .next p iterable])))
      [.closeScope, .leave, .drop] (by simp [stmtActs])
      (by simp [stmtActs, (block_of_inserts h).1])
  | _, _, .block _ h => blockActs_of_inserts h
  | _, _, .arm _ e before _ p guard after h =>
    (blockActs_of_inserts h).around
      (raised_refl (exprActs e ++ .hold e none :: armActs e before ++
        .openScope :: .bind p none e :: optionalActs guard))
      (.closeScope :: armActs e after ++ [.drop])
      (by simp [stmtActs, armActs_append, armActs]) (by simp [stmtActs, armActs_append, armActs])

theorem blockActs_of_inserts : ∀ {b b' : Block}, b.Inserts b' →
    Suspended (blockActs b) (blockActs b')
  | _, _, .here before after _ tail _ r =>
    ⟨.openScope :: rowActs before, _, rowActs after ++ optionalActs tail ++ [.closeScope], r,
      by simp [blockActs, rowActs_append],
      by simp [blockActs, rowActs_append, rowActs, stmtActs, exprActs], raised_refl _⟩
  | _, _, .inside before after _ tail h =>
    (stmtActs_of_inserts h).around (raised_refl (.openScope :: rowActs before))
      (rowActs after ++ optionalActs tail ++ [.closeScope])
      (by simp [blockActs, rowActs_append, rowActs]) (by simp [blockActs, rowActs_append, rowActs])

end

/-! ## What values point into -/

/-- The traces have the same names in scope, bound to variables that hold the same. -/
structure Trace.Agrees (t t' : Trace) : Prop where
  scope : t'.scope = t.scope
  owned : ∀ i : ℕ, (t'.bindings[i]?).map Binding.owned = (t.bindings[i]?).map Binding.owned
  lenders : ∀ i : ℕ, (t'.bindings[i]?).map Binding.lenders = (t.bindings[i]?).map Binding.lenders

section Agrees

variable {t t' : Trace}

theorem Trace.Agrees.lookup? (h : t.Agrees t') (x : String) : t'.lookup? x = t.lookup? x := by
  rw [Trace.lookup?, Trace.lookup?, h.scope]

theorem Trace.Agrees.lendersOf (h : t.Agrees t') (i : ℕ) : t'.lendersOf i = t.lendersOf i := by
  rw [Trace.lendersOf, Trace.lendersOf, h.lenders]

theorem Trace.Agrees.root? (h : t.Agrees t') (e : Expr) : Borrow.root? t' e = Borrow.root? t e := by
  rw [Borrow.root?, Borrow.root?, funext h.lookup?]

theorem Trace.Agrees.placeLenders (h : t.Agrees t') (e : Expr) :
    Borrow.placeLenders t' e = Borrow.placeLenders t e := by
  rw [Borrow.placeLenders, Borrow.placeLenders, h.root? e]
  cases Borrow.root? t e with
  | none => rfl
  | some i =>
    have howned := h.owned i
    have hlenders := h.lenders i
    dsimp only
    cases hb : t.bindings[i]? with
    | none =>
      rw [hb] at howned
      rw [Option.map_eq_none_iff.1 howned]
    | some b =>
      rw [hb] at howned hlenders
      obtain ⟨b', hb', howned⟩ := Option.map_eq_some_iff.1 howned
      rw [hb'] at hlenders
      simp only [Option.map_some, Option.some.injEq] at hlenders
      simp only [hb', howned, hlenders]

mutual

theorem Trace.Agrees.exprLenders (h : t.Agrees t') (fns : FnTypes) :
    ∀ e : Expr, Borrow.lenders fns t' e = Borrow.lenders fns t e
  | .borrow _ value _ => h.placeLenders value
  | .name _ x => by
    simp only [Borrow.lenders, h.lookup? x]
    cases t.lookup? x <;> simp [h.lendersOf]
  | .field .. | .tupleField .. | .index .. => by
    simp only [Borrow.lenders, h.root?]
    cases Borrow.root? t _ <;> simp [h.lendersOf]
  | .methodCall _ receiver method args => by
    simp only [Borrow.lenders, h.root? receiver, h.placeLenders receiver,
      h.exprLenders fns receiver, h.rowLenders fns args]
  | .tuple _ es | .array _ es => h.rowLenders fns es
  | .call _ func args => by simp only [Borrow.lenders, h.rowLenders fns args]
  | .attempt _ e => h.exprLenders fns e
  | .literal .. | .path .. | .unary .. | .binary .. | .range .. | .macroCall .. | .await ..
  | .yield ..
  | .helper .. => rfl

theorem Trace.Agrees.rowLenders (h : t.Agrees t') (fns : FnTypes) :
    ∀ es : List Expr, Borrow.rowLenders fns t' es = Borrow.rowLenders fns t es
  | [] => rfl
  | e :: es => by
    rw [Borrow.rowLenders, Borrow.rowLenders, h.exprLenders fns e, h.rowLenders fns es]

end

end Agrees

/-! ## One position later -/

/-- The position of an event when the positions after `n` move on by one. -/
def later (n p : ℕ) : ℕ := if p ≤ n then p else p + 1

theorem later_of_le {n p : ℕ} (h : p ≤ n) : later n p = p := if_pos h

theorem later_succ {n p : ℕ} (h : n ≤ p) : later n (p + 1) = p + 2 := if_neg (by omega)

theorem strictMono_later (n : ℕ) : StrictMono (later n) := by
  intro p q h
  unfold later
  split <;> split <;> omega

def Taint.later (n : ℕ) (τ : Taint) : Taint := { τ with pos := Borrow.later n τ.pos }

def Binding.later (n : ℕ) (b : Binding) : Binding :=
  { b with pos := Borrow.later n b.pos, taints := b.taints.map (·.later n) }

def Use.later (n : ℕ) (use : Use) : Use := { use with pos := Borrow.later n use.pos }

def Suspension.later (n : ℕ) (y : Suspension) : Suspension :=
  { y with pos := Borrow.later n y.pos }

def LoopRange.later (n : ℕ) (range : LoopRange) : LoopRange :=
  ⟨Borrow.later n range.first, Borrow.later n range.last⟩

theorem Binding.lenders_later (n : ℕ) (b : Binding) : (b.later n).lenders = b.lenders := by
  simp only [Binding.lenders, Binding.later, foldl_map]
  rfl

/-- **Delay**: the second trace has noted one suspension more, at the position after `n`. -/
structure Trace.Delayed (n : ℕ) (t t' : Trace) : Prop where
  after : n ≤ t.pos
  pos : t'.pos = t.pos + 1
  scope : t'.scope = t.scope
  around : t'.around = t.around
  bindings : t'.bindings = t.bindings.map (·.later n)
  loops : t'.loops = t.loops.map (·.later n)
  uses : t'.uses = t.uses.map (·.later n)
  suspensions : ∀ y ∈ t.suspensions, y.later n ∈ t'.suspensions
  diagnostics : t'.diagnostics = t.diagnostics

/-- The same progress, with the positions from `n` on one later. -/
structure Progress.Delayed (n : ℕ) (w w' : Progress) : Prop where
  trace : w.trace.Delayed n w'.trace
  held : w'.held = w.held
  scopes : w'.scopes = w.scopes
  outside : w'.outside = w.outside

theorem map_modify {α β : Type} (f : α → β) (g : α → α) (g' : β → β) (h : ∀ a, f (g a) = g' (f a))
    (xs : Array α) (i : ℕ) : (xs.modify i g).map f = (xs.map f).modify i g' := by
  refine Array.ext_getElem? fun j => ?_
  simp only [Array.getElem?_map, Array.getElem?_modify]
  split <;> simp [Function.comp_def, h]

namespace Trace.Delayed

variable {n : ℕ} {t t' : Trace} (h : t.Delayed n t')

include h

theorem agrees : t.Agrees t' where
  scope := h.scope
  owned i := by
    rw [h.bindings, Array.getElem?_map, Option.map_map]
    rfl
  lenders i := by
    rw [h.bindings, Array.getElem?_map, Option.map_map]
    exact congrArg (Option.map · _) (funext fun b => b.lenders_later n)

theorem names (ls : Lenders) : Borrow.names t' ls = Borrow.names t ls := by
  simp only [Borrow.names, h.bindings, Array.getElem?_map, Option.map_map]
  rfl

theorem later_pos : Borrow.later n (t.pos + 1) = t'.pos + 1 := by rw [later_succ h.after, h.pos]

theorem tick : t.tick.Delayed n t'.tick :=
  { h with
    after := h.after.trans (Nat.le_succ _)
    pos := congrArg (· + 1) h.pos }

/-- **Every note keeps the delay.** -/
theorem note (x : Note) : (t.note x).Delayed n (t'.note x) := by
  cases x with
  | touch r v =>
    refine { h.tick with uses := ?_ }
    simp [Trace.note, Trace.touch, h.uses, h.around, Use.later, h.later_pos]
  | suspend r =>
    refine { h.tick with suspensions := fun y hy => ?_ }
    rcases Array.mem_push.1 hy with hy | rfl
    · exact Array.mem_push_of_mem _ (h.suspensions y hy)
    · simp [Suspension.later, Trace.note, Trace.suspend, h.later_pos]
  | bind name owned held r =>
    refine { h.tick with scope := ?_, bindings := ?_ }
    · simp [Trace.note, h.scope, h.bindings]
    · simp only [Trace.note, Trace.declare, h.bindings, Array.map_push, Binding.later, h.later_pos]
      split <;> simp [Taint.later, h.later_pos]
  | taint v held r =>
    simp only [Trace.note, Trace.taint]
    split
    · exact h
    · refine { h.tick with bindings := ?_ }
      simp only [Trace.tick, h.bindings]
      refine (map_modify _ _ _ (fun b => ?_) _ _).symm
      simp [Binding.later, Taint.later, h.later_pos]
  | enter =>
    refine { h.tick with around := ?_, loops := ?_ }
    · simp [Trace.note, Trace.enter, h.around, h.loops]
    · simp [Trace.note, Trace.enter, h.loops, LoopRange.later, h.later_pos, later_of_le]
  | leave around loop =>
    refine { h.tick with around := rfl, loops := ?_ }
    simp only [Trace.note, Trace.leaveTo, Trace.tick, h.loops]
    exact (map_modify _ _ _ (fun range => by simp [LoopRange.later, h.later_pos]) _ _).symm
  | scope names => exact { h with scope := rfl }
  | report error => exact { h with diagnostics := congrArg (· ++ [error]) h.diagnostics }

omit h in
theorem notes (h : t.Delayed n t') (xs : List Note) :
    (xs.foldl Trace.note t).Delayed n (xs.foldl Trace.note t') := by
  induction xs generalizing t t' with
  | nil => exact h
  | cons x xs ih => exact ih (h.note x)

end Trace.Delayed

section Acts

variable {n : ℕ} {w w' : Progress} (h : w.Delayed n w') (file : Option String) (fns : FnTypes)

include h

theorem Progress.Delayed.notes_eq (a : Act) : a.notes file fns w' = a.notes file fns w := by
  have htop : w'.top = w.top := by rw [Progress.top, Progress.top, h.held]
  have hagrees := h.trace.agrees
  cases a with
  | visit e =>
    cases e with
    | name r x => simp only [Act.notes, visitNotes, hagrees.lookup?]
    | methodCall r receiver method args =>
      simp only [Act.notes, visitNotes, hagrees.root?, hagrees.rowLenders fns]
    | _ => rfl
  | bind | next => simp only [Act.notes, htop]
  | store target value => simp only [Act.notes, hagrees.root?, hagrees.exprLenders fns]
  | iterate iterable yields => simp only [Act.notes, htop, loopError, h.trace.names]
  | closeScope => simp only [Act.notes, h.scopes]
  | leave => simp only [Act.notes, h.outside]
  | hold | drop | param | openScope | enter => rfl

/-- **Acts keep the delay.** -/
theorem Progress.Delayed.step (a : Act) : (a.step file fns w).Delayed n (a.step file fns w') := by
  have htrace : (a.step file fns w).trace.Delayed n (a.step file fns w').trace := by
    rw [a.trace_step, a.trace_step, h.notes_eq file fns a]
    exact h.trace.notes _
  cases a with
  | visit | param | bind | next | store => exact { h with trace := htrace }
  | hold value type =>
    refine { h with held := ?_ }
    simp only [Act.step, h.held, h.trace.agrees.exprLenders fns value]
  | drop => exact { h with held := congrArg tail h.held }
  | iterate iterable yields =>
    refine { h with trace := htrace, held := ?_ }
    rw [Act.step, Act.step, Progress.top, Progress.top, h.held]
  | openScope =>
    refine { h with scopes := ?_ }
    simp only [Act.step, h.trace.scope, h.scopes]
  | closeScope => exact { h with trace := htrace, scopes := congrArg tail h.scopes }
  | enter =>
    refine { h with trace := htrace, outside := ?_ }
    simp [Act.step, h.outside, h.trace.around, h.trace.loops]
  | leave => exact { h with trace := htrace, outside := congrArg tail h.outside }

end Acts

theorem Progress.Delayed.perform {n : ℕ} {w w' : Progress} (h : w.Delayed n w')
    (file : Option String) (fns : FnTypes) (as : List Act) :
    (perform file fns w as).Delayed n (perform file fns w' as) := by
  induction as generalizing w w' with
  | nil => exact h
  | cons a as ih => exact ih (h.step file fns a)

/-! ## Before the suspension -/

/-- All positions that the trace has noted are behind it. -/
structure Trace.Past (t : Trace) : Prop where
  bindings : ∀ b ∈ t.bindings, b.pos ≤ t.pos ∧ ∀ τ ∈ b.taints, τ.pos ≤ t.pos
  loops : ∀ range ∈ t.loops, range.first ≤ t.pos ∧ range.last ≤ t.pos
  uses : ∀ use ∈ t.uses, use.pos ≤ t.pos
  suspensions : ∀ y ∈ t.suspensions, y.pos ≤ t.pos

namespace Trace.Past

variable {t : Trace} (h : t.Past)

include h

theorem tick : t.tick.Past where
  bindings b hb := ⟨(h.bindings b hb).1.trans (Nat.le_succ _),
    fun τ hτ => ((h.bindings b hb).2 τ hτ).trans (Nat.le_succ _)⟩
  loops range hrange := ⟨(h.loops range hrange).1.trans (Nat.le_succ _),
    (h.loops range hrange).2.trans (Nat.le_succ _)⟩
  uses use huse := (h.uses use huse).trans (Nat.le_succ _)
  suspensions y hy := (h.suspensions y hy).trans (Nat.le_succ _)

/-- **Every note is behind the position after it.** -/
theorem note (x : Note) : (t.note x).Past := by
  cases x with
  | touch r v =>
    refine { h.tick with uses := fun use huse => ?_ }
    rcases Array.mem_push.1 huse with huse | rfl
    · exact h.tick.uses use huse
    · exact le_rfl
  | suspend r =>
    refine { h.tick with suspensions := fun y hy => ?_ }
    rcases Array.mem_push.1 hy with hy | rfl
    · exact h.tick.suspensions y hy
    · exact le_rfl
  | bind name owned held r =>
    refine { h.tick with bindings := fun b hb => ?_ }
    rcases Array.mem_push.1 hb with hb | rfl
    · exact h.tick.bindings b hb
    · refine ⟨le_rfl, ?_⟩
      dsimp only
      split
      · exact nofun
      · exact forall_mem_singleton.2 le_rfl
  | taint v held r =>
    simp only [Trace.note, Trace.taint]
    split
    · exact h
    · refine { h.tick with bindings := fun b hb => ?_ }
      obtain ⟨j, hj⟩ := Array.mem_iff_getElem?.1 hb
      rw [Array.getElem?_modify] at hj
      split at hj
      · obtain ⟨b, hbefore, rfl⟩ := Option.map_eq_some_iff.1 hj
        have hkept := h.tick.bindings b (Array.mem_of_getElem? hbefore)
        exact ⟨hkept.1, forall_mem_append.2 ⟨hkept.2, forall_mem_singleton.2 le_rfl⟩⟩
      · exact h.tick.bindings b (Array.mem_of_getElem? hj)
  | enter =>
    refine { h.tick with loops := fun range hrange => ?_ }
    rcases Array.mem_push.1 hrange with hrange | rfl
    · exact h.tick.loops range hrange
    · exact ⟨le_rfl, Nat.zero_le _⟩
  | leave around loop =>
    refine { h.tick with loops := fun range hrange => ?_ }
    obtain ⟨j, hj⟩ := Array.mem_iff_getElem?.1 hrange
    rw [Trace.note, Trace.leaveTo, Array.getElem?_modify] at hj
    split at hj
    · obtain ⟨range, hbefore, rfl⟩ := Option.map_eq_some_iff.1 hj
      exact ⟨(h.tick.loops range (Array.mem_of_getElem? hbefore)).1, le_rfl⟩
    · exact h.tick.loops range (Array.mem_of_getElem? hj)
  | scope | report => exact { h with }

end Trace.Past

/-- **A suspension begins a delay.** -/
theorem delayed_suspend {w : Progress} (h : w.trace.Past) (file : Option String) (fns : FnTypes)
    (r : Region) : w.Delayed w.trace.pos (Act.step file fns w (.visit (.yield r none))) := by
  refine ⟨⟨le_rfl, rfl, rfl, rfl, ?_, ?_, ?_, fun y hy => ?_, rfl⟩, rfl, rfl, rfl⟩
  · refine ((Array.map_congr_left fun b hb => ?_).trans (Array.map_id _)).symm
    obtain ⟨hpos, htaints⟩ := h.bindings b hb
    have hsame : b.taints.map (·.later w.trace.pos) = b.taints :=
      (map_congr_left fun τ hτ => by rw [Taint.later, later_of_le (htaints τ hτ)]; rfl).trans
        (map_id _)
    rw [Binding.later, later_of_le hpos, hsame]
    rfl
  · refine ((Array.map_congr_left fun range hrange => ?_).trans (Array.map_id _)).symm
    obtain ⟨hfirst, hlast⟩ := h.loops range hrange
    rw [LoopRange.later, later_of_le hfirst, later_of_le hlast]
    rfl
  · refine ((Array.map_congr_left fun use huse => ?_).trans (Array.map_id _)).symm
    rw [Use.later, later_of_le (h.uses use huse)]
    rfl
  · rw [Suspension.later, later_of_le (h.suspensions y hy)]
    exact Array.mem_push_of_mem _ hy

/-! ## Loops that come to yield -/

theorem diagnostics_perform (file : Option String) (fns : FnTypes) (w : Progress) (as : List Act) :
    w.trace.diagnostics <+: (perform file fns w as).trace.diagnostics := by
  refine note_induction (P := fun t => w.trace.diagnostics <+: t.diagnostics) (fun t x h => ?_) file
    fns as (prefix_refl _)
  cases x with
  | taint v held r =>
    simp only [Trace.note, Trace.taint]
    split <;> exact h
  | report error => exact h.trans (prefix_append _ _)
  | touch | suspend | bind | enter | leave | scope => exact h

theorem perform_raised (file : Option String) (fns : FnTypes) {as as' : List Act}
    (h : Forall₂ Act.Raised as as') (w : Progress) :
    (perform file fns w as').trace.diagnostics ≠ [] ∨
      perform file fns w as' = perform file fns w as := by
  induction h generalizing w with
  | nil => exact .inr rfl
  | @cons a a' as as' ha _ ih =>
    cases ha with
    | refl => exact ih _
    | iterate iterable yields =>
      by_cases hempty : w.top.isEmpty
      · have hsame : Act.step file fns w (.iterate iterable true) =
            Act.step file fns w (.iterate iterable yields) := by simp [Act.step, hempty]
        rw [perform_cons, perform_cons, hsame]
        exact ih _
      · left
        have hreport : (Act.step file fns w (.iterate iterable true)).trace.diagnostics ≠ [] := by
          simp [Act.step, hempty]
        exact fun hnil => hreport (prefix_nil.1 (hnil ▸ diagnostics_perform file fns _ as'))

/-! ## What escapes -/

theorem isSome_suspensionBetween_iff {t : Trace} {first last : ℕ} :
    (suspensionBetween? t first last).isSome ↔
      ∃ y ∈ t.suspensions, first < y.pos ∧ y.pos < last := by
  simp [suspensionBetween?]

variable {file : Option String}

/-- A use shows an error when a suspension comes between it and a borrow that its binding holds, or
when one is in a loop around it that the binding outlives. -/
theorem isSome_escape_iff {t : Trace} {use : Use} : (escape? file t use).isSome ↔ ∃ b,
    t.bindings[use.binding]? = some b ∧ ∃ τ ∈ b.taints,
      (∃ y ∈ t.suspensions, τ.pos < y.pos ∧ y.pos < use.pos) ∨
      ∃ loop ∈ use.loops, ∃ range, t.loops[loop]? = some range ∧ b.pos ≤ range.first ∧
        τ.pos ≤ range.last ∧ ∃ y ∈ t.suspensions, range.first < y.pos ∧ y.pos < range.last := by
  constructor
  · intro h
    unfold escape? at h
    split at h
    · cases h
    · next b hb =>
      obtain ⟨τ, hτ, h⟩ := findSome?_isSome_iff.1 h
      refine ⟨b, hb, τ, hτ, ?_⟩
      rw [Option.isSome_map, suspensionBefore?, Option.orElse_eq_orElse, Option.orElse_eq_or,
        Option.isSome_or, Bool.or_eq_true] at h
      refine h.imp isSome_suspensionBetween_iff.1 fun h => ?_
      obtain ⟨loop, hloop, h⟩ := findSome?_isSome_iff.1 h
      split at h
      · cases h
      · next range hrange =>
        split at h
        · cases h
        · next hinside =>
          simp only [Bool.or_eq_true, decide_eq_true_eq, not_or, not_lt, gt_iff_lt] at hinside
          exact ⟨loop, hloop, range, hrange, hinside.1, hinside.2, isSome_suspensionBetween_iff.1 h⟩
  · rintro ⟨b, hb, τ, hτ, ⟨y, hy, hfirst, hlast⟩ |
      ⟨loop, hloop, range, hrange, houter, hτlast, y, hy, hfirst, hlast⟩⟩
    · exact escape_between hb hτ hy hfirst hlast
    · exact escape_around hb hτ hy hloop hrange houter hτlast hfirst hlast

theorem escape_of_delayed {n : ℕ} {t t' : Trace} (h : t.Delayed n t') {use : Use}
    (hescape : (escape? file t use).isSome) : (escape? file t' (use.later n)).isSome := by
  have hlt {p q : ℕ} : p < q → later n p < later n q := fun h => strictMono_later n h
  have hle {p q : ℕ} : p ≤ q → later n p ≤ later n q := fun h => (strictMono_later n).monotone h
  obtain ⟨b, hb, τ, hτ, hshown⟩ := isSome_escape_iff.1 hescape
  refine isSome_escape_iff.2 ⟨b.later n, ?_, τ.later n, mem_map_of_mem hτ, hshown.imp ?_ ?_⟩
  · rw [h.bindings, Array.getElem?_map]
    exact congrArg (Option.map _) hb
  · rintro ⟨y, hy, hfirst, hlast⟩
    exact ⟨y.later n, h.suspensions y hy, hlt hfirst, hlt hlast⟩
  · rintro ⟨loop, hloop, range, hrange, houter, hτlast, y, hy, hfirst, hlast⟩
    refine ⟨loop, hloop, range.later n, ?_, hle houter, hle hτlast, y.later n, h.suspensions y hy,
      hlt hfirst, hlt hlast⟩
    rw [h.loops, Array.getElem?_map, hrange]
    rfl

theorem exists_of_escapes_ne_nil {t : Trace} {uses : List Use} {reported : List ℕ}
    (h : escapes file t reported uses ≠ []) : ∃ use ∈ uses, (escape? file t use).isSome := by
  induction uses generalizing reported with
  | nil => exact absurd rfl h
  | cons use uses ih =>
    have hrest {reported : List ℕ} (h : escapes file t reported uses ≠ []) :
        ∃ u ∈ use :: uses, (escape? file t u).isSome :=
      (ih h).imp fun _ hu => ⟨mem_cons_of_mem _ hu.1, hu.2⟩
    rw [escapes] at h
    split at h
    · exact hrest h
    · split at h
      · exact hrest h
      · next hd => exact ⟨use, mem_cons_self, by rw [hd]; rfl⟩

theorem checkEscapes_ne_nil_iff {d : Definition} : checkEscapes file d ≠ [] ↔
    (trace file d).diagnostics ≠ [] ∨
      ∃ use ∈ (trace file d).uses, (escape? file (trace file d) use).isSome := by
  rw [checkEscapes, ne_eq, append_eq_nil_iff, not_and_or]
  refine or_congr_right ⟨fun h => ?_, ?_⟩
  · obtain ⟨use, huse, h⟩ := exists_of_escapes_ne_nil h
    exact ⟨use, by simpa using huse, h⟩
  · rintro ⟨use, huse, h⟩
    exact escapes_ne_nil h (by simpa using huse)

/-! ## Items -/

theorem acts_of_inserts {d : Definition} {b : Block} (h : d.body.Inserts b) :
    Suspended (acts d) (acts { d with body := b }) :=
  (blockActs_of_inserts h).around (raised_refl (d.params.map .param ++ rowActs d.prelude)) []
    (by simp [acts]) (by simp [acts])

/-- **Adding a suspension never makes a self-reference acceptable**: an item that has an error still
has one after a `yield;` is put anywhere into its body. -/
theorem checkEscapes_of_inserts (file : Option String) {d : Definition} {b : Block}
    (h : d.body.Inserts b) (hd : checkEscapes file d ≠ []) :
    checkEscapes file { d with body := b } ≠ [] := by
  obtain ⟨before, before', after, r, hacts, hacts', hraised⟩ := acts_of_inserts h
  have hfns : ({ d with body := b } : Definition).fnTypes = d.fnTypes := by
    simp [Definition.fnTypes, (block_of_inserts h).2]
  have htrace := congrArg Progress.trace (trace_eq_perform file d)
  have htrace' := congrArg Progress.trace (trace_eq_perform file { d with body := b })
  rw [hacts, perform_append] at htrace
  rw [hfns, hacts', perform_append, perform_cons] at htrace'
  dsimp only at htrace htrace'
  rw [checkEscapes_ne_nil_iff] at hd ⊢
  rcases perform_raised file d.fnTypes hraised {} with hreport | hsame
  · -- a loop around the new suspension is reported
    left
    rw [← htrace']
    have hgrow := diagnostics_perform file d.fnTypes (perform file d.fnTypes {} before')
      (.visit (.yield r none) :: after)
    intro hnil
    rw [perform_cons, hnil] at hgrow
    exact hreport (prefix_nil.1 hgrow)
  · have hpast :=
      note_induction (P := Trace.Past) (fun _ x h => h.note x) file d.fnTypes before (w := {})
      ⟨nofun, nofun, nofun, nofun⟩
    have hdelayed := ((delayed_suspend hpast file d.fnTypes r).perform file d.fnTypes after).trace
    rw [hsame] at htrace'
    rw [htrace, htrace'] at hdelayed
    refine hd.imp (hdelayed.diagnostics ▸ ·) ?_
    rintro ⟨use, huse, hescape⟩
    refine ⟨use.later _, ?_, escape_of_delayed hdelayed hescape⟩
    rw [hdelayed.uses]
    exact Array.mem_map_of_mem huse

/-- `let x = z(); let r = &x; for i in r { if c() {` the statements `}} yield 1; g(r);` -/
def lendingAround (stmts : List Stmt) : List Stmt :=
  [letCall "x",
    .letIn default (.bind default "r" false) none (.borrow default (.name default "x") false) none,
    .forIn default (.bind default "i" false) (.name default "r")
      (.mk [.ifElse default (.test (.call default (.name default "c") []))
        (.mk stmts default none) none] default none),
    yieldOne, callOn "r"]

/-- `break;` in its place. -/
def lending : Definition := numbers [] (lendingAround [.breakLoop default])

/-- The body of `lending` with a `yield;` before `break;`. -/
def lendingLonger : Block :=
  .mk (lendingAround [.expr default (.yield default none), .breakLoop default]) default none

theorem lending_inserts :
    checkEscapes none lending ≠ [] ∧ lending.body.Inserts lendingLonger ∧
      checkEscapes none { lending with body := lendingLonger } ≠ [] := by
  have hlending : checkEscapes none lending ≠ [] := by decide
  have hinserts : lending.body.Inserts lendingLonger :=
    .inside [_, _] [_, _] _ _ (.forIn _ _ _ (.inside [] [] _ _ (.thenBlock _ _ _
      (.here [] [_] _ _ _ _))))
  exact ⟨hlending, hinserts, checkEscapes_of_inserts none hinserts hlending⟩

end Borrow

end Yielding
