import Yielding.Proofs.Lowering.Sites
import Yielding.Proofs.Scoping.Emission

/-!
# Proofs/Lowering/Mutables — names that are read before they change

An operand that is a name is kept in a temporary before anything runs for a later operand, if the
item binds the name `mut`: by one of its parameters, or by a pattern at any depth.  Then the
temporary is read in its place (`mutable_operands_kept`).  The parameters of nested functions do not
count, even if they are `mut` (`mutable_parameter_is_read_late`).
-/

namespace Yielding

open List

/-! ## Names bound `mut` -/

/-- The pattern binds `mut x`. -/
inductive Pattern.BindsMut (x : String) : Pattern → Prop
  | bind (r) : BindsMut x (.bind r x true)
  | tuple {r items q} : q ∈ items → BindsMut x q → BindsMut x (.tuple r items)
  | variant {r v inner} : BindsMut x inner → BindsMut x (.variant r v inner)

def Condition.patterns : Condition → List Pattern
  | .test _ => []
  | .letMatch _ p _ => [p]

mutual

def Stmt.patterns : Stmt → List Pattern
  | .letIn _ p _ _ none => [p]
  | .letIn _ p _ _ (some b) | .forIn _ p _ b => p :: b.patterns
  | .ifElse _ condition b none | .whileDo _ condition b => condition.patterns ++ b.patterns
  | .ifElse _ condition a (some b) => condition.patterns ++ a.patterns ++ b.patterns
  | .loop _ b | .block _ b | .fn _ _ _ _ b => b.patterns
  | .matchOn _ _ arms => armPatterns arms
  | .assign .. | .expr .. | .ret .. | .breakLoop _ | .continueLoop _ | .suspend ..
  | .terminate _ => []

def rowPatterns : List Stmt → List Pattern
  | [] => []
  | s :: ss => s.patterns ++ rowPatterns ss

def Block.patterns : Block → List Pattern
  | .mk stmts _ _ => rowPatterns stmts

def armPatterns : List Arm → List Pattern
  | [] => []
  | .mk _ p _ b :: arms => p :: (b.patterns ++ armPatterns arms)

end

/-- The item binds the name `mut`: by a parameter of its own, or by a pattern of its prelude or its
body. A receiver behind an exclusive reference counts. -/
def Definition.BindsMut (d : Definition) (x : String) : Prop :=
  (∃ p ∈ d.params, p.name = x ∧ (p.mutable = true ∨ p.receiver? = some .exclusive)) ∨
    ∃ q ∈ rowPatterns d.prelude ++ d.body.patterns, q.BindsMut x

namespace Lowering

section Binding

variable {x : String}

mutual

theorem mem_mutableNames : ∀ {q : Pattern}, x ∈ q.mutableNames ↔ q.BindsMut x
  | .bind r y isMut => by
    rw [Pattern.mutableNames]
    constructor
    · intro h
      cases isMut with
      | false => cases h
      | true =>
        obtain rfl := mem_singleton.1 h
        exact .bind r
    · rintro ⟨⟩
      exact mem_singleton_self x
  | .tuple _ items => by
    rw [Pattern.mutableNames, mem_rowMutableNames]
    constructor
    · rintro ⟨q, hq, h⟩
      exact .tuple hq h
    · rintro (_ | ⟨hq, h⟩)
      exact ⟨_, hq, h⟩
  | .variant _ _ inner => by
    rw [Pattern.mutableNames, mem_mutableNames]
    constructor
    · exact .variant
    · rintro (_ | _ | h)
      exact h
  | .wildcard _ | .noneVariant _ | .literal .. | .rest _ => by
    simp only [Pattern.mutableNames]
    exact ⟨nofun, nofun⟩

theorem mem_rowMutableNames : ∀ {qs : List Pattern},
    x ∈ Pattern.rowMutableNames qs ↔ ∃ q ∈ qs, q.BindsMut x
  | [] => by simp [Pattern.rowMutableNames]
  | q :: qs => by
    rw [Pattern.rowMutableNames, mem_append, mem_mutableNames, mem_rowMutableNames]
    simp

end

theorem conditionMutables_eq (condition : Condition) :
    conditionMutables condition = condition.patterns.flatMap Pattern.mutableNames := by
  cases condition <;> simp [conditionMutables, Condition.patterns]

mutual

theorem stmtMutables_eq : ∀ s : Stmt, stmtMutables s = s.patterns.flatMap Pattern.mutableNames
  | .letIn _ _ _ _ (some b) | .forIn _ _ _ b | .ifElse _ _ b none | .whileDo _ _ b | .loop _ b
  | .block _ b | .fn _ _ _ _ b => by
    simp [stmtMutables, Stmt.patterns, conditionMutables_eq, blockMutables_eq b]
  | .ifElse _ _ a (some b) => by
    simp [stmtMutables, Stmt.patterns, conditionMutables_eq, blockMutables_eq a, blockMutables_eq b]
  | .matchOn _ _ arms => by simp [stmtMutables, Stmt.patterns, armMutables_eq arms]
  | .letIn _ _ _ _ none | .assign .. | .expr .. | .ret .. | .breakLoop _ | .continueLoop _
  | .suspend .. | .terminate _ => by simp [stmtMutables, Stmt.patterns]

theorem rowMutables_eq : ∀ ss : List Stmt,
    rowMutables ss = (rowPatterns ss).flatMap Pattern.mutableNames
  | [] => by simp [rowMutables, rowPatterns]
  | s :: ss => by simp [rowMutables, rowPatterns, stmtMutables_eq s, rowMutables_eq ss]

theorem blockMutables_eq : ∀ b : Block, blockMutables b = b.patterns.flatMap Pattern.mutableNames
  | .mk ss _ _ => by rw [blockMutables, Block.patterns, rowMutables_eq ss]

theorem armMutables_eq : ∀ arms : List Arm,
    armMutables arms = (armPatterns arms).flatMap Pattern.mutableNames
  | [] => by simp [armMutables, armPatterns]
  | .mk _ _ _ b :: arms => by simp [armMutables, armPatterns, blockMutables_eq b,
    armMutables_eq arms]

end

/-- **Lowering knows the names that an item binds `mut`.** -/
theorem mem_mutables {d : Definition} : x ∈ mutables d ↔ d.BindsMut x := by
  rw [mutables, append_assoc, rowMutables_eq, blockMutables_eq, ← flatMap_append, mem_append,
    mem_flatMap, Definition.BindsMut]
  simp only [mem_map, mem_filter, Bool.or_eq_true, decide_eq_true_eq, mem_mutableNames]
  refine or_congr ⟨?_, ?_⟩ Iff.rfl
  · rintro ⟨p, ⟨hp, hmut⟩, hx⟩
    exact ⟨p, hp, hx, hmut⟩
  · rintro ⟨p, hp, hx, hmut⟩
    exact ⟨p, ⟨hp, hmut⟩, hx⟩

end Binding

/-! ## Names in a row of operands -/

section Operands

variable {c : Context} {n : ℕ} {r : Region} {x : String} {k j : ℕ} {l : Lowered}

theorem lowerRow_name {es : List Expr} (h : es[k]? = some (.name r x)) :
    Gives (lowerRow c es) n fun ls _ => ls[k]? = some ⟨[], .name r x⟩ := by
  induction es generalizing k n with
  | nil => cases h
  | cons e es ih =>
    rw [lowerRow]
    cases k with
    | zero =>
      obtain rfl : e = .name r x := by simpa using h
      rfl
    | succ k =>
      exact gives_after fun a m =>
        (ih (by simpa using h)).bind fun ls _ hls => gives_pure.2 (by simpa using hls)

theorem spill_before {ls : List Lowered} (h : ls[j]? = some l) :
    Gives (spill c ls) n fun q _ => ∃ first rest, q.1 = first ++ l.before ++ rest := by
  induction ls generalizing j n with
  | nil => cases h
  | cons a ls ih =>
    cases j with
    | zero =>
      obtain rfl : a = l := by simpa using h
      exact gives_after fun p m =>
        gives_after fun q _ => gives_pure.2 ⟨[], p.before ++ q.1, by simp⟩
    | succ j =>
      refine gives_after fun p m =>
        (ih (by simpa using h)).bind fun q _ ⟨first, rest, hq⟩ => gives_pure.2 ?_
      exact ⟨a.before ++ p.before ++ first, rest, by simp [hq]⟩

/-- **A name that is bound `mut` is kept before what runs for a later operand.** -/
theorem spill_keeps {ls : List Lowered} (hx : x ∈ c.mutables) (hk : ls[k]? = some ⟨[], .name r x⟩)
    (hkj : k < j) (hj : ls[j]? = some l) (hl : l.before ≠ []) :
    Gives (spill c ls) n fun q _ => ∃ i first between rest,
      q.1 = first ++ Temp.operand.kept i (.name r x) :: (between ++ l.before ++ rest) ∧
        q.2[k]? = some (.name r (Temp.operand.name i)) := by
  induction ls generalizing k j n with
  | nil => cases hk
  | cons a ls ih =>
    obtain ⟨j, rfl⟩ : ∃ i, j = i + 1 := ⟨j - 1, by omega⟩
    have hlater : ls[j]? = some l := by simpa using hj
    cases k with
    | zero =>
      obtain rfl : a = ⟨[], .name r x⟩ := by simpa using hk
      have hpending : ls.any Lowered.isPending = true :=
        any_eq_true.2 ⟨l, mem_of_getElem? hlater, by simpa [Lowered.isPending] using hl⟩
      have hprotect : protect c (ls.any Lowered.isPending) (.name r x) = do
          let p ← Temp.operand.keep (.name r x)
          return ⟨[p.1], p.2⟩ := by
        rw [protect, hpending, if_pos (by simp [isStable, hx])]
      rw [spill, hprotect]
      refine gives_bind.2 (gives_bind.2 (gives_keep.2 (gives_pure.2 ?_)))
      refine (spill_before hlater).bind fun q _ hq => gives_pure.2 ?_
      obtain ⟨first, rest, hq⟩ := hq
      exact ⟨n + 1, [], first, rest, by simp [hq], rfl⟩
    | succ k =>
      refine gives_after fun p m =>
        (ih (by simpa using hk) (by omega) hlater).bind fun q _ hq => gives_pure.2 ?_
      obtain ⟨i, first, between, rest, hbefore, hvalue⟩ := hq
      exact ⟨i, a.before ++ p.before ++ first, between, rest, by simp [hbefore],
        by simpa using hvalue⟩

theorem spill_leaves {ls : List Lowered} (hx : x ∉ c.mutables)
    (hk : ls[k]? = some ⟨[], .name r x⟩) :
    Gives (spill c ls) n fun q _ => q.2[k]? = some (.name r x) := by
  induction ls generalizing k n with
  | nil => cases hk
  | cons a ls ih =>
    cases k with
    | zero =>
      obtain rfl : a = ⟨[], .name r x⟩ := by simpa using hk
      have hprotect : protect c (ls.any Lowered.isPending) (.name r x) = pure ⟨[], .name r x⟩ := by
        rw [protect, if_neg (by simp [isStable, hx])]
      rw [spill, hprotect]
      refine gives_bind.2 (gives_pure.2 ?_)
      exact gives_after fun q _ => gives_pure.2 rfl
    | succ k =>
      exact gives_after fun p m =>
        (ih (by simpa using hk)).bind fun q _ hq => gives_pure.2 (by simpa using hq)

end Operands

end Lowering

/-- Whether an expression takes the value of an option away or puts another in its place. -/
def Expr.isSwap : Expr → Bool
  | .methodCall _ _ method args => Lowering.isSwap method args.length
  | _ => false

namespace Lowering

/-! ## Items -/

/-- The name `x`, operand `k` of an expression `e`, is kept in a temporary before what `needed` is
for a later operand, and the temporary is read in its place.  For `&&` and `||` it is the temporary
that decides. -/
inductive Keeps (e : Expr) (k : ℕ) (r : Region) (x : String) (needed : List Stmt) (l : Lowered) :
  Prop
  | strict {i first between rest values} :
    l.before = first ++ Temp.operand.kept i (.name r x) :: (between ++ needed ++ rest) →
    l.value = e.withOperands values → values[k]? = some (.name r (Temp.operand.name i)) →
      Keeps e k r x needed l
  | lazy {i r' op right value} (t : Expr) : t = .name r (Temp.choice.name i) →
    e = .binary r' op (.name r x) right →
    l.before = [Temp.choice.kept i (.name r x),
      .ifElse r' (.test (if op = .and then t else .unary r' .not t))
        (.mk (needed ++ [.assign r' t value .set]) r' none) none] →
    l.value = t → Keeps e k r x needed l

section Items

variable {r : Region} {x : String} {k j : ℕ} {l : Lowered}

theorem Site.lowered_strict {s : Site} (h : isStrict s.expr = true) : ∃ m, s.lowered =
    ⟨((spill s.context s.operands).run m).1.1,
      s.expr.withOperands ((spill s.context s.operands).run m).1.2⟩ := by
  rw [Site.lowered, lowerExpr_strict h]
  exact ⟨_, rfl⟩

theorem lowerLazy_keeps (r' : Region) (op : BinaryOp) (right : Expr) {n : ℕ} (h : l.before ≠ []) :
    Gives (lowerLazy r' op ⟨[], .name r x⟩ l) n fun L _ =>
      Keeps (.binary r' op (.name r x) right) 0 r x l.before L := by
  have hpending : ¬(!l.isPending) = true := by simpa [Lowered.isPending] using h
  rw [lowerLazy, if_neg hpending]
  exact gives_bind.2 (gives_keep.2 (gives_pure.2 (.lazy _ rfl rfl rfl rfl)))

theorem Site.length_operands (s : Site) : s.operands.length = s.expr.operands.length :=
  length_lowerRow s.expr.operands

/-- **A name that is bound `mut` is kept at its site**, if something runs before a later operand. -/
theorem Site.keeps {s : Site} (hx : x ∈ s.context.mutables)
    (hk : s.expr.operands[k]? = some (.name r x))
    (hswap : s.expr.isSwap = true → k ≠ 0) (hkj : k < j)
    (hj : s.operands[j]? = some l) (hl : l.before ≠ []) :
    Keeps s.expr k r x l.before s.lowered := by
  have hname : s.operands[k]? = some ⟨[], .name r x⟩ := lowerRow_name hk
  have hlength : j < s.expr.operands.length :=
    s.length_operands ▸ (List.getElem?_eq_some_iff.1 hj).1
  cases hstrict : isStrict s.expr with
  | true =>
    obtain ⟨m, hlowered⟩ := s.lowered_strict hstrict
    obtain ⟨i, first, between, rest, hbefore, hvalue⟩ := spill_keeps (n := m) hx hname hkj hj hl
    rw [hlowered]
    exact .strict hbefore rfl hvalue
  | false =>
    obtain ⟨c, n, u, e⟩ := s
    -- with fewer than two operands there is no later one
    cases e with
    | yield r' value =>
      cases value with
      | none => exact absurd hlength (Nat.not_lt_zero j)
      | some value =>
        simp only [Expr.operands, Option.toList_some, length_singleton] at hlength
        omega
    | attempt r' operand =>
      simp only [Expr.operands, length_singleton] at hlength
      omega
    | methodCall r' receiver method args =>
      have hmethod : isSwap method args.length = true := by simpa [isStrict] using hstrict
      have hargs : args.length ≤ 1 := by
        simp only [isSwap, Bool.or_eq_true, Bool.and_eq_true, beq_iff_eq] at hmethod
        omega
      have hk : k ≠ 0 := hswap hmethod
      simp only [Expr.operands, length_cons] at hlength
      omega
    | binary r' op left right =>
      have hlazy : op.isLazy = true := by simpa [isStrict] using hstrict
      simp only [Expr.operands, length_cons, length_nil] at hlength
      obtain ⟨rfl, rfl⟩ : k = 0 ∧ j = 1 := by omega
      obtain rfl : left = .name r x := by simpa [Expr.operands] using hk
      obtain rfl := Option.some.inj hj
      rw [Site.lowered, lowerExpr]
      simp only [hlazy, if_true]
      exact lowerLazy_keeps r' op right hl
    | _ => cases hstrict

theorem Site.leaves {s : Site} (hx : x ∉ s.context.mutables)
    (hk : s.expr.operands[k]? = some (.name r x)) (hstrict : isStrict s.expr = true) :
    ∃ values, s.lowered.value = s.expr.withOperands values ∧ values[k]? = some (.name r x) := by
  obtain ⟨m, hlowered⟩ := s.lowered_strict hstrict
  exact ⟨_, congrArg Lowered.value hlowered, spill_leaves hx (lowerRow_name hk)⟩

theorem isUnit_withOperands {e : Expr} (vs : List Expr) (h : e.operands ≠ []) :
    (e.withOperands vs).isUnit = false := by
  cases e with
  | literal | name | path => exact absurd rfl h
  | yield r value => cases value <;> rcases vs with _ | ⟨_, _ | _⟩ <;> rfl
  | tuple | array | macroCall | helper => rfl
  | _ => rcases vs with _ | ⟨_, _ | ⟨_, _ | _⟩⟩ <;> rfl

theorem Keeps.isUnit_value {e : Expr} {needed : List Stmt} (h : Keeps e k r x needed l)
    (hk : e.operands[k]? = some (.name r x)) : l.value.isUnit = false := by
  cases h with
  | strict _ hvalue _ =>
    rw [hvalue]
    exact isUnit_withOperands _ (ne_nil_of_mem (mem_of_getElem? hk))
  | lazy t ht _ _ hvalue =>
    rw [hvalue, ht]
    rfl

/-- What lowering makes of the expression of a site stands in the prelude or in the body. -/
def Site.StandsIn (s : Site) (d : Definition) : Prop :=
  Stands s.isUsed s.lowered d.prelude [] ∨ Stands s.isUsed s.lowered d.body.stmts d.body.tail.toList

/-- **Names that an item binds `mut` are read before they can change.**  Every part of an expression
of an item, guards apart, has its site, and what lowering makes of it stands in the lowered item.
Let a name be an operand there, not the receiver of a swap, and let something run before a later
operand.  If the item binds the name `mut`, it is kept in a temporary before that, and the temporary
is read in its place. Otherwise, `&&` and `||` apart, the name is read in its own place. -/
theorem mutable_operands_kept (d : Definition) :
    List.Forall₂ (fun s e => s.expr = e) (sites d) d.subterms ∧
    ∀ s ∈ sites d, s.StandsIn d.lower ∧
      ∀ k r x, s.expr.operands[k]? = some (.name r x) → (s.expr.isSwap = true → k ≠ 0) →
        (d.BindsMut x → ∀ j l, k < j → s.operands[j]? = some l → l.before ≠ [] →
          Keeps s.expr k r x l.before s.lowered ∧ s.lowered.value.isUnit = false) ∧
        (¬d.BindsMut x → isStrict s.expr = true →
          ∃ values, s.lowered.value = s.expr.withOperands values ∧
            values[k]? = some (.name r x)) := by
  have hsites := sites_isOf d
  refine ⟨hsites.imp fun _ _ h => h.expr, fun s hs => ⟨lower_stands hs, fun k r x hk hswap => ?_⟩⟩
  have hmutables : s.context.mutables = mutables d :=
    ((forall₂_and_left _ _).1 (hsites.imp fun _ _ h => ⟨h.mutables, trivial⟩)).1 s hs
  rw [← mem_mutables, ← hmutables]
  refine ⟨fun hx j l hkj hj hl => ?_, fun hx => Site.leaves hx hk⟩
  have hkeeps := Site.keeps hx hk hswap hkj hj hl
  exact ⟨hkeeps, hkeeps.isUnit_value hk⟩

end Items

open Scoping

/-- `h(x, x.take())` -/
def takingCall : Expr :=
  .call default (.name default "h")
    [.name default "x", .methodCall default (.name default "x") "take" []]

/-- `let mut x = g(); yield h(x, x.take());` -/
def taking : Definition :=
  numbers [] [
    .letIn default (.bind default "x" true) none (.call default (.name default "g") []) none,
    .expr default (.yield default (some takingCall))]

theorem taking_kept :
    taking.BindsMut "x" ∧ ∃ s ∈ sites taking, s.expr = takingCall ∧ s.StandsIn taking.lower ∧
      Keeps takingCall 1 default "x" [Temp.operand.kept 1 (.name default "x"),
        .assign default (.name default "x") (.name default "None") .set] s.lowered := by
  have hx : taking.BindsMut "x" :=
    .inr ⟨.bind default "x" true, mem_append_right _ mem_cons_self, .bind default⟩
  have hs : ⟨bodyContext taking, 0, true, takingCall⟩ ∈ sites taking :=
    mem_of_getElem? (i := 3) rfl
  obtain ⟨hstands, hoperands⟩ := (mutable_operands_kept taking).2 _ hs
  obtain ⟨hkeeps, -⟩ :=
    (hoperands 1 default "x" rfl nofun).1 hx 2 _ (by decide) rfl (cons_ne_nil _ _)
  exact ⟨hx, _, hs, rfl, hstands, hkeeps⟩

def mutableOption : Param := ⟨"x", .typed (.ofName "Option"), default, true⟩

/-- `fn g(mut x: Option) { h(x, x.take()) } yield 1;` -/
def takingInside : Definition :=
  numbers [] [
    .fn default "g" [mutableOption] none (.mk [] default (some takingCall)),
    yieldOne]

/-- **A `mut` parameter of a nested function is read late**: `h(x, x.take())` gets `None` for
`x`. -/
theorem mutable_parameter_is_read_late :
    mutableOption.mutable = true ∧
    takingInside.lower.body.stmts = [
      .fn default "g" [mutableOption] none
        (.mk [Temp.operand.kept 1 (.name default "x"),
            .assign default (.name default "x") (.name default "None") .set] default
          (some (.call default (.name default "h")
            [.name default "x", .name default (Temp.operand.name 1)]))),
      .suspend default (.literal default (.int 1 none))] :=
  ⟨rfl, rfl⟩

end Lowering

end Yielding
