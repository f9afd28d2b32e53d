import Mathlib.Data.List.Forall2
import Yielding.Proofs.Lowering.Prefix

/-!
# Proofs/Lowering/Rows — expressions and their rows of operands

Lowering an expression lowers its operands in a row and then builds it again.  Expressions that do
nothing else are **strict** (`lowerExpr_strict`), and only `yield`, `?`, `&&`, `||` and swaps are
not. So what lowering gives for every expression follows from these cases (`Cases.lowerExpr`): an
expression that nothing has to run before is not changed, hence no guard is (`lowerGuard_same`).
-/

namespace Yielding.Lowering

open List

variable {c : Context} {n : ℕ}

/-! ## Strict expressions -/

/-- Whether lowering an expression only puts its operands in a row. -/
def isStrict : Expr → Bool
  | .yield .. | .attempt .. => false
  | .binary _ op _ _ => !op.isLazy
  | .methodCall _ _ method args => !isSwap method args.length
  | _ => true

theorem spillCons_eq (build : Expr → List Expr → Expr) (a : Lowered) (bs : List Lowered) (e : Expr)
    (he : ∀ v vs, e.withOperands (v :: vs) = build v vs) :
    spillCons c a bs build = do
      let (before, values) ← spill c (a :: bs)
      return ⟨before, e.withOperands values⟩ := by
  simp only [spillCons, spill, bind_assoc, pure_bind, he]

theorem spillPair_eq (build : Expr → Expr → Expr) (a b : Lowered) (e : Expr)
    (he : ∀ v w, e.withOperands [v, w] = build v w) :
    spillPair c a b build = do
      let (before, values) ← spill c [a, b]
      return ⟨before, e.withOperands values⟩ := by
  simp [spillPair, spill, protect, he]

/-- **Strict expressions**: lowering puts their operands in a row. -/
theorem lowerExpr_strict {e : Expr} (h : isStrict e = true) :
    lowerExpr c e = do
      let ls ← lowerRow c e.operands
      let (before, values) ← spill c ls
      return ⟨before, e.withOperands values⟩ := by
  cases e with
  | yield | attempt => cases h
  | literal | name | path =>
    simp [lowerExpr, lowerRow, spill, Expr.operands, Expr.withOperands]
  | binary r op left right =>
    have hop : op.isLazy = false := by simpa [isStrict] using h
    simp only [lowerExpr, hop, Bool.false_eq_true, if_false, Expr.operands, lowerRow, bind_assoc,
      pure_bind]
    exact bind_congr fun a => bind_congr fun b =>
      spillPair_eq _ a b (.binary r op left right) fun _ _ => rfl
  | methodCall r receiver method args =>
    have hswap : isSwap method args.length = false := by simpa [isStrict] using h
    simp only [lowerExpr, hswap, Bool.false_eq_true, if_false, Expr.operands, lowerRow,
      bind_assoc, pure_bind]
    exact bind_congr fun a => bind_congr fun b =>
      spillCons_eq _ a b (.methodCall r receiver method args) fun _ _ => rfl
  | call r func args =>
    exact bind_congr fun a => bind_congr fun b =>
      spillCons_eq _ a b (.call r func args) fun _ _ => rfl
  | index r left right =>
    exact bind_congr fun a => bind_congr fun b =>
      spillPair_eq _ a b (.index r left right) fun _ _ => rfl
  | range r left right inclusive =>
    exact bind_congr fun a => bind_congr fun b =>
      spillPair_eq _ a b (.range r left right inclusive) fun _ _ => rfl
  | field | tupleField | borrow | await | unary =>
    simp [lowerExpr, Expr.operands, lowerRow, spill, protect, Lowered.map, Expr.withOperands]
  | tuple | array | macroCall | helper =>
    simp only [lowerExpr, Expr.operands, Expr.withOperands]

theorem length_spill (ls : List Lowered) :
    Gives (spill c ls) n fun q _ => q.2.length = ls.length := by
  induction ls generalizing n with
  | nil => exact gives_pure.2 rfl
  | cons l ls ih =>
    exact gives_after fun _ _ => ih.bind fun _ _ hq =>
      gives_pure.2 (congrArg (· + 1) hq)

/-! ## All expressions -/

/-- A property of an expression, the number of temporaries made before it, what is made of it, and
the number after that. -/
abbrev Outcome := Expr → ℕ → Lowered → ℕ → Prop

/-- Expressions that are lowered one after the other, each with the property `P`. -/
inductive Row (P : Outcome) : List Expr → ℕ → List Lowered → ℕ → Prop
  | nil {n : ℕ} : Row P [] n [] n
  | cons {e : Expr} {es : List Expr} {n k m : ℕ} {l : Lowered} {ls : List Lowered} :
    P e n l k → Row P es k ls m → Row P (e :: es) n (l :: ls) m

section Row

variable {P Q : Outcome} {es : List Expr} {k : ℕ} {ls : List Lowered}

theorem Row.mono (h : Row P es n ls k) (hPQ : ∀ e ∈ es, ∀ n l k, P e n l k → Q e n l k) :
    Row Q es n ls k := by
  induction h with
  | nil => exact .nil
  | cons he _ ih =>
    rw [forall_mem_cons] at hPQ
    exact .cons (hPQ.1 _ _ _ he) (ih hPQ.2)

theorem Row.forall₂ {R : Expr → Lowered → Prop} (h : Row (fun e _ l _ => R e l) es n ls k) :
    Forall₂ R es ls := by
  induction h with
  | nil => exact .nil
  | cons he _ ih => exact .cons he ih

theorem Row.length (h : Row P es n ls k) : ls.length = es.length := by
  induction h with
  | nil => rfl
  | cons _ _ ih => exact congrArg (· + 1) ih

theorem gives_lowerRow (h : ∀ e ∈ es, ∀ n, Gives (lowerExpr c e) n (P e n)) :
    Gives (lowerRow c es) n (Row P es n) := by
  induction es generalizing n with
  | nil =>
    exact gives_pure.2 .nil
  | cons e es ih =>
    rw [forall_mem_cons] at h
    exact (h.1 n).bind fun l k hl => (ih h.2).bind fun ls m hls => gives_pure.2 (.cons hl hls)

theorem length_lowerRow (es : List Expr) :
    Gives (lowerRow c es) n fun ls _ => ls.length = es.length :=
  (gives_lowerRow (P := fun _ _ _ _ => True) fun _ _ _ => trivial).mono fun _ _ h => h.length

end Row

/-- The cases of lowering, for the property `P`. -/
structure Cases (c : Context) (P : Outcome) : Prop where
  strict : ∀ {e n ls k}, isStrict e = true → Row P e.operands n ls k →
    Gives (spill c ls) k fun q m =>
    (e.withOperands q.2).operands = q.2 → P e n ⟨q.1, e.withOperands q.2⟩ m
  pause : ∀ {r n}, P (.yield r none) n (lowerYield r ⟨[], unitAt r⟩) n
  yield : ∀ {r e n l k}, P e n l k → P (.yield r (some e)) n (lowerYield r l) k
  attempt : ∀ {r e n l k}, P e n l k → Gives (lowerTry c r l) k (P (.attempt r e) n)
  decide : ∀ {r op e₁ e₂ n l₁ k l₂ m}, op.isLazy = true → P e₁ n l₁ k → P e₂ k l₂ m →
    Gives (lowerLazy r op l₁ l₂) m (P (.binary r op e₁ e₂) n)
  swap : ∀ {r e method es n l k ls m}, isSwap method es.length = true → P e n l k →
    Row P es k ls m → Gives (lowerSwap r method l ls) m (P (.methodCall r e method es) n)

/-- **What lowering gives for every expression**, by its cases. -/
theorem Cases.lowerExpr {P : Outcome} (h : Cases c P) (e : Expr) :
    ∀ n, Gives (lowerExpr c e) n (P e n) := by
  induction e using Expr.operandInduction with
  | h e ih =>
    intro n
    cases hstrict : isStrict e with
    | true =>
      rw [lowerExpr_strict hstrict]
      refine (gives_lowerRow ih).bind fun ls k hls => ?_
      have hlength := hls.length ▸ length_spill (c := c) (n := k) ls
      exact gives_bind.2 (h.strict hstrict hls (Expr.operands_withOperands hlength))
    | false =>
      cases e with
      | yield r value =>
        cases value with
        | none =>
          exact gives_pure.2 h.pause
        | some value =>
          exact (ih value (mem_singleton_self _) n).bind fun l k hl => gives_pure.2 (h.yield hl)
      | attempt r operand =>
        exact (ih operand (mem_singleton_self _) n).bind fun l k hl => h.attempt hl
      | binary r op left right =>
        have hlazy : op.isLazy = true := by simpa [isStrict] using hstrict
        obtain ⟨hleft, hright⟩ := forall_mem_cons.1 ih
        rw [Lowering.lowerExpr]
        simp only [hlazy, if_true]
        exact (hleft n).bind fun l k hl => (hright right (mem_singleton_self _) k).bind
          fun l' m hl' => h.decide hlazy hl hl'
      | methodCall r receiver method args =>
        have hswap : isSwap method args.length = true := by simpa [isStrict] using hstrict
        obtain ⟨hreceiver, hargs⟩ := forall_mem_cons.1 ih
        rw [Lowering.lowerExpr]
        simp only [hswap, if_true]
        exact (hreceiver n).bind fun l k hl => (gives_lowerRow hargs).bind fun ls m hls =>
          h.swap hswap hl hls
      | _ => cases hstrict

theorem Cases.lowerRow {P : Outcome} (h : Cases c P) (es : List Expr) :
    Gives (lowerRow c es) n (Row P es n) :=
  gives_lowerRow fun e _ => h.lowerExpr e

/-! ## Guards -/

theorem spill_unmoved {es : List Expr} {ls : List Lowered}
    (h : Forall₂ (fun e l => l.before = [] → l.value = e) es ls) :
    Gives (spill c ls) n fun q _ => q.1 = [] → q.2 = es := by
  induction h generalizing n with
  | nil => exact gives_pure.2 fun _ => rfl
  | @cons e l es ls he _ ih =>
    have hprotect : Gives (protect c (ls.any Lowered.isPending) l.value) n fun p _ =>
        p.before = [] → p.value = l.value := by
      unfold protect
      split
      · exact gives_bind.2 (gives_keep.2 (gives_pure.2 nofun))
      · exact gives_pure.2 fun _ => rfl
    refine hprotect.bind fun p _ hp => ih.bind fun q _ hq => gives_pure.2 fun hnil => ?_
    simp only [append_eq_nil_iff] at hnil
    rw [hp hnil.1.2, he hnil.1.1, hq hnil.2]

theorem values_unmoved {es : List Expr} {ls : List Lowered}
    (h : Forall₂ (fun e l => l.before = [] → l.value = e) es ls)
    (hnil : ls.flatMap Lowered.before = []) : ls.map Lowered.value = es := by
  induction h with
  | nil => rfl
  | cons he _ ih =>
    rw [flatMap_cons, append_eq_nil_iff] at hnil
    rw [map_cons, he hnil.1, ih hnil.2]

theorem unmoved_cases : Cases c fun e _ l _ => l.before = [] → l.value = e where
  strict {e _ _ k} _ hrow _ hnil :=
    (congrArg e.withOperands (spill_unmoved (c := c) (n := k) hrow.forall₂ hnil)).trans
      e.withOperands_operands
  pause hnil := absurd hnil (by simp [lowerYield])
  yield _ hnil := absurd hnil (by simp [lowerYield])
  attempt _ := gives_bind.2 (gives_keep.2 (gives_pure.2 fun hnil => absurd hnil (by simp)))
  decide {r op _ _ _ a _ b _} _ ha hb := by
    unfold lowerLazy
    split
    · next hpending =>
      refine gives_pure.2 fun hnil => congrArg₂ (Expr.binary r op) (ha hnil) (hb ?_)
      simpa [Lowered.isPending] using hpending
    · exact gives_bind.2 (gives_keep.2 (gives_pure.2 fun hnil => absurd hnil (by simp)))
  swap {r _ method _ _ a _ bs _} _ ha hbs := by
    unfold lowerSwap
    split
    · refine gives_pure.2 fun hnil => ?_
      obtain ⟨hnil, hrow⟩ := append_eq_nil_iff.1 hnil
      rw [ha hnil, values_unmoved hbs.forall₂ hrow]
    · exact gives_bind.2 (gives_keep.2 (gives_pure.2 fun hnil => absurd hnil (by simp)))

/-- **Lowering changes no guard**: one that needs statements before it stays as it is, and the
others stay the same. -/
theorem lowerGuard_same (guard : Option Expr) :
    Gives (lowerGuard c guard) n fun g _ => g = guard := by
  cases guard with
  | none => exact gives_pure.2 rfl
  | some e =>
    refine (unmoved_cases.lowerExpr e n).bind fun l _ hl => gives_pure.2 ?_
    split
    · rfl
    · next hpending => rw [hl (by simpa [Lowered.isPending] using hpending)]

end Yielding.Lowering
