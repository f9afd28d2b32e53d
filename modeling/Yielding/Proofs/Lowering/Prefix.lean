import Mathlib.Data.Set.Lattice
import Mathlib.Order.CompletePartialOrder
import Mathlib.Order.Interval.Set.Basic
import Yielding.Lowering.Body
import Yielding.Proofs.Execution.Laws

/-!
# Proofs/Lowering/Prefix — statements that run before a value

The statements that lowering puts before a value are **calm**: control goes through them and they
change nothing but temporaries.  Together with the value they **realize** a computation on the
source side when they do what it does, in every environment that differs from the source's only in
temporaries.
-/

namespace Yielding.Lowering

/-!
## The names that lowering makes up

A temporary is named by its kind and its number, and the name determines both.  Lowering hands out
numbers in increasing order, so what it makes of two parts of a body uses disjoint sets of
temporaries.
-/

def Temp.name (t : Temp) (i : Nat) : String := t.stem ++ toString i

/-- **A temporary is determined by its name.** -/
theorem Temp.name_inj {t u : Temp} {i j : Nat} (h : t.name i = u.name j) : t = u ∧ i = j := by
  have hl : t.stem.toList ++ (toString i).toList = u.stem.toList ++ (toString j).toList := by
    rw [← String.toList_append, ← String.toList_append]
    exact congrArg String.toList h
  have htu : t = u := by
    cases t <;> cases u <;> first | rfl | simp [stem] at hl
  subst htu
  have hd : (toString i).toList = (toString j).toList := List.append_cancel_left hl
  have hv := congrArg (fun cs => Nat.ofDigitChars 10 cs 0) hd
  simp only [Nat.toString_eq_repr, Nat.toList_repr, Nat.ofDigitChars_ten_toDigits] at hv
  exact ⟨rfl, hv⟩

/-- The names of the temporaries whose numbers are in `S`. -/
def temps (S : Set ℕ) : Set String := {x | ∃ t : Temp, ∃ i ∈ S, x = t.name i}

theorem Temp.name_mem_temps {S : Set ℕ} {t : Temp} {i : ℕ} : t.name i ∈ temps S ↔ i ∈ S := by
  refine ⟨?_, fun hi => ⟨t, i, hi, rfl⟩⟩
  rintro ⟨u, j, hj, h⟩
  rwa [(Temp.name_inj h).2]

theorem temps_mono {S S' : Set ℕ} (h : S ⊆ S') : temps S ⊆ temps S' := by
  rintro x ⟨t, i, hi, rfl⟩
  exact ⟨t, i, h hi, rfl⟩

theorem temps_disjoint {S S' : Set ℕ} (h : Disjoint S S') : Disjoint (temps S) (temps S') := by
  rw [Set.disjoint_left]
  rintro x ⟨t, i, hi, rfl⟩ hx
  exact Set.disjoint_left.mp h hi (Temp.name_mem_temps.mp hx)

/-- Whether a name could be the name of a temporary. -/
abbrev IsTemp (x : String) : Prop := x ∈ temps Set.univ

theorem isTemp_of_mem {S : Set ℕ} {x : String} (h : x ∈ temps S) : IsTemp x :=
  temps_mono (Set.subset_univ S) h

/-! ## What a computation with fresh names gives -/

section Gives

variable {α β : Type}

/-- With `n` temporaries made before, the computation gives a result and a new number of temporaries
with the property `P`. -/
def Gives (x : Fresh α) (n : ℕ) (P : α → ℕ → Prop) : Prop := P (x.run n).1 (x.run n).2

theorem gives_pure {a : α} {n : ℕ} {P : α → ℕ → Prop} : Gives (pure a) n P ↔ P a n := Iff.rfl

theorem gives_bind {x : Fresh α} {f : α → Fresh β} {n : ℕ} {P : β → ℕ → Prop} :
    Gives (x >>= f) n P ↔ Gives x n fun a k => Gives (f a) k P := Iff.rfl

theorem Gives.mono {x : Fresh α} {n : ℕ} {P Q : α → ℕ → Prop} (h : Gives x n P)
    (hPQ : ∀ a k, P a k → Q a k) : Gives x n Q := hPQ _ _ h

/-- **Properties of the parts give properties of the whole.** -/
theorem Gives.bind {x : Fresh α} {f : α → Fresh β} {n : ℕ} {P : α → ℕ → Prop}
    {Q : β → ℕ → Prop} (h : Gives x n P) (k : ∀ a m, P a m → Gives (f a) m Q) :
    Gives (x >>= f) n Q := k _ _ h

theorem gives_after {x : Fresh α} {f : α → Fresh β} {n : ℕ} {Q : β → ℕ → Prop}
    (k : ∀ a m, Gives (f a) m Q) : Gives (x >>= f) n Q := k _ _

theorem Gives.known {x : Fresh α} {f : α → Fresh β} {n : ℕ} {a : α} {Q : β → ℕ → Prop}
    (h : Gives x n fun b _ => b = a) (k : ∀ m, Gives (f a) m Q) : Gives (x >>= f) n Q :=
  h.bind fun _ m hb => hb ▸ k m

def Temp.kept (t : Temp) (i : ℕ) (value : Expr) : Stmt :=
  .letIn value.region (.bind value.region (t.name i) true) none value none

theorem gives_keep {t : Temp} {value : Expr} {n : ℕ} {P : Stmt × Expr → ℕ → Prop} :
    Gives (t.keep value) n P ↔
      P (t.kept (n + 1) value, .name value.region (t.name (n + 1))) (n + 1) := Iff.rfl

end Gives

end Yielding.Lowering

namespace Yielding.Lowering

/-! ## Statements that run before a value -/

open Execution

variable {V α β : Type}

/-! ## Environments up to temporaries -/

/-- Environments that differ in temporaries only. -/
def Similar (σ τ : Env V) : Prop := ∀ x, ¬IsTemp x → σ x = τ x

theorem Similar.refl (σ : Env V) : Similar σ σ := fun _ _ => rfl

variable {σ : Env V}

theorem Similar.trans {τ υ : Env V} (h : Similar σ τ) (h' : Similar τ υ) : Similar σ υ :=
  fun x hx => (h x hx).trans (h' x hx)

/-- Environments that differ only in the temporaries with a number in `S`. -/
def Off (S : Set ℕ) (σ τ : Env V) : Prop := ∀ x, x ∉ temps S → τ x = σ x

theorem Off.refl (S : Set ℕ) (σ : Env V) : Off S σ σ := fun _ _ => rfl

variable {S : Set ℕ}

theorem Off.mono {T : Set ℕ} {τ : Env V} (h : Off S σ τ) (hST : S ⊆ T) : Off T σ τ :=
  fun x hx => h x fun hS => hx (temps_mono hST hS)

theorem Off.trans {τ υ : Env V} (h : Off S σ τ) (h' : Off S τ υ) : Off S σ υ :=
  fun x hx => (h' x hx).trans (h x hx)

theorem Off.similar {τ : Env V} (h : Off S σ τ) : Similar σ τ :=
  fun x hx => (h x fun hS => hx (isTemp_of_mem hS)).symm

theorem off_update {t : Temp} {i : ℕ} (hi : i ∈ S) (σ : Env V) (v : V) :
    Off S σ (Function.update σ (t.name i) v) := by
  intro x hx
  refine Function.update_of_ne ?_ v σ
  rintro rfl
  exact hx (Temp.name_mem_temps.mpr hi)

theorem off_restore : ∀ {covered : List (String × V)}, (∀ c ∈ covered, c.1 ∈ temps S) → ∀ σ : Env V,
      Off S σ (restore covered σ)
  | [], _, σ => Off.refl S σ
  | c :: covered, h, σ => by
    obtain ⟨hc, hcs⟩ := List.forall_mem_cons.mp h
    have hu : Off S σ (Function.update σ c.1 c.2) := by
      intro x hx
      refine Function.update_of_ne ?_ c.2 σ
      rintro rfl
      exact hx hc
    exact hu.trans (off_restore hcs _)

/-! ## Calm statements -/

section Calm

variable (m : Machine V)

/-- What a calm row of statements leaves behind. -/
structure Quiet (S : Set ℕ) (σ : Env V) (a : After V) : Prop where
  flow : a.flow = .next
  covered : ∀ c ∈ a.covered, c.1 ∈ temps S
  off : Off S σ a.env

theorem Quiet.mono {T : Set ℕ} {a : After V} (h : Quiet S σ a) (hST : S ⊆ T) : Quiet T σ a :=
  ⟨h.flow, fun c hc => temps_mono hST (h.covered c hc), h.off.mono hST⟩

/-- Control goes through the statements, and they change nothing but the temporaries with a number
in `S`. -/
structure Calm (S : Set ℕ) (stmts : List Stmt) : Prop where
  quiet : ∀ n σ, Ensures (m.execRow n σ stmts) (Quiet S σ)
  fnless : m.fnBindings stmts = []

variable {m}

theorem Calm.mono {T : Set ℕ} {stmts : List Stmt} (h : Calm m S stmts) (hST : S ⊆ T) :
    Calm m T stmts :=
  ⟨fun n σ => (h.quiet n σ).mono fun _ _ ha => ⟨ha.1, ha.2.mono hST⟩, h.fnless⟩

theorem calm_nil : Calm m S [] := by
  refine ⟨fun n σ => ?_, rfl⟩
  exact ensures_pure ⟨rfl, by simp, Off.refl S σ⟩

theorem Calm.append {xs ys : List Stmt} (hx : Calm m S xs) (hy : Calm m S ys) : Calm m S (xs ++ ys)
    := by
  refine ⟨fun n σ => ?_, ?_⟩
  · rw [Machine.execRow_append]
    refine (hx.quiet n σ).bind fun a ha => ?_
    obtain ⟨τ, c, flow⟩ := a
    obtain rfl : flow = .next := ha.flow
    refine (hy.quiet n τ).bind fun b hb => ensures_pure ⟨hb.flow, ?_, ha.off.trans hb.off⟩
    exact List.forall_mem_append.mpr ⟨hb.covered, ha.covered⟩
  · rw [Machine.fnBindings_append, hx.fnless, hy.fnless, List.append_nil]

end Calm

/-! ## Realizing a computation -/

section Realizes

variable {m : Machine V}

/-- Runs statements and carries on in the environment they leave. -/
def through (m : Machine V) (n : ℕ) (σ : Env V) (stmts : List Stmt) (k : Env V → Run V α) :
    Run V α := m.execRow n σ stmts >>= fun a => k a.env

@[simp] theorem through_nil (n : ℕ) (σ : Env V) (k : Env V → Run V α) :
    through m n σ [] k = k σ := by
  simp [through, Machine.execRow, Machine.skip]

theorem through_bind (n : ℕ) (σ : Env V) (stmts : List Stmt) (k : Env V → Run V α)
    (f : α → Run V β) :
    through m n σ stmts k >>= f = through m n σ stmts fun τ => k τ >>= f := bind_assoc _ _ _

theorem through_append {xs : List Stmt} (hx : Calm m S xs) (n : ℕ) (σ : Env V) (ys : List Stmt)
    (k : Env V → Run V α) : through m n σ (xs ++ ys)
    k = through m n σ xs fun τ => through m n τ ys k := by
  rw [through, Machine.execRow_append, bind_assoc]
  refine (hx.quiet n σ).bind_congr fun a ha => ?_
  obtain ⟨τ, c, flow⟩ := a
  obtain rfl : flow = .next := ha.flow
  simp only [Machine.andThen_next, through, bind_assoc, pure_bind]

theorem Calm.through_congr {stmts : List Stmt} (h : Calm m S stmts) {n : ℕ} {k k' : Env V → Run V α}
    (hk : ∀ τ, Off S σ τ → k τ = k' τ) : through m n σ stmts k = through m n σ stmts k' :=
  (h.quiet n σ).bind_congr fun a ha => hk a.env ha.off

/-- The statements are calm, and reading after them is the computation `src` of the source. -/
structure Realizes (m : Machine V) (S : Set ℕ) (src : Env V → Run V α) (stmts : List Stmt)
    (read : Env V → Run V α) : Prop where
  calm : Calm m S stmts
  same : ∀ n σ τ, Similar σ τ → through m n τ stmts read = src σ

variable {S T : Set ℕ} {src : Env V → Run V α} {stmts : List Stmt} {read : Env V → Run V α}

theorem Realizes.mono (h : Realizes m S src stmts read) (hST : S ⊆ T) :
    Realizes m T src stmts read := ⟨h.calm.mono hST, h.same⟩

/-- **More calm statements after the first ones** continue the computation when they and the new
reading do so from what was read before. -/
theorem Realizes.append (h : Realizes m S src stmts read) {more : List Stmt}
    (hm : Calm m S more) {read' : Env V → Run V β} {f : α → Env V → Run V β}
    (hf : ∀ n σ τ, Similar σ τ → through m n τ more read' = read τ >>= fun a => f a σ) :
    Realizes m S (fun σ => src σ >>= fun a => f a σ) (stmts ++ more) read' := by
  refine ⟨h.calm.append hm, fun n σ τ hσ => ?_⟩
  rw [through_append h.calm, ← h.same n σ τ hσ, through_bind]
  exact h.calm.through_congr fun υ hυ => hf n σ υ (hσ.trans hυ.similar)

theorem Realizes.bind (h : Realizes m S src stmts read) {f g : α → Env V → Run V β}
    (hfg : ∀ a σ τ, Similar σ τ → g a τ = f a σ) :
    Realizes m S (fun σ => src σ >>= fun a => f a σ) stmts fun τ => read τ >>= fun a => g a τ := by
  have hf : ∀ n σ τ, Similar σ τ → through m n τ [] (fun τ => read τ >>= fun a => g a τ)
      = read τ >>= fun a => f a σ := by
    intro n σ τ hσ
    exact bind_congr fun a => hfg a σ τ hσ
  have key := h.append calm_nil hf
  rwa [List.append_nil] at key

theorem Realizes.map (h : Realizes m S src stmts read) (f : α → Run V β) :
    Realizes m S (fun σ => src σ >>= f) stmts fun τ => read τ >>= f :=
  h.bind fun _ _ _ _ => rfl

end Realizes

end Yielding.Lowering
