import Yielding.Proofs.Lowering.Rows

/-!
# Proofs/Lowering/Operands — lowering keeps the evaluation of operands

What runs before a lowered expression, together with its value, does what evaluating the expression
does (`Lowers`).  A row of operands is evaluated in order (`Row.realizes`), because an operand keeps
its value through whatever runs before the operands after it (`Lowers.protect`).
-/

namespace Yielding

/-- Whether the expression suspends or can leave the body. -/
def Expr.suspends (e : Expr) : Bool := e.walk.any fun x => x.isYield || x.isTry

end Yielding

namespace Yielding.Lowering

open Execution

variable {V α β : Type} {m : Machine V} {S T : Set ℕ}

/-! ## Values that are kept -/

theorem execRow_kept (t : Temp) (i n : ℕ) (σ : Env V) (value : Expr) :
    m.execRow n σ [t.kept i value] = do
      let v ← m.eval σ value
      return ⟨Function.update σ (t.name i) v, [(t.name i, σ (t.name i))], .next⟩ := by
  rw [Machine.execRow_singleton, Temp.kept, Machine.exec]
  rfl

theorem calm_kept {t : Temp} {i : ℕ} (hi : i ∈ S) (value : Expr) : Calm m S [t.kept i value] := by
  refine ⟨fun n σ => ?_, rfl⟩
  rw [execRow_kept]
  refine (Ensures.trivial _).bind fun v _ => ensures_pure ⟨rfl, ?_, off_update hi σ v⟩
  intro c hc
  rw [List.mem_singleton.mp hc]
  exact Temp.name_mem_temps.mpr hi

/-- **A kept value is read from its temporary.** -/
theorem Realizes.keep {src : Env V → Run V V} {stmts : List Stmt} {value : Expr}
    (h : Realizes m S src stmts (m.eval · value)) (t : Temp) {i : ℕ} (hi : i ∈ S) (r : Region) :
    Realizes m S src (stmts ++ [t.kept i value]) (m.eval · (.name r (t.name i))) := by
  have hread : ∀ n (σ τ : Env V), Similar σ τ →
      through m n τ [t.kept i value] (m.eval · (.name r (t.name i)))
        = m.eval τ value >>= fun a => pure a := by
    intro n σ τ _
    simp [through, execRow_kept, Machine.eval]
  have key := h.append (calm_kept hi value) hread
  simpa using key

def Held (m : Machine V) (T : Set ℕ) (value : Expr) : Prop :=
  ∃ w : Env V → V, (∀ σ, m.eval σ value = pure (w σ)) ∧ ∀ σ τ, Off T σ τ → w τ = w σ

theorem held_name {x : String} (hx : x ∉ temps T) (r : Region) : Held m T (.name r x) :=
  ⟨(· x), fun _ => by rw [Machine.eval], fun _ _ h => h x hx⟩

theorem held_of_isStable {c : Context} {value : Expr} (h : isStable c value = true)
    (hx : ∀ x, value.name? = some x → x ∉ temps T) : Held m T value :=
  match value, h with
  | .name r x, _ => held_name (hx x rfl) r
  | .literal .., _ => ⟨fun _ => m.values.literal _, fun _ => by rw [Machine.eval], fun _ _ _ => rfl⟩
  | .path .., _ => ⟨fun _ => m.values.path _, fun _ => by rw [Machine.eval], fun _ _ _ => rfl⟩

/-! ## Two computations in a row -/

/-- One computation, then another. -/
def both (x : Env V → Run V α) (y : Env V → Run V β) (σ : Env V) : Run V (α × β) := do
  let a ← x σ
  let b ← y σ
  return (a, b)

section Both

variable {src : Env V → Run V V} {src₂ : Env V → Run V β} {stmts more : List Stmt}
  {value : Expr} {read₂ : Env V → Run V β}

theorem Realizes.both_held (h : Realizes m S src stmts (m.eval · value)) (hv : Held m T value)
    (h₂ : Realizes m T src₂ more read₂) :
    Realizes m (S ∪ T) (both src src₂) (stmts ++ more) (both (m.eval · value) read₂) := by
  obtain ⟨w, hw, hoff⟩ := hv
  refine (h.mono Set.subset_union_left).append (h₂.calm.mono Set.subset_union_right)
    fun n σ τ hσ => ?_
  have hread : ∀ υ, Off T τ υ →
      both (m.eval · value) read₂ υ = read₂ υ >>= fun b => pure (w τ, b) := by
    intro υ hυ
    simp only [both, hw, pure_bind, hoff τ υ hυ]
  rw [h₂.calm.through_congr hread, ← through_bind, h₂.same n σ τ hσ, hw, pure_bind]

theorem Realizes.both_idle (h : Realizes m S src stmts (m.eval · value))
    (h₂ : Realizes m T src₂ [] read₂) :
    Realizes m S (both src src₂) stmts (both (m.eval · value) read₂) := by
  refine h.bind fun a σ τ hσ => ?_
  rw [← h₂.same 0 σ τ hσ, through_nil]

end Both

/-! ## Lowered expressions -/

/-- The lowered expression does what the expression does, with the temporaries in `S`. -/
structure Lowers (m : Machine V) (e : Expr) (S : Set ℕ) (l : Lowered) : Prop where
  realizes : Realizes m S (m.eval · e) l.before (m.eval · l.value)
  /-- A value that is a temporary is one of the expression's own. -/
  own : ∀ x, l.value.name? = some x → IsTemp x → x ∈ temps S
  idle : e.suspends = false → l.before = []

theorem Realizes.lowers {src read : Env V → Run V α} {stmts : List Stmt}
    (h : Realizes m S src stmts read) {e v : Expr} (f : α → Run V V)
    (he : ∀ σ, m.eval σ e = src σ >>= f) (hv : ∀ σ, m.eval σ v = read σ >>= f)
    (hn : v.name? = none) (hi : e.suspends = false → stmts = []) :
    Lowers m e S ⟨stmts, v⟩ := by
  refine ⟨?_, ?_, hi⟩
  · have key := h.map f
    simp only [← he, ← hv] at key
    exact key
  · intro x hx
    rw [hn] at hx
    exact absurd hx (Option.some_ne_none x).symm

/-- **An operand keeps its value** through what runs before the computation after it. -/
theorem Lowers.protect {e : Expr} {l : Lowered} (h : Lowers m e S l) (c : Context)
    (pending : Bool) (k : ℕ) :
    Gives (protect c pending l.value) k fun p k' =>
      k ≤ k' ∧ (pending = false → p.before = []) ∧
      ∀ {β : Type} {T : Set ℕ} {src : Env V → Run V β} {more : List Stmt}
        {read : Env V → Run V β}, Disjoint (S ∪ Set.Ioc k k') T → (pending = false → more = []) →
        Realizes m T src more read →
        Realizes m (S ∪ Set.Ioc k k' ∪ T) (both (m.eval · e) src) (l.before ++ p.before ++ more)
          (both (m.eval · p.value) read) := by
  rw [Lowering.protect]
  split
  next hpend =>
    refine gives_bind.mpr (gives_keep.mpr ?_)
    refine ⟨Nat.le_succ k, fun hp => by simp [hp] at hpend, fun hT _ hread => ?_⟩
    have hk : k + 1 ∈ S ∪ Set.Ioc k (k + 1) := Or.inr ⟨Nat.lt_succ_self k, le_rfl⟩
    have hkept := (h.realizes.mono Set.subset_union_left).keep .operand hk l.value.region
    refine hkept.both_held (held_name ?_ _) hread
    exact Set.disjoint_left.mp (temps_disjoint hT) (Temp.name_mem_temps.mpr hk)
  next hpend =>
    refine gives_pure.mpr ⟨le_rfl, fun _ => rfl, fun {β T src more read} hT hmore hread => ?_⟩
    rw [Set.Ioc_self, Set.union_empty] at hT ⊢
    rw [List.append_nil]
    cases pending with
    | false =>
      obtain rfl : more = [] := hmore rfl
      rw [List.append_nil]
      exact (h.realizes.both_idle hread).mono Set.subset_union_left
    | true =>
      refine h.realizes.both_held (held_of_isStable (c := c) (by simpa using hpend) ?_) hread
      intro x hx hxT
      have hS := h.own x hx (isTemp_of_mem hxT)
      exact Set.disjoint_left.mp (temps_disjoint hT) hS hxT

/-! ## Rows of operands -/

section Ranges

variable {i j k l p q : ℕ}

theorem disjoint_ranges (hjq : j ≤ q) (hqk : q ≤ k) (hkl : k ≤ l) :
    Disjoint (Set.Ioc i j ∪ Set.Ioc k l) (Set.Ioc j q ∪ Set.Ioc l p) := by
  rw [Set.disjoint_left]
  simp only [Set.mem_union, Set.mem_Ioc]
  omega

theorem ranges_subset (hij : i ≤ j) (hjq : j ≤ q) (hkl : k ≤ l) (hlp : l ≤ p) :
    Set.Ioc i j ∪ Set.Ioc k l ∪ (Set.Ioc j q ∪ Set.Ioc l p) ⊆ Set.Ioc i q ∪ Set.Ioc k p := by
  intro x
  simp only [Set.mem_union, Set.mem_Ioc]
  omega

theorem range_union_subset (hij : i ≤ j) (hjk : j ≤ k) :
    Set.Ioc i j ∪ Set.Ioc j k ⊆ Set.Ioc i k := by
  intro x
  simp only [Set.mem_union, Set.mem_Ioc]
  omega

end Ranges

/-- The expression was lowered with the temporaries from number `i` to number `j`. -/
def LowersFrom (m : Machine V) : Outcome := fun e i l j => i ≤ j ∧ Lowers m e (Set.Ioc i j) l

section Row

variable {c : Context} {es : List Expr} {i j : ℕ} {ls : List Lowered}

theorem Row.le (h : Row (LowersFrom m) es i ls j) : i ≤ j := by
  induction h with
  | nil => exact le_rfl
  | cons hl _ ih => exact hl.1.trans ih

theorem Row.idle (h : Row (LowersFrom m) es i ls j)
    (hs : (Expr.walkRow es).any (fun x => x.isYield || x.isTry) = false) :
    ls.any Lowered.isPending = false := by
  induction h with
  | nil => rfl
  | cons hl _ ih =>
    rw [Expr.walkRow, List.any_append, Bool.or_eq_false_iff] at hs
    rw [List.any_cons, ih hs.2, Lowered.isPending, hl.2.idle hs.1]
    rfl

theorem evalRow_cons (σ : Env V) (e : Expr) (es : List Expr) :
    m.evalRow σ (e :: es)
      = both (m.eval · e) (m.evalRow · es) σ >>= fun p => pure (p.1 :: p.2) := by
  simp only [Machine.evalRow, both, bind_assoc, pure_bind]

theorem Row.spill (h : Row (LowersFrom m) es i ls j) : ∀ k, j ≤ k → Gives (spill c ls) k fun r k' =>
    k ≤ k' ∧ (ls.any Lowered.isPending = false → r.1 = []) ∧
    Realizes m (Set.Ioc i j ∪ Set.Ioc k k') (m.evalRow · es) r.1 (m.evalRow · r.2) := by
  induction h with
  | nil =>
    intro k _
    refine gives_pure.mpr ⟨le_rfl, fun _ => rfl, calm_nil, fun n σ τ _ => ?_⟩
    simp only [through_nil, Machine.evalRow]
  | @cons e es i j j' l ls hl hls ih =>
    intro k hk
    obtain ⟨hij, hl⟩ := hl
    have hjj' := hls.le
    refine (hl.protect c (ls.any Lowered.isPending) k).bind fun p k₁ hp => ?_
    obtain ⟨hk₁, hpnil, hp⟩ := hp
    refine (ih k₁ (hk.trans hk₁)).bind fun r k₂ hr => gives_pure.mpr ?_
    obtain ⟨hk₂, hrnil, hr⟩ := hr
    refine ⟨hk₁.trans hk₂, fun hn => ?_, ?_⟩
    · rw [List.any_cons, Bool.or_eq_false_iff, Lowered.isPending, Bool.not_eq_false',
        List.isEmpty_iff] at hn
      rw [hn.1, hpnil hn.2, hrnil hn.2]
      rfl
    · have key := ((hp (disjoint_ranges hjj' hk hk₁) hrnil hr).mono
        (ranges_subset hij hjj' hk₁ hk₂)).map fun q => pure (q.1 :: q.2)
      simp only [← evalRow_cons] at key
      exact key

/-- **A row of operands is evaluated in order.** -/
theorem Row.realizes (h : Row (LowersFrom m) es i ls j) : Gives (Lowering.spill c ls) j fun r k =>
    i ≤ k ∧ (ls.any Lowered.isPending = false → r.1 = []) ∧
    Realizes m (Set.Ioc i k) (m.evalRow · es) r.1 (m.evalRow · r.2) := by
  refine (h.spill j le_rfl).mono fun r k hr => ⟨h.le.trans hr.1, hr.2.1, ?_⟩
  exact hr.2.2.mono (range_union_subset h.le hr.1)

end Row

end Yielding.Lowering
