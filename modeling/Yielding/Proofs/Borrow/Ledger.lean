import Yielding.Proofs.Borrow.Paths

/-!
# Proofs/Borrow/Ledger — what the walk has noted at each place of a text

The walk through a flow is a fold over its text.  Notes are never taken back: what is known at one
place of the text is known at all later ones (`Extends`).  A loop's range and the loops around a
place are read off the text.
-/

namespace Yielding.Borrow

open List

variable (t : Trace) (ts : List Token) (c : Content)

/-! ## One token -/

namespace Trace

def touch (t : Trace) (r : Region) (v : ℕ) : Trace :=
  { t.tick with uses := t.uses.push ⟨v, t.pos + 1, t.around, r⟩ }

def suspend (t : Trace) (r : Region) : Trace :=
  { t.tick with suspensions := t.suspensions.push ⟨t.pos + 1, r⟩ }

def declare (t : Trace) (name : String) (owned : Bool) (ls : Lenders) (r : Region) : Trace :=
  let taints := if ls.isEmpty then [] else [⟨t.pos + 1, ls, r⟩]
  { t.tick with bindings := t.bindings.push ⟨name, t.pos + 1, owned, taints⟩ }

def enter (t : Trace) : Trace :=
  { t.tick with loops := t.loops.push ⟨t.pos + 1, 0⟩, around := t.around ++ [t.loops.size] }

def leave (t : Trace) : Trace :=
  { t.tick with
    around := t.around.dropLast
    loops := t.loops.modify (t.around.getLast?.getD t.loops.size) fun range =>
      { range with last := t.pos + 1 } }

end Trace

def Content.touch (t : Trace) : Content → Trace
  | address r x | copy r x => t.touch r x
  | other => t

def Content.lenders (t : Trace) : Content → Lenders
  | address _ x => match t.bindings[x]? with
    | none => []
    | some b => if b.owned then b.lenders.union [x] else b.lenders
  | copy _ y => t.lendersOf y
  | other => []

def Op.step (t : Trace) : Op → Trace
  | bind _ c name owned r => (c.touch t).declare name owned (c.lenders (c.touch t)) r
  | store v c r => (c.touch t).taint v ((c.lenders (c.touch t)).filter (· ≠ v)) r
  | read r v => t.touch r v
  | suspend r => t.suspend r

def Token.step (t : Trace) : Token → Trace
  | op o => o.step t
  | enter => t.enter
  | exit => t.leave

def run (t : Trace) (ts : List Token) : Trace := ts.foldl Token.step t

@[simp] theorem run_nil (t : Trace) : run t [] = t := rfl

@[simp] theorem run_cons (t : Trace) (k : Token) (ts : List Token) :
    run t (k :: ts) = run (k.step t) ts := rfl

@[simp] theorem run_append (t : Trace) (ts us : List Token) :
    run t (ts ++ us) = run (run t ts) us := foldl_append

def notes (ts : List Token) (p : ℕ) : Trace := run {} (ts.take p)

theorem notes_succ {ts : List Token} {p : ℕ} {k : Token} (h : ts[p]? = some k) :
    notes ts (p + 1) = k.step (notes ts p) := by
  simp [notes, take_add_one, h]

/-! ## Notes are never taken back -/

namespace Trace

variable (t : Trace) (r : Region)

/-- **Extension of notes**: uses, suspensions and the taints of bindings are kept. -/
structure Extends (t t' : Trace) : Prop where
  pos : t.pos ≤ t'.pos
  uses : ∀ u ∈ t.uses, u ∈ t'.uses
  suspensions : ∀ y ∈ t.suspensions, y ∈ t'.suspensions
  bindings : ∀ (i : ℕ) (b : Binding), t.bindings[i]? = some b → ∃ b' : Binding,
    t'.bindings[i]? = some b' ∧ b'.pos = b.pos ∧ b'.owned = b.owned ∧ ∀ τ ∈ b.taints, τ ∈ b'.taints
  loops : ∀ (i : ℕ) (r : LoopRange), t.loops[i]? = some r →
    ∃ r' : LoopRange, t'.loops[i]? = some r' ∧ r'.first = r.first

theorem Extends.refl : t.Extends t where
  pos := le_rfl
  uses _ h := h
  suspensions _ h := h
  bindings _ b h := ⟨b, h, rfl, rfl, fun _ h => h⟩
  loops _ r h := ⟨r, h, rfl⟩

theorem Extends.trans {t u v : Trace} (h : t.Extends u) (h' : u.Extends v) : t.Extends v where
  pos := h.pos.trans h'.pos
  uses _ hu := h'.uses _ (h.uses _ hu)
  suspensions _ hy := h'.suspensions _ (h.suspensions _ hy)
  bindings i b hb := by
    obtain ⟨b', hb', hpos, howned, htaints⟩ := h.bindings i b hb
    obtain ⟨b'', hb'', hpos', howned', htaints'⟩ := h'.bindings i b' hb'
    exact ⟨b'', hb'', hpos'.trans hpos, howned'.trans howned, fun τ hτ => htaints' τ (htaints τ hτ)⟩
  loops i r hr := by
    obtain ⟨r', hr', hfirst⟩ := h.loops i r hr
    obtain ⟨r'', hr'', hfirst'⟩ := h'.loops i r' hr'
    exact ⟨r'', hr'', hfirst'.trans hfirst⟩

theorem extends_touch (v : ℕ) : t.Extends (t.touch r v) :=
  { Extends.refl t with
    pos := Nat.le_succ _
    uses := fun _ h => Array.mem_push_of_mem _ h }

theorem extends_suspend : t.Extends (t.suspend r) :=
  { Extends.refl t with
    pos := Nat.le_succ _
    suspensions := fun _ h => Array.mem_push_of_mem _ h }

theorem extends_declare (name : String) (owned : Bool) (ls : Lenders) (r : Region) :
    t.Extends (t.declare name owned ls r) :=
  { Extends.refl t with
    pos := Nat.le_succ _
    bindings := fun i b h => ⟨b, by
      obtain ⟨hi, -⟩ := Array.getElem?_eq_some_iff.1 h
      simpa [declare, Array.getElem?_push, hi.ne] using h, rfl, rfl, fun _ h => h⟩ }

theorem extends_taint (v : ℕ) (ls : Lenders) (r : Region) : t.Extends (t.taint v ls r) := by
  unfold taint
  split
  · exact Extends.refl t
  · refine { Extends.refl t with pos := Nat.le_succ _, bindings := fun i b h => ?_ }
    by_cases hv : v = i
    · exact ⟨{ b with taints := b.taints ++ [⟨t.pos + 1, ls, r⟩] },
        by simp [tick, Array.getElem?_modify, hv, h], rfl, rfl, fun _ h => mem_append_left _ h⟩
    · exact ⟨b, by simpa [tick, Array.getElem?_modify, hv] using h, rfl, rfl, fun _ h => h⟩

theorem extends_enter : t.Extends t.enter :=
  { Extends.refl t with
    pos := Nat.le_succ _
    loops := fun i r h => ⟨r, by
      obtain ⟨hi, -⟩ := Array.getElem?_eq_some_iff.1 h
      simpa [enter, Array.getElem?_push, hi.ne] using h, rfl⟩ }

theorem extends_leave : t.Extends t.leave := by
  refine { Extends.refl t with pos := Nat.le_succ _, loops := fun i r h => ?_ }
  by_cases hi : t.around.getLast?.getD t.loops.size = i
  · exact ⟨{ r with last := t.pos + 1 }, by simp [leave, Array.getElem?_modify, hi, h], rfl⟩
  · exact ⟨r, by simpa [leave, Array.getElem?_modify, hi] using h, rfl⟩

end Trace

theorem Content.extends_touch : t.Extends (c.touch t) := by
  cases c with
  | address r x => exact t.extends_touch r x
  | copy r y => exact t.extends_touch r y
  | other => exact .refl t

theorem Token.extends_step (k : Token) : t.Extends (k.step t) := by
  cases k with
  | op o =>
    cases o with
    | bind _ c name owned r => exact (c.extends_touch t).trans (Trace.extends_declare ..)
    | store v c r => exact (c.extends_touch t).trans (Trace.extends_taint ..)
    | read r v => exact t.extends_touch r v
    | suspend r => exact t.extends_suspend r
  | enter => exact t.extends_enter
  | exit => exact t.extends_leave

theorem extends_run : t.Extends (run t ts) := by
  induction ts generalizing t with
  | nil => exact .refl t
  | cons k ts ih => exact (k.extends_step t).trans (ih (k.step t))

/-- **What is noted at a place is known at every later place.** -/
theorem notes_extends {p q : ℕ} (h : p ≤ q) : (notes ts p).Extends (notes ts q) := by
  obtain ⟨us, hus⟩ := take_prefix_take_left h
  rw [notes, notes, ← hus, run_append]
  exact extends_run _ us

theorem notes_extends_run (p : ℕ) : (notes ts p).Extends (run {} ts) := by
  have whole : run {} ts = run (notes ts p) (ts.drop p) := by
    rw [notes, ← run_append, take_append_drop]
  exact whole ▸ extends_run _ _

/-! ## Bindings -/

/-- A binding is made at a position that the walk has reached. -/
def Trace.Dated (t : Trace) : Prop :=
  ∀ (i : ℕ) (b : Binding), t.bindings[i]? = some b → b.pos ≤ t.pos

theorem Trace.Dated.of_bindings {t t' : Trace} (h : t.Dated) (hpos : t.pos ≤ t'.pos)
    (hb : t'.bindings = t.bindings) : t'.Dated :=
  fun i b hi => (h i b (hb ▸ hi)).trans hpos

theorem Trace.Dated.declare {t : Trace} (h : t.Dated) (name : String) (owned : Bool)
    (ls : Lenders) (r : Region) : (t.declare name owned ls r).Dated := by
  intro i b hi
  simp only [Trace.declare, Array.getElem?_push] at hi
  split at hi
  · cases hi; rfl
  · exact (h i b hi).trans (Nat.le_succ _)

theorem Trace.Dated.taint {t : Trace} (h : t.Dated) (v : ℕ) (ls : Lenders) (r : Region) :
    (t.taint v ls r).Dated := by
  unfold Trace.taint
  split
  · exact h
  · intro i b hi
    simp only [Trace.tick, Array.getElem?_modify] at hi
    split at hi
    · obtain ⟨b, hb, rfl⟩ := Option.map_eq_some_iff.1 hi
      exact (h i b hb).trans (Nat.le_succ _)
    · exact (h i b hi).trans (Nat.le_succ _)

theorem Content.bindings_touch : (c.touch t).bindings = t.bindings := by
  cases c <;> rfl

theorem Trace.Dated.step {t : Trace} (h : t.Dated) (k : Token) : (k.step t).Dated := by
  have touched (c : Content) : (c.touch t).Dated :=
    h.of_bindings (c.extends_touch t).pos (c.bindings_touch t)
  cases k with
  | op o =>
    cases o with
    | bind _ c name owned r => exact (touched c).declare name owned _ r
    | store v c r => exact (touched c).taint v _ r
    | read | suspend => exact h.of_bindings (Nat.le_succ _) rfl
  | enter | exit => exact h.of_bindings (Nat.le_succ _) rfl

theorem size_taint (v : ℕ) (ls : Lenders) (r : Region) :
    (t.taint v ls r).bindings.size = t.bindings.size := by
  unfold Trace.taint
  split
  · rfl
  · exact Array.size_modify

theorem size_step (k : Token) : (k.step t).bindings.size = t.bindings.size + declared [k] := by
  cases k with
  | op o =>
    cases o with
    | bind _ c => exact (Array.size_push _).trans (by rw [c.bindings_touch]; rfl)
    | store v c => exact (size_taint ..).trans (by rw [c.bindings_touch]; rfl)
    | read | suspend => rfl
  | enter | exit => rfl

theorem size_run : (run t ts).bindings.size = t.bindings.size + declared ts := by
  induction ts generalizing t with
  | nil => rfl
  | cons k ts ih =>
    rw [run_cons, ih, size_step, declared_cons, declared_cons, declared_nil]
    omega

theorem dated_run {t : Trace} (h : t.Dated) (ts : List Token) : (run t ts).Dated := by
  induction ts generalizing t with
  | nil => exact h
  | cons k ts ih => exact ih (h.step k)

theorem dated_notes (p : ℕ) : (notes ts p).Dated :=
  dated_run (fun _ _ h => by simp at h) _

theorem size_notes (p : ℕ) : (notes ts p).bindings.size = declared (ts.take p) := by
  rw [notes, size_run]
  exact Nat.zero_add _

/-! ## Loops -/

/-- A text that ends `d` loops begun before it, and otherwise only its own. -/
def Closes : ℕ → List Token → Prop
  | d, [] => d = 0
  | d, .op _ :: ts => Closes d ts
  | d, .enter :: ts => Closes (d + 1) ts
  | 0, .exit :: _ => False
  | d + 1, .exit :: ts => Closes d ts

theorem Flow.closes_append {d : ℕ} {ts : List Token} (f : Flow) (h : Closes d ts) :
    Closes d (f.text ++ ts) := by
  induction f generalizing d ts with
  | done => exact h
  | op o rest ih => exact ih h
  | branch a b rest iha ihb ih =>
    simp only [text, append_assoc]
    exact iha (ihb (ih h))
  | loop body rest ihb ih =>
    simp only [text, cons_append, append_assoc]
    exact ihb (ih h)
  | leave rest ih => exact ih h

theorem Flow.closes (f : Flow) : Closes 0 f.text := by
  rw [← append_nil f.text]
  exact f.closes_append rfl

theorem Content.around_touch : (c.touch t).around = t.around := by
  cases c <;> rfl

theorem Content.loops_touch : (c.touch t).loops = t.loops := by
  cases c <;> rfl

theorem around_taint (v : ℕ) (ls : Lenders) (r : Region) : (t.taint v ls r).around = t.around := by
  unfold Trace.taint
  split <;> rfl

theorem loops_taint (v : ℕ) (ls : Lenders) (r : Region) : (t.taint v ls r).loops = t.loops := by
  unfold Trace.taint
  split <;> rfl

theorem Op.around_step (o : Op) : (o.step t).around = t.around := by
  cases o with
  | bind _ c => exact c.around_touch t
  | store v c => exact (around_taint ..).trans (c.around_touch t)
  | read | suspend => rfl

theorem Op.loops_step (o : Op) : (o.step t).loops = t.loops := by
  cases o with
  | bind _ c => exact c.loops_touch t
  | store v c => exact (loops_taint ..).trans (c.loops_touch t)
  | read | suspend => rfl

theorem around_run {outer : List ℕ} (inner : List ℕ) {ts : List Token}
    (h : Closes inner.length ts) {t : Trace} (ht : t.around = outer ++ inner) :
    (run t ts).around = outer ∧ ∀ p, outer <+: (run t (ts.take p)).around := by
  induction ts generalizing t inner with
  | nil =>
    obtain rfl := eq_nil_of_length_eq_zero h
    simp [ht]
  | cons k ts ih =>
    have start : outer <+: t.around := ht ▸ prefix_append _ _
    have rest : (run (k.step t) ts).around = outer ∧
        ∀ p, outer <+: (run (k.step t) (ts.take p)).around := by
      cases k with
      | op o => exact ih inner h ((o.around_step t).trans ht)
      | enter =>
        refine ih (inner ++ [t.loops.size]) ?_ (by simp [Token.step, Trace.enter, ht])
        rw [length_append]
        exact h
      | exit =>
        obtain rfl | ⟨inner, i, rfl⟩ := inner.eq_nil_or_concat
        · cases h
        · rw [length_concat] at h
          refine ih inner h ?_
          rw [concat_eq_append, ← append_assoc] at ht
          simp [Token.step, Trace.leave, ht]
    refine ⟨rest.1, fun p => ?_⟩
    cases p with
    | zero => exact start
    | succ p => exact rest.2 p

theorem around_lt_run {t : Trace} (h : ∀ i ∈ t.around, i < t.loops.size) (ts : List Token) :
    ∀ i ∈ (run t ts).around, i < (run t ts).loops.size := by
  induction ts generalizing t with
  | nil => exact h
  | cons k ts ih =>
    refine ih ?_
    cases k with
    | op o => simpa only [Token.step, o.around_step, o.loops_step] using h
    | enter =>
      intro i hi
      simp only [Token.step, Trace.enter, mem_append, mem_singleton,
        Array.size_push] at hi ⊢
      rcases hi with hi | rfl
      · exact (h i hi).trans (Nat.lt_succ_self _)
      · exact Nat.lt_succ_self _
    | exit =>
      intro i hi
      simp only [Token.step, Trace.leave, Array.size_modify] at hi ⊢
      exact h i (dropLast_subset _ hi)

/-- The range of a loop does not change once the loop has ended. -/
theorem loops_run_of_left {t : Trace} {i : ℕ} {r : LoopRange} (hr : t.loops[i]? = some r)
    (hi : i ∉ t.around) (ts : List Token) : (run t ts).loops[i]? = some r := by
  induction ts generalizing t with
  | nil => exact hr
  | cons k ts ih =>
    obtain ⟨hlt, -⟩ := Array.getElem?_eq_some_iff.1 hr
    cases k with
    | op o => exact ih ((o.loops_step t).symm ▸ hr) ((o.around_step t).symm ▸ hi)
    | enter =>
      refine ih (t := t.enter) ?_ ?_
      · simpa [Trace.enter, Array.getElem?_push, hlt.ne] using hr
      · simpa [Trace.enter] using ⟨hi, hlt.ne⟩
    | exit =>
      refine ih (t := t.leave) ?_ fun hmem => hi (dropLast_subset _ hmem)
      have other : t.around.getLast?.getD t.loops.size ≠ i := by
        intro heq
        cases hlast : t.around.getLast? with
        | none => rw [hlast] at heq; exact hlt.ne heq.symm
        | some j =>
          rw [hlast] at heq
          exact hi (heq ▸ mem_of_getLast? hlast)
      simpa [Trace.leave, Array.getElem?_modify, other] using hr

theorem loops_leave {t : Trace} {outer : List ℕ} {i : ℕ} {r : LoopRange}
    (ht : t.around = outer ++ [i]) (hr : t.loops[i]? = some r) :
    t.leave.loops[i]? = some { r with last := t.pos + 1 } := by
  simp [Trace.leave, ht, Array.getElem?_modify, hr]

theorem notes_inside (before body after : List Token) {k : ℕ} (hk : k ≤ body.length) :
    notes (before ++ .enter :: (body ++ .exit :: after)) (before.length + (k + 1)) =
      run (run {} before).enter (body.take k) := by
  rw [notes, take_length_add_append, take_succ_cons,
    take_append_of_le_length hk, run_append]
  rfl

/-- **The range of a loop spans its tokens, and every place inside has the loop around it.** -/
theorem LoopAt.range {ts : List Token} {first last : ℕ} (h : LoopAt ts first last) :
    ∃ i, (run {} ts).loops[i]? = some ⟨(notes ts first).pos + 1, (notes ts last).pos + 1⟩ ∧
      ∀ p, first < p → p ≤ last → i ∈ (notes ts p).around := by
  obtain ⟨before, body, after, rfl, rfl, rfl⟩ := h
  have hbegin : notes (before ++ .enter :: (body.text ++ .exit :: after)) before.length =
      run {} before := by rw [notes, take_left]
  have hend := notes_inside before body.text after (Nat.le_refl body.text.length)
  rw [take_length] at hend
  obtain ⟨outside, inside⟩ := around_run [] body.closes
    (show (run {} before).enter.around = _ from (append_nil _).symm)
  refine ⟨(run {} before).loops.size, ?_, fun p hp hp' => ?_⟩
  · rw [hbegin, Nat.add_assoc, ← body.length_text, hend]
    obtain ⟨r, hr, hfirst⟩ := (extends_run (run {} before).enter body.text).loops
      (run {} before).loops.size ⟨(run {} before).pos + 1, 0⟩ (by simp [Trace.enter])
    simp only [run_append, run_cons]
    refine loops_run_of_left ((loops_leave outside hr).trans (by rw [hfirst])) ?_ after
    -- the loop is no longer around, since the loops outside have smaller numbers
    intro hmem
    change _ ∈ (run (run {} before).enter body.text).around.dropLast at hmem
    rw [outside, Trace.enter, dropLast_concat] at hmem
    exact Nat.lt_irrefl _ (around_lt_run (by simp) before _ hmem)
  · obtain ⟨k, rfl⟩ := Nat.exists_eq_add_of_lt hp
    rw [Nat.add_assoc, notes_inside _ _ _ (by rw [body.length_text]; omega)]
    refine (inside k).subset ?_
    simp [Trace.enter]

end Yielding.Borrow
