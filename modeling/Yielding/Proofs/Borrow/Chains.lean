import Yielding.Proofs.Borrow.Contexts
import Yielding.Proofs.Borrow.Escapes

/-!
# Proofs/Borrow/Chains — borrows that are passed on and used after a suspension

A variable that is bound to a borrow of an owned local holds that borrow from its declaration on,
and so does every variable that is bound to it in turn (`Borrows`).  If one of them is mentioned
after a suspension that comes after its declaration, or in a loop that it outlives and that
suspends, it is reported by its name (`chain_reported`).
-/

namespace Yielding.Borrow

open List

/-! ## Chains -/

/-- The value passes on what the variable `v` holds: it is the variable itself, a tuple or array
with it, `?` applied to it, or the result of a call with it, unless a function of the item is
called. -/
inductive Holds (fns : FnTypes) (Γ : Names) (v : ℕ) : Expr → Prop
  | name {r x} (h : Γ.lookup x = some v) : Holds fns Γ v (.name r x)
  | tuple {r es e} (he : e ∈ es) (h : Holds fns Γ v e) : Holds fns Γ v (.tuple r es)
  | array {r es e} (he : e ∈ es) (h : Holds fns Γ v e) : Holds fns Γ v (.array r es)
  | attempt {r e} (h : Holds fns Γ v e) : Holds fns Γ v (.attempt r e)
  | call {r func args e} (hfunc : ∀ q x, func = .name q x → fns.lookup x = none) (he : e ∈ args)
    (h : Holds fns Γ v e) : Holds fns Γ v (.call r func args)

/-- The act at `i` binds the name `x`, as the variable `v`, to a value without declared type. -/
structure Binds (as : List Act) (i v : ℕ) (x : String) (value : Expr) : Prop where
  act : ∃ r mutable, as[i]? = some (.bind (.bind r x mutable) none value)
  var : v = (contextAt as i).vars.length

/-- The variable `v`, declared by the act at `i`, is bound to a borrow of an owned variable, or to a
value that passes on what such a variable holds. -/
inductive Borrows (fns : FnTypes) (as : List Act) : ℕ → ℕ → Prop
  | borrow {i v x r place mutable y u z} (h : Binds as i v x (.borrow r place mutable))
    (hroot : rootName? place = some y) (hu : (contextAt as i).names.lookup y = some u)
    (howned : (contextAt as i).vars[u]? = some (z, true)) : Borrows fns as i v
  | passOn {i v j w x value} (h : Borrows fns as i v) (hij : i < j) (hw : Binds as j w x value)
    (hholds : Holds fns (contextAt as j).names v value) : Borrows fns as j w

/-- The act is a suspension. -/
def Suspends (as : List Act) (i : ℕ) : Prop := ∃ r value, as[i]? = some (.visit (.yield r value))

/-- The act at `i` mentions the variable `v`.  The target of an assignment is not visited. -/
def Mentions (as : List Act) (i v : ℕ) : Prop :=
  ∃ r x, as[i]? = some (.visit (.name r x)) ∧ (contextAt as i).names.lookup x = some v

/-- The act at `i` is done in every round of the loop that begins at `k`. -/
def Inside (as : List Act) (k i : ℕ) : Prop :=
  k < i ∧ as[k]? = some .enter ∧ (contextAt as k).loops ∈ (contextAt as i).around

/-! ## What values hold -/

variable {fns : FnTypes} {t : Trace}

theorem mem_rowLenders {x : ℕ} {e : Expr} (hx : x ∈ lenders fns t e) : ∀ {es : List Expr}, e ∈ es →
    x ∈ rowLenders fns t es
  | e' :: es, he => by
    rw [rowLenders, Lenders.mem_union]
    rcases mem_cons.1 he with rfl | he
    · exact .inl hx
    · exact .inr (mem_rowLenders hx he)

theorem lenders_of_holds {v : ℕ} {e : Expr} (h : Holds fns t.scope v e) {x : ℕ}
    (hx : x ∈ t.lendersOf v) : x ∈ lenders fns t e := by
  induction h with
  | name h =>
    rw [lenders, Trace.lookup?, h]
    exact hx
  | tuple he _ ih | array he _ ih => exact mem_rowLenders ih he
  | attempt _ ih => exact ih
  | @call r func args e hfunc he _ ih =>
    unfold lenders
    dsimp only
    split_ifs with howned
    · split at howned
      · next q f => simp [hfunc q f rfl] at howned
      · cases howned
    · exact mem_rowLenders ih he

theorem mem_placeLenders {place : Expr} {y : String} {u : ℕ} {b : Binding}
    (hroot : rootName? place = some y) (hu : t.scope.lookup y = some u)
    (hb : t.bindings[u]? = some b) (howned : b.owned = true) : u ∈ placeLenders t place := by
  have hu' : root? t place = some u := by rw [root?, hroot]; exact hu
  simp [placeLenders, hu', hb, howned, Lenders.mem_union]

/-! ## A chain is tainted where it is declared -/

/-- The variable `v` holds a borrow since its declaration, which the trace has behind it. -/
def TaintedSince (t : Trace) (v : ℕ) : Prop :=
  ∃ b, t.bindings[v]? = some b ∧ ∃ τ ∈ b.taints, τ.lenders ≠ [] ∧ τ.pos = b.pos ∧ b.pos ≤ t.pos

theorem TaintedSince.of_extends {t' : Trace} {v : ℕ} (h : TaintedSince t v) (ht : t.Extends t') :
    TaintedSince t' v := by
  obtain ⟨b, hb, τ, hτ, hlenders, hpos, hle⟩ := h
  obtain ⟨b', hb', hpos', -, htaints⟩ := ht.bindings v b hb
  exact ⟨b', hb', τ, htaints τ hτ, hlenders, hpos.trans hpos'.symm, hpos' ▸ hle.trans ht.pos⟩

theorem TaintedSince.lendersOf {v : ℕ} (h : TaintedSince t v) : ∃ x, x ∈ t.lendersOf v := by
  obtain ⟨b, hb, τ, hτ, hlenders, -⟩ := h
  obtain ⟨x, hx⟩ := exists_mem_of_ne_nil _ hlenders
  refine ⟨x, ?_⟩
  rw [Trace.lendersOf, hb]
  exact Binding.mem_lenders.2 ⟨τ, hτ, hx⟩

section Item

variable {d : Definition} {i v : ℕ} {x : String} {value : Expr}

theorem taintedSince_of_binds (h : Binds (acts d) i v x value) (file : Option String)
    (hheld : (progressAt file d.fnTypes (acts d) i).top ≠ []) :
    TaintedSince (progressAt file d.fnTypes (acts d) (i + 1)).trace v := by
  obtain ⟨r, mutable, hact⟩ := h.act
  have hsize := (told file d.fnTypes (acts d) i).size
  rw [← h.var] at hsize
  rw [progressAt_succ hact]
  generalize progressAt file d.fnTypes (acts d) i = w at hheld hsize
  subst hsize
  refine ⟨⟨x, w.trace.pos + 1, true,
      if w.top.isEmpty then [] else [⟨w.trace.pos + 1, w.top, value.region⟩]⟩,
    Array.getElem?_push_size, ⟨w.trace.pos + 1, w.top, value.region⟩, ?_, hheld, rfl, le_rfl⟩
  rw [if_neg (by simpa using hheld)]
  exact mem_singleton_self _

theorem lt_vars_of_lookup {as : List Act} {k u : ℕ} {y : String}
    (hnames : (contextAt as k).names = (contextAt as i).names)
    (hu : (contextAt as i).names.lookup y = some u) : u < (contextAt as k).vars.length := by
  obtain ⟨front, back, hsplit, -⟩ := lookup_eq_some_iff.1 (hnames ▸ hu)
  exact (closed_contextAt as k).names (y, u) (by simp [hsplit])

theorem Holds.lookup {Γ : Names} {e : Expr} (h : Holds fns Γ v e) : ∃ y, Γ.lookup y = some v := by
  induction h with
  | name h => exact ⟨_, h⟩
  | tuple _ _ ih | array _ _ ih | attempt _ ih | call _ _ _ ih => exact ih

theorem Borrows.var {as : List Act} (h : Borrows fns as i v) :
    v = (contextAt as i).vars.length := by
  cases h with
  | borrow h | passOn _ _ h => exact h.var

/-- **A chain of borrows is tainted where it is declared.** -/
theorem taintedSince_of_borrows (h : Borrows d.fnTypes (acts d) i v) (file : Option String) :
    TaintedSince (progressAt file d.fnTypes (acts d) (i + 1)).trace v := by
  induction h with
  | @borrow i v x r place mutable y u z hv hroot hu howned =>
    obtain ⟨q, m, hact⟩ := hv.act
    obtain ⟨k, hki, hnames, htop⟩ := exists_hold hact file
    refine taintedSince_of_binds hv file ?_
    rw [htop, Option.all_none, if_pos rfl, lenders]
    have hscope := (told file d.fnTypes (acts d) k).scope.trans hnames
    obtain ⟨back, hback⟩ := vars_grow_at (acts d) hki.le
    rw [← hback, getElem?_append_left (lt_vars_of_lookup hnames hu)] at howned
    obtain ⟨b, hb, -, hb'⟩ := exists_binding file d.fnTypes howned
    exact ne_nil_of_mem (mem_placeLenders hroot (hscope ▸ hu) hb hb')
  | @passOn i v j w x value hv hij hw hholds ih =>
    obtain ⟨q, m, hact⟩ := hw.act
    obtain ⟨k, hkj, hnames, htop⟩ := exists_hold hact file
    refine taintedSince_of_binds hw file ?_
    rw [htop, Option.all_none, if_pos rfl]
    have hscope := (told file d.fnTypes (acts d) k).scope.trans hnames
    -- `v` is in scope where the value is held, so it was declared before
    have hik : i < k := by
      obtain ⟨y, hy⟩ := hholds.lookup
      have hlt := lt_vars_of_lookup hnames hy
      rw [hv.var] at hlt
      by_contra hki
      exact absurd (vars_grow_at (acts d) (Nat.le_of_not_lt hki)).length_le (Nat.not_le_of_lt hlt)
    obtain ⟨y, hy⟩ := (ih.of_extends (progress_extends file d.fnTypes (acts d) hik)).lendersOf
    exact ne_nil_of_mem (lenders_of_holds (hscope ▸ hholds) hy)

end Item

/-! ## Loops end after what is in them -/

/-- The loops that are open and those to go back to fit together. -/
inductive Nested : List ℕ → List (List ℕ × ℕ) → Prop
  | nil : Nested [] []
  | cons {around outside} (loop : ℕ) (h : Nested around outside) :
    Nested (around ++ [loop]) ((around, loop) :: outside)

/-- The note neither opens nor closes a loop. -/
def Note.KeepsLoops : Note → Prop
  | .enter | .leave .. => False
  | _ => True

theorem loops_notes {xs : List Note} (h : ∀ x ∈ xs, x.KeepsLoops) (t : Trace) :
    (xs.foldl Trace.note t).loops = t.loops ∧ (xs.foldl Trace.note t).around = t.around := by
  refine foldlRecOn (motive := fun t' : Trace => t'.loops = t.loops ∧ t'.around = t.around) xs _
    ⟨rfl, rfl⟩ fun t' ht' x hx => ?_
  have hx := h x hx
  cases x with
  | enter | leave => cases hx
  | taint => exact ⟨(loops_taint ..).trans ht'.1, (around_taint ..).trans ht'.2⟩
  | touch | suspend | bind | scope | report => exact ht'

theorem loops_step (file : Option String) (fns : FnTypes) (w : Progress) {a : Act}
    (henter : a ≠ .enter) (hleave : a ≠ .leave) :
    ((a.step file fns w).trace.loops = w.trace.loops ∧
      (a.step file fns w).trace.around = w.trace.around) ∧
        (a.step file fns w).outside = w.outside := by
  have hkeeps : ∀ x ∈ a.notes file fns w, x.KeepsLoops := by
    cases a with
    | visit e =>
      cases e with
      | methodCall =>
        simp only [Act.notes, visitNotes]
        split <;> simp [Note.KeepsLoops]
      | _ => simp [Act.notes, visitNotes, Note.KeepsLoops]
    | iterate =>
      simp only [Act.notes]
      split <;> simp [Note.KeepsLoops]
    | enter => exact absurd rfl henter
    | leave => exact absurd rfl hleave
    | bind | next =>
      intro x hx
      obtain ⟨b, hb, rfl⟩ := mem_map.1 hx
      trivial
    | _ => simp [Act.notes, Note.KeepsLoops]
  rw [a.trace_step]
  exact ⟨loops_notes hkeeps w.trace, by cases a <;> first | rfl | exact absurd rfl ‹_›⟩

theorem Nested.step {w : Progress} (h : Nested w.trace.around w.outside) (file : Option String)
    (fns : FnTypes) (a : Act) :
    Nested (a.step file fns w).trace.around (a.step file fns w).outside := by
  by_cases henter : a = .enter
  · exact henter ▸ .cons _ h
  · by_cases hleave : a = .leave
    · subst hleave
      obtain ⟨t, held, scopes, outside⟩ := w
      dsimp only at h
      generalize haround : t.around = around at h
      cases h with
      | nil => exact .nil
      | cons loop h => exact h
    · obtain ⟨⟨-, haround⟩, houtside⟩ := loops_step file fns w henter hleave
      rw [haround, houtside]
      exact h

theorem nested_progressAt (file : Option String) (fns : FnTypes) (as : List Act) (i : ℕ) :
    Nested (progressAt file fns as i).trace.around (progressAt file fns as i).outside :=
  progressAt_induction (P := fun w _ => Nested w.trace.around w.outside) .nil
    (fun _ _ a h => h.step file fns a) as i

/-- The loop with the number `l` is open, or has ended after the position `q`. -/
structure EndsAfter (l q : ℕ) (w : Progress) : Prop where
  pos : q ≤ w.trace.pos
  known : ∃ range, w.trace.loops[l]? = some range
  ended : l ∉ w.trace.around → ∃ range, w.trace.loops[l]? = some range ∧ q < range.last

section EndsAfter

variable {l q : ℕ} {w : Progress} (file : Option String) (fns : FnTypes)

theorem EndsAfter.enter (h : EndsAfter l q w) : EndsAfter l q (Act.step file fns w .enter) := by
  have hkept {range : LoopRange} (hrange : w.trace.loops[l]? = some range) :
      (Act.step file fns w .enter).trace.loops[l]? = some range := by
    obtain ⟨hl, -⟩ := Array.getElem?_eq_some_iff.1 hrange
    simpa [Act.step, Trace.enter, Array.getElem?_push, hl.ne] using hrange
  refine ⟨h.pos.trans (Nat.le_succ _), h.known.imp fun _ => hkept, fun hl => ?_⟩
  have hl' : l ∉ w.trace.around := fun hmem => hl (mem_append_left _ hmem)
  exact (h.ended hl').imp fun _ hrange => hrange.imp_left hkept

theorem EndsAfter.loops_leaveTo (h : EndsAfter l q w) (around : List ℕ) {loop : ℕ}
    {range : LoopRange} (hrange : w.trace.loops[l]? = some range)
    (hlast : loop ≠ l → q < range.last) :
    ∃ range, (w.trace.leaveTo around loop).loops[l]? = some range ∧ q < range.last := by
  by_cases hl : loop = l
  · refine ⟨{ range with last := w.trace.pos + 1 }, ?_, Nat.lt_succ_of_le h.pos⟩
    simp [Trace.leaveTo, Array.getElem?_modify, hl, hrange]
  · refine ⟨range, ?_, hlast hl⟩
    simpa [Trace.leaveTo, Array.getElem?_modify, hl] using hrange

theorem EndsAfter.leave (h : EndsAfter l q w) (hn : Nested w.trace.around w.outside) :
    EndsAfter l q (Act.step file fns w .leave) := by
  obtain ⟨range, hrange⟩ := h.known
  refine ⟨h.pos.trans (Nat.le_succ _), ?_, fun hl => ?_⟩
  · obtain ⟨range', hrange', -⟩ := (extends_perform file fns w [.leave]).loops l range hrange
    exact ⟨range', hrange'⟩
  · have hended := h.ended
    have hleave := @h.loops_leaveTo
    obtain ⟨t, held, scopes, outside⟩ := w
    dsimp only at hn hended hleave
    generalize t.around = around at hn hended
    cases hn with
    | nil =>
      obtain ⟨range, hrange, hlast⟩ := hended (by simp)
      exact hleave _ hrange fun _ => hlast
    | @cons around outside loop _ =>
      by_cases hloop : loop = l
      · exact hleave _ hrange fun hne => absurd hloop hne
      · have hl' : l ∉ around ++ [loop] := by
          simp only [mem_append, mem_singleton, not_or]
          exact ⟨hl, Ne.symm hloop⟩
        obtain ⟨range, hrange, hlast⟩ := hended hl'
        exact hleave _ hrange fun _ => hlast

theorem EndsAfter.step (h : EndsAfter l q w) (hn : Nested w.trace.around w.outside) (a : Act) :
    EndsAfter l q (a.step file fns w) := by
  by_cases henter : a = .enter
  · exact henter ▸ h.enter file fns
  · by_cases hleave : a = .leave
    · exact hleave ▸ h.leave file fns hn
    · obtain ⟨⟨hloops, haround⟩, -⟩ := loops_step file fns w henter hleave
      exact ⟨h.pos.trans (extends_perform file fns w [a]).pos, by rw [hloops]; exact h.known,
        by rw [haround, hloops]; exact h.ended⟩

theorem EndsAfter.perform (h : EndsAfter l q w) (hn : Nested w.trace.around w.outside)
    (as : List Act) : EndsAfter l q (perform file fns w as) := by
  induction as generalizing w with
  | nil => exact h
  | cons a as ih => exact ih (h.step file fns hn a) (hn.step file fns a)

end EndsAfter

/-! ## Events in the trace -/

section Events

variable {file : Option String} {d : Definition} {i k v : ℕ}

theorem progressAt_length (file : Option String) (d : Definition) :
    progressAt file d.fnTypes (acts d) (acts d).length = { trace := trace file d } := by
  rw [progressAt, take_length, trace_eq_perform]

theorem extends_trace (file : Option String) {a : Act} (h : (acts d)[i]? = some a) :
    (progressAt file d.fnTypes (acts d) (i + 1)).trace.Extends (trace file d) := by
  obtain ⟨hi, -⟩ := List.getElem?_eq_some_iff.1 h
  have hend := progress_extends file d.fnTypes (acts d) (Nat.succ_le_of_lt hi)
  rwa [progressAt_length] at hend

theorem name_of_binds (file : Option String) {x : String} {value : Expr}
    (h : Binds (acts d) i v x value) :
    ∃ b : Binding, (trace file d).bindings[v]? = some b ∧ b.name = x := by
  obtain ⟨r, mutable, hact⟩ := h.act
  obtain ⟨hi, -⟩ := List.getElem?_eq_some_iff.1 hact
  have hvar : (contextAt (acts d) (i + 1)).vars[v]? = some (x, true) := by
    rw [contextAt_succ hact, h.var]
    exact getElem?_concat_length
  obtain ⟨back, hback⟩ := vars_grow_at (acts d) (Nat.succ_le_of_lt hi)
  obtain ⟨hlt, -⟩ := List.getElem?_eq_some_iff.1 hvar
  have hend : (contextAt (acts d) (acts d).length).vars[v]? = some (x, true) := by
    rw [← hback, getElem?_append_left hlt, hvar]
  obtain ⟨b, hb, hname, -⟩ := exists_binding file d.fnTypes hend
  rw [progressAt_length] at hb
  exact ⟨b, hb, hname⟩

theorem use_of_mentions (file : Option String) (h : Mentions (acts d) i v) :
    ∃ use ∈ (trace file d).uses, use.binding = v ∧
      use.pos = (progressAt file d.fnTypes (acts d) i).trace.pos + 1 ∧
      use.loops = (contextAt (acts d) i).around := by
  obtain ⟨r, x, hact, hx⟩ := h
  have htold := told file d.fnTypes (acts d) i
  have hlookup : (progressAt file d.fnTypes (acts d) i).trace.lookup? x = some v := by
    rw [Trace.lookup?, htold.scope, hx]
  refine ⟨⟨v, (progressAt file d.fnTypes (acts d) i).trace.pos + 1,
    (contextAt (acts d) i).around, r⟩, (extends_trace file hact).uses _ ?_, rfl, rfl, rfl⟩
  rw [progressAt_succ hact, ← htold.around]
  simp [Act.step, Progress.withTrace, visit, hlookup, Trace.tick]

theorem suspension_of_suspends (file : Option String) (h : Suspends (acts d) i) :
    ∃ y ∈ (trace file d).suspensions,
      y.pos = (progressAt file d.fnTypes (acts d) i).trace.pos + 1 := by
  obtain ⟨r, value, hact⟩ := h
  refine ⟨⟨(progressAt file d.fnTypes (acts d) i).trace.pos + 1, r⟩,
    (extends_trace file hact).suspensions _ ?_, rfl⟩
  rw [progressAt_succ hact]
  simp [Act.step, Progress.withTrace, visit, Trace.tick]

theorem pos_of_suspends (file : Option String) (h : Suspends (acts d) i) :
    (progressAt file d.fnTypes (acts d) (i + 1)).trace.pos =
      (progressAt file d.fnTypes (acts d) i).trace.pos + 1 := by
  obtain ⟨r, value, hact⟩ := h
  rw [progressAt_succ hact]
  rfl

theorem pos_of_enter (file : Option String) (h : (acts d)[i]? = some .enter) :
    (progressAt file d.fnTypes (acts d) (i + 1)).trace.pos =
      (progressAt file d.fnTypes (acts d) i).trace.pos + 1 := by
  rw [progressAt_succ h]
  rfl

theorem loopRange_of_inside (file : Option String) (h : Inside (acts d) k i)
    (hi : Suspends (acts d) i) :
    ∃ range : LoopRange, (trace file d).loops[(contextAt (acts d) k).loops]? = some range ∧
      range.first = (progressAt file d.fnTypes (acts d) k).trace.pos + 1 ∧
      (progressAt file d.fnTypes (acts d) i).trace.pos + 1 < range.last := by
  obtain ⟨hki, hact, hloop⟩ := h
  have htold := told file d.fnTypes (acts d) k
  set l := (contextAt (acts d) k).loops
  have hentered : (progressAt file d.fnTypes (acts d) (k + 1)).trace.loops[l]? =
      some ⟨(progressAt file d.fnTypes (acts d) k).trace.pos + 1, 0⟩ := by
    rw [progressAt_succ hact]
    simp [Act.step, Trace.enter, l, ← htold.loops]
  obtain ⟨range, hrange, hfirst⟩ := (extends_trace file hact).loops l _ hentered
  obtain ⟨hlt, -⟩ := List.getElem?_eq_some_iff.1 hi.choose_spec.choose_spec
  -- the loop is still open after the suspension
  have hopen : l ∈ (progressAt file d.fnTypes (acts d) (i + 1)).trace.around := by
    obtain ⟨r, value, hyield⟩ := hi
    rw [progressAt_succ hyield]
    exact (told file d.fnTypes (acts d) i).around ▸ hloop
  have hends : EndsAfter l ((progressAt file d.fnTypes (acts d) i).trace.pos + 1)
      (progressAt file d.fnTypes (acts d) (i + 1)) := by
    refine ⟨(pos_of_suspends file hi).ge, ?_, fun hclosed => absurd hopen hclosed⟩
    obtain ⟨range, hrange, -⟩ := (progress_extends file d.fnTypes (acts d)
      (Nat.succ_le_succ hki.le)).loops l _ hentered
    exact ⟨range, hrange⟩
  have hfinal := hends.perform file d.fnTypes (nested_progressAt ..)
    (((acts d).take (acts d).length).drop (i + 1))
  rw [← progressAt_eq_perform (Nat.succ_le_of_lt hlt), progressAt_length] at hfinal
  have hnested := nested_progressAt file d.fnTypes (acts d) (acts d).length
  rw [progressAt_length] at hnested
  have hclosed : (trace file d).around = [] := by
    generalize (trace file d).around = around at hnested
    cases hnested
    rfl
  obtain ⟨range', hrange', hlast⟩ := hfinal.ended (by simp [hclosed])
  cases hrange.symm.trans hrange'
  exact ⟨range, hrange, hfirst, hlast⟩

end Events

/-! ## Reports -/

theorem message_of_escape {file : Option String} {use : Use} {x : Diagnostic} {b : Binding}
    (h : escape? file t use = some x) (hb : t.bindings[use.binding]? = some b) : ∃ held,
    x.message = "`" ++ b.name ++ "` holds a borrow of " ++ held ++
      " and is used after a `yield`" := by
  rw [escape?, hb] at h
  obtain ⟨τ, -, h⟩ := exists_of_findSome?_eq_some h
  obtain ⟨y, -, rfl⟩ := Option.map_eq_some_iff.1 h
  exact ⟨names t τ.lenders, rfl⟩

/-- **Borrows that are passed on and used after a suspension are reported.**  The last variable of a
chain of borrows is named by an error if it is mentioned after a suspension that comes after its
declaration, or if such a mention and a suspension are in every round of a loop that begins after
its declaration. -/
theorem chain_reported (file : Option String) {d : Definition} {i v y u : ℕ} {x : String}
    {value : Expr} (hborrows : Borrows d.fnTypes (acts d) i v) (hx : Binds (acts d) i v x value)
    (hy : Suspends (acts d) y) (hu : Mentions (acts d) u v)
    (horder : i < y ∧ y < u ∨ ∃ k, i < k ∧ Inside (acts d) k y ∧ Inside (acts d) k u) :
    ∃ e ∈ checkEscapes file d, ∃ held, e.message =
      "`" ++ x ++ "` holds a borrow of " ++ held ++ " and is used after a `yield`" := by
  obtain ⟨r, mutable, hact⟩ := hx.act
  obtain ⟨b, hb, hname⟩ := name_of_binds file hx
  obtain ⟨b', hb', τ, hτ, -, hτpos, hbpos⟩ := taintedSince_of_borrows hborrows file
  obtain ⟨b'', hb'', hpos, -, htaints⟩ := (extends_trace file hact).bindings v b' hb'
  cases hb.symm.trans hb''
  obtain ⟨use, huse, rfl, huse_pos, huse_loops⟩ := use_of_mentions file hu
  obtain ⟨s, hs, hs_pos⟩ := suspension_of_suspends file hy
  have hmono {j k : ℕ} (h : j < k) : (progressAt file d.fnTypes (acts d) (j + 1)).trace.pos ≤
      (progressAt file d.fnTypes (acts d) k).trace.pos :=
        (progress_extends file d.fnTypes (acts d) h).pos
  have hshown : (escape? file (trace file d) use).isSome := by
    rcases horder with ⟨hiy, hyu⟩ | ⟨k, hik, hky, hku⟩
    · have hbefore := hmono hiy
      have hafter := hmono hyu
      rw [pos_of_suspends file hy] at hafter
      exact escape_between hb (htaints τ hτ) hs (by omega) (by omega)
    · have hbefore := hmono hik
      have hinside := hmono hky.1
      rw [pos_of_enter file hky.2.1] at hinside
      obtain ⟨range, hrange, hfirst, hlast⟩ := loopRange_of_inside file hky hy
      exact escape_around hb (htaints τ hτ) hs (huse_loops ▸ hku.2.2) hrange (by omega) (by omega)
        (by omega) (by omega)
  obtain ⟨e, he, use', hsame, hescape⟩ := mem_escapes (Array.mem_toList_iff.2 huse) hshown
    (not_mem_nil)
  refine ⟨e, mem_append_right _ he, ?_⟩
  rw [← hname]
  exact message_of_escape hescape (hsame ▸ hb)

/-- `let x = value;` -/
def letValue (x : String) (value : Expr) : Stmt :=
  .letIn default (.bind default x false) none value none

/-- `let x = z(); let r = &x.a[0]; let s = g((r,))?; while h(s) { yield 1; }` -/
def passing : Definition :=
  numbers [] [letCall "x",
    letValue "r" (.borrow default (.index default (.field default (.name default "x") "a")
      (.literal default (.int 0 none))) false),
    letValue "s" (.attempt default (.call default (.name default "g")
      [.tuple default [.name default "r"]])),
    .whileDo default (.test (.call default (.name default "h") [.name default "s"]))
      (.mk [yieldOne] default none)]

theorem passing_reported :
    Borrows passing.fnTypes (acts passing) 20 2 ∧ Suspends (acts passing) 29 ∧
      Mentions (acts passing) 25 2 ∧ Inside (acts passing) 22 29 ∧ Inside (acts passing) 22 25 ∧
      ∃ e ∈ checkEscapes none passing, ∃ held, e.message =
        "`" ++ "s" ++ "` holds a borrow of " ++ held ++ " and is used after a `yield`" := by
  have hr : Borrows passing.fnTypes (acts passing) 12 1 :=
    .borrow (x := "r") (y := "x") (z := "x") ⟨⟨_, _, rfl⟩, rfl⟩ rfl rfl rfl
  have hs : Binds (acts passing) 20 2 "s" _ := ⟨⟨_, _, rfl⟩, rfl⟩
  have hborrows : Borrows passing.fnTypes (acts passing) 20 2 :=
    .passOn hr (by decide) hs (.attempt (.call (by rintro _ _ ⟨⟩; rfl) mem_cons_self
      (.tuple mem_cons_self (.name rfl))))
  have hy : Suspends (acts passing) 29 := ⟨_, _, rfl⟩
  have hu : Mentions (acts passing) 25 2 := ⟨_, "s", rfl, rfl⟩
  have hky : Inside (acts passing) 22 29 := ⟨by decide, rfl, by decide⟩
  have hku : Inside (acts passing) 22 25 := ⟨by decide, rfl, by decide⟩
  exact ⟨hborrows, hy, hu, hky, hku,
    chain_reported none hborrows hs hy hu (.inr ⟨22, by decide, hky, hku⟩)⟩

/-- `for i in 0..g(r) { yield 1; }` -/
def handingLoop : Stmt :=
  .forIn default (.bind default "i" false)
    (.range default (.literal default (.int 0 none))
      (.call default (.name default "g") [.name default "r"]) false)
    (.mk [yieldOne] default none)

def handing : Definition :=
  numbers [] [letCall "x", letValue "r" (.borrow default (.name default "x") false), handingLoop]

/-- What a loop goes through is evaluated once, before the first round: the mention of `r` stands in
the loop and so does the suspension, but no round does both. -/
theorem iterable_mention_unreported :
    Borrows handing.fnTypes (acts handing) 9 1 ∧ Mentions (acts handing) 13 1 ∧
      Suspends (acts handing) 23 ∧
      acts handing = (acts handing).take 11 ++ stmtActs handingLoop ++ [.closeScope] ∧
      (stmtActs handingLoop).length = 17 ∧ checkEscapes none handing = [] := by
  have hr : Borrows handing.fnTypes (acts handing) 9 1 :=
    .borrow (x := "r") (y := "x") (z := "x") ⟨⟨_, _, rfl⟩, rfl⟩ rfl rfl rfl
  exact ⟨hr, ⟨_, "r", rfl, rfl⟩, ⟨_, _, rfl⟩, rfl, rfl, rfl⟩

end Yielding.Borrow
