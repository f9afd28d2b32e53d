import Yielding.Proofs.Borrow.Acts
import Yielding.Proofs.Borrow.Escapes

/-!
# Proofs/Borrow/Indices — a trace refers to its own bindings and loops

A trace names bindings and loops by their numbers: in its scope, as lenders, in its uses.  Bindings
and loops are only ever added, so a number that is valid stays valid, and every number that the walk
notes is one that it has looked up (`indexed_trace`).
-/

namespace Yielding.Borrow

open List

def Lenders.Within (t : Trace) (ls : Lenders) : Prop := ∀ i ∈ ls, i < t.bindings.size

/-- The diagnostic is the error of a loop over borrows of bindings that are known. -/
def IsLoopError (file : Option String) (x : Diagnostic) : Prop :=
  ∃ t iterable ls, x = loopError file t iterable ls ∧ Lenders.Within t ls

/-- Every number that the trace holds is that of one of its bindings or loops. -/
structure Trace.Indexed (file : Option String) (t : Trace) : Prop where
  scope : ∀ e ∈ t.scope, e.2 < t.bindings.size
  taints : ∀ b ∈ t.bindings, ∀ taint ∈ b.taints, taint.lenders.Within t
  around : ∀ l ∈ t.around, l < t.loops.size
  uses : ∀ use ∈ t.uses, use.binding < t.bindings.size ∧ ∀ l ∈ use.loops, l < t.loops.size
  diagnostics : ∀ x ∈ t.diagnostics, IsLoopError file x

/-- A later trace of a walk: its numbers are valid, and none that was valid before is not now. -/
structure Trace.Reaches (file : Option String) (t t' : Trace) : Prop where
  indexed : t'.Indexed file
  bindings : t.bindings.size ≤ t'.bindings.size
  loops : t.loops.size ≤ t'.loops.size

def Note.Valid (file : Option String) (t : Trace) : Note → Prop
  | .touch _ v => v < t.bindings.size
  | .bind _ _ held _ | .taint _ held _ => held.Within t
  | .leave around _ => ∀ l ∈ around, l < t.loops.size
  | .scope names => ∀ e ∈ names, e.2 < t.bindings.size
  | .report error => IsLoopError file error
  | .suspend _ | .enter => True

section

variable {file : Option String} {t t' t'' : Trace} {ls : Lenders}

theorem Lenders.Within.reaches (h : ls.Within t) (ht : t.Reaches file t') : ls.Within t' :=
  fun i hi => (h i hi).trans_le ht.bindings

theorem Lenders.Within.union {ls' : Lenders} (h : ls.Within t) (h' : ls'.Within t) :
    (ls.union ls').Within t :=
  fun i hi => (Lenders.mem_union.1 hi).elim (h i) (h' i)

namespace Trace

theorem Reaches.refl (h : t.Indexed file) : t.Reaches file t := ⟨h, le_rfl, le_rfl⟩

theorem Reaches.trans (h : t.Reaches file t') (h' : t'.Reaches file t'') : t.Reaches file t'' :=
  ⟨h'.indexed, h.bindings.trans h'.bindings, h.loops.trans h'.loops⟩

/-! ## What is looked up -/

theorem Indexed.lookup? (h : t.Indexed file) {x : String} {i : ℕ} (hi : t.lookup? x = some i) :
    i < t.bindings.size := by
  obtain ⟨before, after, hscope, -⟩ := lookup_eq_some_iff.1 hi
  exact h.scope (x, i) (by simp [hscope])

theorem Indexed.root? (h : t.Indexed file) {i : ℕ} {e : Expr} (hi : Borrow.root? t e = some i) :
    i < t.bindings.size := by
  obtain ⟨x, -, hx⟩ := Option.bind_eq_some_iff.1 hi
  exact h.lookup? hx

theorem Indexed.lenders (h : t.Indexed file) {b : Binding} (hb : b ∈ t.bindings) :
    b.lenders.Within t := by
  intro i hi
  obtain ⟨taint, htaint, hi⟩ := Binding.mem_lenders.1 hi
  exact h.taints b hb taint htaint i hi

theorem Indexed.lendersOf (h : t.Indexed file) (i : ℕ) : (t.lendersOf i).Within t := by
  unfold Trace.lendersOf
  cases hb : t.bindings[i]? with
  | none => exact nofun
  | some b => exact h.lenders (Array.mem_of_getElem? hb)

theorem Indexed.placeLenders (h : t.Indexed file) (place : Expr) :
    (Borrow.placeLenders t place).Within t := by
  unfold Borrow.placeLenders
  split
  · exact forall_mem_nil _
  · next i hi =>
    split
    · exact forall_mem_nil _
    · next b hb =>
      have hlenders := h.lenders (Array.mem_of_getElem? hb)
      split
      · exact hlenders.union (forall_mem_singleton.2 (h.root? hi))
      · exact hlenders

mutual

theorem Indexed.exprLenders (h : t.Indexed file) (fns : FnTypes) :
    ∀ e : Expr, (Borrow.lenders fns t e).Within t
  | .borrow _ value _ => h.placeLenders value
  | .name _ x => by
    rw [Borrow.lenders]
    cases t.lookup? x with
    | none => exact nofun
    | some i => exact h.lendersOf i
  | .field .. | .tupleField .. | .index .. => by
    rw [Borrow.lenders]
    cases Borrow.root? t _ with
    | none => exact nofun
    | some i => exact h.lendersOf i
  | .methodCall _ receiver method args => by
    rw [Borrow.lenders]
    have hargs := h.rowLenders fns args
    have hreceiver := h.exprLenders fns receiver
    have hplace := h.placeLenders receiver
    split
    · split
      · exact hplace
      · exact hreceiver
    · split
      · exact nofun
      · dsimp only
        split
        · exact hreceiver.union hargs
        · exact hplace.union hargs
  | .tuple _ es | .array _ es => h.rowLenders fns es
  | .call _ func args => by
    unfold Borrow.lenders
    dsimp only
    split_ifs
    · exact nofun
    · exact h.rowLenders fns args
  | .attempt _ e => h.exprLenders fns e
  | .literal .. | .path .. | .unary .. | .binary .. | .range .. | .macroCall .. | .await ..
  | .yield ..
  | .helper .. => nofun

theorem Indexed.rowLenders (h : t.Indexed file) (fns : FnTypes) :
    ∀ es : List Expr, (Borrow.rowLenders fns t es).Within t
  | [] => nofun
  | e :: es => (h.exprLenders fns e).union (h.rowLenders fns es)

end

/-! ## What is noted -/

theorem Reaches.valid (h : t.Reaches file t') : ∀ {n : Note}, n.Valid file t → n.Valid file t'
  | .touch .., hn => hn.trans_le h.bindings
  | .bind .., hn | .taint .., hn => Lenders.Within.reaches hn h
  | .leave .., hn => fun l hl => (hn l hl).trans_le h.loops
  | .scope _, hn => fun e he => (hn e he).trans_le h.bindings
  | .report _, hn => hn
  | .suspend _, _ | .enter, _ => trivial

theorem Indexed.touch (h : t.Indexed file) (r : Region) {v : ℕ} (hv : v < t.bindings.size) :
    t.Reaches file (t.touch r v) := by
  refine ⟨{ h with uses := fun use huse => ?_ }, le_rfl, le_rfl⟩
  rcases Array.mem_push.1 huse with huse | rfl
  · exact h.uses use huse
  · exact ⟨hv, h.around⟩

theorem Indexed.declare (h : t.Indexed file) (name : String) (owned : Bool) (hls : ls.Within t)
    (region : Region) : t.Reaches file (t.note (.bind name owned ls region)) := by
  have hsize : (t.note (.bind name owned ls region)).bindings.size = t.bindings.size + 1 :=
    Array.size_push _
  refine ⟨⟨?_, ?_, h.around, ?_, h.diagnostics⟩, hsize ▸ Nat.le_succ _, le_rfl⟩
  · refine forall_mem_cons.2 ⟨hsize ▸ Nat.lt_succ_self _, fun e he => ?_⟩
    exact hsize ▸ (h.scope e he).trans (Nat.lt_succ_self _)
  · intro b hb taint htaint i hi
    rw [hsize]
    refine Nat.lt_succ_of_lt ?_
    rcases Array.mem_push.1 hb with hb | rfl
    · exact h.taints b hb taint htaint i hi
    · dsimp only at htaint
      split at htaint
      · cases htaint
      · obtain rfl := mem_singleton.1 htaint
        exact hls i hi
  · intro use huse
    exact ⟨hsize ▸ (h.uses use huse).1.trans (Nat.lt_succ_self _), (h.uses use huse).2⟩

theorem Indexed.taint (h : t.Indexed file) (i : ℕ) (hls : ls.Within t) (region : Region) :
    t.Reaches file (t.taint i ls region) := by
  have hsize := size_taint t i ls region
  unfold Trace.taint at hsize ⊢
  split
  · exact .refl h
  · next hempty =>
    rw [if_neg hempty] at hsize
    refine ⟨⟨?_, ?_, h.around, ?_, h.diagnostics⟩, hsize.ge, le_rfl⟩
    · exact fun e he => hsize ▸ h.scope e he
    · intro b hb taint htaint
      obtain ⟨j, hj⟩ := Array.mem_iff_getElem?.1 hb
      rw [Array.getElem?_modify] at hj
      have hkept {b : Binding} (hb : t.bindings[j]? = some b) {taint : Taint}
          (htaint : taint ∈ b.taints) : taint.lenders.Within _ :=
        fun k hk => hsize ▸ h.taints b (Array.mem_of_getElem? hb) taint htaint k hk
      split at hj
      · obtain ⟨b, hbefore, rfl⟩ := Option.map_eq_some_iff.1 hj
        rcases mem_append.1 htaint with htaint | htaint
        · exact hkept hbefore htaint
        · obtain rfl := mem_singleton.1 htaint
          exact fun k hk => hsize ▸ hls k hk
      · exact hkept hj htaint
    · exact fun use huse => ⟨hsize ▸ (h.uses use huse).1, (h.uses use huse).2⟩

theorem Indexed.enter (h : t.Indexed file) : t.Reaches file t.enter := by
  have hsize : t.enter.loops.size = t.loops.size + 1 := Array.size_push _
  refine ⟨{ h with around := ?_, uses := ?_ }, le_rfl, hsize ▸ Nat.le_succ _⟩
  · refine forall_mem_append.2 ⟨fun l hl => ?_, ?_⟩
    · exact hsize ▸ (h.around l hl).trans (Nat.lt_succ_self _)
    · exact forall_mem_singleton.2 (hsize ▸ Nat.lt_succ_self _)
  · intro use huse
    obtain ⟨hbinding, hloops⟩ := h.uses use huse
    exact ⟨hbinding, fun l hl => hsize ▸ (hloops l hl).trans (Nat.lt_succ_self _)⟩

theorem Indexed.leaveTo (h : t.Indexed file) {around : List ℕ}
    (haround : ∀ l ∈ around, l < t.loops.size)
    (loop : ℕ) : t.Reaches file (t.leaveTo around loop) := by
  have hsize : (t.leaveTo around loop).loops.size = t.loops.size := Array.size_modify
  refine ⟨{ h with around := ?_, uses := ?_ }, le_rfl, hsize.ge⟩
  · exact fun l hl => hsize ▸ haround l hl
  · intro use huse
    obtain ⟨hbinding, hloops⟩ := h.uses use huse
    exact ⟨hbinding, fun l hl => hsize ▸ hloops l hl⟩

theorem Indexed.note (h : t.Indexed file) : ∀ {n : Note}, n.Valid file t → t.Reaches file (t.note n)
  | .touch r _, hn => h.touch r hn
  | .suspend _, _ => ⟨{ h with }, le_rfl, le_rfl⟩
  | .bind name owned _ r, hn => h.declare name owned hn r
  | .taint v _ r, hn => h.taint v hn r
  | .enter, _ => h.enter
  | .leave _ loop, hn => h.leaveTo hn loop
  | .scope _, hn => ⟨{ h with scope := hn }, le_rfl, le_rfl⟩
  | .report _, hn => ⟨{ h with
      diagnostics := forall_mem_append.2 ⟨h.diagnostics, forall_mem_singleton.2 hn⟩ },
    le_rfl, le_rfl⟩

theorem Indexed.notes {ns : List Note} (h : t.Indexed file) (hns : ∀ n ∈ ns, n.Valid file t) :
    t.Reaches file (ns.foldl Trace.note t) := by
  induction ns generalizing t with
  | nil => exact .refl h
  | cons n ns ih =>
    obtain ⟨hn, hns⟩ := forall_mem_cons.1 hns
    have hnote := h.note hn
    exact hnote.trans (ih hnote.indexed fun m hm => hnote.valid (hns m hm))

end Trace

/-! ## Acts -/

/-- The numbers of the trace are valid, and those that the walk will go back to. -/
structure Progress.Indexed (file : Option String) (w : Progress) : Prop where
  trace : w.trace.Indexed file
  held : ∀ ls ∈ w.held, ls.Within w.trace
  scopes : ∀ names ∈ w.scopes, ∀ e ∈ names, e.2 < w.trace.bindings.size
  outside : ∀ o ∈ w.outside, ∀ l ∈ o.1, l < w.trace.loops.size

namespace Progress.Indexed

variable {w : Progress}

theorem top (h : w.Indexed file) : w.top.Within w.trace := by
  unfold Progress.top
  cases hheld : w.held with
  | nil => exact nofun
  | cons ls held => exact h.held ls (hheld ▸ mem_cons_self)

theorem reaches (h : w.Indexed file) (ht : w.trace.Reaches file t) :
    (w.withTrace t).Indexed file where
  trace := ht.indexed
  held ls hls := (h.held ls hls).reaches ht
  scopes names hnames e he := (h.scopes names hnames e he).trans_le ht.bindings
  outside o ho l hl := (h.outside o ho l hl).trans_le ht.loops

theorem valid_visit (h : w.Indexed file) (fns : FnTypes) (e : Expr) :
    ∀ n ∈ visitNotes fns w.trace e, n.Valid file w.trace := by
  cases e with
  | name r x =>
    intro n hn
    obtain ⟨i, hi, rfl⟩ := Option.map_eq_some_iff.1 (Option.mem_toList.1 hn)
    exact h.trace.lookup? hi
  | yield r value => exact forall_mem_singleton.2 trivial
  | methodCall r receiver method args =>
    intro n hn
    rw [visitNotes] at hn
    split at hn
    · obtain ⟨i, -, rfl⟩ := Option.map_eq_some_iff.1 (Option.mem_toList.1 hn)
      exact h.trace.rowLenders fns args
    · cases hn
  | _ => exact forall_mem_nil _

theorem valid_notes (h : w.Indexed file) (fns : FnTypes) (a : Act) :
    ∀ n ∈ a.notes file fns w, n.Valid file w.trace := by
  have hpattern (p : Pattern) (region : Region) (owned : Bool) :
      ∀ n ∈ patternNotes p w.top region owned, n.Valid file w.trace := by
    intro n hn
    obtain ⟨x, -, rfl⟩ := mem_map.1 hn
    exact h.top
  cases a with
  | visit e => exact h.valid_visit fns e
  | param p => exact forall_mem_singleton.2 (forall_mem_nil _)
  | bind p type value => exact hpattern p _ _
  | next p iterable => exact hpattern p _ _
  | store target value =>
    intro n hn
    obtain ⟨i, -, rfl⟩ := Option.map_eq_some_iff.1 (Option.mem_toList.1 hn)
    exact fun j hj => h.trace.exprLenders fns value j (mem_of_mem_filter hj)
  | iterate iterable yields =>
    intro n hn
    rw [Act.notes] at hn
    split at hn
    · obtain rfl := mem_singleton.1 hn
      exact ⟨w.trace, iterable, w.top, rfl, h.top⟩
    · cases hn
  | closeScope =>
    refine forall_mem_singleton.2 ?_
    cases hscopes : w.scopes with
    | nil => exact forall_mem_nil _
    | cons names scopes => exact h.scopes names (hscopes ▸ mem_cons_self)
  | enter => exact forall_mem_singleton.2 trivial
  | leave =>
    refine forall_mem_singleton.2 ?_
    cases houtside : w.outside with
    | nil => exact forall_mem_nil _
    | cons o outside => exact h.outside o (houtside ▸ mem_cons_self)
  | hold | drop | openScope => exact forall_mem_nil _

theorem step (h : w.Indexed file) (fns : FnTypes) (a : Act) : (a.step file fns w).Indexed file := by
  have hw := h.reaches (h.trace.notes (h.valid_notes fns a))
  rw [← a.trace_step] at hw
  have hlast {α : Type} {P : α → Prop} {xs : List α} (hxs : ∀ x ∈ xs, P x) : ∀ x ∈ xs.tail, P x :=
    fun x hx => hxs x (mem_of_mem_tail hx)
  cases a with
  | hold value type =>
    refine { h with held := forall_mem_cons.2 ⟨?_, h.held⟩ }
    split
    · exact h.trace.exprLenders fns value
    · exact nofun
  | drop => exact { h with held := hlast h.held }
  | iterate iterable yields =>
    refine { hw with held := forall_mem_cons.2 ⟨?_, hlast hw.held⟩ }
    split
    · exact nofun
    · exact hw.top
  | openScope => exact { h with scopes := forall_mem_cons.2 ⟨h.trace.scope, h.scopes⟩ }
  | closeScope => exact { hw with scopes := hlast hw.scopes }
  | enter =>
    have haround := fun l hl => (h.trace.around l hl).trans_le h.trace.enter.loops
    exact { hw with outside := forall_mem_cons.2 ⟨haround, hw.outside⟩ }
  | leave => exact { hw with outside := hlast hw.outside }
  | visit | param | bind | next | store => exact hw

end Progress.Indexed

/-- **The trace of an item refers to its own bindings and loops.** -/
theorem indexed_trace (file : Option String) (d : Definition) : (trace file d).Indexed file := by
  have hstart : Progress.Indexed file {} :=
    ⟨⟨nofun, nofun, nofun, nofun, nofun⟩, nofun, nofun, nofun⟩
  have hend := foldlRecOn (motive := Progress.Indexed file) (acts d) (Act.step file d.fnTypes)
    hstart fun w hw a _ => hw.step d.fnTypes a
  change (perform file d.fnTypes {} (acts d)).Indexed file at hend
  rw [trace_eq_perform] at hend
  exact hend.trace

end

end Yielding.Borrow
