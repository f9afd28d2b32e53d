import Mathlib.Data.List.Chain
import Yielding.Proofs.Borrow.Reading
import Yielding.Proofs.Every

/-!
# Proofs/Borrow/Escapes — addresses that are read after a suspension are reported

A path **carries** the address of a local from variable to variable.  It escapes when the last of
them is read after a suspension and before it is written again.  `escape_reported` says on which
paths the walk, which goes through the text once, sees that: where each step stands after the one it
depends on, or a loop around them brings it there.
-/

namespace Yielding.Borrow

open List

/-! ## Addresses along a path -/

/-- The variable `v` keeps from the step `i` of a path to the step `j` what the step `i` wrote. -/
def Keeps (π : List Step) (v i j : ℕ) : Prop :=
  i < j ∧ ∀ k < j, i < k → ∀ e ∈ π[k]?, e.2.target ≠ some v

instance (π : List Step) (v i j : ℕ) : Decidable (Keeps π v i j) :=
  inferInstanceAs (Decidable (_ ∧ _))

/-- **How an address travels.**  The steps of a path that write the address of `x`, each with the
variable it writes to, the last one first: one takes the address, and each later one copies a
variable that holds it at that moment. -/
inductive Carries (π : List Step) (x : ℕ) : List (ℕ × ℕ) → Prop
  | address {i p s : ℕ} {o : Op} {r : Region} : π[i]? = some (p, o) →
    o.writes = some (s, .address r x) → Carries π x [(i, s)]
  | copy {i p s j y : ℕ} {o : Op} {r : Region} {c : List (ℕ × ℕ)} : Carries π x ((j, y) :: c) →
    Keeps π y j i → π[i]? = some (p, o) → o.writes = some (s, .copy r y) →
      Carries π x ((i, s) :: (j, y) :: c)

/-- The item owns the variable. -/
def Flow.Owns (f : Flow) (x : ℕ) : Prop :=
  ∃ c name r, Token.op (.bind x c name true r) ∈ f.text

/-- **An address escapes** on a path: the variable `s`, to which the step `i` writes the address of
`x`, keeps it over the suspension `k` until the step `r` reads `s`. -/
structure EscapesVia (f : Flow) (π : List Step) (x i s : ℕ) (c : List (ℕ × ℕ)) (k r : ℕ) :
    Prop where
  owned : f.Owns x
  carries : Carries π x ((i, s) :: c)
  suspends : ∃ p region, π[k]? = some (p, .suspend region)
  reads : ∃ p o, π[r]? = some (p, o) ∧ o.reads = some s
  order : i < k ∧ k < r
  keeps : Keeps π s i r

/-! ## What the walk sees -/

/-- The place in the text of a step of a run. -/
def place (π : List Step) (i : ℕ) : ℕ := ((π[i]?).map Prod.fst).getD 0

/-- A loop that `v` outlives is around all the places. -/
def Around (ts : List Token) (v : ℕ) (ps : List ℕ) : Prop :=
  ∃ first last, LoopAt ts first last ∧ DeclaredBefore ts first v ∧ ∀ p ∈ ps, first < p ∧ p < last

/-- A copy of what the step `e'` wrote stands after that step in the text, or a loop with a
suspension in it is around both. -/
def Follows (ts : List Token) (π : List Step) (e e' : ℕ × ℕ) : Prop :=
  place π e'.1 < place π e.1 ∨ ∃ q r, ts[q]? = some (.op (.suspend r)) ∧
    Around ts e'.2 [place π e'.1, q, place π e.1]

def Op.assigned : Op → Option ℕ
  | store v .. => some v
  | _ => none

/-- No step of `c` is an assignment to `x`. -/
def SparesOwner (π : List Step) (x : ℕ) (c : List (ℕ × ℕ)) : Prop :=
  ∀ e ∈ c, ∀ step ∈ π[e.1]?, step.2.assigned ≠ some x

instance (π : List Step) (x : ℕ) (c : List (ℕ × ℕ)) : Decidable (SparesOwner π x c) :=
  inferInstanceAs (Decidable (∀ e ∈ c, ∀ step ∈ π[e.1]?, _))

/-- A binding holds a borrow of `x`, from a position on that is not after `last`. -/
def Tainted (t : Trace) (v x last : ℕ) : Prop :=
  ∃ b : Binding, t.bindings[v]? = some b ∧ ∃ τ ∈ b.taints, x ∈ τ.lenders ∧ τ.pos ≤ last

variable {t : Trace} {v x : ℕ}

theorem Tainted.of_extends {t' : Trace} {last : ℕ} (h : Tainted t v x last) (ht : t.Extends t') :
    Tainted t' v x last := by
  obtain ⟨b, hb, τ, hτ, found⟩ := h
  obtain ⟨b', hb', -, -, htaints⟩ := ht.bindings v b hb
  exact ⟨b', hb', τ, htaints τ hτ, found⟩

theorem Lenders.mem_union {a b : Lenders} : x ∈ a.union b ↔ x ∈ a ∨ x ∈ b := by
  by_cases h : x ∈ a <;> simp [Lenders.union, h]

theorem Binding.mem_lenders {b : Binding} : x ∈ b.lenders ↔ ∃ τ ∈ b.taints, x ∈ τ.lenders := by
  have fold (τs : List Taint) (found : Lenders) :
      x ∈ τs.foldl (fun found t => found.union t.lenders) found ↔
        x ∈ found ∨ ∃ τ ∈ τs, x ∈ τ.lenders := by
    induction τs generalizing found with
    | nil => simp
    | cons τ τs ih => simp [ih, Lenders.mem_union, or_assoc]
  exact (fold b.taints []).trans (by simp)

theorem Tainted.mem_lendersOf {last : ℕ} (h : Tainted t v x last) : x ∈ t.lendersOf v := by
  obtain ⟨b, hb, τ, hτ, hx, -⟩ := h
  simpa [Trace.lendersOf, hb] using Binding.mem_lenders.2 ⟨τ, hτ, hx⟩

theorem not_isEmpty_of_mem {ls : Lenders} (hx : x ∈ ls) : ls.isEmpty = false :=
  isEmpty_eq_false_iff.2 (ne_nil_of_mem hx)

theorem tainted_declare (t : Trace) (name : String) (owned : Bool) (r : Region) {ls : Lenders}
    (hx : x ∈ ls) : Tainted (t.declare name owned ls r)
    t.bindings.size x (t.declare name owned ls r).pos := by
  refine ⟨⟨name, t.pos + 1, owned, [⟨t.pos + 1, ls, r⟩]⟩, ?_, _, mem_singleton_self _, hx,
    Nat.le_refl _⟩
  simp [Trace.declare, not_isEmpty_of_mem hx]

theorem tainted_taint (hv : v < t.bindings.size) (r : Region) {ls : Lenders} (hx : x ∈ ls) :
    Tainted (t.taint v ls r) v x (t.taint v ls r).pos := by
  simp only [Trace.taint, not_isEmpty_of_mem hx, Bool.false_eq_true, if_false]
  obtain ⟨b, hb⟩ : ∃ b, t.bindings[v]? = some b := ⟨_, Array.getElem?_eq_getElem hv⟩
  refine ⟨{ b with taints := b.taints ++ [⟨t.pos + 1, ls, r⟩] }, ?_, ⟨t.pos + 1, ls, r⟩,
    mem_append_right _ (mem_singleton_self _), hx, Nat.le_refl _⟩
  simp [Trace.tick, Array.getElem?_modify, hb]

variable {o : Op}

theorem tainted_of_writes {c : Content} (ho : o.Scoped {v | v < t.bindings.size} t.bindings.size)
    (hc : o.writes = some (v, c)) (hx : x ∈ c.lenders (c.touch t)) (hself : o.assigned ≠ some x) :
    Tainted (o.step t) v x (o.step t).pos := by
  cases o with
  | bind w c' name owned r =>
    cases hc
    obtain ⟨rfl, -⟩ := ho
    rw [← c.bindings_touch t]
    exact tainted_declare (c.touch t) name owned r hx
  | store w c' r =>
    cases hc
    have hv : v < (c.touch t).bindings.size := c.bindings_touch t ▸ ho.1
    have hne : x ≠ v := fun heq => hself (heq ▸ rfl)
    exact tainted_taint hv r (mem_filter.2 ⟨hx, by simpa using hne⟩)
  | read | suspend => cases hc

theorem Op.reads_of_writes {c : Content} (h : o.writes = some (v, c)) : o.reads = c.mentions := by
  cases o with
  | bind | store => cases h; rfl
  | read | suspend => cases h

/-! ## Notes of a text -/

theorem Trace.use_touch (t : Trace) (r : Region) (v : ℕ) :
    ⟨v, t.pos + 1, t.around, r⟩ ∈ (t.touch r v).uses := by
  simp [Trace.touch]

theorem Content.use_touch {c : Content} (hv : c.mentions = some v) (t : Trace) : ∃ r,
    ⟨v, t.pos + 1, t.around, r⟩ ∈ (c.touch t).uses := by
  cases c with
  | address r x | copy r x =>
    cases hv
    exact ⟨r, t.use_touch r v⟩
  | other => cases hv

theorem Op.use_step (t : Trace) (hv : o.reads = some v) : ∃ r,
    ⟨v, t.pos + 1, t.around, r⟩ ∈ (o.step t).uses := by
  cases o with
  | bind w c name owned =>
    obtain ⟨r, hr⟩ := Content.use_touch hv t
    exact ⟨r, (Trace.extends_declare ..).uses _ hr⟩
  | store w c =>
    obtain ⟨r, hr⟩ := Content.use_touch hv t
    exact ⟨r, (Trace.extends_taint ..).uses _ hr⟩
  | read r w =>
    cases hv
    exact ⟨r, t.use_touch r v⟩
  | suspend => cases hv

section Text

variable {ts : List Token} {p : ℕ} {o : Op}

theorem use_of_reads (hp : ts[p]? = some (.op o)) (hv : o.reads = some v) : ∃ r,
    ⟨v, (notes ts p).pos + 1, (notes ts p).around, r⟩ ∈ (run {} ts).uses := by
  have later := notes_extends_run ts (p + 1)
  rw [notes_succ hp] at later
  obtain ⟨r, hr⟩ := o.use_step (notes ts p) hv
  exact ⟨r, later.uses _ hr⟩

theorem suspension_of_op {r : Region} (hp : ts[p]? = some (.op (.suspend r))) :
    ⟨(notes ts p).pos + 1, r⟩ ∈ (run {} ts).suspensions := by
  have later := notes_extends_run ts (p + 1)
  rw [notes_succ hp] at later
  exact later.suspensions _ (by simp [Token.step, Op.step, Trace.suspend])

theorem pos_suspend {r : Region} (hp : ts[p]? = some (.op (.suspend r))) :
    (notes ts (p + 1)).pos = (notes ts p).pos + 1 := by
  rw [notes_succ hp]
  rfl

theorem LoopAt.pos_enter {first last : ℕ} (h : LoopAt ts first last) :
    (notes ts (first + 1)).pos = (notes ts first).pos + 1 := by
  obtain ⟨before, body, after, rfl, rfl, -⟩ := h
  rw [notes_succ (k := .enter) (by simp)]
  rfl

end Text

/-! ## Reports -/

/-- **A use that shows an escape is reported**, unless its binding was before. -/
theorem mem_escapes {file : Option String} {use : Use} {uses : List Use} (hmem : use ∈ uses)
    (h : (escape? file t use).isSome) {reported : List ℕ} (hnew : use.binding ∉ reported) :
    ∃ x ∈ escapes file t reported uses, ∃ use', use'.binding = use.binding ∧
      escape? file t use' = some x := by
  induction uses generalizing reported with
  | nil => cases hmem
  | cons u uses ih =>
    rw [escapes]
    by_cases hdone : u.binding ∈ reported
    · rw [if_pos (by simpa using hdone)]
      rcases mem_cons.1 hmem with rfl | hmem
      · exact absurd hdone hnew
      · exact ih hmem hnew
    · rw [if_neg (by simpa using hdone)]
      cases hu : escape? file t u with
      | none =>
        rcases mem_cons.1 hmem with rfl | hmem
        · rw [hu] at h
          cases h
        · exact ih hmem hnew
      | some x =>
        by_cases hsame : u.binding = use.binding
        · exact ⟨x, mem_cons_self, u, hsame, hu⟩
        · rcases mem_cons.1 hmem with rfl | hmem
          · exact absurd rfl hsame
          · obtain ⟨y, hy, found⟩ := ih hmem
              (not_mem_cons_of_ne_of_not_mem (Ne.symm hsame) hnew)
            exact ⟨y, mem_cons_of_mem _ hy, found⟩

theorem escapes_ne_nil {file : Option String} {use : Use} (h : (escape? file t use).isSome)
    {uses : List Use} (hmem : use ∈ uses) : escapes file t [] uses ≠ [] := by
  obtain ⟨x, hx, -⟩ := mem_escapes hmem h not_mem_nil
  exact ne_nil_of_mem hx

theorem isSome_suspensionBetween {first last : ℕ} {y : Suspension} (hy : y ∈ t.suspensions)
    (hfirst : first < y.pos) (hlast : y.pos < last) : (suspensionBetween? t first last).isSome := by
  refine find?_isSome.2 ⟨y, by simpa using hy, ?_⟩
  simp [hfirst, hlast]

section Report

variable {file : Option String} {t : Trace} {use : Use} {b : Binding} {τ : Taint} {y : Suspension}

theorem isSome_escape (hb : t.bindings[use.binding]? = some b) (hτ : τ ∈ b.taints)
    (h : (suspensionBefore? t use b.pos τ.pos).isSome) : (escape? file t use).isSome := by
  rw [escape?, hb]
  exact findSome?_isSome_iff.2 ⟨τ, hτ, by simpa using h⟩

theorem escape_between (hb : t.bindings[use.binding]? = some b) (hτ : τ ∈ b.taints)
    (hy : y ∈ t.suspensions) (hfirst : τ.pos < y.pos) (hlast : y.pos < use.pos) :
    (escape? file t use).isSome := by
  refine isSome_escape hb hτ ?_
  rw [suspensionBefore?, Option.orElse_eq_orElse, Option.orElse_eq_or, Option.isSome_or,
    isSome_suspensionBetween hy hfirst hlast, Bool.true_or]

theorem escape_around (hb : t.bindings[use.binding]? = some b) (hτ : τ ∈ b.taints)
    (hy : y ∈ t.suspensions) {loop : ℕ} (hloop : loop ∈ use.loops) {range : LoopRange}
    (hrange : t.loops[loop]? = some range) (houter : b.pos ≤ range.first)
    (hτlast : τ.pos ≤ range.last) (hfirst : range.first < y.pos) (hlast : y.pos < range.last) :
    (escape? file t use).isSome := by
  refine isSome_escape hb hτ ?_
  rw [suspensionBefore?, Option.orElse_eq_orElse, Option.orElse_eq_or, Option.isSome_or,
    Bool.or_eq_true]
  refine .inr (findSome?_isSome_iff.2 ⟨loop, hloop, ?_⟩)
  have inside : ¬(b.pos > range.first || τ.pos > range.last) := by simp; omega
  rw [hrange]
  simp only [if_neg inside]
  exact isSome_suspensionBetween hy hfirst hlast

end Report

/-- The walk through a text leads to a report. -/
def Reported (file : Option String) (ts : List Token) : Prop :=
  ∃ use ∈ (run {} ts).uses, (escape? file (run {} ts) use).isSome

section Reported

variable {file : Option String} {ts : List Token} {v x pw py pr : ℕ} {r : Region} {o : Op}

/-- Write, suspension and read stand in this order. -/
theorem reported_in_order (hw : Tainted (notes ts (pw + 1)) v x (notes ts (pw + 1)).pos)
    (hy : ts[py]? = some (.op (.suspend r))) (ho : ts[pr]? = some (.op o)) (hr : o.reads = some v)
    (hwy : pw < py) (hyr : py < pr) : Reported file ts := by
  obtain ⟨b, hb, τ, hτ, -, hlast⟩ := hw.of_extends (notes_extends_run ts (pw + 1))
  obtain ⟨region, huse⟩ := use_of_reads ho hr
  have hfirst := (notes_extends ts hwy).pos
  have hnext := (notes_extends ts hyr).pos
  rw [pos_suspend hy] at hnext
  exact ⟨_, huse,
    escape_between hb hτ (suspension_of_op hy) (Nat.lt_succ_of_le (hlast.trans hfirst))
    (Nat.lt_succ_of_le hnext)⟩

/-- A loop that the variable outlives is around suspension and read, and does not end before the
write. -/
theorem reported_in_loop {first last : ℕ}
    (hw : Tainted (notes ts (pw + 1)) v x (notes ts (pw + 1)).pos)
    (hy : ts[py]? = some (.op (.suspend r))) (ho : ts[pr]? = some (.op o)) (hr : o.reads = some v)
    (hloop : LoopAt ts first last) (hv : DeclaredBefore ts first v) (hwlast : pw < last)
    (hyfirst : first < py) (hylast : py < last) (hrfirst : first < pr) (hrlast : pr < last) :
    Reported file ts := by
  obtain ⟨b, hb, τ, hτ, -, hlast⟩ := hw.of_extends (notes_extends_run ts (pw + 1))
  obtain ⟨region, huse⟩ := use_of_reads ho hr
  obtain ⟨i, hrange, inside⟩ := hloop.range
  -- the binding is there before the loop
  obtain ⟨b₀, hb₀⟩ : ∃ b, (notes ts first).bindings[v]? = some b :=
    ⟨_, Array.getElem?_eq_getElem ((size_notes ts first).symm ▸ hv)⟩
  have houter : b.pos ≤ (notes ts first).pos + 1 := by
    obtain ⟨b', hb', hpos, -⟩ := (notes_extends_run ts first).bindings v b₀ hb₀
    cases hb.symm.trans hb'
    have := dated_notes ts first v b₀ hb₀
    omega
  have hw' := (notes_extends ts hwlast).pos
  have hfirst := (notes_extends ts hyfirst).pos
  rw [hloop.pos_enter] at hfirst
  have hlast' := (notes_extends ts hylast).pos
  rw [pos_suspend hy] at hlast'
  refine ⟨_, huse, escape_around hb hτ (suspension_of_op hy) (inside pr hrfirst hrlast.le) hrange
    houter ?_ (Nat.lt_succ_of_le hfirst) (Nat.lt_succ_of_le hlast')⟩
  exact (hlast.trans hw').trans (Nat.le_succ _)

end Reported

/-! ## Along a path -/

theorem Flow.standsAt (f : Flow) : f.StandsAt f.text 0 0 := ⟨[], [], by simp, rfl, rfl⟩

variable {π : List Step}

theorem place_of_step {i p : ℕ} (h : π[i]? = some (p, o)) : place π i = p := by
  simp [place, h]

theorem Path.token_of_step {f : Flow} {out : Out} (path : Path f 0 π out) {i p : ℕ}
    (h : π[i]? = some (p, o)) : f.text[p]? = some (.op o) :=
  path.token f.standsAt _ (mem_of_getElem? h)

theorem Trace.exists_declared (t : Trace) (name : String) (owned : Bool) (ls : Lenders)
    (r : Region) : ∃ b, (t.declare name owned ls r).bindings[t.bindings.size]? = some b ∧
      b.owned = owned :=
  ⟨⟨name, t.pos + 1, owned, if ls.isEmpty then [] else [⟨t.pos + 1, ls, r⟩]⟩,
    by simp [Trace.declare], rfl⟩

section Flow

variable {f : Flow} (hf : f.Scoped ∅ 0)
include hf

theorem scoped_notes {p : ℕ} (hp : f.text[p]? = some (.op o)) :
    o.Scoped {v | v < (notes f.text p).bindings.size} (notes f.text p).bindings.size := by
  rw [size_notes]
  have hlt := (List.getElem?_eq_some_iff.1 hp).1
  exact hf.numbered (by simp) f.standsAt (Nat.zero_le p) (by simpa using hlt) hp

theorem owned_notes {p : ℕ} (hx : f.Owns x) (hp : x < (notes f.text p).bindings.size) : ∃ b,
    (notes f.text p).bindings[x]? = some b ∧ b.owned := by
  obtain ⟨c, name, r, hmem⟩ := hx
  obtain ⟨q, hq⟩ := mem_iff_getElem?.1 hmem
  obtain ⟨hsize, -⟩ := scoped_notes hf hq
  have hqp : q < p := by
    refine Nat.lt_of_not_le fun hpq => ?_
    have := declared_take_le f.text hpq
    rw [size_notes] at hp hsize
    omega
  obtain ⟨b, hb, howned⟩ : ∃ b, (notes f.text (q + 1)).bindings[x]? = some b ∧ b.owned := by
    rw [notes_succ hq, hsize, ← c.bindings_touch (notes f.text q)]
    exact (c.touch _).exists_declared name true _ r
  obtain ⟨b', hb', -, howned', -⟩ := (notes_extends f.text hqp).bindings x b hb
  exact ⟨b', hb', howned'.trans howned⟩

/-- An address that a path carries is noted by the walk, or there is a report on the way. -/
theorem carried (file : Option String) {out : Out} (path : Path f 0 π out) (hx : f.Owns x)
    {chain : List (ℕ × ℕ)} (h : Carries π x chain) (hself : SparesOwner π x chain)
    (hfollow : chain.IsChain (Follows f.text π)) :
    Reported file f.text ∨ ∃ i s c, chain = (i, s) :: c ∧
      Tainted (notes f.text (place π i + 1)) s x (notes f.text (place π i + 1)).pos := by
  induction h with
  | @address i p s o r hi ho =>
    have hp := path.token_of_step hi
    refine .inr ⟨i, s, [], rfl, ?_⟩
    rw [place_of_step hi, notes_succ hp]
    obtain ⟨b, hb, howned⟩ :=
      owned_notes hf hx ((scoped_notes hf hp).mem_of_reads (Op.reads_of_writes ho))
    refine tainted_of_writes (scoped_notes hf hp) ho ?_ (hself (i, s) mem_cons_self _ hi)
    have hb : ((Content.address r x).touch (notes f.text p)).bindings[x]? = some b := hb
    rw [Content.lenders, hb]
    simp [howned, Lenders.mem_union]
  | @copy i p s j y o r c _ _ hi ho ih =>
    obtain ⟨follows, hfollow⟩ := isChain_cons_cons.1 hfollow
    have hp := path.token_of_step hi
    obtain reported | ⟨_, _, _, heq, tainted⟩ :=
      ih (fun e he => hself e (mem_cons_of_mem _ he)) hfollow
    · exact .inl reported
    cases heq
    rw [Follows, place_of_step hi] at follows
    rcases follows with hlt | ⟨q, r', hq, first, last, hloop, hy, inside⟩
    · -- the walk meets the copy after the write
      refine .inr ⟨i, s, _, rfl, ?_⟩
      rw [place_of_step hi, notes_succ hp]
      refine tainted_of_writes (scoped_notes hf hp) ho ?_ (hself (i, s) mem_cons_self _ hi)
      exact (tainted.of_extends (notes_extends f.text hlt)).mem_lendersOf
    · -- the copy itself reads the variable in a loop with a suspension
      simp only [mem_cons, not_mem_nil, or_false, forall_eq_or_imp, forall_eq] at inside
      obtain ⟨⟨-, hw⟩, ⟨hyfirst, hylast⟩, hrfirst, hrlast⟩ := inside
      exact .inl (reported_in_loop tainted hq hp (Op.reads_of_writes ho) hloop hy hw hyfirst hylast
        hrfirst hrlast)

theorem outlives {out : Out} (path : Path f 0 π out) {i k r s p p' : ℕ} {o' : Op}
    (hk : π[k]? = some (p, o)) (hr : π[r]? = some (p', o')) (hread : o'.reads = some s)
    (hik : i < k) (hkr : k < r) (hkeep : Keeps π s i r) (hback : p' ≤ p) :
    ∃ first last, LoopAt f.text first last ∧ DeclaredBefore f.text first s ∧ first < p' ∧
      p < last := by
  obtain ⟨first, last, -, hloop, hfirst, hlast, q, hkq, hqr, renewed⟩ :=
    path.returns hf (by simp) f.standsAt k r _ _ hk hr hkr hback
  refine ⟨first, last, hloop, ?_, hfirst, hlast⟩
  by_contra hs
  have hr' : (π.drop q)[r - q]? = some (p', o') := by
    rw [getElem?_drop, Nat.add_sub_cancel' hqr]
    exact hr
  obtain ⟨j, hj, e, hat, hwrite⟩ := (renewed s hs).exists_write hread hr'
  rw [getElem?_drop] at hat
  exact hkeep.2 (q + j) (by omega) (by omega) e hat hwrite

end Flow

/-- **An address that escapes in sight of the walk is reported.**  In sight means: no assignment on
the way gives the local its own address, every copy follows the write it copies, and the suspension
stands after the last write, or a loop that the variable outlives is around write, suspension and
read. -/
theorem escape_reported (file : Option String) {d : Definition} {f : Flow}
    (hd : itemFlow? d = some f) {π : List Step} {out : Out} (path : Path f 0 π out)
    {x i s k r : ℕ} {c : List (ℕ × ℕ)} (escapes : EscapesVia f π x i s c k r)
    (spares : SparesOwner π x ((i, s) :: c)) (copies : ((i, s) :: c).IsChain (Follows f.text π))
    (order : place π i < place π k ∨ Around f.text s [place π i, place π k, place π r]) :
    checkEscapes file d ≠ [] := by
  obtain ⟨hf, Γ, htrace⟩ := trace_eq_run file hd
  suffices reported : Reported file f.text by
    obtain ⟨use, huse, hescape⟩ := reported
    refine append_ne_nil_of_right_ne_nil _ ?_
    have hescape : (escape? file (trace file d) use).isSome := htrace ▸ hescape
    exact escapes_ne_nil hescape (Array.mem_toList_iff.2 (htrace ▸ huse))
  obtain ⟨p, region, hk⟩ := escapes.suspends
  obtain ⟨p', o, hr, hread⟩ := escapes.reads
  obtain reported | ⟨_, _, _, heq, tainted⟩ :=
    carried hf file path escapes.owned escapes.carries spares copies
  · exact reported
  cases heq
  rw [place_of_step hk, place_of_step hr] at order
  have hsuspend := path.token_of_step hk
  have huse := path.token_of_step hr
  rcases order with hlt | ⟨first, last, hloop, hs, inside⟩
  · by_cases hback : p < p'
    · exact reported_in_order tainted hsuspend huse hread hlt hback
    · have hback := Nat.le_of_not_lt hback
      obtain ⟨first, last, hloop, hs, hfirst, hlast⟩ :=
        outlives hf path hk hr hread escapes.order.1 escapes.order.2 escapes.keeps hback
      exact reported_in_loop tainted hsuspend huse hread hloop hs (hlt.trans hlast)
        (hfirst.trans_le hback) hlast hfirst (hback.trans_lt hlast)
  · simp only [mem_cons, not_mem_nil, or_false, forall_eq_or_imp, forall_eq] at inside
    obtain ⟨⟨-, hw⟩, ⟨hyfirst, hylast⟩, hrfirst, hrlast⟩ := inside
    exact reported_in_loop tainted hsuspend huse hread hloop hs hw hyfirst hylast hrfirst hrlast

/-! ## Witness and unseen escapes -/

def letCall (x : String) : Stmt :=
  .letIn default (.bind default x true) none (.call default (.name default "z") []) none

def assignAddress (x y : String) : Stmt :=
  .assign default (.name default x) (.borrow default (.name default y) false) .set

def assignCopy (x y : String) : Stmt :=
  .assign default (.name default x) (.name default y) .set

def callOn (x : String) : Stmt :=
  .expr default (.call default (.name default "g") [.name default x])

def breakIf : Stmt :=
  .ifElse default (.test (.call default (.name default "c") []))
    (.mk [.breakLoop default] default none) none

/-- `let x = z(); let s = z(); loop { g(s); let p = &x; s = p; yield 1; }`: the next round reads the
address. -/
def roundTrip : Definition :=
  numbers [] [letCall "x", letCall "s",
    .loop default (.mk [callOn "s",
      .letIn default (.bind default "p" false) none
        (.borrow default (.name default "x") false) none,
      assignCopy "s" "p", yieldOne] default none)]

/-- One round of `roundTrip` and the beginning of the next. -/
def roundTripSteps : List Step :=
  [(0, .bind 0 .other "x" true default), (1, .bind 1 .other "s" true default), (3, .read default 1),
    (4, .bind 2 (.address default 0) "p" true default), (5, .store 1 (.copy default 2) default),
    (6, .suspend default), (3, .read default 1)]

theorem roundTrip_reported :
    ∃ f, itemFlow? roundTrip = some f ∧ Path f 0 roundTripSteps .halted ∧
      EscapesVia f roundTripSteps 0 4 1 [(3, 2)] 5 6 ∧
        SparesOwner roundTripSteps 0 [(4, 1), (3, 2)] ∧
      [(4, 1), (3, 2)].IsChain (Follows f.text roundTripSteps) ∧
      place roundTripSteps 4 < place roundTripSteps 5 ∧ checkEscapes none roundTrip ≠ [] := by
  refine ⟨_, rfl, ?_⟩
  have path : Path ((itemFlow? roundTrip).getD .done) 0 roundTripSteps .halted :=
    .op (.op (.again (.op (.op (.op (.op .done)))) (.within (.op .halt))))
  have escapes : EscapesVia ((itemFlow? roundTrip).getD .done) roundTripSteps 0 4 1 [(3, 2)] 5 6 :=
    { owned := ⟨.other, "x", default, mem_cons_self⟩
      carries := .copy (.address rfl rfl) (by decide) rfl rfl
      suspends := ⟨6, default, rfl⟩
      reads := ⟨3, .read default 1, rfl, rfl⟩
      order := by decide
      keeps := by decide }
  have spares : SparesOwner roundTripSteps 0 [(4, 1), (3, 2)] := by decide
  have copies : [(4, 1), (3, 2)].IsChain
      (Follows ((itemFlow? roundTrip).getD .done).text roundTripSteps) :=
    .cons_cons (.inl (by decide)) (.singleton _)
  have order : place roundTripSteps 4 < place roundTripSteps 5 := by decide
  exact ⟨path, escapes, spares, copies, order,
    escape_reported none rfl path escapes spares copies (.inl order)⟩

/-- An address escapes on some path through the item. -/
def Escapes (d : Definition) : Prop :=
  ∃ f π out x i s c k r, itemFlow? d = some f ∧ Path f 0 π out ∧ EscapesVia f π x i s c k r

/-- `let x = z(); let s = z(); loop { yield 1; if c() { break; } s = &x; } g(s);`: the suspension
stands before the write, and the read after the loop. -/
def lateWrite : Definition :=
  numbers [] [letCall "x", letCall "s",
    .loop default (.mk [yieldOne, breakIf, assignAddress "s" "x"] default none), callOn "s"]

/-- `let a = z(); let p = z(); let q = z(); loop { q = p; p = &a; if c() { break; } } yield 1;
g(q);`: the copy stands before the write. -/
def lateBorrow : Definition :=
  numbers [] [letCall "a", letCall "p", letCall "q",
    .loop default (.mk [assignCopy "q" "p", assignAddress "p" "a", breakIf] default none), yieldOne,
    callOn "q"]

/-- `let x = z(); x = &x; yield 1; g(x);` -/
def ownAddress : Definition := numbers [] [letCall "x", assignAddress "x" "x", yieldOne, callOn "x"]

theorem lateWrite_escapes : Escapes lateWrite := by
  refine ⟨_, _, .next, 0, 3, 1, [], 4, 5, rfl, .op (.op (.again (.op (.second .done (.op .done)))
    (.exit (.op (.firstOut .leave (by decide))) (.op .done)))), ?_⟩
  exact
    { owned := ⟨.other, "x", default, mem_cons_self⟩
      carries := .address rfl rfl
      suspends := ⟨3, default, rfl⟩
      reads := ⟨6, .read default 1, rfl, rfl⟩
      order := by decide
      keeps := by decide }

theorem lateBorrow_escapes : Escapes lateBorrow := by
  refine ⟨_, _, .next, 0, 5, 2, [(4, 1)], 7, 8, rfl, .op (.op (.op (.again
    (.op (.op (.second .done .done))) (.exit (.op (.op (.firstOut .leave (by decide))))
      (.op (.op .done)))))), ?_⟩
  exact
    { owned := ⟨.other, "a", default, mem_cons_self⟩
      carries := .copy (.address rfl rfl) (by decide) rfl rfl
      suspends := ⟨7, default, rfl⟩
      reads := ⟨8, .read default 2, rfl, rfl⟩
      order := by decide
      keeps := by decide }

theorem ownAddress_escapes : Escapes ownAddress := by
  refine ⟨_, _, .next, 0, 1, 0, [], 2, 3, rfl, .op (.op (.op (.op .done))), ?_⟩
  exact
    { owned := ⟨.other, "x", default, mem_cons_self⟩
      carries := .address rfl rfl
      suspends := ⟨2, default, rfl⟩
      reads := ⟨3, .read default 0, rfl, rfl⟩
      order := by decide
      keeps := by decide }

/-- **Escapes out of sight are not reported.** -/
theorem unseen_escapes_unreported :
    (Escapes lateWrite ∧ checkEscapes none lateWrite = []) ∧
    (Escapes lateBorrow ∧ checkEscapes none lateBorrow = []) ∧
    (Escapes ownAddress ∧ checkEscapes none ownAddress = []) :=
  ⟨⟨lateWrite_escapes, rfl⟩, ⟨lateBorrow_escapes, rfl⟩, ⟨ownAddress_escapes, rfl⟩⟩

end Yielding.Borrow
