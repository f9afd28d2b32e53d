import Yielding.Proofs.Grammar.Closures

/-!
# Proofs/Grammar/Lookaheads — what can follow a phrase is in its row

A terminal is **ahead** of a category, after some symbols, when it can be read right behind the
category, or when it is ahead of a longer phrase that the category ends.  The rounds that spread
what follows from phrase to phrase are as many as there are endings, which is enough (`Ahead.has`).
So a row reduces by a completed rule on every terminal that is ahead of it (`reductions_of_ahead`),
and by the rule of whole texts at the end only (`reductions_root`).
-/

namespace Yielding.Grammar

open Option Layout

/-! ## Fields -/

namespace Fields

theorem rank_lt_width (t : Terminal) : t.rank < width := by cases t <;> decide

variable {table i n : ℕ}

/-- The terminal is in the set in the field `i`. -/
def Has (table i : ℕ) (t : Terminal) : Prop := (get table i).testBit t.rank = true

variable {t : Terminal}

theorem has_iff : Has table i t ↔ table.testBit (width * i + t.rank) = true := by
  simp [Has, get, Nat.one_shiftLeft, Nat.testBit_mod_two_pow, Nat.testBit_shiftRight, rank_lt_width]

theorem has_add_of_has {j bits : ℕ} (h : Has table i t) : Has (add table j bits) i t := by
  rw [has_iff] at h ⊢
  rw [add, Nat.testBit_or, h, Bool.true_or]

theorem has_add {bits : ℕ} (h : bits.testBit t.rank = true) : Has (add table i bits) i t := by
  rw [has_iff, add, Nat.testBit_or, Nat.testBit_shiftLeft, Nat.add_sub_cancel_left, h]
  simp

theorem has_foldl {α : Type} {f : ℕ → α → ℕ} (hf : ∀ table a, Has table i t → Has (f table a) i t)
    {l : List α} (h : Has table i t) : Has (l.foldl f table) i t :=
  List.foldlRecOn (motive := fun table => Has table i t) l f h fun table h a _ => hf table a h

theorem has_foldl_of_mem {α : Type} {f : ℕ → α → ℕ}
    (hf : ∀ table a, Has table i t → Has (f table a) i t) {l : List α} {a : α} (ha : a ∈ l)
    (h : ∀ table, Has (f table a) i t) : Has (l.foldl f table) i t := by
  induction l generalizing table with
  | nil => cases ha
  | cons b l ih =>
    rw [List.foldl_cons]
    rcases List.mem_cons.1 ha with rfl | ha
    · exact has_foldl hf (h table)
    · exact ih ha

end Fields

open Fields

/-! ## Spreading -/

section Spread

variable {ends : List Ending} {table i outer : ℕ} {t : Terminal}

/-- The terminal reaches the field in at most so many steps from an outer phrase to an inner one. -/
def Spreads (ends : List Ending) (table : ℕ) (t : Terminal) : ℕ → ℕ → Prop
  | 0, i => Has table i t
  | k + 1, i => Spreads ends table t k i ∨
      ∃ outer, .inside i outer ∈ ends ∧ Spreads ends table t k outer

theorem Spreads.mono {j k : ℕ} (hjk : j ≤ k) (h : Spreads ends table t j i) :
    Spreads ends table t k i :=
  Nat.le_induction h (fun _ _ => .inl) _ hjk

theorem has_spread_step {e : Ending} (h : Has table i t) :
    Has (match e with
      | .inside inner outer => add table inner (get table outer)
      | .completed .. => table) i t := by
  cases e with
  | inside inner outer => exact has_add_of_has h
  | completed _ _ _ => exact h

theorem has_spread (h : Spreads ends table t 1 i) : Has (spread ends table) i t := by
  obtain h | ⟨outer, hmem, h⟩ := h
  · exact has_foldl (fun _ _ => has_spread_step) h
  · unfold spread
    -- when the turn of this ending comes, the outer field still has the terminal
    generalize ends = l at hmem
    induction l generalizing table with
    | nil => cases hmem
    | cons e l ih =>
      rw [List.foldl_cons]
      rcases List.mem_cons.1 hmem with rfl | hmem
      · exact has_foldl (fun _ _ => has_spread_step) (has_add h)
      · exact ih (has_spread_step h) hmem

theorem Spreads.spread {k : ℕ} (h : Spreads ends table t (k + 1) i) :
    Spreads ends (Grammar.spread ends table) t k i := by
  induction k generalizing i with
  | zero => exact has_spread h
  | succ k ih =>
    obtain h | ⟨outer, hmem, h⟩ := h
    · exact .inl (ih h)
    · exact .inr ⟨outer, hmem, ih h⟩

theorem has_spreadAll {fuel : ℕ} (h : Spreads ends table t fuel i) :
    Has (spreadAll ends fuel table) i t := by
  induction fuel generalizing table with
  | zero => exact h
  | succ fuel ih =>
    rw [spreadAll]
    have hrest := ih h.spread
    split
    · next heq =>
      have hfixed : spreadAll ends fuel table = table := by
        cases fuel with
        | zero => rfl
        | succ fuel => rw [spreadAll, if_pos heq]
      rwa [heq, hfixed] at hrest
    · exact hrest

/-- **Whatever spreads at all spreads in as many rounds as there are endings.** -/
theorem Spreads.has {m : ℕ} (h : Spreads ends table t m i) :
    Has (spreadAll ends ends.length table) i t := by
  let nodes := ends.filterMap fun
    | .inside inner _ => some inner
    | .completed .. => none
  have hnode : ∀ {i outer}, .inside i outer ∈ ends → i ∈ nodes :=
    fun hmem => List.mem_filterMap.2 ⟨_, hmem, rfl⟩
  have hlength : nodes.length ≤ ends.length := List.length_filterMap_le _ _
  have hother : ∀ {i}, i ∉ nodes → ∀ {k}, Spreads ends table t k i → Spreads ends table t 0 i := by
    intro i hi k hk
    induction k with
    | zero => exact hk
    | succ k ih =>
      obtain hk | ⟨outer, hmem, -⟩ := hk
      · exact ih hk
      · exact absurd (hnode hmem) hi
  refine has_spreadAll ?_
  by_cases hi : i ∈ nodes
  · refine (exhausted_rounds (Q := Spreads ends table t) (fun _ _ => .inl) ?_ hi h).mono hlength
    rintro k hk b - (hb | ⟨outer, hmem, houter⟩)
    · exact hb
    · refine .inr ⟨outer, hmem, ?_⟩
      by_cases ho : outer ∈ nodes
      · exact hk outer ho houter
      · exact (hother ho houter).mono (Nat.zero_le k)
  · exact (hother hi h).mono (Nat.zero_le _)

end Spread

variable {rules : List Rule}

/-! ## Skeletons -/

def allEndings (rules : List Rule) : List Ending := endings (place 0 0 rules) (bareRows rules)

def followTable (rules : List Rule) : ℕ :=
  spreadAll (allEndings rules) (allEndings rules).length (directFollow (bareRows rules))

/-- The number of the row of the set that a row of symbols leads to. -/
def rowOf (rules : List Rule) (xs : List Symbol) : ℕ :=
  (ofRules rules).reached.idxOf ((ofRules rules).sight xs)

/-- The symbols lead to a set of places that has a row. -/
def Viable (rules : List Rule) (xs : List Symbol) : Prop :=
  (ofRules rules).sight xs ∈ (ofRules rules).reached

/-- The symbol can be read after the others. -/
def CanRead (rules : List Rule) (xs : List Symbol) (x : Symbol) : Prop :=
  view rules xs &&& allBefore (place 0 0 rules) x ≠ 0

theorem length_skeletons (states : List ℕ) (edge : ℕ) (l : List (ℕ × Moves)) :
    (skeletons states edge l).length = l.length := by
  induction l generalizing edge with
  | nil => rfl
  | cons e l ih => rw [skeletons, List.length_cons, List.length_cons, ih]

variable {row : Skeleton}

theorem bareRowFor_of_getElem? (h : rules ≠ []) {i : ℕ} (hrow : (bareRows rules)[i]? = some row) :
    ∃ s, BareRowFor rules s row := by
  have hi : i < (ofRules rules).reached.length := by
    have hlt := (Array.getElem?_eq_some_iff.1 hrow).1
    rwa [bareRows, List.size_toArray, length_skeletons, ← List.length_map Prod.fst] at hlt
  obtain ⟨row', hrow', hfor⟩ := bareRowFor h (List.getElem?_eq_getElem hi)
  exact ⟨_, some.inj (hrow.symm.trans hrow') ▸ hfor⟩

section Viable

variable {xs : List Symbol} {x : Symbol} {p : Placed}

theorem Viable.concat (h : Viable rules xs) (hr : rules ≠ []) (hx : CanRead rules xs x) :
    Viable rules (xs ++ [x]) :=
  sight_mem_reached hr h hx

theorem Viable.bareRow (h : Viable rules xs) (hr : rules ≠ []) :
    ∃ row, (bareRows rules)[rowOf rules xs]? = some row ∧
      BareRowFor rules ((ofRules rules).sight xs) row :=
  bareRowFor hr (List.getElem?_idxOf h)

theorem canRead_part (hp : p ∈ place 0 0 rules)
    (h : (view rules xs).testBit p.base = true) {k : ℕ}
    {y : Symbol} (hy : p.rule.symbols[k]? = some y) :
    CanRead rules (xs ++ p.rule.symbols.take k) y := by
  rw [Rule.symbols, List.getElem?_map, map_eq_some_iff] at hy
  obtain ⟨part, hpart, rfl⟩ := hy
  have hk : k < p.rule.parts.length := (List.getElem?_eq_some_iff.1 hpart).1
  exact meets_before hp hpart (testBit_sight_append hp h k hk.le)

/-- The symbols can be read one after the other. -/
def CanReadAll (rules : List Rule) (xs : List Symbol) : List Symbol → Prop
  | [] => True
  | y :: ys => CanRead rules xs y ∧ CanReadAll rules (xs ++ [y]) ys

theorem canReadAll_of_take {ys : List Symbol}
    (h : ∀ k y, ys[k]? = some y → CanRead rules (xs ++ ys.take k) y) : CanReadAll rules xs ys := by
  induction ys generalizing xs with
  | nil => trivial
  | cons y ys ih =>
    refine ⟨by simpa using h 0 y rfl, ih fun k z hz => ?_⟩
    simpa using h (k + 1) z hz

theorem canReadAll_rule (hp : p ∈ place 0 0 rules)
    (h : (view rules xs).testBit p.base = true) :
    CanReadAll rules xs p.rule.symbols :=
  canReadAll_of_take fun _ _ => canRead_part hp h

theorem Viable.append {ys : List Symbol} (h : Viable rules xs) (hr : rules ≠ [])
    (hys : CanReadAll rules xs ys) : Viable rules (xs ++ ys) := by
  induction ys generalizing xs with
  | nil => simpa using h
  | cons y ys ih =>
    have hrest := ih (h.concat hr hys.1) hys.2
    rwa [List.append_assoc] at hrest

end Viable

/-! ## Endings -/

section Endings

variable {xs ys : List Symbol} {c : Category} {p : Placed} {outer inner rule : ℕ}

/-- The number of the edge that the category makes after the symbols. -/
def IsEdge (rules : List Rule) (xs : List Symbol) (c : Category) (edge : ℕ) : Prop :=
  ∃ row target, (bareRows rules)[rowOf rules xs]? = some row ∧
    row.gotos.lookup c = some (target, edge)

theorem Viable.edge (h : Viable rules xs) (hr : rules ≠ []) (hc : CanRead rules xs (.category c)) :
    ∃ edge, IsEdge rules xs c edge := by
  obtain ⟨row, hrow, hfor⟩ := h.bareRow hr
  have hgoto := hfor.gotos c
  rw [next?_sight hc, map_some, map_eq_some_iff] at hgoto
  obtain ⟨⟨target, edge⟩, hlookup, -⟩ := hgoto
  exact ⟨edge, row, target, hrow, hlookup⟩

theorem Viable.next? (h : Viable rules xs) (hr : rules ≠ []) {x : Symbol}
    (hrow : (bareRows rules)[rowOf rules xs]? = some row) (hx : CanRead rules xs x) :
    row.next? x = some (rowOf rules (xs ++ [x])) := by
  obtain ⟨row', hrow', hfor⟩ := h.bareRow hr
  obtain rfl := some.inj (hrow.symm.trans hrow')
  cases x with
  | terminal t => rw [Skeleton.next?, hfor.shifts, next?_sight hx]; rfl
  | category c => rw [Skeleton.next?, hfor.gotos, next?_sight hx]; rfl

theorem mem_walk_cons {y : Symbol} {e : Ending} (h : Viable rules xs) (hr : rules ≠ [])
    (hy : CanRead rules xs y)
    (he : e ∈ walk (bareRows rules) outer rule (rowOf rules (xs ++ [y])) ys) :
    e ∈ walk (bareRows rules) outer rule (rowOf rules xs) (y :: ys) := by
  obtain ⟨row, hrow, -⟩ := h.bareRow hr
  rw [walk, hrow]
  dsimp only
  rw [h.next? hr hrow hy]
  exact List.mem_append_right _ he

theorem completed_mem_walk (h : Viable rules xs) (hr : rules ≠ []) (hys : CanReadAll rules xs ys) :
    .completed (rowOf rules (xs ++ ys)) rule outer ∈
      walk (bareRows rules) outer rule (rowOf rules xs) ys := by
  induction ys generalizing xs with
  | nil => simp [walk]
  | cons y ys ih =>
    have hrest := ih (h.concat hr hys.1) hys.2
    rw [List.append_assoc] at hrest
    exact mem_walk_cons h hr hys.1 hrest

theorem inside_mem_walk (h : Viable rules xs) (hr : rules ≠ [])
    (hys : CanReadAll rules xs (ys ++ [.category c])) (hinner : IsEdge rules (xs ++ ys) c inner) :
    .inside inner outer ∈
      walk (bareRows rules) outer rule (rowOf rules xs) (ys ++ [.category c]) := by
  induction ys generalizing xs with
  | nil =>
    obtain ⟨row, target, hrow, hlookup⟩ := hinner
    rw [List.append_nil] at hrow
    rw [List.nil_append, walk, hrow]
    dsimp only
    rw [hlookup]
    split <;> simp
  | cons y ys ih =>
    refine mem_walk_cons h hr hys.1 (ih (h.concat hr hys.1) hys.2 ?_)
    rwa [List.append_assoc]

theorem mem_allEndings {e : Ending} (hp : p ∈ place 0 0 rules)
    (houter : IsEdge rules xs p.rule.result outer)
    (he : e ∈ walk (bareRows rules) outer p.index (rowOf rules xs) p.rule.symbols) :
    e ∈ allEndings rules := by
  obtain ⟨row, target, hrow, hlookup⟩ := houter
  obtain ⟨before, after, hgotos, -⟩ := List.lookup_eq_some_iff.1 hlookup
  refine List.mem_flatMap.2 ⟨rowOf rules xs, List.mem_range.2 ?_, ?_⟩
  · exact (Array.getElem?_eq_some_iff.1 hrow).1
  · rw [hrow]
    refine List.mem_flatMap.2 ⟨(p.rule.result, target, outer), by simp [hgotos], ?_⟩
    exact List.mem_flatMap.2 ⟨p, hp, by rwa [if_pos rfl]⟩

end Endings

/-! ## What is ahead -/

/-- The terminal can follow a phrase of the category that begins after the symbols. -/
inductive Ahead (rules : List Rule) : List Symbol → Category → Terminal → Prop
  /-- It can be read right behind the category. -/
  | next {xs : List Symbol} {c : Category} {t : Terminal} :
      CanRead rules (xs ++ [.category c]) (.terminal t) → Ahead rules xs c t
  /-- It is ahead of a longer phrase, of which the category is the last part. -/
  | last {xs ys : List Symbol} {p : Placed} {c : Category} {t : Terminal} :
      Viable rules xs → p ∈ place 0 0 rules → p.rule.symbols = ys ++ [.category c] →
      (view rules xs).testBit p.base = true →
      CanRead rules xs (.category p.rule.result) →
      Ahead rules xs p.rule.result t → Ahead rules (xs ++ ys) c t
  /-- A text ends behind its item. -/
  | finish : Ahead rules [] .item .finish

section Ahead

variable {xs : List Symbol} {c : Category} {t : Terminal} {edge : ℕ}

theorem has_directFollow (hrow : ∃ row target, (bareRows rules)[rowOf rules xs]? = some row ∧
      row.gotos.lookup c = some (target, edge) ∧
      ((((bareRows rules)[target]?).map Skeleton.readable).getD 0 |||
        if c = .item then 1 <<< Terminal.finish.rank else 0).testBit t.rank = true) :
    Has (directFollow (bareRows rules)) edge t := by
  obtain ⟨row, target, hrow, hlookup, hbit⟩ := hrow
  obtain ⟨before, after, hgotos, -⟩ := List.lookup_eq_some_iff.1 hlookup
  rw [directFollow, ← Array.foldl_toList]
  refine has_foldl_of_mem ?_ (Array.mem_toList_iff.2 (Array.mem_of_getElem? hrow)) fun table => ?_
  · exact fun table a h => has_foldl (fun table e h => has_add_of_has h) h
  · refine has_foldl_of_mem (a := (c, target, edge)) (fun table e h => has_add_of_has h)
      (by simp [hgotos]) fun table => has_add hbit

theorem testBit_readable {target : ℕ} (h : row.shifts.lookup t = some target) :
    row.readable.testBit t.rank = true := by
  obtain ⟨before, after, hshifts, -⟩ := List.lookup_eq_some_iff.1 h
  rw [Skeleton.readable, testBit_foldl (Q := fun e => t.rank = e.1.rank)]
  · exact .inr ⟨(t, target), by simp [hshifts], rfl⟩
  · rintro s ⟨u, n⟩ -
    rw [Nat.testBit_or, Bool.or_eq_true, testBit_one_shiftLeft]

/-- **What is ahead of a category spreads to its edge.** -/
theorem Ahead.spreads (h : Ahead rules xs c t) (hr : rules ≠ []) (hxs : Viable rules xs)
    (hc : CanRead rules xs (.category c)) (hedge : IsEdge rules xs c edge) :
    ∃ k, Spreads (allEndings rules) (directFollow (bareRows rules)) t k edge := by
  induction h generalizing edge with
  | @next xs c t hnext =>
    obtain ⟨row, target, hrow, hlookup⟩ := hedge
    have htarget : target = rowOf rules (xs ++ [.category c]) := by
      have hgoto := hxs.next? hr hrow hc
      rw [Skeleton.next?, hlookup] at hgoto
      exact some.inj hgoto
    have hxs' := hxs.concat hr hc
    obtain ⟨row', hrow', hfor⟩ := hxs'.bareRow hr
    refine ⟨0, has_directFollow ⟨row, target, hrow, hlookup, ?_⟩⟩
    rw [htarget, hrow', map_some, getD_some, Nat.testBit_or]
    have hshift :
        row'.shifts.lookup t = some (rowOf rules (xs ++ [.category c] ++ [.terminal t])) := by
      rw [hfor.shifts, next?_sight hnext]
      rfl
    rw [testBit_readable hshift, Bool.true_or]
  | @last xs ys p c t hxs' hp hsymbols hbase hresult _ ih =>
    have hall := canReadAll_rule hp hbase
    obtain ⟨outer, houter⟩ := hxs'.edge hr hresult
    obtain ⟨k, hk⟩ := ih hxs' hresult houter
    rw [hsymbols] at hall
    refine ⟨k + 1, .inr ⟨outer, mem_allEndings hp houter ?_, hk⟩⟩
    rw [hsymbols]
    exact inside_mem_walk hxs' hr hall hedge
  | finish =>
    obtain ⟨row, target, hrow, hlookup⟩ := hedge
    refine ⟨0, has_directFollow ⟨row, target, hrow, hlookup, ?_⟩⟩
    rw [Nat.testBit_or, if_pos rfl, testBit_one_shiftLeft.2 rfl, Bool.or_true]

theorem Ahead.has (h : Ahead rules xs c t) (hr : rules ≠ []) (hxs : Viable rules xs)
    (hc : CanRead rules xs (.category c)) (hedge : IsEdge rules xs c edge) :
    Has (followTable rules) edge t :=
  (h.spreads hr hxs hc hedge).elim fun _ => Spreads.has

end Ahead

/-! ## Reductions -/

section Reductions

variable {xs : List Symbol} {p : Placed} {t : Terminal}

theorem reductions_ofRules (h : rules ≠ []) {i s : ℕ}
    (hi : (ofRules rules).reached[i]? = some s) {row : Row}
    (hrow : (Automaton.ofRules rules).rows[i]? = some row) :
    row.reductions = reductionsOf (place 0 0 rules) (allEndings rules) (followTable rules) i s := by
  obtain ⟨bare, hbare, hfor⟩ := bareRowFor h hi
  have hmapped : (Automaton.ofRules rules).rows[i]? = ((bareRows rules)[i]?).map fun row =>
      { shifts := row.shifts
        gotos := row.gotos.map fun e => (e.1, e.2.1)
        reductions := reductionsOf (place 0 0 rules) (allEndings rules) (followTable rules) i
          row.places } :=
    Array.getElem?_mapIdx
  rw [hmapped, hbare, map_some] at hrow
  rw [← some.inj hrow, hfor.places]

theorem testBit_lookahead {ends : List Ending} {follow state rule : ℕ} :
    (ends.foldl
      (fun bits (e : Ending) =>
        match e with
        | .completed s r outer =>
          if s = state && r = rule then bits ||| get follow outer else bits
        | .inside .. => bits)
      0).testBit t.rank = true ↔
    ∃ outer, Ending.completed state rule outer ∈ ends ∧ Has follow outer t := by
  rw [testBit_foldl
    (Q := fun e => ∃ outer, e = Ending.completed state rule outer ∧ Has follow outer t)]
  · simp only [Nat.zero_testBit, Bool.false_eq_true, false_or]
    exact ⟨fun ⟨e, he, outer, heq, h⟩ => ⟨outer, heq ▸ he, h⟩,
      fun ⟨outer, he, h⟩ => ⟨_, he, outer, rfl, h⟩⟩
  · rintro bits (⟨i, o⟩ | ⟨s, r, o⟩) -
    · simp
    · dsimp only
      split
      · next h =>
        rw [Bool.and_eq_true, decide_eq_true_iff, decide_eq_true_iff] at h
        obtain ⟨rfl, rfl⟩ := h
        simp [Has]
      · next h =>
        rw [Bool.and_eq_true, decide_eq_true_iff, decide_eq_true_iff] at h
        simp only [Ending.completed.injEq, iff_self_or]
        rintro ⟨outer, ⟨rfl, rfl, -⟩, -⟩
        exact absurd ⟨rfl, rfl⟩ h

/-- **A row reduces by a completed rule on every terminal ahead of it.** -/
theorem reductions_of_ahead (hr : rules ≠ []) (hxs : Viable rules xs) (hp : p ∈ place 0 0 rules)
    (hbase : (view rules xs).testBit p.base = true)
    (hstop : ((ofRules rules).sight (xs ++ p.rule.symbols)).testBit p.stop = true)
    (hresult : CanRead rules xs (.category p.rule.result)) (ht : Ahead rules xs p.rule.result t)
    {row : Row}
    (hrow : (Automaton.ofRules rules).rows[rowOf rules (xs ++ p.rule.symbols)]? = some row) :
    ∃ e ∈ row.reductions, e.1 = p.rule ∧ e.2.contains t = true := by
  have hall := canReadAll_rule hp hbase
  have hend : Viable rules (xs ++ p.rule.symbols) := hxs.append hr hall
  obtain ⟨outer, houter⟩ := hxs.edge hr hresult
  have hmem : .completed (rowOf rules (xs ++ p.rule.symbols)) p.index outer ∈ allEndings rules :=
    mem_allEndings hp houter (completed_mem_walk hxs hr hall)
  rw [reductions_ofRules hr (List.getElem?_idxOf hend) hrow]
  refine ⟨_, List.mem_filterMap.2 ⟨p, hp, if_pos hstop⟩, rfl, ?_⟩
  rw [TerminalSet.contains, Nat.testBit_or, Bool.or_eq_true]
  exact .inl (testBit_lookahead.2 ⟨outer, hmem, ht.has hr hxs hresult houter⟩)

theorem reductions_finish (hr : rules ≠ []) (hxs : Viable rules xs) (hp : p ∈ place 0 0 rules)
    (hroot : p.rule.result = .root)
    (hstop : ((ofRules rules).sight xs).testBit p.stop = true) {row : Row}
    (hrow : (Automaton.ofRules rules).rows[rowOf rules xs]? = some row) :
    ∃ e ∈ row.reductions, e.1 = p.rule ∧ e.2.contains .finish = true := by
  rw [reductions_ofRules hr (List.getElem?_idxOf hxs) hrow]
  refine ⟨_, List.mem_filterMap.2 ⟨p, hp, if_pos hstop⟩, rfl, ?_⟩
  rw [TerminalSet.contains, Nat.testBit_or, if_pos hroot, testBit_one_shiftLeft.2 rfl, Bool.or_true]

theorem index_inj {index base : ℕ} {rs : List Rule} {q : Placed} (hp : p ∈ place index base rs)
    (hq : q ∈ place index base rs) (h : p.index = q.index) : p = q := by
  have hlt : ∀ {index base : ℕ} {rs : List Rule} {p : Placed}, p ∈ place index base rs →
      index ≤ p.index := by
    intro index base rs
    induction rs generalizing index base with
    | nil => exact nofun
    | cons r rs ih =>
      intro p hp
      rcases List.mem_cons.1 hp with rfl | hp
      · exact le_rfl
      · exact (Nat.le_succ _).trans (ih hp)
  induction rs generalizing index base with
  | nil => cases hp
  | cons r rs ih =>
    rcases List.mem_cons.1 hp with rfl | hp <;> rcases List.mem_cons.1 hq with rfl | hq
    · rfl
    · exact absurd (hlt hq) (by rw [← h]; exact Nat.not_succ_le_self _)
    · exact absurd (hlt hp) (by rw [h]; exact Nat.not_succ_le_self _)
    · exact ih hp hq

theorem rule_of_completed_mem_walk {rows : Array Skeleton} {outer rule state s r o : ℕ}
    {ys : List Symbol} (h : .completed s r o ∈ walk rows outer rule state ys) : r = rule := by
  induction ys generalizing state with
  | nil =>
    rw [walk, List.mem_singleton] at h
    cases h
    rfl
  | cons y ys ih =>
    rw [walk] at h
    split at h
    · cases h
    · dsimp only at h
      split at h
      on_goal 1 => rcases List.mem_append.1 h with h | h
      on_goal 2 => exact ih h
      -- what is inside another phrase completes nothing
      all_goals
        split at h
        · split at h
          · cases List.mem_singleton.1 h
          · cases h
        · cases h

theorem no_goto_root (hroot : ∀ r ∈ rules, Symbol.category .root ∉ r.symbols) {s : ℕ}
    (hfor : BareRowFor rules s row) {e : ℕ × ℕ} : (.root, e) ∉ row.gotos := by
  intro hmem
  have hgoto := hfor.gotos .root
  rw [next?] at hgoto
  split at hgoto
  · rw [map_none, map_eq_none_iff, List.lookup_eq_none_iff] at hgoto
    exact absurd (hgoto _ hmem) (by simp)
  · next hmeets =>
    obtain ⟨r, hr, hsymbol⟩ := mem_symbols_of_meets hmeets
    exact hroot r hr hsymbol

/-- **The rule of whole texts is reduced at the end only.** -/
theorem reductions_root (hr : rules ≠ [])
    (hroot : ∀ r ∈ rules, Symbol.category .root ∉ r.symbols) {i s : ℕ}
    (hi : (ofRules rules).reached[i]? = some s) {row : Row}
    (hrow : (Automaton.ofRules rules).rows[i]? = some row) {e : Rule × TerminalSet}
    (he : e ∈ row.reductions) (hresult : e.1.result = .root) (ht : e.2.contains t = true) :
    t = .finish := by
  rw [reductions_ofRules hr hi hrow] at he
  obtain ⟨p, hp, he⟩ := List.mem_filterMap.1 he
  split at he
  · obtain rfl := some.inj he
    rw [TerminalSet.contains, Nat.testBit_or, Bool.or_eq_true, if_pos hresult] at ht
    obtain ht | ht := ht
    · obtain ⟨outer, hmem, -⟩ := testBit_lookahead.1 ht
      -- an ending of this rule would be that of an edge over the category of whole texts
      exfalso
      obtain ⟨state, -, hmem⟩ := List.mem_flatMap.1 hmem
      split at hmem
      · cases hmem
      · next row hrow =>
        obtain ⟨⟨c, target, edge⟩, hgoto, hmem⟩ := List.mem_flatMap.1 hmem
        obtain ⟨q, hq, hmem⟩ := List.mem_flatMap.1 hmem
        split at hmem
        · next hc =>
          obtain rfl := index_inj hp hq (rule_of_completed_mem_walk hmem)
          obtain ⟨s', hfor⟩ := bareRowFor_of_getElem? hr hrow
          rw [show c = .root from hc.symm.trans hresult] at hgoto
          exact no_goto_root hroot hfor hgoto
        · cases hmem
    · have hrank := testBit_one_shiftLeft.1 ht
      cases t <;> first | rfl | cases hrank
  · cases he

end Reductions

end Yielding.Grammar
