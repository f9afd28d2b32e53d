import Mathlib.Data.List.Nodup
import Mathlib.Data.List.Perm.Subperm
import Yielding.Grammar.Automaton
import Yielding.Proofs.Grammar.Places

/-!
# Proofs/Grammar/Rows — the rows of the automaton of a grammar

The exploration of the sets of places meets every set that a symbol leads to: the sets it meets are
different numbers below a bound, so it does not end early (`states_closed`).  Hence each row of the
automaton knows, for each symbol that can come next, the row of the set that this symbol leads to
(`rows_ofRules`).
-/

namespace Yielding.Grammar

open List

/-! ## Exploration -/

section Exploration

theorem unseen_foldl {seen news found : List ℕ} (h : (seen ++ found).Nodup) :
    let r := news.foldl
      (fun found s => if seen.contains s || found.contains s then found else found ++ [s]) found
    (seen ++ r).Nodup ∧ (∀ s ∈ found, s ∈ r) ∧ (∀ s ∈ news, s ∈ seen ∨ s ∈ r) ∧
      ∀ s ∈ r, s ∈ found ∨ s ∈ news := by
  induction news generalizing found with
  | nil => simpa using h
  | cons s news ih =>
    rw [foldl_cons]
    split
    · next hs =>
      obtain ⟨hnodup, hfound, hnews, hmem⟩ := ih h
      refine ⟨hnodup, hfound, forall_mem_cons.2 ⟨?_, hnews⟩, fun t ht => ?_⟩
      · rw [Bool.or_eq_true, contains_iff_mem, contains_iff_mem] at hs
        exact hs.imp_right (hfound s)
      · exact (hmem t ht).imp_right (mem_cons_of_mem s)
    · next hs =>
      rw [Bool.or_eq_true, contains_iff_mem, contains_iff_mem, not_or] at hs
      have hnext : (seen ++ (found ++ [s])).Nodup := by
        rw [← append_assoc]
        refine h.append (nodup_singleton s) fun t ht hts => ?_
        obtain rfl := mem_singleton.1 hts
        exact (mem_append.1 ht).elim hs.1 hs.2
      obtain ⟨hnodup, hfound, hnews, hmem⟩ := ih hnext
      refine ⟨hnodup, fun t ht => hfound t (mem_append_left _ ht),
        forall_mem_cons.2 ⟨.inr (hfound s (by simp)), hnews⟩, fun t ht => ?_⟩
      obtain ht | ht := hmem t ht
      · obtain ht | ht := mem_append.1 ht
        · exact .inl ht
        · exact .inr (mem_cons.2 (.inl (mem_singleton.1 ht)))
      · exact .inr (mem_cons_of_mem s ht)

theorem unseen_spec {seen : List ℕ} (news : List ℕ) (h : seen.Nodup) :
    (seen ++ unseen seen news).Nodup ∧ (∀ s ∈ news, s ∈ seen ∨ s ∈ unseen seen news) ∧
      ∀ s ∈ unseen seen news, s ∈ news := by
  have hspec := @unseen_foldl seen news [] ((append_nil seen).symm ▸ h)
  exact ⟨hspec.1, hspec.2.2.1, fun s hs => (hspec.2.2.2 s hs).resolve_left nofun⟩

def Moves.targets (m : Moves) : List ℕ := m.shifts.map Prod.snd ++ m.gotos.map Prod.snd

theorem length_le_of_nodup {l : List ℕ} {bound : ℕ} (h : l.Nodup) (hl : ∀ s ∈ l, s < bound) :
    l.length ≤ bound := by
  have hle := (subperm_of_subset h fun s hs => mem_range.2 (hl s hs)).length_le
  rwa [length_range] at hle

theorem append_shift (done : List ℕ) (s : ℕ) (queue news : List ℕ) :
    done ++ s :: queue ++ news = done ++ [s] ++ (queue ++ news) := by
  simp

/-- **Exploration is complete**: with the sets `done` looked at and those of `queue` still to be
looked at, it ends with a list that holds all targets of its members, if it may look at as many sets
as there are. -/
theorem explore_closed {l : Layout} {bound fuel : ℕ} {done queue : List ℕ}
    (hbound : ∀ s, ∀ t ∈ (l.moves s).targets, t < bound) (hnodup : (done ++ queue).Nodup)
    (hlt : ∀ s ∈ done ++ queue, s < bound) (hfuel : bound ≤ fuel + done.length) :
    let r := l.explore fuel (done ++ queue) queue
    queue <+: r.map Prod.fst ∧
      ∀ e ∈ r, e.2 = l.moves e.1 ∧ ∀ t ∈ e.2.targets, t ∈ done ++ r.map Prod.fst := by
  induction fuel generalizing done queue with
  | zero =>
    have hlen := length_le_of_nodup hnodup hlt
    obtain rfl : queue = [] := by
      rw [← length_eq_zero_iff]
      rw [length_append] at hlen
      omega
    exact .intro nil_prefix nofun
  | succ fuel ih =>
    cases queue with
    | nil => exact .intro nil_prefix nofun
    | cons s queue =>
      obtain ⟨hnodup', hnews, hmem⟩ := unseen_spec (l.moves s).targets hnodup
      -- the set looked at goes over to `done`
      have hsplit := append_shift done s queue (unseen (done ++ s :: queue) (l.moves s).targets)
      have hlt' : ∀ t ∈ done ++ s :: queue ++ unseen (done ++ s :: queue) (l.moves s).targets,
          t < bound := by
        intro t ht
        exact (mem_append.1 ht).elim (hlt t) fun ht => hbound s t (hmem t ht)
      rw [hsplit] at hnodup' hlt'
      have hrest := ih hnodup' hlt' (by rw [length_append, length_singleton]; omega)
      rw [← hsplit] at hrest
      obtain ⟨hqueue, hclosed⟩ := hrest
      refine ⟨?_, forall_mem_cons.2 ⟨⟨rfl, fun t ht => ?_⟩, fun e he => ?_⟩⟩
      · exact cons_prefix_cons.2 ⟨rfl, (prefix_append _ _).trans hqueue⟩
      · refine mem_append.2 ?_
        obtain ht | ht := hnews t ht
        · obtain ht | ht := mem_append.1 ht
          · exact .inl ht
          · obtain rfl | ht := mem_cons.1 ht
            · exact .inr mem_cons_self
            · exact .inr (mem_cons_of_mem s (hqueue.subset (mem_append_left _ ht)))
        · exact .inr (mem_cons_of_mem s (hqueue.subset (mem_append_right _ ht)))
      · obtain ⟨hmoves, htargets⟩ := hclosed e he
        refine ⟨hmoves, fun t ht => ?_⟩
        have hmem := htargets t ht
        rwa [append_assoc] at hmem

theorem explore_nodup {l : Layout} {fuel : ℕ} {done queue : List ℕ} (h : (done ++ queue).Nodup) :
    (done ++ (l.explore fuel (done ++ queue) queue).map Prod.fst).Nodup := by
  induction fuel generalizing done queue with
  | zero => simpa [Layout.explore] using h.of_append_left
  | succ fuel ih =>
    cases queue with
    | nil => simpa [Layout.explore] using h
    | cons s queue =>
      obtain ⟨hnodup, -, -⟩ := unseen_spec (l.moves s).targets h
      have hsplit := append_shift done s queue (unseen (done ++ s :: queue) (l.moves s).targets)
      rw [hsplit] at hnodup
      have hrest := ih hnodup
      rw [← hsplit, append_assoc] at hrest
      exact hrest

end Exploration

/-! ## Moves -/

section Lookup

variable {κ α β : Type} [DecidableEq κ]

theorem lookup_filterMap (keys : List κ) (g : κ → Option β) (k : κ) :
    (keys.filterMap fun a => (g a).map (a, ·)).lookup k = if k ∈ keys then g k else none := by
  induction keys with
  | nil => rfl
  | cons a keys ih =>
    by_cases hka : k = a
    · subst hka
      cases hg : g k with
      | none => simp [hg, ih]
      | some b => simp [hg]
    · have hbeq : (k == a) = false := beq_false_of_ne hka
      cases hg : g a with
      | none => simp [hg, ih, hka]
      | some b => simp [hg, ih, hka, lookup_cons, hbeq]

theorem lookup_map_snd (l : List (κ × α)) (f : α → β) (k : κ) :
    (l.map fun e => (e.1, f e.2)).lookup k = (l.lookup k).map f := by
  induction l with
  | nil => rfl
  | cons e l ih =>
    rw [map_cons, lookup_cons, lookup_cons, ih]
    split <;> rfl

end Lookup

namespace Layout

variable {rules : List Rule} {s s' : ℕ} {x : Symbol}

def next? (l : Layout) (s : ℕ) (x : Symbol) : Option ℕ :=
  if l.closure s &&& allBefore l.rules x = 0 then none else some (l.after x s)

theorem shifts_moves (rules : List Rule) (s : ℕ) : ((ofRules rules).moves s).shifts =
    Terminal.all.filterMap fun t => ((ofRules rules).next? s (.terminal t)).map (t, ·) := by
  simp only [moves]
  rw [show (ofRules rules).beforeTerminal = Terminal.all.map fun t =>
    (t, allBefore (ofRules rules).rules (.terminal t)) from rfl, filterMap_map]
  congr 1
  funext t
  simp only [Function.comp_apply, next?, after]
  split <;> simp_all

theorem gotos_moves (rules : List Rule) (s : ℕ) : ((ofRules rules).moves s).gotos =
    Category.all.filterMap fun c => ((ofRules rules).next? s (.category c)).map (c, ·) := by
  simp only [moves]
  simp only [show (ofRules rules).beforeCategory = Category.all.map fun c =>
    (c, allBefore (ofRules rules).rules (.category c), _) from by
      simp only [ofRules, map_map]; rfl, filterMap_map]
  congr 1
  funext c
  simp only [Function.comp_apply, next?, after]
  split <;> simp_all

theorem placeCount_eq (l : Layout) :
    l.placeCount = (l.rules.map fun p => p.rule.parts.length + 1).sum := foldr_map.symm

theorem next?_lt (h : (ofRules rules).next? s x = some s') :
    s' < 2 ^ (ofRules rules).placeCount := by
  rw [next?] at h
  split at h
  · cases h
  · obtain rfl := Option.some.inj h
    refine Nat.lt_pow_two_of_testBit _ fun n hn => ?_
    by_contra hbit
    obtain ⟨p, hp, j, part, hj, -, rfl, -⟩ := testBit_after (Bool.eq_true_of_not_eq_false hbit)
    have hlt : j < p.rule.parts.length := (List.getElem?_eq_some_iff.1 hj).1
    have hstop := stop_lt_of_mem_place hp
    rw [Placed.stop] at hstop
    rw [placeCount_eq] at hn
    simp only [ofRules] at hn
    omega

theorem mem_targets_moves (h : s' ∈ ((ofRules rules).moves s).targets) :
    ∃ x, (ofRules rules).next? s x = some s' := by
  rw [Moves.targets, shifts_moves, gotos_moves, mem_append, mem_map, mem_map] at h
  obtain ⟨⟨t, s'⟩, h, rfl⟩ | ⟨⟨c, s'⟩, h, rfl⟩ := h
  · obtain ⟨t', -, h⟩ := mem_filterMap.1 h
    obtain ⟨u, hu, heq⟩ := Option.map_eq_some_iff.1 h
    exact ⟨_, hu.trans (congrArg some (Prod.mk.inj heq).2)⟩
  · obtain ⟨c', -, h⟩ := mem_filterMap.1 h
    obtain ⟨u, hu, heq⟩ := Option.map_eq_some_iff.1 h
    exact ⟨_, hu.trans (congrArg some (Prod.mk.inj heq).2)⟩

/-- The sets of places that reading a text can lead to. -/
def reached (l : Layout) : List ℕ := l.states.map Prod.fst

/-- **The sets that are reached are closed under moves**, and reading starts in the first of
them. -/
theorem states_closed (h : rules ≠ []) : (ofRules rules).reached.head? = some 1 ∧
    ∀ e ∈ (ofRules rules).states, e.2 = (ofRules rules).moves e.1 ∧
      ∀ t ∈ e.2.targets, t ∈ (ofRules rules).reached := by
  have hcount : 1 < 2 ^ (ofRules rules).placeCount := by
    obtain ⟨r, rs, rfl⟩ := exists_cons_of_ne_nil h
    refine Nat.one_lt_two_pow ?_
    simp only [placeCount_eq, ofRules, place, map_cons, sum_cons]
    omega
  have hbound : ∀ s, ∀ t ∈ ((ofRules rules).moves s).targets, t < 2 ^ (ofRules rules).placeCount :=
    fun s t ht => (mem_targets_moves ht).elim fun _ => next?_lt
  have hexplore := @explore_closed (ofRules rules) (2 ^ (ofRules rules).placeCount)
    (2 ^ (ofRules rules).placeCount) [] [1] hbound (nodup_singleton 1)
    (forall_mem_singleton.2 hcount) le_rfl
  rw [reached, states, Nat.one_shiftLeft]
  obtain ⟨hqueue, hclosed⟩ := hexplore
  refine ⟨?_, hclosed⟩
  obtain ⟨rest, hrest⟩ := hqueue
  rw [head?_eq_some_iff]
  exact ⟨rest, hrest.symm⟩

theorem reached_nodup (rules : List Rule) : (ofRules rules).reached.Nodup :=
  @explore_nodup _ _ [] _ (nodup_singleton 1)

theorem mem_reached_of_next? (h : rules ≠ []) (hs : s ∈ (ofRules rules).reached)
    (hnext : (ofRules rules).next? s x = some s') : s' ∈ (ofRules rules).reached := by
  obtain ⟨e, he, rfl⟩ := mem_map.1 hs
  obtain ⟨hmoves, htargets⟩ := (states_closed h).2 e he
  refine htargets s' ?_
  rw [hmoves, Moves.targets, shifts_moves, gotos_moves, mem_append, mem_map, mem_map]
  cases x with
  | terminal t =>
    exact .inl ⟨(t, s'), mem_filterMap.2 ⟨t, t.mem_all, by rw [hnext]; rfl⟩, rfl⟩
  | category c =>
    exact .inr ⟨(c, s'), mem_filterMap.2 ⟨c, c.mem_all, by rw [hnext]; rfl⟩, rfl⟩

end Layout

/-! ## Rows -/

theorem numberGotos_targets (states : List ℕ) (edge : ℕ) (gotos : List (Category × ℕ)) :
    (numberGotos states edge gotos).map (fun (c, target, _) => (c, target)) =
      gotos.map fun e => (e.1, states.idxOf e.2) := by
  induction gotos generalizing edge with
  | nil => rfl
  | cons e gotos ih => rw [numberGotos, map_cons, map_cons, ih]

theorem getElem?_skeletons (states : List ℕ) (edge : ℕ) {i s : ℕ} {l : List (ℕ × Moves)} {m : Moves}
    (h : l[i]? = some (s, m)) : ∃ e, (skeletons states edge l)[i]? =
      some ⟨s, m.shifts.map (fun (t, target) => (t, states.idxOf target)),
        numberGotos states e m.gotos⟩ := by
  induction l generalizing edge i with
  | nil => cases h
  | cons e l ih =>
    cases i with
    | zero =>
      obtain rfl := Option.some.inj h
      exact ⟨edge, rfl⟩
    | succ i => exact ih _ h

theorem mem_reductionsOf {rules : List Placed} {ends : List Ending} {follow state places : ℕ}
    {e : Rule × TerminalSet} (h : e ∈ reductionsOf rules ends follow state places) :
    ∃ p ∈ rules, e.1 = p.rule ∧ places.testBit p.stop = true := by
  obtain ⟨p, hp, he⟩ := mem_filterMap.1 h
  split at he
  · next hstop =>
    obtain rfl := Option.some.inj he
    exact ⟨p, hp, rfl, hstop⟩
  · cases he

/-- The rows of a grammar before their lookaheads are known. -/
def bareRows (rules : List Rule) : Array Skeleton :=
  (skeletons (Layout.ofRules rules).reached 0 (Layout.ofRules rules).states).toArray

/-- What the bare row of a set of places knows. -/
structure BareRowFor (rules : List Rule) (s : ℕ) (row : Skeleton) : Prop where
  places : row.places = s
  shifts : ∀ t, row.shifts.lookup t =
    ((Layout.ofRules rules).next? s (.terminal t)).map (Layout.ofRules rules).reached.idxOf
  gotos : ∀ c, (row.gotos.lookup c).map Prod.fst =
    ((Layout.ofRules rules).next? s (.category c)).map (Layout.ofRules rules).reached.idxOf

/-- **Each set that is reached has its row.** -/
theorem bareRowFor {rules : List Rule} (h : rules ≠ []) {i s : ℕ}
    (hi : (Layout.ofRules rules).reached[i]? = some s) :
    ∃ row, (bareRows rules)[i]? = some row ∧ BareRowFor rules s row := by
  rw [Layout.reached, getElem?_map, Option.map_eq_some_iff] at hi
  obtain ⟨⟨s, m⟩, hi, rfl⟩ := hi
  obtain rfl : m = (Layout.ofRules rules).moves s :=
    ((Layout.states_closed h).2 (s, m) (mem_of_getElem? hi)).1
  obtain ⟨e, he⟩ := getElem?_skeletons (Layout.ofRules rules).reached 0 hi
  refine ⟨_, (getElem?_toArray ..).trans he, rfl, fun t => ?_, fun c => ?_⟩
  · have hlookup := lookup_map_snd ((Layout.ofRules rules).moves s).shifts
      (Layout.ofRules rules).reached.idxOf t
    rw [Layout.shifts_moves, lookup_filterMap, if_pos t.mem_all] at hlookup
    rw [Layout.shifts_moves]
    exact hlookup
  · have hlookup := lookup_map_snd ((Layout.ofRules rules).moves s).gotos
      (Layout.ofRules rules).reached.idxOf c
    rw [← numberGotos_targets _ e, Layout.gotos_moves, lookup_filterMap,
      if_pos c.mem_all] at hlookup
    rw [Layout.gotos_moves, ← hlookup]
    exact (lookup_map_snd _ Prod.fst c).symm

/-- What the row of a set of places knows. -/
structure RowFor (rules : List Rule) (s : ℕ) (row : Row) : Prop where
  shifts : ∀ t, row.shifts.lookup t =
    ((Layout.ofRules rules).next? s (.terminal t)).map (Layout.ofRules rules).reached.idxOf
  gotos : ∀ c, row.gotos.lookup c =
    ((Layout.ofRules rules).next? s (.category c)).map (Layout.ofRules rules).reached.idxOf
  reductions : ∀ e ∈ row.reductions, ∃ p ∈ place 0 0 rules,
    e.1 = p.rule ∧ s.testBit p.stop = true

theorem rows_ofRules {rules : List Rule} (h : rules ≠ []) {i s : ℕ}
    (hi : (Layout.ofRules rules).reached[i]? = some s) :
    ∃ row, (Automaton.ofRules rules).rows[i]? = some row ∧ RowFor rules s row := by
  obtain ⟨row, hrow, rfl, hshifts, hgotos⟩ := bareRowFor h hi
  refine ⟨_, by
    simp only [Automaton.ofRules, Array.getElem?_mapIdx]
    exact congrArg (Option.map _) hrow, hshifts, fun c => ?_, fun e => mem_reductionsOf⟩
  rw [← hgotos c]
  exact lookup_map_snd row.gotos Prod.fst c

end Yielding.Grammar
