import Mathlib.Data.List.Induction
import Mathlib.Logic.Function.Iterate
import Yielding.Proofs.Grammar.Rows

/-!
# Proofs/Grammar/Closures — every way to go on is in the closure

Saturation adds the places of one more category in each round that changes anything, so as many
rounds as there are categories are enough (`saturate_closed`).  So where a category can be read,
each of its rules can begin (`testBit_closure_base`), and reading the parts of a rule leads through
all its places (`testBit_sight_append`).
-/

namespace Yielding.Grammar

open List

/-! ## Rounds over finitely many nodes -/

/-- **As many rounds as there are nodes are enough.**  In each round some nodes may join, and once
none joins, none ever will. -/
theorem exhausted_rounds {α : Type} {nodes : List α} {Q : ℕ → α → Prop}
    (hmono : ∀ k b, Q k b → Q (k + 1) b)
    (hstable : ∀ k, (∀ b ∈ nodes, Q (k + 1) b → Q k b) → ∀ b ∈ nodes, Q (k + 2) b → Q (k + 1) b)
    {m : ℕ} {b : α} (hb : b ∈ nodes) (h : Q m b) : Q nodes.length b := by
  have hle : ∀ {i j : ℕ} {b : α}, i ≤ j → Q i b → Q j b := fun hij hi =>
    Nat.le_induction hi (fun _ _ => hmono _ _) _ hij
  -- were nodes joining up to the last round, there would be one more of them than there are
  have hlast : ∀ b ∈ nodes, Q (nodes.length + 1) b → Q nodes.length b := by
    by_contra hlast
    have hjoins : ∀ k ≤ nodes.length, ∃ b ∈ nodes, Q (k + 1) b ∧ ¬Q k b := by
      intro k hk
      induction hk using Nat.decreasingInduction with
      | self => simpa using hlast
      | of_succ k _ ih =>
        by_contra hnone
        obtain ⟨b, hb, hjoin, hnot⟩ := ih
        exact hnot (hstable k (fun b hb h => by_contra fun hn => hnone ⟨b, hb, h, hn⟩) b hb hjoin)
    have : Nonempty α := ⟨b⟩
    choose! joins hmem hjoin hnot using hjoins
    have hnodup : ((range (nodes.length + 1)).map joins).Nodup := by
      refine Nodup.map_on (fun i hi j hj hij => ?_) nodup_range
      rw [mem_range, Nat.lt_succ_iff] at hi hj
      rcases lt_trichotomy i j with hlt | heq | hlt
      · exact absurd (hij ▸ hle hlt (hjoin i hi)) (hnot j hj)
      · exact heq
      · exact absurd (hij ▸ hle hlt (hjoin j hj)) (hnot i hi)
    have hsub : (range (nodes.length + 1)).map joins ⊆ nodes := by
      intro b hb
      obtain ⟨k, hk, rfl⟩ := mem_map.1 hb
      exact hmem k (Nat.lt_succ_iff.1 (mem_range.1 hk))
    have hlength := (subperm_of_subset hnodup hsub).length_le
    rw [length_map, length_range] at hlength
    omega
  have hstill : ∀ j, nodes.length ≤ j → ∀ b ∈ nodes, Q (j + 1) b → Q j b := fun j hj =>
    Nat.le_induction hlast (fun k _ hk => hstable k hk) j hj
  rcases le_total m nodes.length with hm | hm
  · exact hle hm h
  · induction m, hm using Nat.le_induction with
    | base => exact h
    | succ j hj ih => exact ih (hstill j hj b hb h)

/-! ## Saturation -/

section Saturation

variable {entries : List (Category × ℕ × ℕ)} {s n : ℕ}

theorem saturate_eq_iterate (fuel s : ℕ) :
    Layout.saturate entries fuel s = (Layout.addEntries entries)^[fuel] s := by
  induction fuel generalizing s with
  | zero => rfl
  | succ fuel ih =>
    rw [Layout.saturate, Function.iterate_succ_apply]
    split
    · next heq => rw [heq, Function.iterate_fixed heq]
    · exact ih _

/-- **Saturation is complete**: whatever the result asks for, it holds. -/
theorem saturate_closed {e : Category × ℕ × ℕ} (he : e ∈ entries)
    (hmeets : Layout.saturate entries entries.length s &&& e.2.1 ≠ 0)
    (hn : e.2.2.testBit n = true) :
    (Layout.saturate entries entries.length s).testBit n = true := by
  rw [saturate_eq_iterate] at hmeets ⊢
  -- an entry joins in the round after the first set that asks for it
  let Q : ℕ → Category × ℕ × ℕ → Prop
    | 0, _ => False
    | k + 1, e => (Layout.addEntries entries)^[k] s &&& e.2.1 ≠ 0
  have hadds : ∀ {k e}, e ∈ entries → Q k e → ∀ n, e.2.2.testBit n = true →
      ((Layout.addEntries entries)^[k] s).testBit n = true := by
    rintro (_ | k) e he hQ n hn
    · exact hQ.elim
    · rw [Function.iterate_succ_apply']
      exact testBit_addEntries.2 (.inr ⟨e, he, hQ, hn⟩)
  have hmono : ∀ k e, Q k e → Q (k + 1) e := by
    rintro (_ | k) e hQ
    · exact hQ.elim
    · refine and_ne_zero_mono (fun n hn => ?_) hQ
      rw [Function.iterate_succ_apply']
      exact testBit_addEntries.2 (.inl hn)
  have hstable : ∀ k, (∀ e ∈ entries, Q (k + 1) e → Q k e) →
      ∀ e ∈ entries, Q (k + 2) e → Q (k + 1) e := by
    intro k hk e _ hQ
    refine and_ne_zero_mono (fun n hn => ?_) hQ
    rw [Function.iterate_succ_apply'] at hn
    obtain hn | ⟨e', he', hmeets, hn⟩ := testBit_addEntries.1 hn
    · exact hn
    · exact hadds he' (hk e' he' hmeets) n hn
  exact hadds he (exhausted_rounds hmono hstable (m := entries.length + 1) he hmeets) n hn

end Saturation

namespace Layout

variable {rules : List Rule} {s n : ℕ} {x : Symbol} {p : Placed} {j k : ℕ}

/-! ## Closures -/

/-- The categories with the places before them and their first places. -/
def direct (rules : List Rule) : List (Category × ℕ × ℕ) :=
  Category.all.map fun c =>
    (c, allBefore (place 0 0 rules) (.category c), firstPlaces (place 0 0 rules) c)

/-- The first places that a category leads to. -/
def starts (rules : List Rule) (c : Category) : ℕ :=
  saturate (direct rules) Category.all.length (firstPlaces (place 0 0 rules) c)

theorem beforeCategory_ofRules (rules : List Rule) : (ofRules rules).beforeCategory =
    Category.all.map fun c => (c, allBefore (place 0 0 rules) (.category c), starts rules c) := by
  rfl

theorem testBit_closure_iff : ((ofRules rules).closure s).testBit n = true ↔
    s.testBit n = true ∨ ∃ c, s &&& allBefore (place 0 0 rules) (.category c) ≠ 0 ∧
      (starts rules c).testBit n = true := by
  rw [closure, testBit_addEntries, beforeCategory_ofRules]
  refine or_congr_right ⟨?_, ?_⟩
  · rintro ⟨e, he, h⟩
    obtain ⟨c, -, rfl⟩ := mem_map.1 he
    exact ⟨c, h⟩
  · rintro ⟨c, h⟩
    exact ⟨_, mem_map_of_mem c.mem_all, h⟩

theorem closure_mono {t : ℕ} (hst : ∀ n, s.testBit n = true → t.testBit n = true)
    (h : ((ofRules rules).closure s).testBit n = true) :
    ((ofRules rules).closure t).testBit n = true := by
  rw [testBit_closure_iff] at h ⊢
  exact h.imp (hst n) fun ⟨c, hmeets, hn⟩ => ⟨c, and_ne_zero_mono hst hmeets, hn⟩

/-- **Where a category can be read, each of its rules can begin.** -/
theorem testBit_closure_base (hp : p ∈ place 0 0 rules)
    (h : (ofRules rules).closure s &&& allBefore (place 0 0 rules) (.category p.rule.result) ≠ 0) :
    ((ofRules rules).closure s).testBit p.base = true := by
  obtain ⟨n, hn, hbefore⟩ := and_ne_zero_iff.1 h
  have hfirst := testBit_firstPlaces.2 ⟨p, hp, rfl, rfl⟩
  rw [testBit_closure_iff] at hn ⊢
  right
  obtain hn | ⟨c, hmeets, hn⟩ := hn
  · exact ⟨_, and_ne_zero_iff.2 ⟨n, hn, hbefore⟩, testBit_saturate_of_testBit hfirst⟩
  · refine ⟨c, hmeets, ?_⟩
    have hlength : Category.all.length = (direct rules).length := (length_map _).symm
    rw [starts, hlength] at hn ⊢
    exact saturate_closed (e := (_, _, _)) (mem_map_of_mem p.rule.result.mem_all)
      (and_ne_zero_iff.2 ⟨n, hn, hbefore⟩) hfirst

/-- What holds of a set of places, and of the first places of a rule whenever it holds of a place
before the category of that rule, holds of the closure. -/
theorem closure_induction {P : ℕ → Prop} (hs : ∀ n, s.testBit n = true → P n)
    (hstep : ∀ p ∈ place 0 0 rules, ∀ n, P n →
      (allBefore (place 0 0 rules) (.category p.rule.result)).testBit n = true → P p.base)
    (h : ((ofRules rules).closure s).testBit n = true) : P n := by
  have hfirst : ∀ {t : ℕ} {c : Category}, (∀ n, t.testBit n = true → P n) →
      t &&& allBefore (place 0 0 rules) (.category c) ≠ 0 →
      ∀ n, (firstPlaces (place 0 0 rules) c).testBit n = true → P n := by
    intro t c ht hmeets n hn
    obtain ⟨m, hm, hbefore⟩ := and_ne_zero_iff.1 hmeets
    obtain ⟨p, hp, rfl, rfl⟩ := testBit_firstPlaces.1 hn
    exact hstep p hp m (ht m hm) hbefore
  obtain h | ⟨c, hmeets, h⟩ := testBit_closure_iff.1 h
  · exact hs n h
  · have hrounds : ∀ k n, ((addEntries (direct rules))^[k]
        (firstPlaces (place 0 0 rules) c)).testBit n = true → P n := by
      intro k
      induction k with
      | zero => exact hfirst hs hmeets
      | succ k ih =>
        intro n hn
        rw [Function.iterate_succ_apply'] at hn
        obtain hn | ⟨e, he, hmeets, hn⟩ := testBit_addEntries.1 hn
        · exact ih n hn
        · obtain ⟨c', -, rfl⟩ := mem_map.1 he
          exact hfirst ih hmeets n hn
    rw [starts, saturate_eq_iterate] at h
    exact hrounds _ n h

/-! ## Reading symbols -/

def sight (l : Layout) (xs : List Symbol) : ℕ := xs.foldl (fun s x => l.after x s) 1

theorem sight_append (l : Layout) (xs ys : List Symbol) :
    l.sight (xs ++ ys) = ys.foldl (fun s x => l.after x s) (l.sight xs) :=
  foldl_append

theorem sight_concat (l : Layout) (xs : List Symbol) (x : Symbol) :
    l.sight (xs ++ [x]) = l.after x (l.sight xs) :=
  l.sight_append xs [x]

/-- The same with the first places of everything that can begin there. -/
def view (rules : List Rule) (xs : List Symbol) : ℕ :=
  (ofRules rules).closure ((ofRules rules).sight xs)

theorem testBit_after_of_testBit (hp : p ∈ place 0 0 rules) {part : Part}
    (hj : p.rule.parts[j]? = some part)
    (h : ((ofRules rules).closure s).testBit (p.base + j) = true) :
    ((ofRules rules).after part.symbol s).testBit (p.base + (j + 1)) = true := by
  have hbefore : (allBefore (place 0 0 rules) part.symbol).testBit (p.base + j) = true :=
    testBit_allBefore.2 ⟨p, hp, j, part, hj, rfl, rfl⟩
  rw [after, Nat.testBit_shiftLeft, Bool.and_eq_true, decide_eq_true_iff, Nat.testBit_and,
    Bool.and_eq_true]
  rw [show p.base + (j + 1) - 1 = p.base + j by omega]
  exact ⟨by omega, h, hbefore⟩

theorem meets_before (hp : p ∈ place 0 0 rules) {part : Part} (hj : p.rule.parts[j]? = some part)
    (h : s.testBit (p.base + j) = true) : s &&& allBefore (place 0 0 rules) part.symbol ≠ 0 :=
  and_ne_zero_iff.2 ⟨_, h, testBit_allBefore.2 ⟨p, hp, j, part, hj, rfl, rfl⟩⟩

/-- **Reading the parts of a rule leads through its places.** -/
theorem testBit_sight_append (hp : p ∈ place 0 0 rules) {xs : List Symbol}
    (h : (view rules xs).testBit p.base = true) :
    ∀ k ≤ p.rule.parts.length, (view rules (xs ++ p.rule.symbols.take k)).testBit (p.base + k) =
      true
  | 0, _ => by simpa using h
  | k + 1, hk => by
    have hpart := getElem?_eq_getElem (Nat.lt_of_succ_le hk)
    have hsymbol : p.rule.symbols[k]? = some (p.rule.parts[k]).symbol := by
      rw [Rule.symbols, getElem?_map, hpart]
      rfl
    rw [take_add_one, hsymbol, Option.toList_some, ← append_assoc, view, sight_concat]
    exact testBit_closure_of_testBit (testBit_after_of_testBit hp hpart
      (testBit_sight_append hp h k (Nat.le_of_succ_le hk)))

theorem testBit_of_testBit_sight (hp : p ∈ place 0 0 rules) {xs ys : List Symbol}
    (hy : ys.length ≤ k) (hk : k ≤ p.rule.parts.length)
    (h : (view rules (xs ++ ys)).testBit (p.base + k) = true) :
    (view rules xs).testBit (p.base + (k - ys.length)) = true := by
  induction ys using reverseRecOn generalizing k with
  | nil => simpa using h
  | append_singleton ys y ih =>
    rw [length_append, length_singleton] at hy ⊢
    obtain ⟨k, rfl⟩ : ∃ i, k = i + 1 := ⟨k - 1, by omega⟩
    rw [← append_assoc, view, sight_concat] at h
    have hbefore := (testBit_after_succ hp (Nat.lt_of_succ_le hk)
      (testBit_of_testBit_closure hp hk h)).2
    rw [Nat.add_sub_add_right]
    exact ih (Nat.le_of_add_le_add_right hy) (Nat.le_of_succ_le hk) hbefore

theorem next?_sight {xs : List Symbol}
    (h : view rules xs &&& allBefore (place 0 0 rules) x ≠ 0) :
    (ofRules rules).next? ((ofRules rules).sight xs) x =
      some ((ofRules rules).sight (xs ++ [x])) := by
  rw [next?, sight_concat]
  exact if_neg h

theorem sight_mem_reached (hr : rules ≠ []) {xs : List Symbol}
    (hxs : (ofRules rules).sight xs ∈ (ofRules rules).reached)
    (h : view rules xs &&& allBefore (place 0 0 rules) x ≠ 0) :
    (ofRules rules).sight (xs ++ [x]) ∈ (ofRules rules).reached :=
  mem_reached_of_next? hr hxs (next?_sight h)

end Layout

end Yielding.Grammar
