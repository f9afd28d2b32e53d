import Mathlib.Data.List.Pairwise
import Mathlib.Data.Nat.Bitwise
import Yielding.Grammar.States

/-!
# Proofs/Grammar/Places — sets of places as numbers

The places of different rules have different numbers (`place_inj`), so a bit of a set of places says
which rule is being read and how far.  The set that a symbol leads to holds the places right behind
that symbol (`testBit_after`).  The closure of a set adds nothing but first places, each of a
category that is to be read at some place of the closure (`testBit_closure`).
-/

namespace Yielding.Grammar

open List

/-! ## Numbers of places -/

section Numbering

variable {index base : ℕ} {rules : List Rule} {p q : Placed} {i j n : ℕ}

theorem rule_mem_of_mem_place (h : p ∈ place index base rules) : p.rule ∈ rules := by
  induction rules generalizing index base with
  | nil => cases h
  | cons r rs ih =>
    rw [place, mem_cons] at h
    obtain rfl | h := h
    · exact mem_cons_self
    · exact mem_cons_of_mem _ (ih h)

theorem base_le_of_mem_place (h : p ∈ place index base rules) : base ≤ p.base := by
  induction rules generalizing index base with
  | nil => cases h
  | cons r rs ih =>
    rw [place, mem_cons] at h
    obtain rfl | h := h
    · exact le_rfl
    · have := ih h
      omega

theorem place_pairwise (index base : ℕ) (rules : List Rule) :
    (place index base rules).Pairwise fun p q => p.stop < q.base := by
  induction rules generalizing index base with
  | nil => exact .nil
  | cons r rs ih =>
    refine pairwise_cons.2 ⟨fun q hq => ?_, ih _ _⟩
    exact Nat.lt_of_succ_le (base_le_of_mem_place hq)

/-- **A number is the number of at most one place.** -/
theorem place_inj (hp : p ∈ place index base rules) (hq : q ∈ place index base rules)
    (hi : i ≤ p.rule.parts.length) (hj : j ≤ q.rule.parts.length)
    (h : p.base + i = q.base + j) : p = q ∧ i = j := by
  have hpairs := place_pairwise index base rules
  have hall := List.Pairwise.forall_of_forall_of_flip
    (R := fun p q => p = q ∨ p.stop < q.base ∨ q.stop < p.base) (fun p _ => .inl rfl)
    (hpairs.imp fun h => .inr (.inl h)) (hpairs.imp fun h => .inr (.inr h))
  rw [← Nat.add_left_cancel_iff (n := p.base)]
  obtain rfl | hpq | hqp := hall hp hq
  · exact ⟨rfl, h⟩
  · rw [Placed.stop] at hpq
    omega
  · rw [Placed.stop] at hqp
    omega

theorem stop_lt_of_mem_place (h : p ∈ place index base rules) :
    p.stop < base + ((place index base rules).map fun p => p.rule.parts.length + 1).sum := by
  induction rules generalizing index base with
  | nil => cases h
  | cons r rs ih =>
    rw [place, mem_cons] at h
    rw [place, map_cons, sum_cons]
    obtain rfl | h := h
    · show base + r.parts.length < base + (r.parts.length + 1 + _)
      omega
    · have hlt := ih h
      show p.stop < base + (r.parts.length + 1 + _)
      omega

end Numbering

/-! ## Bits -/

section Bits

variable {s mask n : ℕ}

theorem testBit_one_shiftLeft {m : ℕ} : (1 <<< m).testBit n = true ↔ n = m := by
  rw [Nat.one_shiftLeft, Nat.testBit_two_pow, decide_eq_true_iff]
  exact eq_comm

theorem testBit_foldl {α : Type} {f : ℕ → α → ℕ} {Q : α → Prop} {l : List α}
    (hf : ∀ s, ∀ a ∈ l, (f s a).testBit n = true ↔ s.testBit n = true ∨ Q a) :
    (l.foldl f s).testBit n = true ↔ s.testBit n = true ∨ ∃ a ∈ l, Q a := by
  induction l generalizing s with
  | nil => simp
  | cons a l ih =>
    rw [foldl_cons, ih fun s b hb => hf s b (mem_cons_of_mem _ hb),
      hf s a mem_cons_self]
    simp [or_assoc]

theorem and_ne_zero_iff : s &&& mask ≠ 0 ↔ ∃ n, s.testBit n = true ∧ mask.testBit n = true := by
  constructor
  · intro h
    obtain ⟨n, hn⟩ := Nat.exists_testBit_of_ne_zero h
    rw [Nat.testBit_and, Bool.and_eq_true] at hn
    exact ⟨n, hn⟩
  · rintro ⟨n, hs, hmask⟩ h
    have hbit : (s &&& mask).testBit n = true := by rw [Nat.testBit_and, hs, hmask]; rfl
    rw [h, Nat.zero_testBit] at hbit
    cases hbit

end Bits

/-! ## Sets of places -/

section Sets

variable {rules : List Placed} {x : Symbol} {c : Category} {n start : ℕ}

theorem testBit_placesBefore {parts : List Part} : (placesBefore x start parts).testBit n = true ↔
    ∃ j part, parts[j]? = some part ∧ part.symbol = x ∧ n = start + j := by
  induction parts generalizing start with
  | nil => simp [placesBefore]
  | cons part parts ih =>
    rw [placesBefore, Nat.testBit_or, Bool.or_eq_true, ih]
    constructor
    · rintro (h | ⟨j, q, hj, hq, rfl⟩)
      · split at h
        · next hx => exact ⟨0, part, rfl, hx, testBit_one_shiftLeft.1 h⟩
        · simp at h
      · exact ⟨j + 1, q, hj, hq, by omega⟩
    · rintro ⟨j, q, hj, hq, rfl⟩
      cases j with
      | zero =>
        obtain rfl := Option.some.inj hj
        left
        rw [if_pos hq]
        exact testBit_one_shiftLeft.2 rfl
      | succ j => exact .inr ⟨j, q, hj, hq, by omega⟩

theorem testBit_allBefore : (Layout.allBefore rules x).testBit n = true ↔
    ∃ p ∈ rules, ∃ j part, p.rule.parts[j]? = some part ∧ part.symbol = x ∧ n = p.base + j := by
  rw [Layout.allBefore, testBit_foldl fun s p _ => by
    rw [Nat.testBit_or, Bool.or_eq_true, testBit_placesBefore]]
  simp

theorem testBit_firstPlaces : (Layout.firstPlaces rules c).testBit n = true ↔
    ∃ p ∈ rules, p.rule.result = c ∧ n = p.base := by
  rw [Layout.firstPlaces, testBit_foldl (Q := fun p => p.rule.result = c ∧ n = p.base)]
  · simp
  · intro s p _
    split
    · next h => rw [Nat.testBit_or, Bool.or_eq_true, testBit_one_shiftLeft, and_iff_right h]
    · next h => simp [h]

end Sets

/-! ## Closures -/

section Closure

variable {entries : List (Category × ℕ × ℕ)} {s n : ℕ}

theorem testBit_addEntries : (Layout.addEntries entries s).testBit n = true ↔
    s.testBit n = true ∨ ∃ e ∈ entries, s &&& e.2.1 ≠ 0 ∧ e.2.2.testBit n = true := by
  refine testBit_foldl fun t e _ => ?_
  show (if s &&& e.2.1 = 0 then t else t ||| e.2.2).testBit n = true ↔ _
  split
  · next h => simp [h]
  · next h => rw [Nat.testBit_or, Bool.or_eq_true, and_iff_right h]

theorem and_ne_zero_mono {t mask : ℕ} (hst : ∀ n, s.testBit n = true → t.testBit n = true)
    (h : s &&& mask ≠ 0) : t &&& mask ≠ 0 := by
  obtain ⟨n, hs, hmask⟩ := and_ne_zero_iff.1 h
  exact and_ne_zero_iff.2 ⟨n, hst n hs, hmask⟩

theorem testBit_saturate_of_testBit {fuel : ℕ} (h : s.testBit n = true) :
    (Layout.saturate entries fuel s).testBit n = true := by
  induction fuel generalizing s with
  | zero => exact h
  | succ fuel ih =>
    rw [Layout.saturate]
    split
    · exact h
    · exact ih (testBit_addEntries.2 (.inl h))

theorem testBit_saturate {fuel : ℕ} (h : (Layout.saturate entries fuel s).testBit n = true) :
    s.testBit n = true ∨ ∃ e ∈ entries,
      Layout.saturate entries fuel s &&& e.2.1 ≠ 0 ∧ e.2.2.testBit n = true := by
  induction fuel generalizing s with
  | zero => exact .inl h
  | succ fuel ih =>
    rw [Layout.saturate] at h ⊢
    split at h
    · next heq => exact .inl h
    · next hne =>
      rw [if_neg hne]
      obtain h | h := ih h
      · obtain h | ⟨e, he, hmeets, hn⟩ := testBit_addEntries.1 h
        · exact .inl h
        · refine .inr ⟨e, he, and_ne_zero_mono (fun m hm => ?_) hmeets, hn⟩
          exact testBit_saturate_of_testBit (testBit_addEntries.2 (.inl hm))
      · exact .inr h

end Closure

namespace Layout

variable {rules : List Rule} {s n : ℕ} {x : Symbol} {p : Placed} {j : ℕ}

theorem testBit_closure_of_testBit {l : Layout} (h : s.testBit n = true) :
    (l.closure s).testBit n = true :=
  testBit_addEntries.2 (.inl h)

/-- **The closure of a set of places adds first places only**, each of a category that is to be read
at some place of the closure. -/
theorem testBit_closure (h : ((ofRules rules).closure s).testBit n = true) :
    s.testBit n = true ∨ ∃ p ∈ place 0 0 rules, n = p.base ∧
      (ofRules rules).closure s &&& allBefore (place 0 0 rules) (.category p.rule.result) ≠ 0 := by
  obtain h | ⟨e, he, hmeets, hn⟩ := testBit_addEntries.1 h
  · exact .inl h
  · -- the entry of `c` holds what the direct entries ask for, starting from `c`
    simp only [ofRules, map_map, mem_map, Function.comp_apply] at he
    obtain ⟨c, -, rfl⟩ := he
    have hgrows : ∀ m, (saturate _ _ _).testBit m = true →
      ((ofRules rules).closure s).testBit m = true :=
      fun m hm => testBit_addEntries.2 (.inr ⟨_, by
        simp only [ofRules, map_map, mem_map, Function.comp_apply]
        exact ⟨c, Category.mem_all c, rfl⟩, hmeets, hm⟩)
    right
    obtain hn | ⟨e, he, hmeets', hn⟩ := testBit_saturate hn
    · obtain ⟨p, hp, rfl, rfl⟩ := testBit_firstPlaces.1 hn
      exact ⟨p, hp, rfl, and_ne_zero_mono (fun _ => testBit_closure_of_testBit) hmeets⟩
    · obtain ⟨c', -, rfl⟩ := mem_map.1 he
      obtain ⟨p, hp, rfl, rfl⟩ := testBit_firstPlaces.1 hn
      exact ⟨p, hp, rfl, and_ne_zero_mono hgrows hmeets'⟩

def after (l : Layout) (x : Symbol) (s : ℕ) : ℕ := (l.closure s &&& allBefore l.rules x) <<< 1

theorem mem_symbols_of_meets (h : s &&& allBefore (place 0 0 rules) x ≠ 0) :
    ∃ r ∈ rules, x ∈ r.symbols := by
  obtain ⟨n, -, hn⟩ := and_ne_zero_iff.1 h
  obtain ⟨p, hp, j, part, hj, rfl, -⟩ := testBit_allBefore.1 hn
  exact ⟨p.rule, rule_mem_of_mem_place hp, List.mem_map_of_mem (List.mem_of_getElem? hj)⟩

theorem testBit_after (h : ((ofRules rules).after x s).testBit n = true) :
    ∃ p ∈ place 0 0 rules, ∃ j part, p.rule.parts[j]? = some part ∧ part.symbol = x ∧
      n = p.base + (j + 1) ∧ ((ofRules rules).closure s).testBit (p.base + j) = true := by
  rw [after, Nat.testBit_shiftLeft, Bool.and_eq_true, decide_eq_true_iff, Nat.testBit_and,
    Bool.and_eq_true] at h
  obtain ⟨hn, hclosure, hbefore⟩ := h
  obtain ⟨p, hp, j, part, hj, hx, heq⟩ := testBit_allBefore.1 hbefore
  exact ⟨p, hp, j, part, hj, hx, by omega, heq ▸ hclosure⟩

/-- **Reading a symbol moves a place of a rule by one**: the place before was in the set, unless it
was the first of its rule. -/
theorem testBit_after_succ (hp : p ∈ place 0 0 rules) (hj : j < p.rule.parts.length)
    (h : ((ofRules rules).after x s).testBit (p.base + (j + 1)) = true) :
    (p.rule.parts[j]?).map Part.symbol = some x ∧
      ((ofRules rules).closure s).testBit (p.base + j) = true := by
  obtain ⟨q, hq, i, part, hi, rfl, heq, hclosure⟩ := testBit_after h
  have hlt : i < q.rule.parts.length := (List.getElem?_eq_some_iff.1 hi).1
  obtain ⟨rfl, hij⟩ := place_inj hp hq hj hlt heq
  obtain rfl := Nat.succ.inj hij
  exact ⟨by rw [hi]; rfl, hclosure⟩

theorem testBit_of_testBit_closure (hp : p ∈ place 0 0 rules) (hj : j + 1 ≤ p.rule.parts.length)
    (h : ((ofRules rules).closure s).testBit (p.base + (j + 1)) = true) :
    s.testBit (p.base + (j + 1)) = true := by
  obtain h | ⟨q, hq, heq, -⟩ := testBit_closure h
  · exact h
  · exact absurd (place_inj hp hq hj (Nat.zero_le _) heq).2 (Nat.succ_ne_zero j)

theorem not_testBit_after_base (hp : p ∈ place 0 0 rules) :
    ((ofRules rules).after x s).testBit p.base ≠ true := by
  intro h
  obtain ⟨q, hq, i, part, hi, -, heq, -⟩ := testBit_after h
  have hlt : i < q.rule.parts.length := (List.getElem?_eq_some_iff.1 hi).1
  have hij := (place_inj (i := 0) hp hq (Nat.zero_le _) (Nat.succ_le_of_lt hlt) heq).2
  exact absurd hij.symm (Nat.succ_ne_zero i)

end Layout

end Yielding.Grammar
