import Mathlib.Data.List.Nodup
import Mathlib.Data.List.Perm.Subperm
import Yielding.Script.Item

/-!
# Proofs/Scoping/Emission — runs that write code

A run that writes code, if it succeeds, is taken apart step by step (`Emits`).  The code of an item
comes from two such runs: the first finds the names that refer to no binding, and the second avoids
them (`itemCode_runs`).
-/

namespace Yielding.Scoping

/-!
## Names that are not taken

The search for an unused name always succeeds (`firstUnused_notMem`).  Names of different make are
told apart by their **tip**, the last character that is no digit of a number at the end: it is `_`
for a numbered binding and `t` for a subject.
-/

open List Script

/-! ## Numbers at the end -/

theorem append_toString_inj {s : String} {i j : Nat} (h : s ++ toString i = s ++ toString j) :
    i = j := by
  have hl : (toString i).toList = (toString j).toList := by
    have hs := congrArg String.toList h
    rw [String.toList_append, String.toList_append] at hs
    exact append_cancel_left hs
  have hv := congrArg (fun cs => Nat.ofDigitChars 10 cs 0) hl
  simpa only [Nat.toString_eq_repr, Nat.toList_repr, Nat.ofDigitChars_ten_toDigits] using hv

theorem isDigit_of_mem_toString {n : Nat} {c : Char} (h : c ∈ (toString n).toList) : c.isDigit := by
  rw [Nat.toString_eq_repr, Nat.toList_repr] at h
  exact Nat.isDigit_of_mem_toDigits (b := 10) (by decide) (by decide) h

/-- The last character of a name before the number at its end. -/
def tip (x : String) : Option Char := (x.toList.reverse.dropWhile Char.isDigit).head?

@[simp]
theorem tip_append_toString (s : String) (n : Nat) : tip (s ++ toString n) = tip s := by
  have h : ∀ c ∈ (toString n).toList.reverse, c.isDigit := fun c hc =>
    isDigit_of_mem_toString (mem_reverse.mp hc)
  rw [tip, tip, String.toList_append, reverse_append, dropWhile_append_of_pos h]

theorem tip_append_underscore (s : String) : tip (s ++ "_") = some '_' := by
  rw [tip, String.toList_append, reverse_append]
  rfl

theorem tip_subjectName (n : Nat) : tip (subjectName n) = some 't' := by
  rw [subjectName, tip_append_toString]
  rfl

/-! ## The first unused name -/

theorem firstUnused_cases (used : List String) (base sep : String) :
    firstUnused used base sep = base ∨
      ∃ k : Nat, firstUnused used base sep = base ++ sep ++ toString k := by
  rw [firstUnused]
  split
  · exact .inl rfl
  · dsimp only
    cases hf : find? _ _ with
    | none => exact .inl rfl
    | some x =>
      obtain ⟨k, -, rfl⟩ := mem_map.mp (mem_of_find?_eq_some hf)
      exact .inr ⟨k + 2, rfl⟩

/-- **The first unused name is unused**: of `n + 1` numbered names, `n` cannot cover all. -/
theorem firstUnused_notMem (used : List String) (base sep : String) :
    firstUnused used base sep ∉ used := by
  rw [firstUnused]
  split
  · next h => simpa using h
  · dsimp only
    cases hf : find? _ _ with
    | some x => simpa using find?_some hf
    | none =>
      exfalso
      have hall := find?_eq_none.mp hf
      have hsub : (range (used.length + 1)).map (fun k => base ++ sep ++ toString (k + 2)) ⊆
          used := fun x hx => by simpa using hall x hx
      have hnodup : ((range (used.length + 1)).map
          fun k => base ++ sep ++ toString (k + 2)).Nodup := by
        refine Nodup.map (fun i j hij => ?_) nodup_range
        have := append_toString_inj hij
        omega
      have hle := (subperm_of_subset hnodup hsub).length_le
      rw [length_map, length_range] at hle
      omega

/-! ## Names of bindings -/

/-- What a name of the generated function must not be. -/
structure Legal (x : String) : Prop where
  notReserved : isReserved x = false
  notSubject : ∀ n, x ≠ subjectName n

theorem isReserved_iff {x : String} : isReserved x = true ↔ x ∈ keywords ++ builtins := by
  rw [isReserved, Bool.or_eq_true, contains_iff_mem, contains_iff_mem, mem_append]

theorem tip_of_isReserved {x : String} (h : isReserved x = true) : tip x ≠ some '_' := by
  have hall : ∀ y ∈ keywords ++ builtins, tip y ≠ some '_' := by decide
  exact hall x (isReserved_iff.mp h)

theorem legal_of_tip {x : String} (h : tip x = some '_') : Legal x where
  notReserved := by
    by_contra hr
    exact tip_of_isReserved (by simpa using hr) h
  notSubject n hn := by
    rw [hn, tip_subjectName] at h
    exact absurd h (by decide)

/-! ## Names of subjects -/

theorem subjectName_notReserved (n : Nat) : isReserved (subjectName n) = false := by
  have hall : ∀ y ∈ keywords ++ builtins, ¬"__subject".toList <+: y.toList := by decide
  by_contra hr
  refine hall (subjectName n) (isReserved_iff.mp (by simpa using hr)) ?_
  rw [subjectName, String.toList_append]
  exact prefix_append _ _

end Yielding.Scoping

namespace Yielding.Scoping

/-! ## Runs that write code -/

open List Script

/-! ## Runs that succeed -/

section Runs

variable {σ α β : Type} {s s' : σ} {a : α} {b : β}

/-- The generation of code succeeds, with the given result and state. -/
def Emits (act : Emit σ α) (s : σ) (a : α) (s' : σ) : Prop := act.run s = .ok (a, s')

theorem emits_pure {c : α} : Emits (pure c) s a s' ↔ c = a ∧ s = s' := by
  show Except.ok (c, s) = .ok (a, s') ↔ _
  rw [Except.ok.injEq, Prod.mk.injEq]

theorem bind_eq_ok {ε : Type} {x : Except ε α} {f : α → Except ε β} :
    x >>= f = .ok b ↔ ∃ a, x = .ok a ∧ f a = .ok b := by
  cases x with
  | error e => exact ⟨nofun, nofun⟩
  | ok a =>
    constructor
    · intro h
      exact ⟨a, rfl, h⟩
    · rintro ⟨c, hc, h⟩
      obtain rfl := Except.ok.inj hc
      exact h

theorem emits_bind {act : Emit σ α} {f : α → Emit σ β} :
    Emits (act >>= f) s b s' ↔ ∃ a t, Emits act s a t ∧ Emits (f a) t b s' := by
  rw [Emits, StateT.run_bind, bind_eq_ok, Prod.exists]
  rfl

theorem emits_modifyGet {f : σ → α × σ} : Emits (modifyGet f) s a s' ↔ f s = (a, s') := by
  show Except.ok (f s) = .ok (a, s') ↔ _
  rw [Except.ok.injEq]

theorem emits_modify {f : σ → σ} {u : PUnit} : Emits (modify f) s u s' ↔ f s = s' := by
  show Except.ok (PUnit.unit, f s) = .ok (u, s') ↔ _
  rw [Except.ok.injEq, Prod.mk.injEq]
  exact and_iff_right rfl

theorem emits_get {t : σ} : Emits get s t s' ↔ s = t ∧ s = s' := by
  show Except.ok (s, s) = .ok (t, s') ↔ _
  rw [Except.ok.injEq, Prod.mk.injEq]

theorem not_emits_throw {f : Failure} : ¬Emits (throw f : Emit σ α) s a s' := nofun

theorem emits_within {N : Naming σ} {isBarrier : Bool} {act : Emit σ α} :
    Emits (within N isBarrier act) s a s' ↔
      ∃ t, Emits act (N.push isBarrier s) a t ∧ N.pop t = s' := by
  simp only [within, emits_bind, emits_modify, emits_pure]
  constructor
  · rintro ⟨_, _, rfl, a, t, h, _, _, rfl, rfl, rfl⟩
    exact ⟨t, h, rfl⟩
  · rintro ⟨t, h, rfl⟩
    exact ⟨⟨⟩, _, rfl, a, t, h, ⟨⟩, _, rfl, rfl, rfl⟩

end Runs

/-! ## Frames -/

theorem any_eq_isSome_lookup (entries : List (String × Binding)) (name : String) :
    (entries.any fun e => e.1 == name) = (entries.lookup name).isSome := by
  rw [Bool.eq_iff_iff, any_eq_true, lookup_isSome_iff]
  simp only [beq_iff_eq, eq_comm (a := name)]

theorem lookup_replace (entries : List (String × Binding)) (name : String) (b : Binding)
    (x : String) : (entries.map fun e => if e.1 == name then (name, b) else e).lookup x =
      if x = name then (entries.lookup x).map fun _ => b else entries.lookup x := by
  induction entries with
  | nil => simp
  | cons e es ih =>
    rw [map_cons, lookup_cons, lookup_cons, ih]
    by_cases hx : x = e.1
    · by_cases he : e.1 = name <;> simp [hx, he]
    · by_cases he : e.1 = name
      · simp [beq_false_of_ne hx, ← he, hx]
      · simp [beq_false_of_ne hx, he]

theorem lookup_put (f : Frame) (name : String) (b : Binding) (x : String) :
    (f.put name b).entries.lookup x = if x = name then some b else f.entries.lookup x := by
  rw [Frame.put, any_eq_isSome_lookup]
  split
  · next h =>
    rw [lookup_replace]
    obtain ⟨c, hc⟩ := Option.isSome_iff_exists.mp h
    by_cases hx : x = name
    · rw [if_pos hx, if_pos hx, hx, hc, Option.map_some]
    · rw [if_neg hx, if_neg hx]
  · next h =>
    rw [lookup_append, lookup_cons, lookup_nil]
    by_cases hx : x = name
    · rw [if_pos hx, hx, Option.not_isSome_iff_eq_none.mp h, beq_self_eq_true, Option.none_or]
    · rw [if_neg hx, beq_false_of_ne hx, Option.or_none]

theorem mem_of_lookup {Γ : List (String × Binding)} {x : String} {b : Binding}
    (h : Γ.lookup x = some b) : (x, b) ∈ Γ := by
  obtain ⟨Γ₁, Γ₂, rfl, -⟩ := lookup_eq_some_iff.mp h
  exact mem_append_right _ mem_cons_self

/-! ## Patterns -/

theorem patternCase_tuple {σ : Type} (N : Naming σ) (r : Region) (p : Pattern) (ps : List Pattern) :
    patternCase N (.tuple r (p :: ps)) = do return .tuple (← rowCases N (p :: ps)) := by
  simp only [patternCase, rowCases, bind_assoc, pure_bind]

/-! ## Items -/

/-- The subjects with the numbers up to `n`. -/
def subjectNames (n : Nat) : List String := (range n).map fun i => subjectName (i + 1)

/-- The hint of the values that an item yields. -/
def valueHint (d : Definition) : String := d.yielded.hint (d.generics.map GenericParam.name)

theorem itemCode_runs {d : Definition} {className : String} {code : List Code}
    (h : itemCode d className = .ok code) :
    ∃ first found function ns',
      Emits (emitFunction byScope d className (valueHint d)) (.start []) first found ∧
      Emits (emitFunction byScope d className (valueHint d)) (.start found.free) function ns' ∧
      code = [wrapper d className (valueHint d), .line .blank, .line .blank, function] := by
  rw [itemCode] at h
  obtain ⟨⟨first, found⟩, hdry, h⟩ := bind_eq_ok.mp h
  obtain ⟨⟨function, ns'⟩, hrun, h⟩ := bind_eq_ok.mp h
  exact ⟨first, found, function, ns', hdry, hrun, (Except.ok.inj h).symm⟩

def number (name : String) : Param := ⟨name, .typed (.ofName "i32"), default, false⟩

end Yielding.Scoping
