import Yielding.Proofs.Typing.Inferred
import Yielding.Proofs.Typing.Meet
import Yielding.Script.Hint

/-!
# Proofs/Typing/Whole — types that can be written down

The text of a reference or slice is made from the text of what it is a reference to or slice of.  A
type is **whole** when none inside lacks that argument: it has a text in source syntax and a hint.
Inference keeps types whole (`inferable_whole`).
-/

namespace Yielding.Ty

open Option

def aroundNames : List String := ["&", "&mut", "[]"]

variable {n : String}

theorem not_mem_aroundNames {c : Char} (hn : n.toList.head? = some c) (hc : c ∉ ['&', '[']) :
    n ∉ aroundNames := by
  have hsigns : ∀ name ∈ aroundNames, name.toList.head?.all (['&', '['].contains ·) := by decide
  intro hmem
  have hsign := hsigns n hmem
  rw [hn] at hsign
  exact hc (List.contains_iff_mem.1 hsign)

mutual

/-- No reference or slice inside the type lacks its argument. -/
def Whole : Ty → Prop
  | mk name args bindings =>
    (name ∈ aroundNames → args ≠ []) ∧ WholeRow args ∧ WholeBindings bindings

def WholeRow : List Ty → Prop
  | [] => True
  | t :: ts => t.Whole ∧ WholeRow ts

def WholeBindings : List (String × Ty) → Prop
  | [] => True
  | (_, t) :: bs => t.Whole ∧ WholeBindings bs

end

theorem wholeRow_iff : ∀ {ts : List Ty}, WholeRow ts ↔ ∀ t ∈ ts, t.Whole
  | [] => by simp [WholeRow]
  | t :: ts => by simp [WholeRow, @wholeRow_iff ts]

theorem wholeBindings_iff : ∀ {bs : List (String × Ty)}, WholeBindings bs ↔ ∀ b ∈ bs, b.2.Whole
  | [] => by simp [WholeBindings]
  | (n, t) :: bs => by simp [WholeBindings, @wholeBindings_iff bs]

theorem whole_iff {as : List Ty} {bs : List (String × Ty)} : (mk n as bs).Whole ↔
      (n ∈ aroundNames → as ≠ []) ∧ (∀ a ∈ as, a.Whole) ∧ ∀ b ∈ bs, b.2.Whole := by
  rw [Whole, wholeRow_iff, wholeBindings_iff]

theorem whole_app {t : Ty} {ts : List Ty} (ht : t.Whole) (hts : ∀ u ∈ ts, u.Whole) :
    (app n (t :: ts)).Whole :=
  whole_iff.2 ⟨fun _ => List.cons_ne_nil t ts, List.forall_mem_cons.2 ⟨ht, hts⟩, nofun⟩

theorem whole_path {ts : List Ty} {bs : List (String × Ty)} (hn : n ∉ aroundNames)
    (hts : ∀ t ∈ ts, t.Whole) (hbs : ∀ b ∈ bs, b.2.Whole) : (mk n ts bs).Whole :=
  whole_iff.2 ⟨fun h => absurd h hn, hts, hbs⟩

theorem whole_ofName (hn : n ∉ aroundNames) : (ofName n).Whole :=
  whole_path hn nofun nofun

theorem whole_iff_throughout {t : Ty} :
    t.Whole ↔ t.Throughout fun t => t.name ∈ aroundNames → t.args ≠ [] := by
  induction t using induct_parts with
  | step n as bs ihas ihbs =>
    rw [whole_iff, throughout_iff, args_mk, bindings_mk, ← forall₂_congr ihas, ← forall₂_congr ihbs]
    rfl

theorem Whole.args {t u : Ty} (h : t.Whole) (hu : u ∈ t.args) : u.Whole :=
  whole_iff_throughout.2 ((throughout_iff.1 (whole_iff_throughout.1 h)).2.1 u hu)

theorem Whole.binding {t u : Ty} (h : t.Whole) (hu : t.binding? n = some u) : u.Whole :=
  whole_iff_throughout.2 ((whole_iff_throughout.1 h).part (p := .inr n) hu)

/-! ## Texts and hints -/

theorem mem_aroundNames_of_ref (h : (n = "&" || n = "&mut") = true) : n ∈ aroundNames := by
  simp only [Bool.or_eq_true, decide_eq_true_eq] at h
  simp only [aroundNames, List.mem_cons]
  tauto

mutual

theorem isSome_format : ∀ {t : Ty}, t.Whole → t.format?.isSome
  | mk name args bindings, h => by
    have hargs := isSome_formatArgs h.2.1
    have hbindings := isSome_formatBindings h.2.2
    rw [isSome_iff_exists] at hargs hbindings
    obtain ⟨parts, hparts⟩ := hargs
    obtain ⟨bound, hbound⟩ := hbindings
    unfold format?
    split
    · next hname =>
      cases args with
      | nil => exact absurd rfl (h.1 (mem_aroundNames_of_ref hname))
      | cons t ts => simpa using isSome_format h.2.1.1
    · split
      · rfl
      · split
        · simp [hparts]
        · split
          · next hname =>
            cases args with
            | nil => exact absurd rfl (h.1 (by simp [hname, aroundNames]))
            | cons t ts => simpa using isSome_format h.2.1.1
          · split
            · simp [hparts]
            · simp only [hparts, hbound, bind_eq_bind, bind_some]
              split <;> rfl

theorem isSome_formatArgs : ∀ {ts : List Ty}, WholeRow ts → (formatArgs? ts).isSome
  | [], _ => rfl
  | t :: ts, h => by
    obtain ⟨s, hs⟩ := isSome_iff_exists.1 (isSome_format h.1)
    obtain ⟨parts, hparts⟩ := isSome_iff_exists.1 (isSome_formatArgs h.2)
    simp [formatArgs?, hs, hparts]

theorem isSome_formatBindings : ∀ {bs : List (String × Ty)}, WholeBindings bs →
    (formatBindings? bs).isSome
  | [], _ => rfl
  | (n, t) :: bs, h => by
    obtain ⟨s, hs⟩ := isSome_iff_exists.1 (isSome_format h.1)
    obtain ⟨parts, hparts⟩ := isSome_iff_exists.1 (isSome_formatBindings h.2)
    simp [formatBindings?, hs, hparts]

end

mutual

theorem isSome_hint (generics : List String) : ∀ {t : Ty}, t.Whole → (t.hint? generics).isSome
  | mk name args bindings, h => by
    obtain ⟨parts, hparts⟩ := isSome_iff_exists.1 (isSome_hints generics h.2.1)
    unfold hint?
    split
    · rfl
    · split
      · next hname =>
        cases args with
        | nil => exact absurd rfl (h.1 (mem_aroundNames_of_ref hname))
        | cons t ts => exact isSome_hint generics h.2.1.1
      · split
        · rfl
        · split
          · simp [hparts]
          · split
            · next hname =>
              cases args with
              | nil => exact absurd rfl (h.1 (by simp [hname, aroundNames]))
              | cons t ts => simpa using isSome_hint generics h.2.1.1
            · split
              · exact isSome_boundsHint generics h.2.1
              · simp [hparts]

theorem isSome_hints (generics : List String) : ∀ {ts : List Ty}, WholeRow ts →
    (hints? generics ts).isSome
  | [], _ => rfl
  | t :: ts, h => by
    obtain ⟨s, hs⟩ := isSome_iff_exists.1 (isSome_hint generics h.1)
    obtain ⟨parts, hparts⟩ := isSome_iff_exists.1 (isSome_hints generics h.2)
    simp [hints?, hs, hparts]

theorem isSome_boundsHint (generics : List String) : ∀ {ts : List Ty}, WholeRow ts →
    (boundsHint? generics ts).isSome
  | [], _ => rfl
  | mk _ _ bindings :: ts, h => by
    rw [boundsHint?]
    split
    · next hint hhint => simpa using isSome_itemHint generics h.1.2.2 hhint
    · exact isSome_boundsHint generics h.2

theorem isSome_itemHint (generics : List String) :
    ∀ {bs : List (String × Ty)} {hint : Option String},
    WholeBindings bs → itemHint? generics bs = some hint → hint.isSome
  | [], _, _, hhint => by cases hhint
  | (n, t) :: bs, hint, h, hhint => by
    rw [itemHint?] at hhint
    split at hhint
    · cases hhint
      exact isSome_hint generics h.1
    · exact isSome_itemHint generics h.2 hhint

end

/-! ## Inference -/

theorem Whole.unify {a b m : Ty} (ha : a.Whole) (hb : b.Whole) (h : a.unify b = some m) :
    m.Whole := by
  rw [whole_iff_throughout] at *
  refine Throughout.unify (fun hm ha _ hn => ?_) a ha hb h
  rw [← List.length_pos_iff, hm.lengths.2, List.length_pos_iff]
  exact ha (hm.name ▸ hn)

theorem inferable_whole : Inferable Whole where
  basic n hn := by
    have apart : ∀ n ∈ basicNames, n ∉ aroundNames := by decide
    exact whole_ofName (apart n hn)
  wrap n _ t ts ht hts := whole_app ht hts
  tuple ts hts := whole_path (by decide) hts nofun
  iteratorOf t ht :=
    whole_app (whole_path (by decide) nofun (List.forall_mem_singleton.2 ht)) nofun
  arg h ha := h.args ha
  binding h hu := h.binding hu
  unify ha hb hm := ha.unify hb hm

end Yielding.Ty
