import Mathlib.Data.List.Forall2
import Mathlib.Data.List.Perm.Basic
import Yielding.Proofs.Typing.Meet

/-!
# Proofs/Typing/Algebra — the laws of unification

Unification is a partial operation on types.  On types in which no name is bound twice and no number
type is written with a crate it is idempotent, commutative and associative (`unify_algebra`); where
one side of a law fails, so does the other.  Commutativity holds up to what unification does not
compare (`Alike`): the result keeps the spelling and the order of the first type, and of two types
that leave the same thing open it takes one as it is.
-/

namespace Yielding.Ty

open Option List

/-! ## Plain spelling -/

def isNumeric (name : String) : Bool := isNumber name || (family? (canonicalName name)).isSome

/-- No name is bound twice by a type inside, and no number type and no literal class inside has
arguments or is written with a crate. -/
def Unadorned (t : Ty) : Prop :=
  t.Throughout fun t => (t.bindings.map Prod.fst).Nodup ∧
    (isNumeric t.name → t.args = [] ∧ isQualified t.name = false)

theorem Unadorned.regular (t : Ty) : t.Unadorned → t.Regular :=
  .imp (fun t ht => ⟨ht.1, fun hn => (ht.2 (by rw [isNumeric, hn, Bool.true_or])).2⟩) t

/-! ## Commutativity -/

/-- The name leaves open what type it stands for. -/
def LeavesOpen (name : String) : Prop := name = "_" ∨ (family? name).isSome

/-- The types are the same up to the spelling of names, the order of bindings, and whatever follows
a name that is `loose`. -/
inductive Alike (loose : String → Prop) : Ty → Ty → Prop
  | loosely {n : String} {as as' : List Ty} {bs bs' : List (String × Ty)} (h : loose n) :
    Alike loose (mk n as bs) (mk n as' bs')
  | path {n m : String} {as as' : List Ty} {bs cs bs' : List (String × Ty)}
    (hname : canonicalName n = canonicalName m) (hargs : Forall₂ (Alike loose) as as')
    (hperm : bs.Perm cs) (hkeys : cs.map Prod.fst = bs'.map Prod.fst)
    (hbindings : Forall₂ (fun p q => Alike loose p.2 q.2) cs bs') :
    Alike loose (mk n as bs) (mk m as' bs')

/-- A type inside that leaves something open is a bare name, unless its name is `loose`. -/
def Bare (loose : String → Prop) (t : Ty) : Prop :=
  t.Throughout fun t => LeavesOpen t.name → loose t.name ∨ t.args = [] ∧ t.bindings = []

section Commutative

variable {loose : String → Prop}

theorem Alike.refl (t : Ty) : Alike loose t t := by
  induction t using induct_parts with
  | step n as bs ihas ihbs =>
    exact .path rfl (forall₂_same.2 ihas) (.refl bs) rfl (forall₂_same.2 ihbs)

theorem alike_of_leavesOpen {a b : Ty} (ha : a.Bare loose) (hb : b.Bare loose)
    (hname : a.name = b.name) (hopen : LeavesOpen a.name) : Alike loose a b := by
  have ha' := (throughout_iff.1 ha).1 hopen
  have hb' := (throughout_iff.1 hb).1 (hname ▸ hopen)
  obtain ⟨n, as, bs⟩ := a
  obtain ⟨m, as', bs'⟩ := b
  obtain rfl : n = m := hname
  rcases ha' with hloose | ⟨rfl, rfl⟩
  · exact .loosely hloose
  · rcases hb' with hloose | ⟨rfl, rfl⟩
    · exact .loosely hloose
    · exact .refl _

theorem isSome_congr {α β : Type} {R : α → β → Prop} {o : Option α} {o' : Option β}
    (h : Rel R o o') : o.isSome = o'.isSome := by
  cases h <;> rfl

/-- Unifying the two types in either order gives the like, or nothing. -/
def Commutes (loose : String → Prop) (a b : Ty) : Prop :=
  Rel (Alike loose) (a.unify b) (b.unify a)

theorem meetPart_comm {o o' : Option Ty} (h : ∀ t ∈ o, ∀ u ∈ o', Commutes loose t u) :
    Rel (Rel (Alike loose)) (meetPart o o') (meetPart o' o) := by
  cases o with
  | none =>
    cases o' with
    | none => exact .some .none
    | some u => exact .some (.some (.refl u))
  | some t =>
    cases o' with
    | none => exact .some (.some (.refl t))
    | some u =>
      have htu : Commutes loose t u := h t rfl u rfl
      rw [Commutes] at htu
      simp only [meetPart_some]
      generalize t.unify u = m, u.unify t = m' at htu
      cases htu with
      | none => exact .none
      | some hm => exact .some (.some hm)

theorem alike_of_merged {a b m m' : Ty} (hka : a.keys.Nodup) (hkb : b.keys.Nodup)
    (hpart : ∀ p, ∀ t ∈ a.piece? p, ∀ u ∈ b.piece? p, Commutes loose t u)
    (hm : Merged a b m) (hm' : Merged b a m') : Alike loose m m' := by
  have part : ∀ p, Rel (Alike loose) (m.piece? p) (m'.piece? p) := by
    intro p
    have hp := meetPart_comm (hpart p)
    rw [hm.part, hm'.part] at hp
    cases hp with
    | some hp => exact hp
  have binding : ∀ x, Rel (Alike loose) (m.binding? x) (m'.binding? x) := fun x => part (.inr x)
  have hkeys : m.keys.Perm m'.keys :=
    (perm_ext_iff_of_nodup (hm.nodup hka hkb) (hm'.nodup hkb hka)).2 fun x => by
      rw [← isSome_binding_iff, ← isSome_binding_iff, isSome_congr (binding x)]
  have hname : canonicalName m.name = canonicalName m'.name := by
    rw [hm.name, hm'.name, hm.canonical]
  have hperm := hkeys.map fun x => (x, (m.binding? x).getD default)
  rw [hm.coherent.map_binding] at hperm
  have hargs : Forall₂ (Alike loose) m.args m'.args := by
    refine forall₂_iff_get.2 ⟨by rw [hm.lengths.2, hm'.lengths.2, hm.lengths.1], fun i hi hi' => ?_⟩
    have hrel : Rel (Alike loose) m.args[i]? m'.args[i]? := part (.inl i)
    rw [getElem?_eq_getElem hi, getElem?_eq_getElem hi'] at hrel
    cases hrel with
    | some hrel => exact hrel
  have hvalues : Forall₂ (fun p q => Alike loose p.2 q.2)
      (m'.keys.map fun x => (x, (m.binding? x).getD default)) m'.bindings := by
    rw [← hm'.coherent.map_binding, forall₂_map_left_iff, forall₂_map_right_iff]
    refine forall₂_same.2 fun x _ => ?_
    have hx := binding x
    dsimp only
    generalize m.binding? x = o, m'.binding? x = o' at hx ⊢
    cases hx with
    | none => exact .refl _
    | some hx => exact hx
  obtain ⟨n, as, bs⟩ := m
  obtain ⟨n', as', bs'⟩ := m'
  exact .path hname hargs hperm (by simp [Function.comp_def]) hvalues

theorem commutes_families {a b : Ty} (ha : a.Bare loose) (hb : b.Bare loose)
    {family family' : List String} (haf : family? a.name = some family)
    (hbf : family? b.name = some family') : Commutes loose a b := by
  rw [Commutes, unify_family_left haf (ne_unknown_of_family? hbf),
    unify_family_left hbf (ne_unknown_of_family? haf)]
  by_cases hname : b.name = a.name
  · rw [if_pos (.inl hname), if_pos (.inl hname.symm)]
    exact .some (alike_of_leavesOpen hb ha hname (.inr (by rw [hbf]; rfl)))
  · rw [if_neg (not_or.2 ⟨hname, not_mem_family haf hbf⟩),
      if_neg (not_or.2 ⟨Ne.symm hname, not_mem_family hbf haf⟩)]
    exact .none

theorem unify_family_comm {a b : Ty} {family : List String} (haf : family? a.name = some family)
    (hb : b.IsPath) : a.unify b = b.unify a := by
  have hname : b.name ≠ a.name := by
    intro he
    rw [← he, hb.solid] at haf
    cases haf
  rw [unify_family_left haf hb.known, unify_family_right hb.known hb.solid haf]
  simp only [hname, false_or]

theorem commutes_of_eq {a b : Ty} (h : a.unify b = b.unify a) : Commutes loose a b := by
  rw [Commutes, h]
  cases b.unify a with
  | none => exact .none
  | some m => exact .some (.refl m)

theorem commutes_path {a b : Ty} (hpa : a.IsPath) (hpb : b.IsPath) (hka : a.keys.Nodup)
    (hkb : b.keys.Nodup) (hpart : ∀ p, ∀ t ∈ a.piece? p, ∀ u ∈ b.piece? p, Commutes loose t u) :
    Commutes loose a b := by
  have part := fun p => isSome_congr (meetPart_comm (hpart p))
  rw [Commutes]
  cases hm : a.unify b with
  | some m =>
    have hmerged := merged_of_unify hpa hpb hm
    obtain ⟨m', hm'⟩ :=
        exists_unify hpb hpa hmerged.canonical.symm hmerged.lengths.1.symm fun p => by
      rw [← part, hmerged.part]
      rfl
    rw [hm']
    exact .some (alike_of_merged hka hkb hpart hmerged (merged_of_unify hpb hpa hm'))
  | none =>
    cases hm' : b.unify a with
    | none => exact .none
    | some m' =>
      have hmerged := merged_of_unify hpb hpa hm'
      obtain ⟨m, hm''⟩ :=
          exists_unify hpa hpb hmerged.canonical.symm hmerged.lengths.1.symm fun p => by
        rw [part, hmerged.part]
        rfl
      rw [hm] at hm''
      cases hm''

/-- **Unification is commutative** up to what it does not compare. -/
theorem unify_comm (a : Ty) : a.Regular → a.Bare loose →
    ∀ {b : Ty}, b.Regular → b.Bare loose → Commutes loose a b := by
  induction a using induct_piece? with
  | step a ih =>
    intro ha hla b hb hlb
    by_cases hna : a.name = "_" <;> by_cases hnb : b.name = "_"
    · rw [Commutes, unify_unknown_left hna, unify_unknown_left hnb]
      exact .some (alike_of_leavesOpen hlb hla (hnb.trans hna.symm) (.inl hnb))
    · exact commutes_of_eq (by rw [unify_unknown_left hna, unify_unknown_right hnb hna])
    · exact commutes_of_eq (by rw [unify_unknown_left hnb, unify_unknown_right hna hnb])
    cases haf : family? a.name with
    | some family =>
      cases hbf : family? b.name with
      | some family' => exact commutes_families hla hlb haf hbf
      | none => exact commutes_of_eq (unify_family_comm haf ⟨hnb, hbf⟩)
    | none =>
      cases hbf : family? b.name with
      | some family => exact commutes_of_eq (unify_family_comm hbf ⟨hna, haf⟩).symm
      | none =>
        exact commutes_path ⟨hna, haf⟩ ⟨hnb, hbf⟩ (throughout_iff.1 ha).1.1
          (throughout_iff.1 hb).1.1
          fun p t ht u hu => ih p t ht (ha.part ht) (hla.part ht) (hb.part hu) (hlb.part hu)

end Commutative

theorem bare_leavesOpen (t : Ty) : t.Bare LeavesOpen := by
  induction t using induct_parts with
  | step n as bs ihas ihbs => exact throughout_iff.2 ⟨.inl, ihas, ihbs⟩

/-! ## The laws -/

/-- **Unification is a partial meet operation.**  A type unified with itself is itself.  Two types
unify in both orders or in neither, to types that differ in the spelling of names and the order of
bindings only, where all that leave something open are bare names; else also in what those carry.
Three types unify to the same type whichever two come first. -/
theorem unify_algebra {a b c : Ty} (ha : a.Unadorned) (hb : b.Unadorned) (hc : c.Unadorned) :
    a.unify a = some a ∧
      Option.Rel (Alike LeavesOpen) (a.unify b) (b.unify a) ∧
      (a.Bare (fun _ => False) → b.Bare (fun _ => False) →
        Option.Rel (Alike fun _ => False) (a.unify b) (b.unify a)) ∧
      (a.unify b).bind (·.unify c) = (b.unify c).bind a.unify :=
  have ha := ha.regular
  have hb := hb.regular
  ⟨unify_self a ha, unify_comm a ha (bare_leavesOpen a) hb (bare_leavesOpen b),
    fun hla hlb => unify_comm a ha hla hb hlb, unify_assoc a ha hb hc.regular⟩

theorem unify_algebra_vec :
    let a := mk "std::vec::Vec" [unknown] [("Key", string), ("Item", ofName intLiteral)]
    let b := mk "Vec" [option (ofName "u8")] [("Item", unknown), ("Size", usize)]
    let c := mk "alloc::Vec" [unknown] [("Item", ofName "i64"), ("Key", unknown)]
    let m := mk "std::vec::Vec" [option (ofName "u8")]
      [("Key", string), ("Item", ofName "i64"), ("Size", usize)]
    (a.Unadorned ∧ b.Unadorned ∧ c.Unadorned) ∧ a.Bare (fun _ => False) ∧ b.Bare (fun _ => False) ∧
      (a.unify b).bind (·.unify c) = some m ∧ (b.unify c).bind a.unify = some m ∧
      Option.Rel (Alike fun _ => False) (a.unify b) (b.unify a) := by
  intro a b c m
  have plain : a.Unadorned ∧ b.Unadorned ∧ c.Unadorned := by
    simp +decide [a, b, c, Unadorned, Throughout, ThroughoutRow, ThroughoutBindings,
      unknown, string, usize, option, app, ofName]
  have bare : a.Bare (fun _ => False) ∧ b.Bare (fun _ => False) := by
    simp +decide [a, b, Bare, LeavesOpen, Throughout, ThroughoutRow, ThroughoutBindings, unknown,
      string, usize, option, app, ofName]
  obtain ⟨-, -, hcomm, hassoc⟩ := unify_algebra plain.1 plain.2.1 plain.2.2
  have hm : (a.unify b).bind (·.unify c) = some m := by decide
  exact ⟨plain, bare.1, bare.2, hm, hassoc ▸ hm, hcomm bare.1 bare.2⟩

/-- What an unknown type carries depends on the order: of two unknown types the second is the
result. -/
theorem unify_unknown_applied :
    let a := app "_" [ofName "u8"]
    (a.Unadorned ∧ unknown.Unadorned) ∧
      ¬Option.Rel (Alike fun _ => False) (a.unify unknown) (unknown.unify a) := by
  intro a
  refine ⟨by simp +decide [a, Unadorned, Throughout, ThroughoutRow, ThroughoutBindings,
    unknown, app, ofName], fun h => ?_⟩
  have hleft : a.unify unknown = some (mk "_" [] []) := unify_unknown_left rfl unknown
  have hright : unknown.unify a = some (mk "_" [ofName "u8"] []) := unify_unknown_left rfl a
  rw [hleft, hright] at h
  cases h with
  | some h =>
    cases h with
    | loosely h => exact h
    | path _ hargs => cases hargs

end Yielding.Ty
