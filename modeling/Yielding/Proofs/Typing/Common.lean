import Yielding.Proofs.Typing.Inferred
import Yielding.Proofs.Typing.Meet

/-!
# Proofs/Typing/Common — the yields of an item have one common type

The check of the yielded types unifies what the body shows one by one, leaves out what is unknown
and goes on after a conflict.  Still its verdict has nothing to do with the order: it is silent
exactly when **one type refines the declared type and everything shown** (`checkYields_eq_nil_iff`).
-/

namespace Yielding.Typing

open Ty

/-! ## Plain spelling survives inference -/

theorem plain_ofName {n : String} (h : isQualified n = false) : (ofName n).Plain :=
  plain_iff.2 ⟨fun _ => ⟨h, rfl⟩, by simp, by simp, by simp⟩

theorem plain_app {n : String} (h : isNumber n = false) {ts : List Ty} (hts : ∀ t ∈ ts, t.Plain) :
    (app n ts).Plain :=
  plain_iff.2 ⟨by simp [h], by simp, hts, by simp⟩

theorem inferable_plain : Inferable Plain where
  basic n hn := by
    have unqualified : ∀ n ∈ basicNames, isQualified n = false := by decide
    exact plain_ofName (unqualified n hn)
  wrap n hn t ts ht hts := by
    have paths : ∀ n ∈ wrapperNames, isNumber n = false := by decide
    exact plain_app (paths n hn) (List.forall_mem_cons.2 ⟨ht, hts⟩)
  tuple ts hts := plain_app (by decide) hts
  iteratorOf t ht := by
    refine plain_app (by decide) (List.forall_mem_singleton.2 ?_)
    have hpath : isNumber "Iterator" = false := by decide
    exact plain_iff.2 ⟨by simp [hpath], by simp, by simp, by simpa using ht⟩
  arg ht ha := plain_iff_throughout.2 ((throughout_iff.1 (plain_iff_throughout.1 ht)).2.1 _ ha)
  binding {t u x} ht hu :=
    plain_iff_throughout.2 ((plain_iff_throughout.1 ht).part (p := .inr x) hu)
  unify ha hb hm := ha.unify hb hm

/-! ## The verdict -/

/-- The check from `current` on is silent exactly when one type that leaves nothing open refines
`current` and everything that is shown. -/
theorem mismatches_eq_nil_iff (file : Option String) (d : Definition) :
    ∀ {os : List Observation} {current : Ty} {fixedAt : Option Region},
      current.Plain → (∀ o ∈ os, o.type.Plain) →
      (mismatches file d current fixedAt os = [] ↔
        ∃ t : Ty, (t.Plain ∧ t.Closed) ∧ t.Refines current ∧
          ∀ o ∈ os, o.type.isUnknown = false → t.Refines o.type)
  | [], current, _, hc, _ => by
    obtain ⟨t, hp, hclosed, hrefines⟩ := exists_refines current hc
    simpa [mismatches] using ⟨t, ⟨hp, hclosed⟩, hrefines⟩
  | o :: os, current, fixedAt, hc, hos => by
    rw [List.forall_mem_cons] at hos
    simp only [List.forall_mem_cons, mismatches]
    split
    · rename_i hu
      simp only [hu, Bool.true_eq_false, false_implies, true_and]
      exact mismatches_eq_nil_iff file d hc hos.2
    · rename_i hu
      rw [Bool.not_eq_true] at hu
      have meet : ∀ t : Ty, t.Plain ∧ t.Closed → (t.Refines current ∧ t.Refines o.type ↔
          ∃ m, current.unify o.type = some m ∧ t.Refines m) := fun t ht =>
        refines_iff ht.2 ht.1.regular hc.regular hos.1.regular
      simp only [hu, true_implies]
      split
      · -- a conflict leaves no type that refines both
        rename_i hnone
        simp only [reduceCtorEq, false_iff, not_exists, not_and]
        intro t ht hct hot
        obtain ⟨m, hm, -⟩ := (meet t ht).1 ⟨hct, hot⟩
        rw [hnone] at hm
        cases hm
      · rename_i merged hmerged
        rw [mismatches_eq_nil_iff file d (hc.unify hos.1 hmerged) hos.2]
        refine exists_congr fun t => and_congr_right fun ht => ?_
        have hboth := meet t ht
        simp only [hmerged, Option.some.injEq, exists_eq_left'] at hboth
        rw [← hboth, and_assoc]

/-- **The yielded types are checked for one common type**, whatever the order of the yields: in an
item whose types are plainly spelled, nothing is reported exactly when a plainly spelled type
refines the declared type and every type shown that is not unknown. -/
theorem checkYields_eq_nil_iff (file : Option String) (d : Definition)
    (h : d.EveryType Ty.Plain) :
    checkYields file d = [] ↔
      ∃ t : Ty, t.Plain ∧ t.unify d.yielded = some t ∧
        ∀ o ∈ observations d, o.type.isUnknown = false → t.unify o.type = some t := by
  have hshown := inferable_plain.observations h
  rw [checkYields, mismatches_eq_nil_iff file d h.yielded hshown]
  constructor
  · rintro ⟨t, ht, hd, hos⟩
    exact ⟨t, ht.1, hd, hos⟩
  · -- What refines the common type refines all that the common type refines.
    rintro ⟨t, ht, hd, hos⟩
    obtain ⟨s, hs, hclosed, hst⟩ := exists_refines t ht
    have fits : ∀ b : Ty, b.Plain → t.unify b = some t → s.Refines b := fun b hb hu =>
      ((refines_iff hclosed hs.regular ht.regular hb.regular).2 ⟨t, hu, hst⟩).2
    exact ⟨s, ⟨hs, hclosed⟩, fits _ h.yielded hd, fun o ho hu => fits _ (hshown o ho) (hos o ho hu)⟩

def narrowing : Definition :=
  let some (value : Expr) : Expr := .call default (.name default "Some") [value]
  let yields (value : Expr) : Stmt := .expr default (.yield default (Option.some value))
  { (default : Definition) with
    name := "f"
    yielded := .option (.ofName "u8")
    body := .mk [
      yields (.name default "None"),
      yields (some (.literal default (.int 1 none))),
      yields (some (.literal default (.int 2 (Option.some "u8"))))] default none }

theorem checkYields_narrowing :
    narrowing.EveryType Ty.Plain ∧ checkYields none narrowing = [] := by
  have hu8 : (ofName "u8").Plain := plain_ofName (by decide)
  have hplain : narrowing.EveryType Ty.Plain := by
    refine ⟨inferable_plain.option hu8, nofun, trivial, ?_⟩
    simp [narrowing, Block.Every, everyStmt, Stmt.Every, Stmt.Declares, Stmt.type?, Expr.EveryType,
      Expr.walk, Expr.walkRow, Expr.suffix?, hu8]
  refine ⟨hplain, (checkYields_eq_nil_iff none narrowing hplain).2 ?_⟩
  exact ⟨.option (.ofName "u8"), inferable_plain.option hu8, by decide, by decide⟩

end Yielding.Typing
