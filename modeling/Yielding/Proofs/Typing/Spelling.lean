import Yielding.Proofs.Typing.Meet

/-!
# Proofs/Typing/Spelling — types and how their names are spelled

Two types are the same up to spelling if they are equal once every name in them is **canonical**.
Then the elements that a loop over them goes through are the same up to spelling too, but for one
thing: a reference to a `Vec` **lends** its elements only if the `Vec` is named by that word
(`elementType_spelling`).
-/

namespace Yielding.Ty

open List

mutual

/-- The type with all its names in canonical form. -/
def canonical : Ty → Ty
  | mk n as bs => mk (canonicalName n) (canonicalRow as) (canonicalBindings bs)

def canonicalRow : List Ty → List Ty
  | [] => []
  | t :: ts => t.canonical :: canonicalRow ts

def canonicalBindings : List (String × Ty) → List (String × Ty)
  | [] => []
  | (x, t) :: bs => (x, t.canonical) :: canonicalBindings bs

end

/-- Whether a loop over a reference to the type goes through references: the type is a `Vec` or a
slice, by their own names, of known elements. -/
def lendsElements (t : Ty) : Bool :=
  (t.name = "Vec" || t.name = "[]") && !t.elementType.isUnknown

/-- Whether a loop over the type goes through references that the references at its front do not
hold. -/
def lends : Ty → Bool
  | mk _ [] _ => false
  | mk n (inner :: _) _ => (n = "&" || n = "&mut") && (inner.lendsElements || inner.lends)

/-- No reference inside the type is written with a crate. -/
def PlainRefs (t : Ty) : Prop :=
  t.Throughout fun t => canonicalName t.name = "&" ∨ canonicalName t.name = "&mut" →
    t.name = canonicalName t.name

/-! ## Canonical types -/

theorem canonicalRow_eq (ts : List Ty) : canonicalRow ts = ts.map canonical := by
  induction ts with
  | nil => rfl
  | cons t ts ih => rw [canonicalRow, ih, map_cons]

theorem lookup_canonicalBindings (x : String) (bs : List (String × Ty)) :
    (canonicalBindings bs).lookup x = (bs.lookup x).map canonical := by
  induction bs with
  | nil => rfl
  | cons b bs ih =>
    rw [canonicalBindings, lookup_cons, lookup_cons]
    cases x == b.1 with
    | true => rfl
    | false => exact ih

theorem binding?_canonical (t : Ty) (x : String) :
    t.canonical.binding? x = (t.binding? x).map canonical := by
  obtain ⟨n, as, bs⟩ := t
  exact lookup_canonicalBindings x bs

theorem boundItem?_canonical (ts : List Ty) :
    boundItem? (ts.map canonical) = (boundItem? ts).map canonical := by
  induction ts with
  | nil => rfl
  | cons t ts ih =>
    rw [boundItem?, boundItem?, map_cons, findSome?_cons, findSome?_cons, binding?_canonical]
    cases t.binding? "Item" with
    | some item => rfl
    | none => exact ih

theorem canonical_ne_ref (n : String) (t : Ty) : (app n [t]).canonical ≠ t.canonical := by
  intro h
  have hsize := congrArg sizeOf h
  simp only [app, canonical, canonicalRow, canonicalBindings, mk.sizeOf_spec,
    cons.sizeOf_spec] at hsize
  omega

/-! ## Elements -/

/-- The elements of a type that is no reference, by its canonical name. -/
def elementOf (name : String) : List Ty → Ty
  | [] => unknown
  | t :: ts =>
    if ["Range", "RangeInclusive", "Vec", "[]", "VecDeque", "Option"].contains name then t
    else if name = "impl" then (boundItem? (t :: ts)).getD unknown
    else unknown

theorem elementOf_canonical (name : String) (ts : List Ty) :
    (elementOf name ts).canonical = elementOf name (ts.map canonical) := by
  have hunknown : unknown.canonical = unknown := by decide
  cases ts with
  | nil => exact hunknown
  | cons t ts =>
    rw [elementOf, map_cons, elementOf, ← map_cons, boundItem?_canonical]
    split
    · rfl
    · split
      · cases boundItem? (t :: ts) with
        | some item => rfl
        | none => exact hunknown
      · exact hunknown

variable {t : Ty} {n : String} {as : List Ty} {bs : List (String × Ty)}

theorem elementType_of_not_isRef (h : (mk n as bs).isRef = false) :
    (mk n as bs).elementType = elementOf (canonicalName n) as := by
  have hn : (decide (n = "&") || decide (n = "&mut")) = false := by simpa [isRef] using h
  cases as <;> simp [elementType, hn, elementOf]

theorem elementType_ref (h : (mk n (t :: as) bs).isRef = true) :
    (mk n (t :: as) bs).elementType =
      if t.lendsElements then app n [t.elementType] else t.elementType := by
  have hn : (decide (n = "&") || decide (n = "&mut")) = true := by simpa [isRef] using h
  simp [elementType, hn, lendsElements]

theorem lends_of_not_isRef (h : t.isRef = false) : t.lends = false := by
  obtain ⟨n, _ | ⟨inner, as⟩, bs⟩ := t
  · rfl
  · have hn : (decide (n = "&") || decide (n = "&mut")) = false := by simpa [isRef] using h
    rw [lends, hn, Bool.false_and]

theorem lends_ref (h : (mk n (t :: as) bs).isRef = true) :
    (mk n (t :: as) bs).lends = (t.lendsElements || t.lends) := by
  have hn : (decide (n = "&") || decide (n = "&mut")) = true := by simpa [isRef] using h
  rw [lends, hn, Bool.true_and]

theorem isRef_of_lendsElements (h : t.lendsElements = true) : t.isRef = false := by
  have hname : t.name = "Vec" ∨ t.name = "[]" := by
    simpa using (Bool.and_eq_true_iff.1 h).1
  rcases hname with h | h <;> rw [isRef, h] <;> decide

/-- The same reference is at the front of two types that differ in spelling. -/
theorem isRef_eq {t u : Ty} (h : t.canonical = u.canonical) (ht : t.PlainRefs) (hu : u.PlainRefs) :
    t.isRef = u.isRef ∧ (t.isRef = true → t.name = u.name) := by
  have hname : canonicalName t.name = canonicalName u.name := by
    obtain ⟨n, as, bs⟩ := t
    obtain ⟨m, as', bs'⟩ := u
    exact (mk.inj h).1
  have front : ∀ {t u : Ty}, canonicalName t.name = canonicalName u.name → u.PlainRefs →
      t.isRef = true → t.name = u.name := by
    intro t u hname hu ht
    have ht : t.name = "&" ∨ t.name = "&mut" := by simpa [isRef] using ht
    have hplain : canonicalName t.name = t.name := by rcases ht with h | h <;> rw [h] <;> decide
    rw [hplain] at hname
    rw [(throughout_iff.1 hu).1 (hname ▸ ht), hname]
  refine ⟨?_, front hname hu⟩
  rw [Bool.eq_iff_iff]
  constructor
  · intro h
    rwa [isRef, ← front hname hu h]
  · intro h
    rwa [isRef, ← front hname.symm ht h]

/-- **Elements up to spelling.**  Two types that differ only in how their names are spelled have the
same elements up to spelling exactly if both of them lend their elements or neither does. -/
theorem elementType_spelling (t u : Ty) (h : t.canonical = u.canonical) (ht : t.PlainRefs)
    (hu : u.PlainRefs) :
    t.elementType.canonical = u.elementType.canonical ↔ t.lends = u.lends := by
  induction t using induct_parts generalizing u with
  | step n as bs ih _ =>
    obtain ⟨hsame, hfront⟩ := isRef_eq h ht hu
    obtain ⟨m, as', bs'⟩ := u
    obtain ⟨hname, hargs, -⟩ := mk.inj h
    rw [canonicalRow_eq, canonicalRow_eq] at hargs
    cases href : (mk n as bs).isRef with
    | false =>
      rw [href] at hsame
      rw [elementType_of_not_isRef href, elementType_of_not_isRef hsame.symm,
        lends_of_not_isRef href,
        lends_of_not_isRef hsame.symm, elementOf_canonical, elementOf_canonical, hname, hargs]
      exact iff_of_true rfl rfl
    | true =>
      rw [href] at hsame
      obtain rfl : n = m := hfront href
      cases as with
      | nil =>
        obtain rfl : as' = [] := by simpa using hargs.symm
        exact iff_of_true (by simp [elementType]) rfl
      | cons inner ts =>
        obtain ⟨inner', ts', rfl, hinner, -⟩ : ∃ v vs, as' = v :: vs ∧
            v.canonical = inner.canonical ∧
            vs.map canonical = ts.map canonical := map_eq_cons_iff.1 hargs.symm
        have hplain := (throughout_iff.1 ht).2.1 inner mem_cons_self
        have hplain' := (throughout_iff.1 hu).2.1 inner' mem_cons_self
        have ih := ih inner mem_cons_self inner' hinner.symm hplain hplain'
        have hboth := (isRef_eq hinner.symm hplain hplain').1
        -- where one of the two inner types lends its elements, neither is a reference
        have hbase : inner.isRef = false → inner.lends = false ∧ inner'.lends = false ∧
            inner.elementType.canonical = inner'.elementType.canonical := by
          intro h
          have hl := lends_of_not_isRef h
          have hl' := lends_of_not_isRef (hboth ▸ h)
          exact ⟨hl, hl', ih.2 (hl.trans hl'.symm)⟩
        rw [elementType_ref href, elementType_ref hsame.symm, lends_ref href, lends_ref hsame.symm]
        cases hl : inner.lendsElements <;> cases hl' : inner'.lendsElements
        · simpa using ih
        · obtain ⟨h, -, he⟩ := hbase (hboth ▸ isRef_of_lendsElements hl')
          refine iff_of_false (fun heq => canonical_ne_ref n _ (heq.symm.trans he)) (by simp [h])
        · obtain ⟨-, h, he⟩ := hbase (isRef_of_lendsElements hl)
          exact iff_of_false (fun heq => canonical_ne_ref n _ (heq.trans he.symm)) (by simp [h])
        · obtain ⟨-, -, he⟩ := hbase (isRef_of_lendsElements hl)
          exact iff_of_true (by simp [app, canonical, canonicalRow, he]) rfl

/-- The elements of a `&mut` reference in two spellings, both of which lend `&` references to
them. -/
theorem elementType_spelling_option :
    let t := app "&mut" [app "&" [app "Vec" [app "std::option::Option" [app "i32" []]]]]
    let u := app "&mut" [app "&" [app "Vec" [app "Option" [app "i32" []]]]]
    t.canonical = u.canonical ∧ t.elementType.canonical = u.elementType.canonical := by
  intro t u
  have hcanonical : t.canonical = u.canonical := by decide
  have ht : t.PlainRefs := by
    simp +decide [t, PlainRefs, Throughout, ThroughoutRow, ThroughoutBindings, app]
  have hu : u.PlainRefs := by
    simp +decide [u, PlainRefs, Throughout, ThroughoutRow, ThroughoutBindings, app]
  exact ⟨hcanonical, (elementType_spelling t u hcanonical ht hu).2 (by decide)⟩

/-- A loop over a reference to a `Vec` goes through references, but if the `Vec` is named by its
path, it goes through values. -/
theorem elementType_of_path_differs :
    let t := app "&" [app "Vec" [app "i32" []]]
    let u := app "&" [app "std::vec::Vec" [app "i32" []]]
    t.canonical = u.canonical ∧ t.elementType = app "&" [app "i32" []] ∧
      u.elementType = app "i32" [] ∧ t.elementType.canonical ≠ u.elementType.canonical := by
  decide

end Yielding.Ty
