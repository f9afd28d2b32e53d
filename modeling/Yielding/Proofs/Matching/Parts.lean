import Mathlib.Data.List.Forall2
import Yielding.Datum.Format
import Yielding.Proofs.Parsing.Sources

/-!
# Proofs/Matching/Parts — the parts that patterns take

A pattern that matches a value takes a part of it for each name, at the end of a **route** of steps
to elements of tuples and payloads of outcomes (`take?`).  A step leads to a part of a type, too.
The items of a tuple pattern before `..` take elements from the first one on, and those behind it
take the last ones; the place that an item has and the type that it gets are those of its element
(`placed`, `typed`).
-/

namespace Yielding

open Option List

/-! ## Routes -/

namespace Matching

/-- One step into a value. -/
inductive Step
  | element (index : ℕ)
  | payload (variant : Variant)
deriving DecidableEq, Repr

end Matching

open Matching

/-- The payload of an outcome of the given kind. -/
def Variant.payload? : Variant → Datum → Option Datum
  | some, .some d | ok, .ok d | err, .err d => .some d
  | _, _ => .none

def Datum.part? : Datum → Step → Option Datum
  | .tuple ds, .element i => ds[i]?
  | _, .element _ => none
  | d, .payload v => v.payload? d

theorem Datum.part?_payload (d : Datum) (v : Variant) :
    d.part? (.payload v) = v.payload? d := by cases d <;> rfl

def Ty.part? (t : Ty) : Step → Option Ty
  | .element i => if t.name = "tuple" then t.args[i]? else none
  | .payload .some => if Ty.canonicalName t.name = "Option" then t.args[0]? else none
  | .payload .ok => if Ty.canonicalName t.name = "Result" then t.args[0]? else none
  | .payload .err => if Ty.canonicalName t.name = "Result" then t.args[1]? else none

/-- The part of a datum at the end of a route. -/
def Datum.at? (d : Datum) (route : List Step) : Option Datum := route.foldlM Datum.part? d

/-- The type at the end of a route. -/
def Ty.at? (t : Ty) (route : List Step) : Option Ty := route.foldlM Ty.part? t

/-- **The tuple parts of the type have as many arguments as the tuples at the same places of the
value.** -/
def Ty.Fits (t : Ty) (d : Datum) : Prop :=
  ∀ route t' ds, t.at? route = some t' → d.at? route = some (.tuple ds) → t'.name = "tuple" →
    t'.args.length = ds.length

theorem Ty.unknown_at? {route : List Step} {t : Ty} (h : Ty.unknown.at? route = some t) :
    t = .unknown := by
  cases route with
  | nil => exact (some.inj h).symm
  | cons step route =>
    have hpart : Ty.unknown.part? step = none := by rcases step with _ | _ | _ | _ <;> rfl
    rw [Ty.at?, foldlM_cons, hpart] at h
    cases h

theorem Ty.Fits.part {t t' : Ty} {d d' : Datum} {step : Step} (h : t.Fits d)
    (ht : t' = .unknown ∨ t.part? step = some t') (hd : d.part? step = some d') : t'.Fits d' := by
  intro route t'' ds hroute hroute' htuple
  obtain rfl | ht := ht
  · rw [Ty.unknown_at? hroute] at htuple
    exact absurd htuple (by decide)
  · refine h (step :: route) t'' ds ?_ ?_ htuple
    · rw [Ty.at?, foldlM_cons, ht]
      exact hroute
    · rw [Datum.at?, foldlM_cons, hd]
      exact hroute'

theorem Ty.at?_part {t t' t'' : Ty} {step : Step} {route : List Step}
    (ht : t' = .unknown ∨ t.part? step = some t') (h : t'' = .unknown ∨ t'.at? route = some t'') :
    t'' = .unknown ∨ t.at? (step :: route) = some t'' := by
  obtain rfl | ht := ht
  · exact .inl (h.elim id Ty.unknown_at?)
  · refine h.imp id fun h => ?_
    rw [Ty.at?, foldlM_cons, ht]
    exact h

/-! ## What patterns take -/

def Datum.elements? : Datum → Option (List Datum)
  | .tuple ds => Option.some ds
  | _ => Option.none

/-- Whether a row of `k` items can take `n` elements apart. -/
def Matching.fits (hasRest : Bool) (k n : ℕ) : Bool := if hasRest then k ≤ n + 1 else k = n

def Literal.datum : Literal → Datum
  | int value _ => .int value
  | float value _ => .float value
  | str value => .str value
  | char value => .str value.toString
  | bool value => .bool value
  | unit => .none

def Datum.isNone : Datum → Bool
  | .none => true
  | _ => false

namespace Pattern

mutual

/-- **What a pattern takes of a value that matches it**: for each name, a part and the route to
it. -/
def take? (s : Store) : Pattern → Datum → Option (List (List Step × Datum))
  | bind .., d => some [([], d)]
  | wildcard _, _ | rest _, _ => some []
  | noneVariant _, d => if d.isNone then some [] else none
  | literal _ l, d => if d.equal s l.datum then some [] else none
  | variant _ v inner, d => (v.payload? d).bind fun d' =>
    (take? s inner d').map (·.map fun e => (.payload v :: e.1, e.2))
  | tuple _ items, d =>
    if items.isEmpty then some []
    else d.elements?.bind fun ds =>
      if fits (items.any isRest) items.length ds.length then rowTake? s 0 items ds else none

def rowTake? (s : Store) (i : ℕ) : List Pattern → List Datum → Option (List (List Step × Datum))
  | [], _ => some []
  | p :: ps, ds =>
    if p.isRest then rowTake? s (ds.length - ps.length) ps ds
    else ds[i]?.bind fun d => (take? s p d).bind fun es =>
      (rowTake? s (i + 1) ps ds).map (es.map (fun e => (.element i :: e.1, e.2)) ++ ·)

end

/-- A value like that of the literal. -/
def IsLike : Literal → Datum → Prop
  | .int .., .int _ | .float .., .float _ | .float .., .nan _ | .str _, .str _
  | .char _, .str _ => True
  | .bool _, .bool _ | .unit, .none => True
  | _, _ => False

mutual

/-- **The value has the shape that the pattern asks for**, whether or not it matches: tuples with
the right number of elements, `None` for `()`, and values like the literals. -/
def Shaped : Pattern → Datum → Prop
  | literal _ l, d => IsLike l d
  | variant _ v inner, d => ∀ d', v.payload? d = some d' → inner.Shaped d'
  | tuple _ items, d =>
    if items.isEmpty then d = .none
    else ∃ ds, d = .tuple ds ∧ fits (items.any isRest) items.length ds.length = true ∧
      rowShaped 0 items ds
  | _, _ => True

def rowShaped (i : ℕ) : List Pattern → List Datum → Prop
  | [], _ => True
  | p :: ps, ds =>
    if p.isRest then rowShaped (ds.length - ps.length) ps ds
    else (∃ d, ds[i]? = some d ∧ p.Shaped d) ∧ rowShaped (i + 1) ps ds

end

/-! ## Rows -/

/-- Each item of a row, the first of which takes the `i`-th of `n` elements, has something that goes
with its element; with `..` there goes what goes with none. -/
inductive Aligned {α : Type} (R : Option ℕ → α → Prop) (n : ℕ) : ℕ → List Pattern → List α → Prop
  | nil {i : ℕ} : Aligned R n i [] []
  | rest {i : ℕ} {p : Pattern} {ps : List Pattern} {a : α} {as : List α} : p.isRest = true →
    R none a → Aligned R n (n - ps.length) ps as → Aligned R n i (p :: ps) (a :: as)
  | item {i : ℕ} {p : Pattern} {ps : List Pattern} {a : α} {as : List α} : p.isRest = false →
    R (some i) a → Aligned R n (i + 1) ps as → Aligned R n i (p :: ps) (a :: as)

/-- The element that the item at index `j` takes out of `n` elements, the first item the `i`-th
one. -/
def slot (n i : ℕ) (items : List Pattern) (j : ℕ) : Option ℕ :=
  if j < items.findIdx isRest then some (i + j)
  else if j = items.findIdx isRest then none
  else some (j + n - items.length)

section Aligned

variable {α : Type} {R : Option ℕ → α → Prop} {n : ℕ}

theorem aligned_behind {ps : List Pattern} {as : List α} (hrest : ∀ p ∈ ps, p.isRest = false)
    (hn : ps.length ≤ n) (hlength : as.length = ps.length)
    (h : ∀ j a, as[j]? = some a → R (some (j + n - ps.length)) a) :
    Aligned R n (n - ps.length) ps as := by
  induction ps generalizing as with
  | nil =>
    rw [eq_nil_of_length_eq_zero hlength]
    exact .nil
  | cons p ps ih =>
    obtain ⟨a, as, rfl⟩ := exists_cons_of_length_eq_add_one hlength
    rw [forall_mem_cons] at hrest
    simp only [length_cons, Nat.add_right_cancel_iff] at hlength hn h ⊢
    refine .item hrest.1 ?_ ?_
    · simpa using h 0 a rfl
    · have hnext : n - (ps.length + 1) + 1 = n - ps.length := by omega
      rw [hnext]
      refine ih hrest.2 (by omega) hlength fun j b hb => ?_
      have hb := h (j + 1) b hb
      rwa [show j + 1 + n - (ps.length + 1) = j + n - ps.length by omega] at hb

/-- **What goes with the element of each item is aligned with the row.** -/
theorem aligned {ps : List Pattern} {as : List α} (i : ℕ) (hcount : ps.countP isRest ≤ 1)
    (hn : ps.any isRest = true → i + ps.length ≤ n + 1) (hlength : as.length = ps.length)
    (h : ∀ j a, as[j]? = some a → R (slot n i ps j) a) : Aligned R n i ps as := by
  induction ps generalizing as i with
  | nil =>
    rw [eq_nil_of_length_eq_zero hlength]
    exact .nil
  | cons p ps ih =>
    obtain ⟨a, as, rfl⟩ := exists_cons_of_length_eq_add_one hlength
    have hhead := h 0 a rfl
    simp only [length_cons, Nat.add_right_cancel_iff, countP_cons, any_cons] at hlength hn hcount
    cases hp : p.isRest with
    | true =>
      simp only [hp, Bool.true_or, if_true, forall_const, slot, findIdx_cons, cond_true,
        length_cons] at hn hcount hhead h
      have hnone : ∀ q ∈ ps, q.isRest = false := by
        simpa using countP_eq_zero.1 (Nat.le_zero.1 (by omega : ps.countP isRest ≤ 0))
      refine .rest hp hhead (aligned_behind hnone (by omega) hlength fun j b hb => ?_)
      have hb := h (j + 1) b hb
      rwa [if_neg (by omega), if_neg (by omega), Nat.add_right_comm, Nat.add_sub_add_right] at hb
    | false =>
      have hslot : ∀ j, slot n i (p :: ps) (j + 1) = slot n (i + 1) ps j := by
        intro j
        simp only [slot, findIdx_cons, hp, cond_false, length_cons, Nat.add_lt_add_iff_right,
          Nat.add_right_cancel_iff, Nat.add_right_comm j 1 n, Nat.add_sub_add_right,
            Nat.add_right_comm i 1 j, Nat.add_assoc i j 1]
      simp only [hp, Bool.false_or, Bool.false_eq_true, if_false, Nat.add_zero] at hn hcount
      refine .item hp (by simpa [slot, findIdx_cons, hp] using hhead) ?_
      exact ih (i + 1) hcount (fun hrest => by have := hn hrest; omega) hlength fun j b hb =>
        hslot j ▸ h (j + 1) b hb

end Aligned

/-- The place leads to the element, or there is neither. -/
def IsPlaceOf (n : ℕ) : Option ℕ → Option Int → Prop
  | none, k => k = none
  | some i, k => ∃ k', k = some k' ∧ (if k' < 0 then k' + n else k') = i

theorem lt_of_fits {items : List Pattern} {n : ℕ}
    (hfits : fits (items.any isRest) items.length n = true)
    (hrest : items.any isRest = true) : items.length ≤ n + 1 := by
  simpa [fits, hrest] using hfits

/-- **The places of the items of a tuple pattern lead to their elements.** -/
theorem placed {items : List Pattern} {n : ℕ} (hcount : items.countP isRest ≤ 1)
    (hfits : fits (items.any isRest) items.length n = true) :
    Aligned (IsPlaceOf n) n 0 items (places items) := by
  refine aligned 0 hcount (by simpa using lt_of_fits hfits) (by simp [places]) fun j k hk => ?_
  obtain ⟨hj, rfl⟩ := List.getElem?_eq_some_iff.1 hk
  simp only [places, length_map, length_zipIdx] at hj
  simp only [places, getElem_map, getElem_zipIdx, slot, Nat.zero_add]
  split_ifs with hbefore hgap
  · exact ⟨j, rfl, if_neg (by omega)⟩
  · rfl
  · have hany : items.any isRest = true := any_eq_true.2 (findIdx_lt_length.1 (by omega))
    have := lt_of_fits hfits hany
    refine ⟨_, rfl, ?_⟩
    rw [if_pos (by omega)]
    omega

/-- **The types of the items of a tuple pattern are those of their elements**, where they are
known. -/
theorem typed {items : List Pattern} {n : ℕ} {t : Ty} (hcount : items.countP isRest ≤ 1)
    (hfits : fits (items.any isRest) items.length n = true)
    (ht : t.name = "tuple" → t.args.length = n) :
    Aligned (fun e t' => ∀ i, e = some i → t' = .unknown ∨ t.part? (.element i) = some t') n 0 items
      (itemTypes items t) := by
  have hlength := lt_of_fits hfits
  have hunknown : Aligned (fun e t' => ∀ i, e = some i → t' = .unknown ∨
      t.part? (.element i) = some t') n 0 items (items.map fun _ => .unknown) := by
    refine aligned 0 hcount (by simpa using hlength) (by simp) fun j t' ht' i _ => .inl ?_
    rw [getElem?_map, map_eq_some_iff] at ht'
    exact ht'.choose_spec.2.symm
  unfold itemTypes
  by_cases htuple : t.name = "tuple"
  · have hn := ht htuple
    have hpart (i : ℕ) : t.part? (.element i) = t.args[i]? := if_pos htuple
    dsimp only
    rw [if_neg (not_not.2 htuple)]
    split
    · next hnone =>
      have hend : items.findIdx isRest = items.length := by
        rw [findIdx?_eq_none_iff] at hnone
        exact findIdx_eq_length.2 hnone
      split_ifs with hargs
      · refine aligned 0 hcount (by simpa using hlength) hargs fun j t' ht' i hi => .inr ?_
        have hj : j < items.length := hargs ▸ (List.getElem?_eq_some_iff.1 ht').1
        rw [slot, if_pos (hend ▸ hj), some.injEq, Nat.zero_add] at hi
        rw [hpart, ← hi, ht']
      · exact hunknown
    · next before hsome =>
      have hgap : items.findIdx isRest = before := (findIdx?_eq_some_iff_findIdx_eq.1 hsome).2
      have hbefore : before < items.length := (findIdx?_eq_some_iff_findIdx_eq.1 hsome).1
      split_ifs with hargs
      · exact hunknown
      · refine aligned 0 hcount (by simpa using hlength) ?_ fun j t' ht' i hi => ?_
        · simp only [length_append, length_take, length_drop, length_singleton]
          omega
        · rw [hpart]
          simp only [slot, hgap] at hi
          grind
  · rw [if_pos htuple]
    exact hunknown

/-! ## Routes and types of what is taken -/

theorem at?_cons {d d' : Datum} {step : Step} (h : d.part? step = some d') (route : List Step) :
    d.at? (step :: route) = d'.at? route := by
  rw [Datum.at?, foldlM_cons, h]
  rfl

theorem bindings_rest {p : Pattern} (hp : p.isRest = true) : p.bindings = [] := by
  cases p with
  | rest r => simp [bindings]
  | _ => cases hp

theorem rowBindings_rest {p : Pattern} (hp : p.isRest = true) (ps : List Pattern) :
    rowBindings (p :: ps) = rowBindings ps := by
  rw [rowBindings, bindings_rest hp, nil_append]

theorem take?_tuple {s : Store} {r : Region} {items : List Pattern} {d : Datum}
    {es : List (List Step × Datum)}
    (h : (tuple r items).take? s d = some es) : items = [] ∧ es = [] ∨ ∃ ds, d = .tuple ds ∧
      fits (items.any isRest) items.length ds.length = true ∧ rowTake? s 0 items ds = some es := by
  rw [take?] at h
  split at h
  · next hempty => exact .inl ⟨isEmpty_iff.1 hempty, (some.inj h).symm⟩
  · obtain ⟨ds, hds, h⟩ := bind_eq_some_iff.1 h
    have hd : d = .tuple ds := by cases d <;> cases hds; rfl
    exact .inr ⟨ds, hd, ite_none_right_eq_some.1 h⟩

mutual

/-- **A pattern takes a part for each name that it binds, and its route leads there.** -/
theorem take?_routes {s : Store} : ∀ {p : Pattern} {d : Datum} {es : List (List Step × Datum)},
    p.take? s d = some es → es.length = p.bindings.length ∧ ∀ e ∈ es, d.at? e.1 = some e.2
  | .bind .., _, _, h => by
    obtain rfl := some.inj h
    exact ⟨by simp [bindings], forall_mem_singleton.2 rfl⟩
  | .wildcard _, _, _, h | .rest _, _, _, h => by
    obtain rfl := some.inj h
    exact ⟨by simp [bindings], nofun⟩
  | .noneVariant _, _, _, h | .literal _ _, _, _, h => by
    rw [take?, ite_none_right_eq_some] at h
    obtain ⟨_, h⟩ := h
    obtain rfl := some.inj h
    exact ⟨by simp [bindings], nofun⟩
  | .variant _ v inner, d, _, h => by
    rw [take?] at h
    obtain ⟨d', hd, h⟩ := bind_eq_some_iff.1 h
    obtain ⟨es, hes, rfl⟩ := map_eq_some_iff.1 h
    have hinner := take?_routes hes
    refine ⟨by rw [length_map, bindings, hinner.1], forall_mem_map.2 fun e he => ?_⟩
    rw [at?_cons ((d.part?_payload v).trans hd)]
    exact hinner.2 e he
  | .tuple _ items, d, es, h => by
    rw [bindings]
    obtain ⟨rfl, rfl⟩ | ⟨ds, rfl, -, h⟩ := take?_tuple h
    · exact ⟨rfl, nofun⟩
    · exact rowTake?_routes h

theorem rowTake?_routes {s : Store} : ∀ {i : ℕ} {ps : List Pattern} {ds : List Datum}
    {es : List (List Step × Datum)}, rowTake? s i ps ds = some es →
    es.length = (rowBindings ps).length ∧ ∀ e ∈ es, (Datum.tuple ds).at? e.1 = some e.2
  | _, [], _, _, h => by
    obtain rfl := some.inj h
    exact ⟨by simp [rowBindings], nofun⟩
  | i, p :: ps, ds, _, h => by
    rw [rowTake?] at h
    split at h
    · next hp =>
      rw [rowBindings_rest hp]
      exact rowTake?_routes h
    · obtain ⟨d', hd, h⟩ := bind_eq_some_iff.1 h
      obtain ⟨es, hes, h⟩ := bind_eq_some_iff.1 h
      obtain ⟨es', hes', rfl⟩ := map_eq_some_iff.1 h
      have hfirst := take?_routes hes
      have hlater := rowTake?_routes hes'
      refine ⟨by simp [rowBindings, hfirst.1, hlater.1],
        forall_mem_append.2 ⟨forall_mem_map.2 fun e he => ?_, hlater.2⟩⟩
      have hd : (Datum.tuple ds).part? (.element i) = some d' := hd
      rw [at?_cons hd]
      exact hfirst.2 e he

end

end Pattern

theorem Variant.payload_part (v : Variant) (t : Ty) :
    v.payload t = .unknown ∨ t.part? (.payload v) = Option.some (v.payload t) := by
  unfold Variant.payload
  split
  · next hname hargs => exact .inr (by simp [Ty.part?, hname, hargs])
  · next hname hargs => exact .inr (by simp [Ty.part?, hname, hargs])
  · next hname hargs => exact .inr (by simp [Ty.part?, hname, hargs])
  · exact .inl rfl

/-- Defines names with types, the later ones first. -/
def Scope.defineAll (s : Scope) (names : List (String × Region)) (ts : List Ty) : Scope :=
  (names.zip ts).foldl (fun s e => s.define e.1.1 e.2) s

/-- The types that a scope gives to names are, where they are known, those of the parts that they
take. -/
def Typed (t : Ty) (ts : List Ty) (es : List (List Step × Datum)) : Prop :=
  Forall₂ (fun t' e => t' = .unknown ∨ t.at? e.1 = some t') ts es

theorem Typed.part {t t' : Ty} {step : Step} {ts : List Ty} {es : List (List Step × Datum)}
    (h : Typed t' ts es) (ht : t' = .unknown ∨ t.part? step = some t') :
    Typed t ts (es.map fun e => (step :: e.1, e.2)) :=
  forall₂_map_right_iff.2 (h.imp fun _ _ he => Ty.at?_part ht he)

theorem Scope.defineAll_append (scope : Scope) {names : List (String × Region)} {ts : List Ty}
    (h : names.length = ts.length) (names' : List (String × Region)) (ts' : List Ty) :
    scope.defineAll (names ++ names') (ts ++ ts') =
      (scope.defineAll names ts).defineAll names' ts' := by
  rw [Scope.defineAll, zip_append h, foldl_append]
  rfl

mutual

/-- **The scope gives each name the type of the part that it takes**, where that is known. -/
theorem Scope.bindPattern_typed {s : Store} : ∀ {p : Pattern} {d : Datum} {t : Ty}
    {es : List (List Step × Datum)}, p.IsProper → t.Fits d → p.take? s d = some es →
    ∃ ts, Typed t ts es ∧ ∀ scope : Scope, scope.bindPattern p t = scope.defineAll p.bindings ts
  | .bind .., _, t, _, _, _, h => by
    obtain rfl := some.inj h
    exact ⟨[t], .cons (.inr rfl) .nil,
      fun scope => by rw [Scope.bindPattern, Pattern.bindings]; rfl⟩
  | .wildcard _, _, _, _, _, _, h | .rest _, _, _, _, _, _, h => by
    obtain rfl := some.inj h
    exact ⟨[], .nil, fun scope => by simp [Scope.bindPattern, Scope.defineAll]⟩
  | .noneVariant _, _, _, _, _, _, h | .literal _ _, _, _, _, _, _, h => by
    rw [Pattern.take?, ite_none_right_eq_some] at h
    obtain rfl := some.inj h.2
    exact ⟨[], .nil, fun scope => by simp [Scope.bindPattern, Scope.defineAll]⟩
  | .variant _ v inner, d, t, _, hp, ht, h => by
    rw [Pattern.take?] at h
    obtain ⟨d', hd, h⟩ := bind_eq_some_iff.1 h
    obtain ⟨es, hes, rfl⟩ := map_eq_some_iff.1 h
    have hd : d.part? (.payload v) = some d' := (d.part?_payload v).trans hd
    have hp : inner.IsProper := hp
    obtain ⟨ts, hts, hscope⟩ := Scope.bindPattern_typed hp (ht.part (v.payload_part t) hd) hes
    exact ⟨ts, hts.part (v.payload_part t),
      fun scope => by rw [Scope.bindPattern, Pattern.bindings, hscope]⟩
  | .tuple _ items, d, t, _, hp, ht, h => by
    obtain ⟨rfl, rfl⟩ | ⟨ds, rfl, hfits, h⟩ := Pattern.take?_tuple h
    · refine ⟨[], .nil, fun scope => ?_⟩
      simp [Scope.bindPattern, Scope.bindRow, Pattern.bindings, Pattern.rowBindings,
        Scope.defineAll]
    · obtain ⟨ts, hts, hscope⟩ :=
        Scope.bindRow_typed hp.2 ht h (Pattern.typed hp.1 hfits (ht [] t ds rfl rfl))
      exact ⟨ts, hts, fun scope => by rw [Scope.bindPattern, Pattern.bindings, hscope]⟩

theorem Scope.bindRow_typed {s : Store} : ∀ {i : ℕ} {ps : List Pattern} {ds : List Datum} {t : Ty}
    {us : List Ty} {es : List (List Step × Datum)}, Pattern.rowProper ps → t.Fits (.tuple ds) →
    Pattern.rowTake? s i ps ds = some es →
    Pattern.Aligned (fun e t' => ∀ i, e = some i → t' = .unknown ∨
      t.part? (.element i) = some t') ds.length i ps us →
    ∃ ts, Typed t ts es ∧
      ∀ scope : Scope, scope.bindRow ps us = scope.defineAll (Pattern.rowBindings ps) ts
  | _, [], _, _, _, _, _, _, h, _ => by
    obtain rfl := some.inj h
    exact ⟨[], .nil, fun scope => by simp [Scope.bindRow, Scope.defineAll]⟩
  | i, p :: ps, d, t, _, _, hp, ht, h, hus => by
    rw [Pattern.rowTake?] at h
    cases hus with
    | rest hrest _ hus =>
      rw [if_pos hrest] at h
      obtain ⟨ts, hts, hscope⟩ := Scope.bindRow_typed hp.2 ht h hus
      refine ⟨ts, hts, fun scope => ?_⟩
      rw [Pattern.rowBindings_rest hrest, Scope.bindRow, ← hscope]
      cases p <;> first | rfl | cases hrest
    | item hrest hu hus =>
      rw [hrest, if_neg Bool.false_ne_true] at h
      obtain ⟨d', hd, h⟩ := bind_eq_some_iff.1 h
      obtain ⟨es, hes, h⟩ := bind_eq_some_iff.1 h
      obtain ⟨es', hes', rfl⟩ := map_eq_some_iff.1 h
      obtain ⟨ts, hts, hscope⟩ :=
        Scope.bindPattern_typed (d := d') (hp.1 hrest) (ht.part (hu i rfl) hd) hes
      obtain ⟨ts', hts', hscope'⟩ := Scope.bindRow_typed hp.2 ht hes' hus
      refine ⟨ts ++ ts', rel_append (hts.part (hu i rfl)) hts', fun scope => ?_⟩
      have hlength : p.bindings.length = ts.length :=
        (Pattern.take?_routes hes).1.symm.trans hts.length_eq.symm
      rw [Scope.bindRow, hscope, hscope', Pattern.rowBindings, Scope.defineAll_append _ hlength]

end

end Yielding
