import Mathlib.Data.List.Nodup
import Yielding.Typing.Unify

/-!
# Proofs/Typing/Meet — unification as a meet

The bindings of a type are read as a finite map, its **keys** in order and what each is bound to.
`unify_path_iff` says what unification does to the parts of two paths, and the rest is checked part
by part, for types in which no name is bound twice and no number type is written with a crate:

* `unify_self`, `unify_assoc` — unification is idempotent and associative.
* `refines_iff` — a type that leaves nothing open refines two types exactly when they unify and it
  refines what they unify to.
* `exists_refines` — every plainly spelled type is refined by one that leaves nothing open.

So a list of types unifies, in any order, exactly when one type refines all of them.
-/

namespace Yielding.Ty

open List

section Parts

variable (n : String) (as : List Ty) (bs : List (String × Ty))

@[simp] theorem name_mk : (mk n as bs).name = n := rfl

@[simp] theorem args_mk : (mk n as bs).args = as := rfl

@[simp] theorem bindings_mk : (mk n as bs).bindings = bs := rfl

@[simp] theorem binding?_mk (x : String) : (mk n as bs).binding? x = bs.lookup x := rfl

end Parts

theorem induct_parts {motive : Ty → Prop}
    (step : ∀ n as bs, (∀ a ∈ as, motive a) → (∀ b ∈ bs, motive b.2) → motive (mk n as bs)) :
    ∀ t, motive t
  | mk n as bs => by
    refine step n as bs (fun a ha => induct_parts step a) (fun b hb => induct_parts step b.2)
termination_by t => sizeOf t
decreasing_by
  · have := sizeOf_lt_of_mem ha
    simp only [mk.sizeOf_spec]
    omega
  · have := sizeOf_lt_of_mem hb
    obtain ⟨_, t⟩ := b
    simp only [mk.sizeOf_spec, Prod.mk.sizeOf_spec] at *
    omega

/-- The piece of a type at a place: an argument, by its index, or what a name is bound to. -/
def piece? (t : Ty) : Nat ⊕ String → Option Ty
  | .inl i => t.args[i]?
  | .inr x => t.binding? x

variable {t : Ty}

theorem mem_of_piece? {u : Ty} : ∀ {p : Nat ⊕ String}, t.piece? p = some u →
    u ∈ t.args ∨ ∃ b ∈ t.bindings, b.2 = u
  | .inl _, hu => .inl (mem_of_getElem? hu)
  | .inr x, hu => by
    obtain ⟨before, after, hbs, -⟩ := lookup_eq_some_iff.1 hu
    exact .inr ⟨(x, u), by simp [hbs], rfl⟩

theorem induct_piece? {motive : Ty → Prop}
    (step : ∀ t : Ty, (∀ p, ∀ u ∈ t.piece? p, motive u) → motive t) (t : Ty) : motive t := by
  induction t using induct_parts with
  | step n as bs ihas ihbs =>
    refine step _ fun p u hu => ?_
    rcases mem_of_piece? hu with ha | ⟨b, hb, rfl⟩
    · exact ihas u ha
    · exact ihbs b hb

/-! ## Names -/

/-- The number types that a literal class stands for. -/
def family? (name : String) : Option (List String) :=
  if name = intLiteral then some intTypes
  else if name = floatLiteral then some floatTypes
  else none

def isQualified (name : String) : Bool :=
  standardCrates.any fun crate => crate.toList.isPrefixOf name.toList

/-- Whether a name means a number type, however it is spelled. -/
def isNumber (name : String) : Bool := (intTypes ++ floatTypes).contains (canonicalName name)

theorem canonicalName_of_isQualified {name : String} (h : isQualified name = false) :
    canonicalName name = name := by
  simp only [isQualified] at h
  simp [canonicalName, h]

theorem canonicalName_number : ∀ name ∈ intTypes ++ floatTypes, canonicalName name = name := by
  decide

theorem family?_number : ∀ name ∈ intTypes ++ floatTypes, family? name = none := by decide

variable {family : List String}

theorem family?_eq_some {name : String} (h : family? name = some family) : name = intLiteral ∧
    family = intTypes ∨ name = floatLiteral ∧ family = floatTypes := by
  unfold family? at h
  split at h
  · exact .inl ⟨‹_›, by simpa using h.symm⟩
  · split at h
    · exact .inr ⟨‹_›, by simpa using h.symm⟩
    · cases h

theorem mem_numbers {name : String} (h : family? name = some family) {member : String}
    (hm : member ∈ family) : member ∈ intTypes ++ floatTypes := by
  rcases family?_eq_some h with ⟨_, rfl⟩ | ⟨_, rfl⟩
  · exact mem_append_left _ hm
  · exact mem_append_right _ hm

variable {n : String}

theorem family?_disjoint {m : String} {family' : List String} (h : family? m = some family)
    (h' : family? n = some family') {member : String} (hm : member ∈ family)
    (hm' : member ∈ family') : m = n := by
  have apart : ∀ name ∈ intTypes, name ∉ floatTypes := by decide
  rcases family?_eq_some h with ⟨rfl, rfl⟩ | ⟨rfl, rfl⟩ <;>
    rcases family?_eq_some h' with ⟨rfl, rfl⟩ | ⟨rfl, rfl⟩
  · rfl
  · exact absurd hm' (apart _ hm)
  · exact absurd hm (apart _ hm')
  · rfl

/-! ## Types inside a type -/

mutual

/-- The type and all types inside it have the property. -/
def Throughout (P : Ty → Prop) : Ty → Prop
  | mk n as bs => P (mk n as bs) ∧ ThroughoutRow P as ∧ ThroughoutBindings P bs

def ThroughoutRow (P : Ty → Prop) : List Ty → Prop
  | [] => True
  | t :: ts => t.Throughout P ∧ ThroughoutRow P ts

def ThroughoutBindings (P : Ty → Prop) : List (String × Ty) → Prop
  | [] => True
  | (_, t) :: bs => t.Throughout P ∧ ThroughoutBindings P bs

end

section Throughout

variable {P : Ty → Prop}

theorem throughoutRow_iff : ∀ {ts : List Ty}, ThroughoutRow P ts ↔ ∀ t ∈ ts, t.Throughout P
  | [] => by simp [ThroughoutRow]
  | t :: ts => by simp [ThroughoutRow, @throughoutRow_iff ts]

theorem throughoutBindings_iff :
    ∀ {bs : List (String × Ty)}, ThroughoutBindings P bs ↔ ∀ b ∈ bs, b.2.Throughout P
  | [] => by simp [ThroughoutBindings]
  | (n, t) :: bs => by simp [ThroughoutBindings, @throughoutBindings_iff bs]

theorem throughout_iff : t.Throughout P ↔ P t ∧ (∀ a ∈ t.args, a.Throughout P) ∧ ∀ b ∈ t.bindings,
    b.2.Throughout P := by
  obtain ⟨n, as, bs⟩ := t
  rw [Throughout, throughoutRow_iff, throughoutBindings_iff, args_mk, bindings_mk]

theorem Throughout.part {u : Ty} (h : t.Throughout P) {p : Nat ⊕ String} (hu : t.piece? p = some u)
    : u.Throughout P := by
  obtain ⟨-, hargs, hbindings⟩ := throughout_iff.1 h
  rcases mem_of_piece? hu with ha | ⟨b, hb, rfl⟩
  · exact hargs u ha
  · exact hbindings b hb

theorem Throughout.imp {Q : Ty → Prop} (hPQ : ∀ t, P t → Q t) (t : Ty) :
    t.Throughout P → t.Throughout Q := by
  induction t using induct_parts with
  | step n as bs ihas ihbs =>
    intro h
    obtain ⟨hp, has, hbs⟩ := throughout_iff.1 h
    exact throughout_iff.2 ⟨hPQ _ hp, fun a ha => ihas a ha (has a ha),
      fun b hb => ihbs b hb (hbs b hb)⟩

end Throughout

/-! ## Plainly spelled types -/

mutual

/-- **Plainly spelled**: no type inside binds a name twice, and no number type inside is written
with a crate or has an argument. -/
def Plain : Ty → Prop
  | mk n as bs =>
    (isNumber n → isQualified n = false ∧ as = []) ∧ (bs.map Prod.fst).Nodup ∧ PlainRow as ∧
      PlainBindings bs

def PlainRow : List Ty → Prop
  | [] => True
  | t :: ts => t.Plain ∧ PlainRow ts

def PlainBindings : List (String × Ty) → Prop
  | [] => True
  | (_, t) :: bs => t.Plain ∧ PlainBindings bs

end

theorem plainRow_iff : ∀ {ts : List Ty}, PlainRow ts ↔ ∀ t ∈ ts, t.Plain
  | [] => by simp [PlainRow]
  | t :: ts => by simp [PlainRow, @plainRow_iff ts]

theorem plainBindings_iff :
    ∀ {bs : List (String × Ty)}, PlainBindings bs ↔ ∀ b ∈ bs, b.2.Plain
  | [] => by simp [PlainBindings]
  | (n, t) :: bs => by simp [PlainBindings, @plainBindings_iff bs]

theorem plain_iff {as : List Ty} {bs : List (String × Ty)} : (mk n as bs).Plain ↔
    (isNumber n → isQualified n = false ∧ as = []) ∧ (bs.map Prod.fst).Nodup ∧
      (∀ a ∈ as, a.Plain) ∧ ∀ b ∈ bs, b.2.Plain := by
  rw [Plain, plainRow_iff, plainBindings_iff]

def keys (t : Ty) : List String := t.bindings.map Prod.fst

@[simp] theorem keys_mk (n : String) (as : List Ty) (bs : List (String × Ty)) :
    (mk n as bs).keys = bs.map Prod.fst := rfl

theorem isSome_binding_iff {x : String} : (t.binding? x).isSome ↔ x ∈ t.keys := by
  simp [binding?, keys, lookup_isSome_iff]

theorem plain_iff_throughout : t.Plain ↔ t.Throughout fun t =>
    (isNumber t.name → isQualified t.name = false ∧ t.args = []) ∧ t.keys.Nodup := by
  induction t using induct_parts with
  | step n as bs ihas ihbs =>
    rw [plain_iff, throughout_iff, args_mk, bindings_mk, ← forall₂_congr ihas, ← forall₂_congr ihbs,
      and_assoc]
    rfl

/-! ## Regular spelling -/

/-- No name is bound twice by a type inside, and no number type inside is written with a crate. -/
def Regular (t : Ty) : Prop :=
  t.Throughout fun t => t.keys.Nodup ∧ (isNumber t.name → isQualified t.name = false)

theorem Plain.regular (h : t.Plain) : t.Regular :=
  .imp (fun _ ht => ⟨ht.2, fun hn => (ht.1 hn).1⟩) t (plain_iff_throughout.1 h)

theorem Regular.name_eq (h : t.Regular) (hn : canonicalName t.name ∈ intTypes ++ floatTypes) :
    canonicalName t.name = t.name :=
  canonicalName_of_isQualified ((throughout_iff.1 h).1.2 (by simpa [isNumber] using hn))

/-! ## Bindings as maps -/

/-- All bindings of a name bind it to the same type. -/
def Coherent (t : Ty) : Prop := ∀ b ∈ t.bindings, t.binding? b.1 = some b.2

theorem coherent_of_nodup (h : t.keys.Nodup) : t.Coherent := by
  obtain ⟨n, as, bs⟩ := t
  rw [keys_mk] at h
  change ∀ b ∈ bs, bs.lookup b.1 = some b.2
  induction bs with
  | nil => nofun
  | cons b bs ih =>
    obtain ⟨x, t⟩ := b
    rw [map_cons, nodup_cons] at h
    refine forall_mem_cons.2 ⟨lookup_cons_self, fun c hc => ?_⟩
    have hne : c.1 ≠ x := fun he => h.1 (mem_map.2 ⟨c, hc, he⟩)
    rw [lookup_cons, beq_false_of_ne hne]
    exact ih h.2 c hc

theorem Coherent.throughout {P : Ty → Prop} (h : t.Coherent) (hP : P t)
    (hparts : ∀ p, ∀ u ∈ t.piece? p, u.Throughout P) : t.Throughout P := by
  refine throughout_iff.2 ⟨hP, fun a ha => ?_, fun b hb => hparts (.inr b.1) _ (h b hb)⟩
  obtain ⟨i, hi⟩ := mem_iff_getElem?.1 ha
  exact hparts (.inl i) a hi

theorem Coherent.map_binding (h : t.Coherent) :
    t.keys.map (fun x => (x, (t.binding? x).getD default)) = t.bindings := by
  rw [keys, map_map]
  refine (map_congr_left fun b hb => ?_).trans (map_id' _)
  simp [h b hb]

variable {a b : Ty}

theorem eq_of_parts (ha : a.Coherent) (hb : b.Coherent) (hname : a.name = b.name)
    (hkeys : a.keys = b.keys) (hpart : ∀ p, a.piece? p = b.piece? p) : a = b := by
  have hargs : a.args = b.args := ext_getElem? fun i => hpart (.inl i)
  have hbinding : ∀ x, a.binding? x = b.binding? x := fun x => hpart (.inr x)
  have hbindings : a.bindings = b.bindings := by
    rw [← ha.map_binding, ← hb.map_binding, hkeys]
    simp only [hbinding]
  obtain ⟨n, as, bs⟩ := a
  obtain ⟨m, as', bs'⟩ := b
  obtain rfl : n = m := hname
  obtain rfl : as = as' := hargs
  obtain rfl : bs = bs' := hbindings
  rfl

/-- The bindings of the names to what each stands for, where it stands for anything. -/
def tabulate (f : String → Option Ty) (ks : List String) : List (String × Ty) :=
  ks.filterMap fun x => (f x).map (x, ·)

section Tabulate

variable {f : String → Option Ty}

theorem mem_tabulate {ks : List String} {b : String × Ty} :
    b ∈ tabulate f ks ↔ b.1 ∈ ks ∧ f b.1 = some b.2 := by
  obtain ⟨x, t⟩ := b
  simp [tabulate, Option.map_eq_some_iff]

theorem tabulate_cons_some {k : String} (hk : f k = some t) (ks : List String) :
    tabulate f (k :: ks) = (k, t) :: tabulate f ks := by
  simp [tabulate, hk]

theorem tabulate_congr {g : String → Option Ty} {ks : List String} (h : ∀ x ∈ ks, f x = g x) :
    tabulate f ks = tabulate g ks :=
  filterMap_congr fun x hx => by rw [h x hx]

theorem tabulate_append (ks ls : List String) :
    tabulate f (ks ++ ls) = tabulate f ks ++ tabulate f ls := filterMap_append

theorem keys_tabulate : ∀ {ks : List String}, (∀ x ∈ ks, (f x).isSome) →
    (tabulate f ks).map Prod.fst = ks
  | [], _ => rfl
  | k :: ks, h => by
    rw [forall_mem_cons] at h
    obtain ⟨t, ht⟩ := Option.isSome_iff_exists.1 h.1
    rw [tabulate_cons_some ht, map_cons, keys_tabulate h.2]

theorem lookup_tabulate (x : String) : ∀ ks : List String,
    (tabulate f ks).lookup x = if x ∈ ks then f x else none
  | [] => by simp [tabulate]
  | k :: ks => by
    have rest := lookup_tabulate x ks
    by_cases hxk : x = k
    · subst hxk
      cases hx : f x with
      | none =>
        rw [tabulate, filterMap_cons_none (by simp [hx]), ← tabulate, rest, hx, ite_self, ite_self]
      | some t => simp [tabulate_cons_some hx]
    · have hne : (x == k) = false := beq_false_of_ne hxk
      rw [tabulate] at rest ⊢
      cases hk : f k <;> simp [hk, hxk, hne, rest, lookup_cons]

theorem mapM_tabulate {ks : List String} {bs : List (String × Ty)} :
    (ks.mapM fun x => (f x).map (x, ·)) = some bs ↔
      (∀ x ∈ ks, (f x).isSome) ∧ tabulate f ks = bs := by
  induction ks generalizing bs with
  | nil => simp [tabulate]
  | cons k ks ih =>
    rw [mapM_cons]
    cases hk : f k with
    | none => simp [hk]
    | some t => simp [hk, ih, tabulate_cons_some hk, Option.bind_eq_some_iff, and_assoc]

end Tabulate

/-! ## Unification by cases -/

theorem ne_unknown_of_family? (h : family? n = some family) : n ≠ "_" := by
  rintro rfl
  cases h

section Unknown

attribute [local simp] unify unifyArgs unifyBindings

theorem unify_unknown_left (h : a.name = "_") (b : Ty) : a.unify b = some b := by
  obtain ⟨n, as, bs⟩ := a
  simp only [name_mk] at h
  simp [h]

theorem unify_unknown_right (ha : a.name ≠ "_") (h : b.name = "_") : a.unify b = some a := by
  obtain ⟨n, as, bs⟩ := a
  simp only [name_mk] at ha
  simp [ha, h]

end Unknown

theorem unify_family_left (ha : family? a.name = some family) (hb : b.name ≠ "_") :
    a.unify b = if b.name = a.name ∨ b.name ∈ family then some b else none := by
  obtain ⟨n, as, bs⟩ := a
  have hn := ne_unknown_of_family? ha
  simp only [name_mk] at ha hn ⊢
  have hne : ¬floatLiteral = intLiteral := by decide
  have hint : intLiteral ∉ floatTypes := by decide
  rcases family?_eq_some ha with ⟨rfl, rfl⟩ | ⟨rfl, rfl⟩
  · simp only [unify, unifyLiteral, hn, hb, name_mk, if_false, if_true]
    congr 1
    simp
  · by_cases hi : b.name = intLiteral
    · rw [hi] at hb
      have hfloat : floatLiteral ∉ intTypes := by decide
      simp [unify, unifyLiteral, hn, hb, hne, Ne.symm hne, hi, hint, hfloat]
    · simp only [unify, unifyLiteral, hn, hb, hne, hi, name_mk, if_false, if_true]
      congr 1
      simp

theorem unify_family_right (ha : a.name ≠ "_") (ha' : family? a.name = none)
    (hb : family? b.name = some family) : a.unify b = if a.name ∈ family then some a else none := by
  obtain ⟨n, as, bs⟩ := a
  have hb' := ne_unknown_of_family? hb
  simp only [name_mk] at ha ha' ⊢
  have hi : ¬n = intLiteral := by rintro rfl; cases ha'
  have hf : ¬n = floatLiteral := by rintro rfl; cases ha'
  have hne : ¬floatLiteral = intLiteral := by decide
  rcases family?_eq_some hb with ⟨hl, rfl⟩ | ⟨hl, rfl⟩
  · rw [hl] at hb'
    by_cases hm : n ∈ intTypes <;> simp [unify, unifyLiteral, ha, hb', hi, hl, hm]
  · rw [hl] at hb'
    by_cases hm : n ∈ floatTypes <;> simp [unify, unifyLiteral, ha, hb', hi, hf, hl, hne, hm]

/-- The meet of what two types have at one place, where either may have nothing; nothing when the
parts conflict. -/
def meetPart : Option Ty → Option Ty → Option (Option Ty)
  | some t, some u => (t.unify u).map some
  | o, o' => some (o.or o')

@[simp] theorem meetPart_none_left (o : Option Ty) : meetPart none o = some o := by
  cases o <;> rfl

@[simp] theorem meetPart_none_right (o : Option Ty) : meetPart o none = some o := by
  cases o <;> rfl

@[simp] theorem meetPart_some (t u : Ty) : meetPart (some t) (some u) = (t.unify u).map some := rfl

theorem mem_meetPart {o o' r : Option Ty} (h : meetPart o o' = some r) {v : Ty} (hv : v ∈ r) :
    v ∈ o ∨ v ∈ o' ∨ ∃ t ∈ o, ∃ u ∈ o', t.unify u = some v := by
  cases hv
  cases o <;> cases o' <;> simp_all

theorem unifyArgs_cons (a b : Ty) (as bs : List Ty) : unifyArgs (a :: as) (b :: bs) =
    (a.unify b).bind fun m => (unifyArgs as bs).map (m :: ·) := by
  simp only [unifyArgs]
  cases a.unify b <;> cases unifyArgs as bs <;> rfl

theorem unifyArgs_eq_some_iff : ∀ {as bs ms : List Ty}, unifyArgs as bs = some ms ↔
    (bs.length = as.length ∧ ms.length = as.length) ∧
      ∀ i : Nat, meetPart as[i]? bs[i]? = some ms[i]?
  | [], [], ms => by cases ms <;> simp [unifyArgs]
  | a :: as, b :: bs, ms => by
    cases ms with
    | nil => cases h : a.unify b <;> simp [unifyArgs_cons, h]
    | cons m ms =>
      rw [unifyArgs_cons, ← Nat.and_forall_add_one]
      simp [Option.bind_eq_some_iff, @unifyArgs_eq_some_iff as bs ms]
      tauto
  | [], _ :: _, ms | _ :: _, [], ms => by simp [unifyArgs]

theorem exists_unifyArgs : ∀ {as bs : List Ty}, bs.length = as.length →
    (∀ i : Nat, (meetPart as[i]? bs[i]?).isSome) → ∃ ms, unifyArgs as bs = some ms
  | [], [], _, _ => ⟨[], rfl⟩
  | a :: as, b :: bs, hlength, h => by
    rw [← Nat.and_forall_add_one] at h
    obtain ⟨m, hm⟩ := Option.isSome_iff_exists.1 (Option.isSome_map ▸ h.1)
    have hlength : bs.length = as.length := by simpa using hlength
    obtain ⟨ms, hms⟩ := exists_unifyArgs hlength (by simpa using h.2)
    exact ⟨m :: ms, by simp [unifyArgs_cons, hm, hms]⟩

/-- The type is neither unknown nor a literal class. -/
structure IsPath (t : Ty) : Prop where
  known : t.name ≠ "_"
  solid : family? t.name = none

/-- What `m` is made of when `a` and `b` unify to it: their names mean the same, they have equally
many arguments, their parts meet place by place, and first come the names that `a` binds. -/
structure Merged (a b m : Ty) : Prop where
  canonical : canonicalName b.name = canonicalName a.name
  name : m.name = a.name
  lengths : b.args.length = a.args.length ∧ m.args.length = a.args.length
  keys : m.keys = a.keys ++ b.keys.filter fun x => x ∉ a.keys
  coherent : m.Coherent
  part : ∀ p, meetPart (a.piece? p) (b.piece? p) = some (m.piece? p)

variable {m : Ty}

theorem Merged.isPath (h : Merged a b m) (ha : a.IsPath) : m.IsPath :=
  ⟨h.name.symm ▸ ha.known, h.name.symm ▸ ha.solid⟩

theorem Merged.nodup (h : Merged a b m) (ha : a.keys.Nodup) (hb : b.keys.Nodup) : m.keys.Nodup := by
  rw [h.keys]
  refine ha.append (hb.filter _) fun x hx hx' => ?_
  simpa [hx] using (mem_filter.1 hx').2

theorem merged_self (hc : canonicalName b.name = canonicalName a.name)
    (hlength : b.args.length = a.args.length) (ha : a.Coherent)
    (hpart : ∀ p, ∀ u ∈ b.piece? p, ∃ t ∈ a.piece? p, t.unify u = some t) : Merged a b a := by
  refine ⟨hc, rfl, ⟨hlength, rfl⟩, ?_, ha, fun p => ?_⟩
  · have hnone : b.keys.filter (fun x => x ∉ a.keys) = [] := by
      refine filter_eq_nil_iff.2 fun x hx => ?_
      obtain ⟨u, hu⟩ := Option.isSome_iff_exists.1 (isSome_binding_iff.2 hx)
      obtain ⟨t, ht, -⟩ := hpart (.inr x) u hu
      have hmem : x ∈ a.keys := isSome_binding_iff.1 (Option.isSome_iff_exists.2 ⟨t, ht⟩)
      simp [hmem]
    rw [hnone, append_nil]
  · cases hu : b.piece? p with
    | none => rw [meetPart_none_right]
    | some u =>
      obtain ⟨t, ht, htu⟩ := hpart p u hu
      simp [Option.mem_def.1 ht, htu]

/-- What the name is bound to once both types agree on it. -/
def metBinding (a b : Ty) (x : String) : Option Ty := (meetPart (a.binding? x) (b.binding? x)).join

theorem lookup_unifyBindings (b : Ty) (x : String) : ∀ bs : List (String × Ty),
    x ∈ bs.map Prod.fst → ((unifyBindings bs b).lookup x).join = metBinding (mk "" [] bs) b x
  | (y, t) :: bs, hx => by
    simp only [unifyBindings, metBinding, binding?_mk, lookup_cons]
    cases hxy : x == y with
    | true =>
      obtain rfl : x = y := eq_of_beq hxy
      cases b.binding? x with
      | none => rfl
      | some u => cases h : t.unify u <;> simp [h]
    | false =>
      exact lookup_unifyBindings b x bs ((mem_cons.1 hx).resolve_left (by simpa using hxy))

section Path

variable {a b m : Ty} (ha : a.IsPath) (hb : b.IsPath)

include ha hb

/-- **Paths unify** when their names mean the same, their arguments unify one by one and their
common bindings do; the result keeps the spelling of the first. -/
theorem unify_path : a.unify b = some m ↔ canonicalName b.name = canonicalName a.name ∧
    (∀ x ∈ a.keys, (metBinding a b x).isSome) ∧ ∃ args, unifyArgs a.args b.args = some args ∧
      mk a.name args (tabulate (metBinding a b) (a.keys ++ b.keys.filter fun x => x ∉ a.keys)) =
        m := by
  have open_names : ∀ {c : Ty}, c.IsPath → ¬c.name = intLiteral ∧ ¬c.name = floatLiteral := by
    rintro ⟨c, _, _⟩ ⟨-, hc⟩
    constructor <;> rintro rfl <;> cases hc
  obtain ⟨n, as, bs⟩ := a
  have hn : ¬n = "_" := ha.known
  have hlit : ¬n = intLiteral ∧ ¬n = floatLiteral := open_names ha
  have hmet : ∀ x ∈ bs.map Prod.fst,
      ((unifyBindings bs b).lookup x).join = metBinding (mk n as bs) b x :=
    fun x => lookup_unifyBindings b x bs
  have hsome : (∀ x ∈ bs.map Prod.fst, (metBinding (mk n as bs) b x).isSome) ↔
      ∀ x ∈ bs.map Prod.fst, ((unifyBindings bs b).lookup x).join.isSome :=
    forall₂_congr fun x hx => by rw [hmet x hx]
  have hshared : ∀ shared, (bs.mapM fun p => ((unifyBindings bs b).lookup p.1).join.bind fun t =>
      some (p.1, t)) = some shared ↔ (∀ x ∈ bs.map Prod.fst, (metBinding (mk n as bs) b x).isSome) ∧
        tabulate (metBinding (mk n as bs) b) (bs.map Prod.fst) = shared := by
    intro shared
    rw [← tabulate_congr hmet, hsome, ← mapM_tabulate, mapM_map]
    simp only [Option.map_eq_bind, Function.comp_def]
  have hadded : (b.bindings.filterMap fun p =>
      if (bs.lookup p.1).isSome then none else (b.binding? p.1).map (p.1, ·)) =
      tabulate (metBinding (mk n as bs) b) (b.keys.filter fun x => x ∉ bs.map Prod.fst) := by
    rw [tabulate, filterMap_filter, keys, filterMap_map]
    refine filterMap_congr fun q _ => ?_
    have hbound := isSome_binding_iff (t := mk n as bs) (x := q.1)
    rw [binding?_mk, keys_mk] at hbound
    simp only [metBinding, binding?_mk, Function.comp_apply, decide_not, ← hbound]
    cases bs.lookup q.1 <;> simp
  by_cases hc : canonicalName b.name = canonicalName n
  · simp only [unify, unifyLiteral, name_mk, hn, hb.known, hlit, open_names hb, if_false, hc,
      ne_eq, not_true, Option.bind_eq_bind, Option.pure_def, hshared, hadded, keys_mk, args_mk,
      Option.bind_eq_some_iff, Option.some.injEq, true_and]
    rw [tabulate_append]
    constructor
    · rintro ⟨args, hargs, shared, ⟨hsome, rfl⟩, rfl⟩
      exact ⟨hsome, args, hargs, rfl⟩
    · rintro ⟨hsome, args, hargs, rfl⟩
      exact ⟨args, hargs, _, ⟨hsome, rfl⟩, rfl⟩
  · simp [unify, unifyLiteral, hn, hb.known, hlit, open_names hb, hc, Ne.symm hc]

theorem merged_of_unify (h : a.unify b = some m) : Merged a b m := by
  obtain ⟨hc, hsome, args, hargs, rfl⟩ := (unify_path ha hb).1 h
  obtain ⟨hlengths, hargs⟩ := unifyArgs_eq_some_iff.1 hargs
  -- the bindings of each name meet, and a name outside the keys is bound on neither side
  have hmet : ∀ x, meetPart (a.binding? x) (b.binding? x) = some (metBinding a b x) ∧
      (x ∈ a.keys ++ b.keys.filter (fun x => x ∉ a.keys) ↔ (metBinding a b x).isSome) := by
    intro x
    by_cases hx : x ∈ a.keys
    · obtain ⟨v, hv⟩ := Option.isSome_iff_exists.1 (hsome x hx)
      exact ⟨hv ▸ Option.join_eq_some_iff.1 hv, by simp [hx, hv]⟩
    · have hnone : a.binding? x = none := by
        rwa [← Option.not_isSome_iff_eq_none, isSome_binding_iff]
      simp [metBinding, hnone, hx, isSome_binding_iff]
  have hlookup :
      ∀ x, (tabulate (metBinding a b) (a.keys ++ b.keys.filter fun x => x ∉ a.keys)).lookup x =
      metBinding a b x := by
    intro x
    rw [lookup_tabulate, ite_eq_left_iff, (hmet x).2, Option.not_isSome_iff_eq_none]
    exact Eq.symm
  refine ⟨hc, rfl, hlengths, keys_tabulate fun x hx => (hmet x).2.1 hx, fun q hq => ?_, ?_⟩
  · exact (hlookup q.1).trans (mem_tabulate.1 hq).2
  · rintro (i | x)
    · exact hargs i
    · exact (hmet x).1.trans (congrArg some (hlookup x).symm)

theorem exists_unify (hc : canonicalName b.name = canonicalName a.name)
    (hlength : b.args.length = a.args.length)
    (hpart : ∀ p, (meetPart (a.piece? p) (b.piece? p)).isSome) : ∃ m, a.unify b = some m := by
  obtain ⟨args, hargs⟩ := exists_unifyArgs hlength fun i => hpart (.inl i)
  refine ⟨_, (unify_path ha hb).2 ⟨hc, fun x hx => ?_, args, hargs, rfl⟩⟩
  obtain ⟨t, ht⟩ := Option.isSome_iff_exists.1 (isSome_binding_iff.2 hx)
  have hmeet : (meetPart (a.binding? x) (b.binding? x)).isSome := hpart (.inr x)
  rw [metBinding]
  rw [ht] at hmeet ⊢
  cases hu : b.binding? x with
  | none => rfl
  | some u =>
    rw [hu, meetPart_some, Option.isSome_map, Option.isSome_iff_exists] at hmeet
    obtain ⟨v, hv⟩ := hmeet
    simp [hv]

end Path

/-- **Paths unify to what their parts make.** -/
theorem unify_path_iff (ha : a.IsPath) (hb : b.IsPath) : a.unify b = some m ↔ Merged a b m := by
  refine ⟨merged_of_unify ha hb, fun h => ?_⟩
  obtain ⟨m', hm'⟩ := exists_unify ha hb h.canonical h.lengths.1 fun p => by
    rw [h.part p]
    rfl
  have h' := merged_of_unify ha hb hm'
  rw [hm', eq_of_parts h'.coherent h.coherent (h'.name.trans h.name.symm)
    (h'.keys.trans h.keys.symm) fun p => Option.some.inj ((h'.part p).symm.trans (h.part p))]

theorem unify_cases (h : a.unify b = some m) : ¬a.IsPath ∧ m = b ∨ m = a ∨ a.IsPath ∧ b.IsPath ∧
    Merged a b m := by
  by_cases ha : a.name = "_"
  · rw [unify_unknown_left ha] at h
    exact .inl ⟨fun hp => hp.known ha, (Option.some.inj h).symm⟩
  by_cases hb : b.name = "_"
  · rw [unify_unknown_right ha hb] at h
    exact .inr (.inl (Option.some.inj h).symm)
  cases haf : family? a.name with
  | some family =>
    rw [unify_family_left haf hb] at h
    split at h <;> cases h
    have hnot : ¬a.IsPath := fun hp => by
      rw [hp.solid] at haf
      cases haf
    exact .inl ⟨hnot, rfl⟩
  | none =>
    cases hbf : family? b.name with
    | some family =>
      rw [unify_family_right ha haf hbf] at h
      split at h <;> cases h
      exact .inr (.inl rfl)
    | none => exact .inr (.inr ⟨⟨ha, haf⟩, ⟨hb, hbf⟩, merged_of_unify ⟨ha, haf⟩ ⟨hb, hbf⟩ h⟩)

theorem name_ne_of_unify (ha : a.name ≠ "_") (hb : b.name ≠ "_") (h : a.unify b = some m) :
    m.name ≠ "_" := by
  rcases unify_cases h with ⟨-, rfl⟩ | rfl | ⟨-, -, hm⟩
  · exact hb
  · exact ha
  · exact hm.name.symm ▸ ha

theorem Throughout.unify {P : Ty → Prop} (hP : ∀ {a b m}, Merged a b m → P a → P b → P m) (a : Ty) :
    a.Throughout P → ∀ {b : Ty}, b.Throughout P → ∀ {m : Ty}, a.unify b = some m →
      m.Throughout P := by
  induction a using induct_piece? with
  | step a ih =>
    intro ha b hb m h
    rcases unify_cases h with ⟨-, rfl⟩ | rfl | ⟨-, -, hm⟩
    · exact hb
    · exact ha
    refine hm.coherent.throughout (hP hm (throughout_iff.1 ha).1 (throughout_iff.1 hb).1)
      fun p v hv => ?_
    obtain hv | hv | ⟨t, ht, u, hu, htu⟩ := mem_meetPart (hm.part p) hv
    · exact ha.part hv
    · exact hb.part hv
    · exact ih p t ht (ha.part ht) (hb.part hu) htu

theorem Plain.unify (ha : a.Plain) (hb : b.Plain) (h : a.unify b = some m) : m.Plain := by
  rw [plain_iff_throughout] at *
  refine Throughout.unify (fun hm ha hb => ⟨fun hn => ?_, hm.nodup ha.2 hb.2⟩) a ha hb h
  -- a merged type has the name and as many arguments as the first
  rw [hm.name] at hn ⊢
  obtain ⟨hq, hargs⟩ := ha.1 hn
  have hlength := hm.lengths.2
  rw [hargs, length_nil, length_eq_zero_iff] at hlength
  exact ⟨hq, hlength⟩

/-! ## Idempotence -/

/-- **A type unified with itself is itself.** -/
theorem unify_self (a : Ty) : a.Regular → a.unify a = some a := by
  induction a using induct_piece? with
  | step a ih =>
    intro ha
    by_cases hn : a.name = "_"
    · exact unify_unknown_left hn a
    cases hf : family? a.name with
    | some family => simp [unify_family_left hf hn]
    | none =>
      refine (unify_path_iff ⟨hn, hf⟩ ⟨hn, hf⟩).2
        (merged_self rfl rfl (coherent_of_nodup (throughout_iff.1 ha).1.1) fun p u hu => ?_)
      exact ⟨u, hu, ih p u hu (ha.part hu)⟩

/-! ## Associativity -/

/-- Unifying three types in either way has one result, or none. -/
def Associates (a b c : Ty) : Prop := (a.unify b).bind (·.unify c) = (b.unify c).bind a.unify

theorem meetPart_assoc {o o' o'' : Option Ty}
    (h : ∀ t ∈ o, ∀ u ∈ o', ∀ v ∈ o'', Associates t u v) :
    (meetPart o o').bind (meetPart · o'') = (meetPart o' o'').bind (meetPart o ·) := by
  cases o with
  | none => simp
  | some t =>
    cases o' with
    | none => simp
    | some u =>
      cases o'' with
      | none => simp
      | some v =>
        have htuv : (t.unify u).bind (·.unify v) = (u.unify v).bind t.unify := h t rfl u rfl v rfl
        simpa [Option.bind_map, Function.comp_def, Option.map_bind] using
          congrArg (Option.map some) htuv

theorem Regular.mem_family (hb : b.Regular) (hn : family? n = some family)
    (hc : canonicalName b.name = canonicalName a.name) (ha : a.name ∈ family) :
    b.name ∈ family := by
  have hmem := mem_numbers hn ha
  have hname : canonicalName b.name = a.name := hc.trans (canonicalName_number _ hmem)
  have hb' := hb.name_eq (hname ▸ hmem)
  rwa [← hb', hname]

theorem not_mem_family {family' : List String} (hn : family? n = some family)
    (hb : family? b.name = some family') : b.name ∉ family :=
  fun hmem => by
    rw [family?_number _ (mem_numbers hn hmem)] at hb
    cases hb

theorem takes_iff {c : Ty} (hn : family? n = some family) (hb : b.name ≠ "_") (hc : c.name ≠ "_")
    (h : b.unify c = some m) : m.name = n ∨ m.name ∈ family ↔ b.name = n ∨ b.name ∈ family := by
  cases hbf : family? b.name with
  | some family' =>
    rw [unify_family_left hbf hc] at h
    split at h
    · next htakes =>
      cases h
      have hnot := not_mem_family hn hbf
      constructor
      · rintro (rfl | hmem)
        · -- `c` is named by a class and taken by the class of `b`, so it is that class
          rcases htakes with he | hmem
          · exact .inl he.symm
          · exact absurd hmem (not_mem_family hbf hn)
        · rcases htakes with he | hmem'
          · exact absurd (he ▸ hmem) hnot
          · exact .inl (family?_disjoint hbf hn hmem' hmem)
      · rintro (rfl | hmem)
        · rw [hn] at hbf
          cases hbf
          exact htakes
        · exact absurd hmem hnot
    · cases h
  | none =>
    have hname : m.name = b.name := by
      cases hcf : family? c.name with
      | some family' =>
        rw [unify_family_right hb hbf hcf] at h
        split at h <;> cases h
        rfl
      | none => exact (merged_of_unify ⟨hb, hbf⟩ ⟨hc, hcf⟩ h).name
    rw [hname]

section Associative

variable {a b c : Ty} (ha : a.Regular) (hb : b.Regular) (hc : c.Regular)
  (hna : a.name ≠ "_") (hnb : b.name ≠ "_") (hnc : c.name ≠ "_")

include hnb hnc in
theorem associates_family_left (hf : family? a.name = some family) : Associates a b c := by
  rw [Associates, unify_family_left hf hnb]
  cases h : b.unify c with
  | none => split <;> simp [h]
  | some m =>
    rw [Option.bind_some, unify_family_left hf (name_ne_of_unify hnb hnc h)]
    simp only [takes_iff hf hnb hnc h]
    split <;> simp [h]

include ha hc hna hnc in
theorem associates_family_middle (haf : family? a.name = none) (hf : family? b.name = some family) :
    Associates a b c := by
  rw [Associates, unify_family_right hna haf hf, unify_family_left hf hnc]
  -- where `a` and `c` unify, both are taken by the class or neither is
  have hboth : ∀ m, a.unify c = some m →
      (a.name ∈ family ↔ c.name = b.name ∨ c.name ∈ family) := by
    intro m hm
    cases hcf : family? c.name with
    | some family' =>
      rw [unify_family_right hna haf hcf] at hm
      split at hm
      · next hmem =>
        constructor
        · exact fun hmem' => .inl (family?_disjoint hcf hf hmem hmem')
        · rintro (he | hmem')
          · rw [he, hf] at hcf
            cases hcf
            exact hmem
          · exact absurd hmem' (not_mem_family hf hcf)
      · cases hm
    | none =>
      have hmerged := merged_of_unify ⟨hna, haf⟩ ⟨hnc, hcf⟩ hm
      constructor
      · exact fun hmem => .inr (hc.mem_family hf hmerged.canonical hmem)
      · rintro (he | hmem)
        · rw [he, hf] at hcf
          cases hcf
        · exact ha.mem_family hf hmerged.canonical.symm hmem
  cases hm : a.unify c with
  | none => split <;> split <;> simp [hm]
  | some m =>
    simp only [hboth m hm]
    split <;> simp [hm]

include ha hb hna hnb in
theorem associates_family_right (haf : family? a.name = none) (hbf : family? b.name = none)
    (hf : family? c.name = some family) : Associates a b c := by
  rw [Associates, unify_family_right hnb hbf hf]
  cases h : a.unify b with
  | none => split <;> simp [h]
  | some m =>
    have hmerged := merged_of_unify ⟨hna, haf⟩ ⟨hnb, hbf⟩ h
    have hpath := hmerged.isPath ⟨hna, haf⟩
    have hmem : a.name ∈ family ↔ b.name ∈ family :=
      ⟨hb.mem_family hf hmerged.canonical, ha.mem_family hf hmerged.canonical.symm⟩
    rw [Option.bind_some, unify_family_right hpath.known hpath.solid hf, hmerged.name]
    simp only [hmem]
    split <;> simp [h]

end Associative

theorem filter_append_filter (ks ls ms : List String) :
    (ks ++ ls.filter fun x => x ∉ ks) ++ ms.filter (fun x => x ∉ ks ++ ls.filter fun x => x ∉ ks) =
      ks ++ (ls ++ ms.filter fun x => x ∉ ls).filter fun x => x ∉ ks := by
  rw [filter_append, filter_filter, append_assoc]
  refine congrArg (ks ++ ·) (congrArg (ls.filter _ ++ ·) (filter_congr fun x _ => ?_))
  by_cases hk : x ∈ ks <;> simp [hk]

section Paths

variable {a b c : Ty}
  (hpart : ∀ p, ∀ t ∈ a.piece? p, ∀ u ∈ b.piece? p, ∀ v ∈ c.piece? p, Associates t u v)

include hpart

/-- What the two ways of merging three paths lead to is made of the same parts. -/
theorem merged_assoc {m' r : Ty} (hm : Merged a b m) (hm' : Merged b c m') : Merged m c r ↔
    Merged a m' r := by
  have part := fun p => meetPart_assoc (hpart p)
  simp only [hm.part, hm'.part, Option.bind_some] at part
  have keys := filter_append_filter a.keys b.keys c.keys
  rw [← hm.keys, ← hm'.keys] at keys
  obtain ⟨hlb, hlm⟩ := hm.lengths
  obtain ⟨hlc, hlm'⟩ := hm'.lengths
  constructor
  · intro h
    exact ⟨by rw [hm'.name, hm.canonical], h.name.trans hm.name,
      ⟨hlm'.trans hlb, h.lengths.2.trans hlm⟩,
      h.keys.trans keys, h.coherent, fun p => part p ▸ h.part p⟩
  · intro h
    exact ⟨by rw [hm'.canonical, hm.canonical, hm.name], h.name.trans hm.name.symm,
      ⟨(hlc.trans hlb).trans hlm.symm, h.lengths.2.trans hlm.symm⟩, h.keys.trans keys.symm,
        h.coherent,
      fun p => (part p).symm ▸ h.part p⟩

theorem associates_path (hpa : a.IsPath) (hpb : b.IsPath) (hpc : c.IsPath) : Associates a b c := by
  have part := fun p => meetPart_assoc (hpart p)
  refine Option.ext fun r => ?_
  simp only [Option.bind_eq_some_iff]
  constructor
  · rintro ⟨m, hm, hr⟩
    have hm := merged_of_unify hpa hpb hm
    have hr := merged_of_unify (hm.isPath hpa) hpc hr
    -- the parts of `b` and `c` meet, since those of all three do
    obtain ⟨m', hm'⟩ := exists_unify hpb hpc (by rw [hr.canonical, hm.name, hm.canonical])
      (by rw [hr.lengths.1, hm.lengths.2, hm.lengths.1]) fun p =>
        Option.isSome_of_isSome_bind (f := meetPart (a.piece? p))
          (by rw [← part, hm.part, Option.bind_some, hr.part]; rfl)
    have hmerged := merged_of_unify hpb hpc hm'
    exact ⟨m', hm',
      (unify_path_iff hpa (hmerged.isPath hpb)).2 ((merged_assoc hpart hm hmerged).1 hr)⟩
  · rintro ⟨m', hm', hr⟩
    have hm' := merged_of_unify hpb hpc hm'
    have hr := merged_of_unify hpa (hm'.isPath hpb) hr
    obtain ⟨m, hm⟩ := exists_unify hpa hpb (by rw [← hr.canonical, hm'.name])
      (by rw [← hr.lengths.1, hm'.lengths.2]) fun p =>
        Option.isSome_of_isSome_bind (f := (meetPart · (c.piece? p)))
          (by rw [part, hm'.part, Option.bind_some, hr.part]; rfl)
    have hmerged := merged_of_unify hpa hpb hm
    exact ⟨m, hm,
      (unify_path_iff (hmerged.isPath hpa) hpc).2 ((merged_assoc hpart hmerged hm').2 hr)⟩

end Paths

/-- **Unification is associative**: the order in which three types are unified does not matter. -/
theorem unify_assoc (a : Ty) :
    a.Regular → ∀ {b c : Ty}, b.Regular → c.Regular → Associates a b c := by
  induction a using induct_piece? with
  | step a ih =>
    intro ha b c hb hc
    by_cases hna : a.name = "_"
    · rw [Associates, unify_unknown_left hna, Option.bind_some,
        show a.unify = some from funext (unify_unknown_left hna)]
      simp
    by_cases hnb : b.name = "_"
    · rw [Associates, unify_unknown_right hna hnb, unify_unknown_left hnb, Option.bind_some,
        Option.bind_some]
    by_cases hnc : c.name = "_"
    · rw [Associates, unify_unknown_right hnb hnc, Option.bind_some]
      cases h : a.unify b with
      | none => rfl
      | some m => exact unify_unknown_right (name_ne_of_unify hna hnb h) hnc
    cases haf : family? a.name with
    | some family => exact associates_family_left hnb hnc haf
    | none =>
      cases hbf : family? b.name with
      | some family => exact associates_family_middle ha hc hna hnc haf hbf
      | none =>
        cases hcf : family? c.name with
        | some family => exact associates_family_right ha hb hna hnb haf hbf hcf
        | none =>
          exact associates_path (fun p t ht u hu v hv => ih p t ht (ha.part ht) (hb.part hu)
            (hc.part hv)) ⟨hna, haf⟩ ⟨hnb, hbf⟩ ⟨hnc, hcf⟩

/-! ## Refinement -/

/-- A type **refines** those whose unification with it changes nothing. -/
def Refines (t a : Ty) : Prop := t.unify a = some t

/-- Nothing inside the type is left open. -/
def Closed (t : Ty) : Prop := t.Throughout IsPath

/-- Where unification with `a` and then with `b` leads back to `t`, the first changes nothing. -/
def Returns (t a b : Ty) : Prop := ∀ s, t.unify a = some s → s.unify b = some t → s = t

theorem meetPart_returns {o o' o'' r : Option Ty}
    (h : ∀ t ∈ o, ∀ a ∈ o', ∀ b ∈ o'', Returns t a b) (hr : meetPart o o' = some r)
    (ho : meetPart r o'' = some o) : r = o := by
  cases o with
  | none =>
    cases r with
    | none => rfl
    | some s => cases o'' <;> simp at ho
  | some t =>
    cases o' with
    | none => exact (Option.some.inj hr).symm
    | some a =>
      obtain ⟨s, hs, rfl⟩ := Option.map_eq_some_iff.1 hr
      cases o'' with
      | none => exact Option.some.inj ho
      | some b =>
        obtain ⟨t', ht, heq⟩ := Option.map_eq_some_iff.1 ho
        cases heq
        exact congrArg some (h t rfl a rfl b rfl s hs ht)

theorem Closed.returns (t : Ty) : t.Closed → ∀ {a b : Ty}, Returns t a b := by
  induction t using induct_piece? with
  | step t ih =>
    intro hc a b s hs hback
    have hpath := (throughout_iff.1 hc).1
    rcases unify_cases hs with ⟨hnot, -⟩ | rfl | ⟨-, -, hm⟩
    · exact absurd hpath hnot
    · rfl
    rcases unify_cases hback with ⟨hnot, -⟩ | h | ⟨-, -, hm'⟩
    · exact absurd (hm.isPath hpath) hnot
    · exact h.symm
    refine eq_of_parts hm.coherent hm'.coherent hm.name ?_ fun p =>
      meetPart_returns (fun u hu v _ w _ => ih p u hu (hc.part hu)) (hm.part p) (hm'.part p)
    -- each list of names starts with the other
    have hle : s.keys <+: t.keys := ⟨_, hm'.keys.symm⟩
    have hge : t.keys <+: s.keys := ⟨_, hm.keys.symm⟩
    exact hle.sublist.antisymm hge.sublist

/-- **Unification is a meet**: a type that leaves nothing open refines two types exactly when they
unify and it refines what they unify to. -/
theorem refines_iff (hc : t.Closed) (ht : t.Regular) (ha : a.Regular) (hb : b.Regular) :
    t.Refines a ∧ t.Refines b ↔ ∃ m, a.unify b = some m ∧ t.Refines m := by
  have assoc : (t.unify a).bind (·.unify b) = (a.unify b).bind t.unify := unify_assoc t ht ha hb
  constructor
  · rintro ⟨hta, htb⟩
    rw [hta, Option.bind_some, htb] at assoc
    exact Option.bind_eq_some_iff.1 assoc.symm
  · rintro ⟨m, hm, htm⟩
    rw [hm, Option.bind_some, htm] at assoc
    obtain ⟨s, hs, hback⟩ := Option.bind_eq_some_iff.1 assoc
    obtain rfl := hc.returns t s hs hback
    exact ⟨hs, hback⟩

theorem closed_ofName (hq : isQualified n = false) (hp : (ofName n).IsPath) : (ofName n).Plain ∧
    (ofName n).Closed :=
  ⟨plain_iff.2 ⟨fun _ => ⟨hq, rfl⟩, by simp, by simp, by simp⟩,
    throughout_iff.2 ⟨hp, forall_mem_nil _, forall_mem_nil _⟩⟩

/-- **Every plainly spelled type is refined by one that leaves nothing open.** -/
theorem exists_refines (a : Ty) : a.Plain → ∃ t : Ty, t.Plain ∧ t.Closed ∧ t.Refines a := by
  induction a using induct_parts with
  | step n as bs ihas ihbs =>
    intro ha
    by_cases hn : n = "_"
    · obtain ⟨hp, hc⟩ := closed_ofName (n := "()") (by decide) ⟨by decide, by decide⟩
      exact ⟨_, hp, hc, unify_unknown_right (by decide) hn⟩
    cases hf : family? n with
    | some family =>
      -- a literal class is refined by each of its members
      obtain ⟨m, hq, hm, hmem⟩ : ∃ m, isQualified m = false ∧ (ofName m).IsPath ∧ m ∈ family := by
        rcases family?_eq_some hf with ⟨-, rfl⟩ | ⟨-, rfl⟩
        · exact ⟨"i8", by decide, ⟨by decide, by decide⟩, by decide⟩
        · exact ⟨"f32", by decide, ⟨by decide, by decide⟩, by decide⟩
      obtain ⟨hp, hc⟩ := closed_ofName hq hm
      exact ⟨_, hp, hc, (unify_family_right (b := mk n as bs) hm.1 hm.2 hf).trans (if_pos hmem)⟩
    | none =>
      have hpath : ∀ as bs, (mk n as bs).IsPath := fun _ _ => ⟨hn, hf⟩
      obtain ⟨hnum, hnodup, has, hbs⟩ := plain_iff.1 ha
      choose! f hplain hclosed hrefines using fun a hm => ihas a hm (has a hm)
      choose! g hplain' hclosed' hrefines' using fun b hm => ihbs b hm (hbs b hm)
      have hkeys : ((bs.map fun b => (b.1, g b)).map Prod.fst).Nodup := by rwa [map_map]
      refine ⟨mk n (as.map f) (bs.map fun b => (b.1, g b)),
        plain_iff.2 ⟨fun h => ?_, hkeys, ?_, ?_⟩, throughout_iff.2 ⟨hpath _ _, ?_, ?_⟩, ?_⟩
      · obtain ⟨hq, rfl⟩ := hnum h
        exact ⟨hq, rfl⟩
      · exact forall_mem_map.2 hplain
      · exact forall_mem_map.2 hplain'
      · exact forall_mem_map.2 hclosed
      · exact forall_mem_map.2 hclosed'
      · have hcoherent : (mk n (as.map f) (bs.map fun b => (b.1, g b))).Coherent :=
          coherent_of_nodup hkeys
        refine (unify_path_iff (hpath _ _) (hpath _ _)).2
          (merged_self rfl (by simp) hcoherent fun p u hu => ?_)
        cases p with
        | inl i =>
          have hi : as[i]? = some u := hu
          exact ⟨f u, by simp [piece?, hi], hrefines u (mem_of_getElem? hi)⟩
        | inr x =>
          obtain ⟨before, after, hmem, -⟩ := lookup_eq_some_iff.1 hu
          have hmem : (x, u) ∈ bs := by simp [show bs = _ from hmem]
          exact ⟨g (x, u), hcoherent _ (mem_map_of_mem hmem), hrefines' _ hmem⟩

end Yielding.Ty
