import Yielding.Proofs.Matching.Parts
import Yielding.Proofs.Scoping.Emission

/-!
# Proofs/Matching/Agreement — all forms of a pattern agree

A pattern is written in three ways: as tests with assignments behind them, as a case, and as a
target.  On values of its shape the tests decide what the case decides, and assignments and case
give each name the part that the pattern takes (`forms_agree`).  A target does so, too, except where
`()` stands among the items of a tuple pattern: it does not take `None` apart (`target_agrees`).
-/

namespace Yielding

open List Matching Script Scoping

/-- The values of the variables that are set. -/
abbrev Matching.Env := String → Option Datum

def Matching.Env.setAll (ρ : Env) (bound : List (String × Datum)) : Env :=
  bound.foldl (fun ρ b => Function.update ρ b.1 (some b.2)) ρ

namespace Pattern

mutual

/-- Whether `()` stands in a pattern. -/
def hasUnit : Pattern → Bool
  | variant _ _ inner => inner.hasUnit
  | tuple _ items => items.isEmpty || anyUnit items
  | _ => false

def anyUnit : List Pattern → Bool
  | [] => false
  | p :: ps => p.hasUnit || anyUnit ps

end

theorem hasUnit_rest {p : Pattern} (hp : p.isRest = true) : p.hasUnit = false := by
  cases p with
  | rest r => simp [hasUnit]
  | _ => cases hp

end Pattern

namespace Script

variable (s : Store) (ρ : Env)

/-! ## Running what is written -/

/-- The integer that a text stands for. -/
def readInt (text : String) : Int :=
  match text.toList with
  | '-' :: ds => -Nat.ofDigitChars 10 ds 0
  | ds => Nat.ofDigitChars 10 ds 0

/-- The value of a term made of names, integers, attributes and items, unless its evaluation
fails. -/
def Term.eval : Term → Option Datum
  | .name x => ρ x
  | .literal text => some (.int (readInt text))
  | .attr t a => t.eval.bind fun d => (d.attr a).toOption
  | .item t i => t.eval.bind fun d => i.eval.bind fun key => (d.item s key).toOption
  | _ => none

def Test.eval : Test → Option Bool
  | equals t l => (t.eval s ρ).map (·.equal s l.datum)
  | isNone t => (t.eval s ρ).map Datum.isNone
  | isVariant t v => (t.eval s ρ).map fun d => (v.payload? d).isSome

/-- Whether all tests hold, the first ones first. -/
def Test.evalAll : List Test → Option Bool
  | [] => some true
  | t :: ts => (t.eval s ρ).bind fun holds => if holds then evalAll ts else some false

/-- Runs assignments to names. -/
def runAssigns : Env → List Code → Option Env
  | ρ, [] => some ρ
  | ρ, .line (.assign (.name x) t) :: code =>
    (t.eval s ρ).bind fun d => runAssigns (Function.update ρ x (some d)) code
  | _, _ => none

/-- Literals are compared by value, but `True`, `False` and `None` are recognized. -/
def caseHolds : Literal → Datum → Bool
  | .bool a, .bool b => a = b
  | .unit, d => d.isNone
  | .bool _, _ => false
  | l, d => d.equal s l.datum

def Case.isRest : Case → Bool
  | rest => true
  | _ => false

/-- The elements of a sequence. -/
def sequence? : Datum → Option (List Datum)
  | .tuple ds => some ds
  | .list r => some (s.listAt r)
  | .range a b => some ((range (Datum.rangeLength a b)).map fun i => .int (a + i))
  | _ => none

mutual

/-- What a case binds, if the value matches it. -/
def Case.match? : Case → Datum → Option (List (String × Datum))
  | .bind x, d => some [(x, d)]
  | .skip, _ | .rest, _ => some []
  | .none, d => if d.isNone then some [] else Option.none
  | .literal l, d => if caseHolds s l d then some [] else Option.none
  | .variant v inner, d => (v.payload? d).bind (Case.match? inner)
  | .tuple cs, d => (sequence? s d).bind fun ds =>
    if fits (cs.any Case.isRest) cs.length ds.length then Case.rowMatch? 0 cs ds else Option.none

def Case.rowMatch? (i : ℕ) : List Case → List Datum → Option (List (String × Datum))
  | [], _ => some []
  | c :: cs, ds =>
    if c.isRest then Case.rowMatch? (ds.length - cs.length) cs ds
    else ds[i]?.bind fun d => (Case.match? c d).bind fun bound =>
      (Case.rowMatch? (i + 1) cs ds).map (bound ++ ·)

end

def Target.isRest : Target → Bool
  | rest => true
  | _ => false

def iterated? : Datum → Option (List Datum)
  | .str text => some (text.toList.map fun c => .str c.toString)
  | d => sequence? s d

mutual

/-- What an assignment to a target binds, unless it fails. -/
def Target.assign? : Target → Datum → Option (List (String × Datum))
  | .name x, d => some [(x, d)]
  | .skip, _ | .rest, _ => some []
  | .tuple ts, d => (iterated? s d).bind fun ds =>
    if fits (ts.any Target.isRest) ts.length ds.length then Target.rowAssign? 0 ts ds else none

def Target.rowAssign? (i : ℕ) : List Target → List Datum → Option (List (String × Datum))
  | [], _ => some []
  | t :: ts, ds =>
    if t.isRest then Target.rowAssign? (ds.length - ts.length) ts ds
    else ds[i]?.bind fun d => (Target.assign? t d).bind fun bound =>
      (Target.rowAssign? (i + 1) ts ds).map (bound ++ ·)

end

/-! ## Subjects -/

variable {s ρ} {x : String} {v d d' : Datum} {t : Term}

theorem readInt_toString (k : Int) : readInt (toString k) = k := by
  unfold readInt
  cases k with
  | ofNat n =>
    rw [Int.toString_eq_repr, Int.repr, Nat.toList_repr]
    split
    · next ds h =>
      have hdigit :=
        Nat.isDigit_of_mem_toDigits (b := 10) (n := n) (by decide) (by decide) (h ▸ mem_cons_self)
      cases hdigit
    · rw [Nat.ofDigitChars_ten_toDigits]
      rfl
  | negSucc n =>
    have htext : (toString (Int.negSucc n)).toList = '-' :: Nat.toDigits 10 (n + 1) := by
      rw [Int.toString_eq_repr, Int.repr]
      simp [Nat.toList_repr]
    simp only [htext, Nat.ofDigitChars_ten_toDigits]
    rfl

variable (s x v) in
/-- The term reads the value `d` off the variable `x`, whose value is `v`. -/
def Reads (t : Term) (d : Datum) : Prop := ∀ ρ : Env, ρ x = some v → t.eval s ρ = some d

theorem Reads.name : Reads s x v (.name x) v := fun _ h => h

theorem Reads.payload {k : Variant} (h : Reads s x v t d) (hd : k.payload? d = some d') :
    Reads s x v (.attr t (payloadName k)) d' := by
  intro ρ hρ
  rw [Term.eval, h ρ hρ]
  cases k <;> cases d <;> first | cases hd; rfl | cases hd

theorem Reads.component {ds : List Datum} {i : ℕ} {k : Int} (h : Reads s x v t (.tuple ds))
    (hk : (if k < 0 then k + ds.length else k) = i) (hd : ds[i]? = some d) :
    Reads s x v (.component t k) d := by
  intro ρ hρ
  have hkey : (Term.literal (toString k)).eval s ρ = some (.int k) := by
    rw [Term.eval, readInt_toString]
  have hat : Datum.elementAt? ds k = some d := by
    rw [Datum.elementAt?, hk]
    simpa using hd
  rw [Term.component, Term.eval, h ρ hρ, hkey]
  simp [Datum.item, Datum.integer?, Datum.sequenceAt?, hat, Except.toOption]

/-! ## Tests -/

theorem Test.evalAll_append {as bs : List Test} {a b : Bool} (ha : evalAll s ρ as = some a)
    (hb : evalAll s ρ bs = some b) : evalAll s ρ (as ++ bs) = some (a && b) := by
  induction as with
  | nil =>
    obtain rfl := Option.some.inj ha
    exact hb
  | cons t ts ih =>
    obtain ⟨holds, ht, ha⟩ := Option.bind_eq_some_iff.1 ha
    rw [cons_append, evalAll, ht]
    cases holds with
    | true => exact ih ha
    | false =>
      obtain rfl := Option.some.inj ha
      rfl

mutual

/-- **The tests of a pattern hold if it matches**, on a value of its shape. -/
theorem evalAll_patternTests (hρ : ρ x = some v) :
    ∀ {p : Pattern} {t : Term} {d : Datum}, p.IsProper →
    p.Shaped d → Reads s x v t d → Test.evalAll s ρ (patternTests p t) = some (p.take? s d).isSome
  | .bind .., _, _, _, _, _ | .wildcard _, _, _, _, _, _ => by
    rw [patternTests, Pattern.take?] <;> first | rfl | nofun
  | .rest _, _, _, hp, _, _ => hp.elim
  | .noneVariant _, t, d, _, _, ht => by
    cases hd : d.isNone <;> simp [patternTests, Pattern.take?, Test.evalAll, Test.eval, ht ρ hρ, hd]
  | .literal _ l, t, d, _, _, ht => by
    cases hd : d.equal s l.datum <;> simp [patternTests, Pattern.take?, Test.evalAll, Test.eval,
      ht ρ hρ, hd]
  | .variant _ k inner, t, d, hp, hd, ht => by
    cases hk : k.payload? d with
    | none => simp [patternTests, Pattern.take?, Test.evalAll, Test.eval, ht ρ hρ, hk]
    | some d' =>
      have hinner := evalAll_patternTests hρ (p := inner) hp (hd d' hk) (ht.payload hk)
      simp [patternTests, Pattern.take?, Test.evalAll, Test.eval, ht ρ hρ, hk, hinner]
  | .tuple _ items, t, d, hp, hd, ht => by
    rw [patternTests, Pattern.take?]
    rw [Pattern.Shaped] at hd
    split at hd
    · next hempty =>
      rw [if_pos hempty, isEmpty_iff.1 hempty]
      rfl
    · next hempty =>
      obtain ⟨ds, rfl, hfits, hds⟩ := hd
      rw [if_neg hempty, evalAll_rowTests hρ hp.2 hds ht (Pattern.placed hp.1 hfits)]
      simp [Datum.elements?, hfits]

theorem evalAll_rowTests (hρ : ρ x = some v) :
    ∀ {i : ℕ} {ps : List Pattern} {ks : List (Option Int)} {t : Term}
    {ds : List Datum}, Pattern.rowProper ps → Pattern.rowShaped i ps ds →
    Reads s x v t (.tuple ds) →
    Pattern.Aligned (Pattern.IsPlaceOf ds.length) ds.length i ps ks →
    Test.evalAll s ρ (rowTests ps ks t) = some (Pattern.rowTake? s i ps ds).isSome
  | _, [], _, _, _, _, _, _, hks => by
    cases hks
    rfl
  | i, p :: ps, _, t, ds, hp, hd, ht, hks => by
    rw [Pattern.rowShaped] at hd
    rw [Pattern.rowTake?]
    cases hks with
    | rest hrest hk hks =>
      obtain rfl := hk
      rw [if_pos hrest] at hd ⊢
      rw [rowTests]
      exact evalAll_rowTests hρ hp.2 hd ht hks
    | item hrest hk hks =>
      obtain ⟨k, rfl, hk⟩ := hk
      rw [hrest, if_neg Bool.false_ne_true] at hd ⊢
      obtain ⟨⟨d, hi, hshaped⟩, hd⟩ := hd
      rw [rowTests, hi,
        Test.evalAll_append (evalAll_patternTests hρ (hp.1 hrest) hshaped (ht.component hk hi))
        (evalAll_rowTests hρ hp.2 hd ht hks)]
      cases htake : p.take? s d <;> simp [htake]

end

/-! ## Names -/

/-- Binds names one by one. -/
def Names.bindAll (ns : Names) : List (String × Region) → List String × Names
  | [] => ([], ns)
  | (name, _) :: names =>
    let (x, ns) := ns.bind name false
    let (xs, ns) := ns.bindAll names
    (x :: xs, ns)

section BindAll

variable {ns : Names} {names : List (String × Region)}

theorem Names.bindAll_append (names' : List (String × Region)) : ns.bindAll (names ++ names') =
    ((ns.bindAll names).1 ++ ((ns.bindAll names).2.bindAll names').1,
      ((ns.bindAll names).2.bindAll names').2) := by
  induction names generalizing ns with
  | nil => rfl
  | cons name names ih =>
    simp only [cons_append, bindAll, ih]

theorem Names.length_bindAll : (ns.bindAll names).1.length = names.length := by
  induction names generalizing ns with
  | nil => rfl
  | cons name names ih => simp only [bindAll, length_cons, ih]

variable (names) in
theorem Names.bindAll_fresh (h : x ∈ ns.used) : x ∉ (ns.bindAll names).1 ∧
    x ∈ (ns.bindAll names).2.used := by
  induction names generalizing ns with
  | nil => exact ⟨nofun, h⟩
  | cons name names ih =>
    have hne : x ≠ (ns.bind name.1 false).1 := fun heq => firstUnused_notMem _ _ _ (heq ▸ h)
    have hused : x ∈ (ns.bind name.1 false).2.used := mem_cons_of_mem _ h
    have hrest := ih hused
    exact ⟨not_mem_cons_of_ne_of_not_mem hne hrest.1, hrest.2⟩

end BindAll

/-! ## Cases -/

/-- The names with the parts that they take. -/
def bound (xs : List String) (es : List (List Step × Datum)) : List (String × Datum) :=
    xs.zip (es.map Prod.snd)

theorem bound_append {ns : Names} {names names' : List (String × Region)}
    {es es' : List (List Step × Datum)}
    (h : es.length = names.length) (step : Step) : bound (ns.bindAll (names ++ names')).1
      (es.map (fun e => (step :: e.1, e.2)) ++ es') =
      bound (ns.bindAll names).1 es ++ bound ((ns.bindAll names).2.bindAll names').1 es' := by
  rw [Names.bindAll_append, bound, map_append, zip_append]
  · simp [bound, Function.comp_def]
  · simp [Names.length_bindAll, h]

theorem map_bound (ns : Names) {names : List (String × Region)} {es : List (List Step × Datum)}
    (h : es.length = names.length) :
      (bound (ns.bindAll names).1 es).map Prod.fst = (ns.bindAll names).1 ∧
      (bound (ns.bindAll names).1 es).map Prod.snd = es.map Prod.snd := by
  have hlength : (ns.bindAll names).1.length = (es.map Prod.snd).length := by
    rw [Names.length_bindAll, length_map, h]
  exact ⟨map_fst_zip (Nat.le_of_eq hlength), map_snd_zip (Nat.le_of_eq hlength.symm)⟩

theorem bound_map (xs : List String) (es : List (List Step × Datum)) (step : Step) :
    bound xs (es.map fun e => (step :: e.1, e.2)) = bound xs es := by
  rw [bound, map_map]
  rfl

theorem caseHolds_eq {l : Literal} (h : Pattern.IsLike l d) :
    caseHolds s l d = d.equal s l.datum := by
  cases l with
  | bool a => cases d with
    | bool b => cases a <;> cases b <;> rfl
    | _ => cases h
  | unit => cases d <;> rfl
  | _ => cases d <;> rfl

mutual

/-- **The case of a pattern binds what it takes**, on a value of its shape. -/
theorem patternCase_match : ∀ (p : Pattern) (ns : Names), ∃ c,
    Emits (patternCase byScope p) ns c (ns.bindAll p.bindings).2 ∧ c.isRest = p.isRest ∧
    ∀ d, p.Shaped d → c.match? s d = (p.take? s d).map (bound (ns.bindAll p.bindings).1)
  | .bind _ name _, ns => by
    refine ⟨.bind (ns.bind name false).1, ?_, rfl, fun d _ => ?_⟩
    · rw [patternCase, Pattern.bindings]
      exact emits_bind.2 ⟨_, _, emits_modifyGet.2 rfl, emits_pure.2 ⟨rfl, rfl⟩⟩
    · rw [Pattern.bindings, Pattern.take?, Case.match?]
      rfl
  | .wildcard _, ns =>
    ⟨.skip, by rw [patternCase]; exact emits_pure.2 ⟨rfl, rfl⟩, rfl, fun d _ => rfl⟩
  | .rest _, ns => ⟨.rest, by rw [patternCase]; exact emits_pure.2 ⟨rfl, rfl⟩, rfl, fun d _ => rfl⟩
  | .noneVariant _, ns => by
    refine ⟨.none, by rw [patternCase]; exact emits_pure.2 ⟨rfl, rfl⟩, rfl, fun d _ => ?_⟩
    cases hd : d.isNone <;> simp [Case.match?, Pattern.take?, hd, bound]
  | .literal _ l, ns => by
    refine ⟨.literal l, by rw [patternCase]; exact emits_pure.2 ⟨rfl, rfl⟩, rfl, fun d hd => ?_⟩
    rw [Case.match?, Pattern.take?, caseHolds_eq hd]
    cases d.equal s l.datum <;> simp [bound]
  | .variant _ k inner, ns => by
    obtain ⟨c, hc, -, hmatch⟩ := patternCase_match inner ns
    refine ⟨.variant k c, ?_, rfl, fun d hd => ?_⟩
    · rw [patternCase, Pattern.bindings]
      exact emits_bind.2 ⟨_, _, hc, emits_pure.2 ⟨rfl, rfl⟩⟩
    · rw [Case.match?, Pattern.take?, Pattern.bindings]
      cases hk : k.payload? d with
      | none => rfl
      | some d' =>
        rw [Option.bind_some, Option.bind_some, hmatch d' (hd d' hk), Option.map_map]
        exact Option.map_congr fun es _ => (bound_map _ es _).symm
  | .tuple _ [], ns => by
    refine ⟨.none, by rw [patternCase]; exact emits_pure.2 ⟨rfl, rfl⟩, rfl, fun d hd => ?_⟩
    obtain rfl : d = .none := by simpa [Pattern.Shaped] using hd
    simp [Case.match?, Pattern.take?, Datum.isNone, bound]
  | .tuple _ (p :: ps), ns => by
    obtain ⟨cs, hcs, hrests, hmatch⟩ := rowCases_match (p :: ps) ns
    refine ⟨.tuple cs, ?_, rfl, fun d hd => ?_⟩
    · rw [patternCase_tuple, Pattern.bindings]
      exact emits_bind.2 ⟨_, _, hcs, emits_pure.2 ⟨rfl, rfl⟩⟩
    · obtain ⟨ds, rfl, hfits, hds⟩ := hd
      have hlength : cs.length = (p :: ps).length := by simpa using congrArg List.length hrests
      have hany : cs.any Case.isRest = (p :: ps).any Pattern.isRest := by
        simpa [any_map] using congrArg (any · id) hrests
      rw [Case.match?, Pattern.take?, sequence?, Datum.elements?, Option.bind_some, hlength,
        hany, if_pos hfits,
        if_neg (by simp), Option.bind_some, if_pos hfits, Pattern.bindings, hmatch 0 ds hds]

theorem rowCases_match : ∀ (ps : List Pattern) (ns : Names), ∃ cs,
    Emits (rowCases byScope ps) ns cs (ns.bindAll (Pattern.rowBindings ps)).2 ∧
    cs.map Case.isRest = ps.map Pattern.isRest ∧
    ∀ i ds, Pattern.rowShaped i ps ds →
      Case.rowMatch? s i cs ds =
        (Pattern.rowTake? s i ps ds).map (bound (ns.bindAll (Pattern.rowBindings ps)).1)
  | [], ns => ⟨[], by rw [rowCases]; exact emits_pure.2 ⟨rfl, rfl⟩, rfl, fun _ _ _ => rfl⟩
  | p :: ps, ns => by
    obtain ⟨c, hc, hrest, hfirst⟩ := patternCase_match p ns
    obtain ⟨cs, hcs, hrests, hlater⟩ := rowCases_match ps (ns.bindAll p.bindings).2
    refine ⟨c :: cs, ?_, congrArg₂ _ hrest hrests, fun i ds hds => ?_⟩
    · rw [rowCases, Pattern.rowBindings, Names.bindAll_append]
      exact emits_bind.2 ⟨_, _, hc, emits_bind.2 ⟨_, _, hcs, emits_pure.2 ⟨rfl, rfl⟩⟩⟩
    · have hlength : cs.length = ps.length := by simpa using congrArg List.length hrests
      rw [Pattern.rowShaped] at hds
      rw [Case.rowMatch?, Pattern.rowTake?, hrest, hlength]
      split
      · next hp =>
        rw [if_pos hp] at hds
        rw [hlater _ _ hds, Pattern.rowBindings_rest hp, Pattern.bindings_rest hp]
        rfl
      · next hp =>
        rw [if_neg hp] at hds
        obtain ⟨⟨d, hi, hd⟩, hds⟩ := hds
        rw [hi, Option.bind_some, Option.bind_some, hfirst d hd, hlater _ _ hds,
          Pattern.rowBindings]
        cases hes : p.take? s d with
        | none => rfl
        | some es =>
          simp only [Option.map_some, Option.bind_some, Option.map_map]
          exact Option.map_congr fun es' _ => (bound_append (Pattern.take?_routes hes).1 _).symm

end

/-! ## Assignments -/

theorem setAll_of_notMem {xs : List String} {es : List (List Step × Datum)} (h : x ∉ xs) (ρ : Env) :
    ρ.setAll (bound xs es) x = ρ x := by
  induction xs generalizing ρ es with
  | nil => rfl
  | cons y ys ih =>
    cases es with
    | nil => rfl
    | cons e es =>
      rw [mem_cons, not_or] at h
      exact (ih h.2 _).trans (Function.update_of_ne h.1 _ _)

theorem runAssigns_append {ρ' : Env} {code : List Code} (h : runAssigns s ρ code = some ρ')
    (code' : List Code) : runAssigns s ρ (code ++ code') = runAssigns s ρ' code' := by
  fun_induction runAssigns s ρ code with
  | case1 => rw [Option.some.inj h, nil_append]
  | case2 ρ y t code ih =>
    obtain ⟨d, hd, h⟩ := Option.bind_eq_some_iff.1 h
    rw [cons_append, runAssigns, hd]
    exact ih d h
  | case3 => cases h

mutual

/-- **The assignments of a pattern give each name the part that it takes.** -/
theorem bindPattern_run :
    ∀ {p : Pattern} {t : Term} {d : Datum} {ns : Names} {es : List (List Step × Datum)},
    p.IsProper → Reads s x v t d → p.take? s d = some es → x ∈ ns.used →
    ∃ code, Emits (bindPattern byScope p t) ns code (ns.bindAll p.bindings).2 ∧
      ∀ ρ : Env, ρ x = some v →
        runAssigns s ρ code = some (ρ.setAll (bound (ns.bindAll p.bindings).1 es))
  | .bind _ name _, t, d, ns, _, _, ht, h, _ => by
    obtain rfl := Option.some.inj h
    refine ⟨[.line (.assign (.name (ns.bind name false).1) t)], ?_, fun ρ hρ => ?_⟩
    · rw [bindPattern, Pattern.bindings]
      exact emits_bind.2 ⟨_, _, emits_modifyGet.2 rfl, emits_pure.2 ⟨rfl, rfl⟩⟩
    · rw [runAssigns, ht ρ hρ, Pattern.bindings]
      rfl
  | .wildcard _, _, _, _, _, _, _, h, _ => by
    obtain rfl := Option.some.inj h
    exact ⟨[], by rw [bindPattern] <;> first | exact emits_pure.2 ⟨rfl, rfl⟩ | nofun,
      fun ρ _ => rfl⟩
  | .rest _, _, _, _, _, hp, _, _, _ => hp.elim
  | .noneVariant _, _, _, _, _, _, _, h, _ | .literal .., _, _, _, _, _, _, h, _ => by
    rw [Pattern.take?, Option.ite_none_right_eq_some] at h
    obtain rfl := Option.some.inj h.2
    exact ⟨[], by rw [bindPattern] <;> first | exact emits_pure.2 ⟨rfl, rfl⟩ | nofun,
      fun ρ _ => rfl⟩
  | .variant _ k inner, t, d, ns, _, hp, ht, h, hx => by
    rw [Pattern.take?] at h
    obtain ⟨d', hd, h⟩ := Option.bind_eq_some_iff.1 h
    obtain ⟨es, hes, rfl⟩ := Option.map_eq_some_iff.1 h
    rw [Pattern.bindings, bindPattern, bound_map]
    exact bindPattern_run (p := inner) hp (ht.payload hd) hes hx
  | .tuple _ items, t, d, ns, es, hp, ht, h, hx => by
    obtain ⟨rfl, rfl⟩ | ⟨ds, rfl, hfits, h⟩ := Pattern.take?_tuple h
    · exact ⟨[], emits_pure.2 ⟨rfl, rfl⟩, fun ρ _ => rfl⟩
    · exact bindRow_run hp.2 ht h (Pattern.placed hp.1 hfits) hx

theorem bindRow_run : ∀ {i : ℕ} {ps : List Pattern} {ks : List (Option Int)} {t : Term}
    {ds : List Datum}
    {ns : Names} {es : List (List Step × Datum)}, Pattern.rowProper ps → Reads s x v t (.tuple ds) →
    Pattern.rowTake? s i ps ds = some es →
    Pattern.Aligned (Pattern.IsPlaceOf ds.length) ds.length i ps ks → x ∈ ns.used →
    ∃ code, Emits (bindRow byScope ps ks t) ns code (ns.bindAll (Pattern.rowBindings ps)).2 ∧
      ∀ ρ : Env, ρ x = some v →
        runAssigns s ρ code = some (ρ.setAll (bound (ns.bindAll (Pattern.rowBindings ps)).1 es))
  | _, [], _, _, _, _, _, _, _, h, hks, _ => by
    obtain rfl := Option.some.inj h
    cases hks
    exact ⟨[], by rw [bindRow] <;> first | exact emits_pure.2 ⟨rfl, rfl⟩ | nofun, fun ρ _ => rfl⟩
  | i, p :: ps, _, t, ds, ns, _, hp, ht, h, hks, hx => by
    rw [Pattern.rowTake?] at h
    cases hks with
    | rest hrest hk hks =>
      obtain rfl := hk
      rw [if_pos hrest] at h
      rw [Pattern.rowBindings_rest hrest, bindRow]
      exact bindRow_run hp.2 ht h hks hx
    | item hrest hk hks =>
      obtain ⟨k, rfl, hk⟩ := hk
      rw [hrest, if_neg Bool.false_ne_true] at h
      obtain ⟨d', hd, h⟩ := Option.bind_eq_some_iff.1 h
      obtain ⟨es, hes, h⟩ := Option.bind_eq_some_iff.1 h
      obtain ⟨es', hes', rfl⟩ := Option.map_eq_some_iff.1 h
      have hfresh := Names.bindAll_fresh p.bindings hx
      obtain ⟨code, hcode, hrun⟩ := bindPattern_run (hp.1 hrest) (ht.component hk hd) hes hx
      obtain ⟨code', hcode', hrun'⟩ := bindRow_run hp.2 ht hes' hks hfresh.2
      refine ⟨code ++ code', ?_, fun ρ hρ => ?_⟩
      · rw [bindRow, Pattern.rowBindings, Names.bindAll_append]
        exact emits_bind.2 ⟨_, _, hcode, emits_bind.2 ⟨_, _, hcode', emits_pure.2 ⟨rfl, rfl⟩⟩⟩
      · rw [runAssigns_append (hrun ρ hρ), hrun' _ ((setAll_of_notMem hfresh.1 ρ).trans hρ),
          Pattern.rowBindings,
          bound_append (Pattern.take?_routes hes).1, Env.setAll, Env.setAll, Env.setAll,
            foldl_append]

end

/-! ## Forms -/

/-- **Tests, assignments, case and types agree on a pattern.**  On a value of the pattern's shape
the tests decide whether the case matches.  If it does, the assignments set the variables that the
case binds, and a scope gives each name the type that the route to its value leads to, where it is
known. -/
theorem forms_agree {p : Pattern} {ns : Names} (hp : p.IsProper) (hv : p.Shaped v)
    (hx : x ∈ ns.used) (hρ : ρ x = some v) :
    ∃ c ns', Emits (patternCase byScope p) ns c ns' ∧
      Test.evalAll s ρ (patternTests p (.name x)) = some (c.match? s v).isSome ∧
      ∀ bound, c.match? s v = some bound →
        (∃ code, Emits (bindPattern byScope p (.name x)) ns code ns' ∧
          runAssigns s ρ code = some (ρ.setAll bound)) ∧
        bound.map Prod.fst = (ns.bindAll p.bindings).1 ∧
        ∃ routes, bound.map (fun b => some b.2) = routes.map v.at? ∧
          ∀ t : Ty, t.Fits v →
            ∃ ts, List.Forall₂ (fun t' route => t' = .unknown ∨ t.at? route = some t') ts routes ∧
            ∀ scope : Scope, scope.bindPattern p t = scope.defineAll p.bindings ts := by
  obtain ⟨c, hc, -, hmatch⟩ := patternCase_match (s := s) p ns
  refine ⟨c, _, hc, ?_, fun _ hbound => ?_⟩
  · rw [evalAll_patternTests hρ hp hv .name, hmatch v hv, Option.isSome_map]
  · rw [hmatch v hv] at hbound
    obtain ⟨es, hes, rfl⟩ := Option.map_eq_some_iff.1 hbound
    obtain ⟨code, hcode, hrun⟩ := bindPattern_run hp .name hes hx
    obtain ⟨hxs, hparts⟩ := map_bound ns (Pattern.take?_routes hes).1
    refine ⟨⟨code, hcode, hrun ρ hρ⟩, hxs, es.map Prod.fst, ?_, fun t ht => ?_⟩
    · rw [← Function.comp_def some, ← map_map, hparts, map_map, map_map]
      exact map_congr_left fun e he => ((Pattern.take?_routes hes).2 e he).symm
    · obtain ⟨ts, hts, hscope⟩ := Scope.bindPattern_typed hp ht hes
      exact ⟨ts, forall₂_map_right_iff.2 hts, hscope⟩

/-- The pattern `(Some(a), .., 1)`. -/
def someThenOne : Pattern :=
  .tuple default [.variant default .some (.bind default "a" false), .rest default,
    .literal default (.int 1 none)]

theorem someThenOne_forms_agree :
    ∃ c ns', Emits (patternCase byScope someThenOne) (.start ["x"]) c ns' ∧
    Test.evalAll .empty (fun _ => some (.tuple [.some (.int 5), .none, .int 1]))
      (patternTests someThenOne (.name "x")) =
      some (c.match? .empty (.tuple [.some (.int 5), .none, .int 1])).isSome := by
  have hp : someThenOne.IsProper := ⟨by decide, fun _ => trivial, nofun, fun _ => trivial, trivial⟩
  have hv : someThenOne.Shaped (.tuple [.some (.int 5), .none, .int 1]) :=
    ⟨_, rfl, rfl, ⟨_, rfl, fun _ _ => trivial⟩, ⟨_, rfl, trivial⟩, trivial⟩
  have hx : "x" ∈ (Names.start ["x"]).used := mem_singleton.2 rfl
  obtain ⟨c, ns', hc, htests, -⟩ := forms_agree (s := .empty) (ρ := fun _ => some _) hp hv hx rfl
  exact ⟨c, ns', hc, htests⟩

/-! ## Targets -/

/-- The pattern `(a, .., (b, _))`. -/
def split : Pattern :=
  .tuple default [.bind default "a" false, .rest default,
    .tuple default [.bind default "b" false, .wildcard default]]

/-- The pattern `(a, ())`. -/
def unitPair : Pattern := .tuple default [.bind default "a" false, .tuple default []]

mutual

/-- **The target of a pattern that is not refutable binds what the pattern takes**, on a value of
its shape; but no assignment takes a value apart for `()`. -/
theorem patternTarget_assign : ∀ (p : Pattern) (ns : Names), p.isRefutable = false → ∃ t,
    Emits (patternTarget byScope p) ns t (ns.bindAll p.bindings).2 ∧ t.isRest = p.isRest ∧
    ∀ d, p.Shaped d → (p.take? s d).isSome = true ∧
      t.assign? s d = if p.hasUnit then none else (p.take? s d).map
        (bound (ns.bindAll p.bindings).1)
  | .bind _ name _, ns, _ => by
    refine ⟨.name (ns.bind name false).1, ?_, rfl, fun d _ => ⟨rfl, ?_⟩⟩
    · rw [patternTarget, Pattern.bindings]
      exact emits_bind.2 ⟨_, _, emits_modifyGet.2 rfl, emits_pure.2 ⟨rfl, rfl⟩⟩
    · rw [Pattern.bindings, Pattern.take?, Target.assign?]
      rfl
  | .wildcard _, ns, _ => by
    refine ⟨.skip, ?_, rfl, fun d _ => ⟨rfl, rfl⟩⟩
    rw [patternTarget] <;> first | exact emits_pure.2 ⟨rfl, rfl⟩ | nofun
  | .rest _, ns, _ =>
    ⟨.rest, by rw [patternTarget]; exact emits_pure.2 ⟨rfl, rfl⟩, rfl, fun d _ => ⟨rfl, rfl⟩⟩
  | .noneVariant _, _, h | .variant .., _, h | .literal .., _, h => nomatch h
  | .tuple _ items, ns, h => by
    obtain ⟨ts, hts, hrests, hassign⟩ := rowTargets_assign items ns h
    refine ⟨.tuple ts, ?_, rfl, fun d hd => ?_⟩
    · rw [patternTarget, Pattern.bindings]
      exact emits_bind.2 ⟨_, _, hts, emits_pure.2 ⟨rfl, rfl⟩⟩
    · have hlength : ts.length = items.length := by simpa using congrArg List.length hrests
      have hany : ts.any Target.isRest = items.any Pattern.isRest := by
        simpa [any_map] using congrArg (any · id) hrests
      rw [Pattern.Shaped] at hd
      rw [Target.assign?, Pattern.take?, Pattern.bindings, Pattern.hasUnit, hlength, hany]
      split at hd
      · next hempty =>
        rw [hd, hempty]
        exact ⟨rfl, rfl⟩
      · next hempty =>
        obtain ⟨ds, rfl, hfits, hds⟩ := hd
        have hseq : iterated? s (.tuple ds) = some ds := rfl
        rw [if_neg hempty, Datum.elements?, Option.bind_some, if_pos hfits, hseq, Option.bind_some,
          if_pos hfits, Bool.of_not_eq_true hempty, Bool.false_or]
        exact hassign 0 ds hds

theorem rowTargets_assign : ∀ (ps : List Pattern) (ns : Names), Pattern.anyRefutable ps = false →
    ∃ ts, Emits (rowTargets byScope ps) ns ts (ns.bindAll (Pattern.rowBindings ps)).2 ∧
    ts.map Target.isRest = ps.map Pattern.isRest ∧
    ∀ i ds, Pattern.rowShaped i ps ds → (Pattern.rowTake? s i ps ds).isSome = true ∧
      Target.rowAssign? s i ts ds = if Pattern.anyUnit ps then none
        else (Pattern.rowTake? s i ps ds).map (bound (ns.bindAll (Pattern.rowBindings ps)).1)
  | [], ns, _ =>
    ⟨[], by rw [rowTargets]; exact emits_pure.2 ⟨rfl, rfl⟩, rfl, fun _ _ _ => ⟨rfl, rfl⟩⟩
  | p :: ps, ns, h => by
    rw [Pattern.anyRefutable, Bool.or_eq_false_iff] at h
    obtain ⟨t, ht, hrest, hfirst⟩ := patternTarget_assign p ns h.1
    obtain ⟨ts, hts, hrests, hlater⟩ := rowTargets_assign ps (ns.bindAll p.bindings).2 h.2
    refine ⟨t :: ts, ?_, congrArg₂ _ hrest hrests, fun i ds hds => ?_⟩
    · rw [rowTargets, Pattern.rowBindings, Names.bindAll_append]
      exact emits_bind.2 ⟨_, _, ht, emits_bind.2 ⟨_, _, hts, emits_pure.2 ⟨rfl, rfl⟩⟩⟩
    · have hlength : ts.length = ps.length := by simpa using congrArg List.length hrests
      rw [Pattern.rowShaped] at hds
      rw [Target.rowAssign?, Pattern.rowTake?, hrest, hlength, Pattern.anyUnit]
      split
      · next hp =>
        rw [if_pos hp] at hds
        rw [(hlater _ _ hds).2, Pattern.rowBindings_rest hp, Pattern.bindings_rest hp,
          Pattern.hasUnit_rest hp]
        exact ⟨(hlater _ _ hds).1, rfl⟩
      · next hp =>
        rw [if_neg hp] at hds
        obtain ⟨⟨d, hi, hd⟩, hds⟩ := hds
        obtain ⟨es, hes⟩ := Option.isSome_iff_exists.1 (hfirst d hd).1
        obtain ⟨es', hes'⟩ := Option.isSome_iff_exists.1 (hlater _ _ hds).1
        rw [hi, Option.bind_some, Option.bind_some, (hfirst d hd).2, (hlater _ _ hds).2, hes,
          hes', Pattern.rowBindings]
        refine ⟨rfl, ?_⟩
        cases p.hasUnit <;> cases Pattern.anyUnit ps
        · simp [bound_append (Pattern.take?_routes hes).1]
        all_goals rfl

end

/-- **A target agrees with the assignments of a pattern that is not refutable, unless `()` stands in
it**: then the assignment to the target fails. -/
theorem target_agrees {p : Pattern} {ns : Names} (hp : p.IsProper) (h : p.isRefutable = false)
    (hv : p.Shaped v) (hx : x ∈ ns.used) (hρ : ρ x = some v) :
    ∃ t code ns' bound, Emits (patternTarget byScope p) ns t ns' ∧
      Emits (bindPattern byScope p (.name x)) ns code ns' ∧
      bound.map Prod.fst = (ns.bindAll p.bindings).1 ∧ runAssigns s ρ code = some (ρ.setAll bound) ∧
      t.assign? s v = if p.hasUnit then none else some bound := by
  obtain ⟨t, ht, -, hassign⟩ := patternTarget_assign (s := s) p ns h
  obtain ⟨htakes, hassign⟩ := hassign v hv
  obtain ⟨es, hes⟩ := Option.isSome_iff_exists.1 htakes
  obtain ⟨code, hcode, hrun⟩ := bindPattern_run hp .name hes hx
  refine ⟨t, code, _, _, ht, hcode, (map_bound ns (Pattern.take?_routes hes).1).1, hrun ρ hρ, ?_⟩
  rw [hassign, hes, Option.map_some]

theorem split_target_agrees : Pattern.hasUnit split = false ∧
    ∃ t code ns' bound, Emits (patternTarget byScope split) (.start ["x"]) t ns' ∧
      Emits (bindPattern byScope split (.name "x")) (.start ["x"]) code ns' ∧
      bound.map Prod.fst = ((Names.start ["x"]).bindAll split.bindings).1 ∧
      runAssigns .empty (fun _ => some (.tuple [.int 1, .none, .tuple [.int 2, .int 3]])) code =
        some (Env.setAll (fun _ => some (.tuple [.int 1, .none, .tuple [.int 2, .int 3]])) bound) ∧
      t.assign? .empty (.tuple [.int 1, .none, .tuple [.int 2, .int 3]]) = some bound := by
  have hv : split.Shaped (.tuple [.int 1, .none, .tuple [.int 2, .int 3]]) :=
    ⟨_, rfl, rfl, ⟨_, rfl, trivial⟩,
      ⟨_, rfl, ⟨_, rfl, rfl, ⟨_, rfl, trivial⟩, ⟨_, rfl, trivial⟩, trivial⟩⟩, trivial⟩
  exact ⟨rfl, target_agrees ⟨by decide, fun _ => trivial, nofun,
    fun _ => ⟨by decide, fun _ => trivial, fun _ => trivial, trivial⟩, trivial⟩ rfl hv
    (mem_singleton.2 rfl) rfl⟩

/-- **`None` is not assigned to the target of `()`**: the assignments of `(a, ())` give `a` its
part, and that to its target fails. -/
theorem unit_target_fails : unitPair.isRefutable = false ∧ discards unitPair = false ∧
    unitPair.Shaped (.tuple [.int 1, .none]) ∧
      ∀ t ns', Emits (patternTarget byScope unitPair) (.start ["x"]) t ns' →
      t.assign? .empty (.tuple [.int 1, .none]) = none := by
  refine ⟨rfl, rfl, ⟨_, rfl, rfl, ⟨_, rfl, trivial⟩, ⟨_, rfl, rfl⟩, trivial⟩, fun t ns' h => ?_⟩
  cases h
  rfl

end Script

end Yielding
