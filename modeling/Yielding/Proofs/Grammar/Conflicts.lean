import Yielding.Proofs.Grammar.Language

/-!
# Proofs/Grammar/Conflicts — a check that rules are free of conflicts

To go through all rows of an automaton takes long.  It is enough to know, for each category, its
**mates**: all places that the closure of a set can hold besides a place before that category.  The
mates of the places of a rule follow from those of its category part by part, so one walk over the
parts of every rule checks a table of mates, and at the end of the rule shows everything that can
stand beside it when it is completed (`mated_of_testBit`).  What can follow a category is bounded by
a second table.  If nothing beside a completed rule is completed too, and no terminal that can be
read beside it can follow it, the rules are free of conflicts (`conflictFree_of_check`).

All sets are read off a **chart**, which keeps the places before every symbol in one number.
-/

namespace Yielding.Grammar

open List

/-! ## Sets in columns -/

/-- The number of a symbol, by which its column is found. -/
def Symbol.code : Symbol → ℕ
  | .terminal t => 2 * t.rank
  | .category c => 2 * c.rank + 1

def setOf (ns : List ℕ) : ℕ := ns.foldl (fun s n => s ||| 1 <<< n) 0

def column (height table i : ℕ) : ℕ := (table >>> (height * i)) % 2 ^ height

def isPart (s t : ℕ) : Bool := (s ||| t).beq t

def isApart (s t : ℕ) : Bool := (s &&& t).beq 0

def Sub (s t : ℕ) : Prop := ∀ n, s.testBit n = true → t.testBit n = true

section Columns

variable {s t n : ℕ}

theorem terminal_rank_inj {t u : Terminal} (h : t.rank = u.rank) : t = u := by
  have hall : ∀ t : Terminal, Terminal.all[t.rank]? = some t := by rintro ⟨⟩ <;> rfl
  exact Option.some.inj ((hall t).symm.trans (h ▸ hall u))

theorem Category.rank_inj {c d : Category} (h : c.rank = d.rank) : c = d := by
  have hall : ∀ c : Category, Category.all[c.rank]? = some c := by rintro ⟨⟩ <;> rfl
  exact Option.some.inj ((hall c).symm.trans (h ▸ hall d))

theorem Symbol.code_inj {x y : Symbol} (h : x.code = y.code) : x = y := by
  cases x <;> cases y <;> simp only [Symbol.code] at h
  · rw [terminal_rank_inj (Nat.eq_of_mul_eq_mul_left Nat.two_pos h)]
  · omega
  · omega
  · rw [Category.rank_inj (Nat.eq_of_mul_eq_mul_left Nat.two_pos (Nat.succ.inj h))]

theorem testBit_setOf {ns : List ℕ} : (setOf ns).testBit n = true ↔ n ∈ ns := by
  rw [setOf, testBit_foldl (Q := (n = ·)) fun s m _ => by
    rw [Nat.testBit_or, Bool.or_eq_true, testBit_one_shiftLeft]]
  simp

theorem testBit_column {height table i : ℕ} : (column height table i).testBit n = true ↔
    n < height ∧ table.testBit (height * i + n) = true := by
  simp [column, Nat.testBit_mod_two_pow, Nat.testBit_shiftRight]

theorem testBit_column_setOf {α : Type} {cells : List α} (key : α → ℕ) {place : α → ℕ}
    {height i : ℕ} (hplace : ∀ a ∈ cells, place a < height) :
    (column height (setOf (cells.map fun a => height * key a + place a)) i).testBit n = true ↔
      ∃ a ∈ cells, key a = i ∧ place a = n := by
  rw [testBit_column, testBit_setOf, mem_map]
  constructor
  · rintro ⟨hn, a, ha, heq⟩
    have hlt := hplace a ha
    have hkey := congrArg (· / height) heq
    have hrest := congrArg (· % height) heq
    simp only [Nat.mul_add_mod, Nat.mod_eq_of_lt hlt, Nat.mod_eq_of_lt hn] at hrest
    simp only [Nat.mul_add_div (Nat.zero_lt_of_lt hn), Nat.div_eq_of_lt hlt, Nat.div_eq_of_lt hn,
      Nat.add_zero] at hkey
    exact ⟨a, ha, hkey, hrest⟩
  · rintro ⟨a, ha, rfl, rfl⟩
    exact ⟨hplace a ha, a, ha, rfl⟩

theorem isPart_iff : isPart s t = true ↔ Sub s t := by
  rw [isPart, Nat.beq_eq]
  constructor
  · intro h n hn
    rw [← h, Nat.testBit_or, hn, Bool.true_or]
  · intro h
    refine Nat.eq_of_testBit_eq fun n => ?_
    rw [Nat.testBit_or, Bool.or_eq_right_iff_imp]
    exact h n

theorem isApart_iff : isApart s t = true ↔ s &&& t = 0 := by rw [isApart, Nat.beq_eq]

theorem eq_of_testBit_iff (h : ∀ n, s.testBit n = true ↔ t.testBit n = true) : s = t :=
  Nat.eq_of_testBit_eq fun n => Bool.eq_iff_iff.2 (h n)

end Columns

/-! ## Charts -/

/-- The sets of a layout, in a form in which they are looked up and not searched for. -/
structure Chart where
  rules : List Placed
  /-- A bound on the places. -/
  height : ℕ
  /-- The places before each symbol, one column for each. -/
  columns : ℕ
  /-- The entries of the categories in the layout. -/
  entries : List (Category × ℕ × ℕ)

namespace Chart

def cells (rules : List Placed) : List (Symbol × ℕ) :=
  rules.flatMap fun p => p.rule.parts.zipIdx.map fun e => (e.1.symbol, p.base + e.2)

/-- The places before each symbol, in columns. -/
def symbolColumns (height : ℕ) (rules : List Placed) : ℕ :=
  setOf ((cells rules).map fun e => height * e.1.code + e.2)

/-- The first places of the rules of each category, in columns. -/
def firstColumns (height : ℕ) (rules : List Placed) : ℕ :=
  setOf (rules.map fun p => height * p.rule.result.rank + p.base)

/-- The categories with the places before them and their first places. -/
def direct (height columns firsts : ℕ) : List (Category × ℕ × ℕ) :=
  Category.all.map fun c =>
    (c, column height columns (Symbol.category c).code, column height firsts c.rank)

/-- The chart of a list of rules with fewer than `height` places. -/
def ofRules (height : ℕ) (rules : List Rule) : Chart :=
  let placed := place 0 0 rules
  let columns := symbolColumns height placed
  let direct := direct height columns (firstColumns height placed)
  { rules := placed
    height := height
    columns := columns
    entries := direct.map fun (c, mask, places) =>
      (c, mask, Layout.saturate direct Category.all.length places) }

variable (T : Chart)

def before (x : Symbol) : ℕ := column T.height T.columns x.code

def wanted (x : Symbol) : List (Category × ℕ × ℕ) :=
  T.entries.filter fun e => !isApart (T.before x <<< 1) e.2.1

/-- Adds to `t` the first places of the entries whose category `s` asks for. -/
def grow (s : ℕ) : List (Category × ℕ × ℕ) → (t : ℕ) → ℕ
  | [], t => t
  | e :: es, t => grow s es (bif isApart s e.2.1 then t else t ||| e.2.2)

/-- The closure of the places that a symbol leads to from a closed set. -/
def reading (s : ℕ) (x : Symbol) : ℕ :=
  let next := (s &&& T.before x) <<< 1
  grow next (T.wanted x) next

def readAll (s : ℕ) (xs : List Symbol) : ℕ := xs.foldl T.reading s

/-- The chart shows the layout of the rules. -/
structure Shows (rules : List Rule) : Prop where
  rules_eq : T.rules = place 0 0 rules
  before_eq : ∀ x, T.before x = Layout.allBefore (place 0 0 rules) x
  entries_eq : T.entries = (Layout.ofRules rules).beforeCategory

variable {T} {rules : List Rule}

theorem mem_cells {placed : List Placed} {x : Symbol} {n : ℕ} : (x, n) ∈ cells placed ↔
    ∃ p ∈ placed, ∃ j part, p.rule.parts[j]? = some part ∧ part.symbol = x ∧ n = p.base + j := by
  simp only [cells, mem_flatMap, mem_map, Prod.mk.injEq]
  constructor
  · rintro ⟨p, hp, ⟨part, j⟩, hmem, rfl, rfl⟩
    exact ⟨p, hp, j, part, mk_mem_zipIdx_iff_getElem?.1 hmem, rfl, rfl⟩
  · rintro ⟨p, hp, j, part, hj, rfl, rfl⟩
    exact ⟨p, hp, (part, j), mk_mem_zipIdx_iff_getElem?.2 hj, rfl, rfl⟩

section Of

variable {height : ℕ} (hheight : (Layout.ofRules rules).placeCount ≤ height)

include hheight

theorem stop_lt_height {p : Placed} (hp : p ∈ place 0 0 rules) : p.stop < height := by
  refine lt_of_lt_of_le ?_ hheight
  simpa [Layout.placeCount_eq, Layout.ofRules] using stop_lt_of_mem_place hp

theorem column_symbolColumns (x : Symbol) :
    column height (symbolColumns height (place 0 0 rules)) x.code =
      Layout.allBefore (place 0 0 rules) x := by
  have hcells : ∀ e ∈ cells (place 0 0 rules), e.2 < height := by
    rintro ⟨y, n⟩ he
    obtain ⟨p, hp, j, part, hj, -, rfl⟩ := mem_cells.1 he
    have hlt : j < p.rule.parts.length := (List.getElem?_eq_some_iff.1 hj).1
    have hstop := stop_lt_height hheight hp
    rw [Placed.stop] at hstop
    show p.base + j < height
    omega
  refine eq_of_testBit_iff fun n => ?_
  rw [symbolColumns, testBit_column_setOf (fun e => e.1.code) hcells, testBit_allBefore,
    ← mem_cells]
  refine ⟨?_, fun h => ⟨_, h, rfl, rfl⟩⟩
  rintro ⟨⟨y, m⟩, he, hcode, rfl⟩
  exact Symbol.code_inj hcode ▸ he

theorem column_firstColumns (c : Category) :
    column height (firstColumns height (place 0 0 rules)) c.rank =
      Layout.firstPlaces (place 0 0 rules) c := by
  have hbase : ∀ p ∈ place 0 0 rules, p.base < height :=
    fun p hp => (Nat.le_add_right _ _).trans_lt (stop_lt_height hheight hp)
  refine eq_of_testBit_iff fun n => ?_
  rw [firstColumns, testBit_column_setOf (fun p => p.rule.result.rank) hbase,
    testBit_firstPlaces]
  refine exists_congr fun p => and_congr_right fun _ => and_congr ⟨Category.rank_inj, ?_⟩ eq_comm
  rintro rfl
  rfl

/-- **The chart of rules shows their layout.** -/
theorem shows_ofRules : (ofRules height rules).Shows rules where
  rules_eq := rfl
  before_eq := column_symbolColumns hheight
  entries_eq := by
    have hdirect : direct height (symbolColumns height (place 0 0 rules))
        (firstColumns height (place 0 0 rules)) = Layout.direct rules :=
      map_congr_left fun c _ => by
        rw [column_symbolColumns hheight, column_firstColumns hheight]
    simp only [ofRules, hdirect]
    rfl

end Of

theorem testBit_grow {s t n : ℕ} {entries : List (Category × ℕ × ℕ)} :
    (grow s entries t).testBit n = true ↔
      t.testBit n = true ∨ ∃ e ∈ entries, s &&& e.2.1 ≠ 0 ∧ e.2.2.testBit n = true := by
  induction entries generalizing t with
  | nil => simp [grow]
  | cons e entries ih =>
    rw [grow, ih]
    cases h : isApart s e.2.1 with
    | true => simp [isApart_iff.1 h]
    | false =>
      have hmeets : s &&& e.2.1 ≠ 0 := mt isApart_iff.2 (Bool.eq_false_iff.1 h)
      simp [hmeets, or_assoc]

namespace Shows

variable (h : T.Shows rules)

include h

theorem addEntries_eq (s : ℕ) :
    Layout.addEntries T.entries s = (Layout.ofRules rules).closure s := by
  rw [h.entries_eq]
  rfl

theorem reading_eq (s : ℕ) (x : Symbol) : T.reading s x =
    (Layout.ofRules rules).closure ((s &&& Layout.allBefore (place 0 0 rules) x) <<< 1) := by
  rw [← h.addEntries_eq, ← h.before_eq, reading]
  refine eq_of_testBit_iff fun n => ?_
  rw [testBit_grow, testBit_addEntries]
  refine or_congr_right ⟨?_, ?_⟩
  · rintro ⟨e, he, hn⟩
    exact ⟨e, (mem_filter.1 he).1, hn⟩
  · rintro ⟨e, he, hmeets, hn⟩
    refine ⟨e, mem_filter.2 ⟨he, ?_⟩, hmeets, hn⟩
    have hsub : T.before x <<< 1 &&& e.2.1 ≠ 0 := by
      refine and_ne_zero_mono (fun m hm => ?_) hmeets
      rw [Nat.testBit_shiftLeft, Bool.and_eq_true, Nat.testBit_and, Bool.and_eq_true] at hm
      rw [Nat.testBit_shiftLeft, hm.2.2, hm.1]
      rfl
    rw [Bool.not_eq_true', ← Bool.not_eq_true, isApart_iff]
    exact hsub

/-- A set that holds every place before a symbol, of those that other symbols lead to, goes over to
one that holds all that they lead to with this one. -/
theorem closure_sub_reading {xs : List Symbol} {x : Symbol} {s : ℕ}
    (hs : ∀ n, (Layout.view rules xs).testBit n = true →
      (T.before x).testBit n = true → s.testBit n = true) :
    Sub (Layout.view rules (xs ++ [x]))
      (T.reading s x) := by
  rw [h.reading_eq, Layout.view, Layout.sight_concat, Layout.after]
  refine fun n => Layout.closure_mono fun m hm => ?_
  rw [Nat.testBit_shiftLeft, Bool.and_eq_true, Nat.testBit_and, Bool.and_eq_true] at hm ⊢
  exact ⟨hm.1, hs _ hm.2.1 (h.before_eq x ▸ hm.2.2), hm.2.2⟩

end Shows

/-! ## Mates -/

/-- The table holds the mates of the categories. -/
structure Mates (T : Chart) (U : Category → ℕ) : Prop where
  start : Sub (Layout.addEntries T.entries 1) (U .root)
  step : ∀ p ∈ T.rules, ∀ ys c zs, p.rule.symbols = ys ++ .category c :: zs →
    Sub (T.readAll (U p.rule.result) ys) (U c)

section Mates

variable {level : Category → ℕ} {U : Category → ℕ}

/-- All that can stand open after the symbols are mates of the place `n`. -/
def Mated (rules : List Rule) (T : Chart) (U : Category → ℕ) (xs : List Symbol) (n : ℕ) : Prop :=
  ∀ p ∈ place 0 0 rules, ∀ k ≤ p.rule.parts.length, n = p.base + k →
    Sub (Layout.view rules xs) (T.readAll (U p.rule.result) (p.rule.symbols.take k))

/-- **Whatever stands beside a place is a mate of it.** -/
theorem mated_of_testBit (hr : Proper rules level) (hT : T.Shows rules) (hU : T.Mates U)
    {xs : List Symbol} : ∀ n, (Layout.view rules xs).testBit n = true → Mated rules T U xs n := by
  -- what is read from the start has mates; a first place has those of the place that wants it
  have hclosed : ∀ {xs : List Symbol},
      (∀ n, ((Layout.ofRules rules).sight xs).testBit n = true → Mated rules T U xs n) →
      ∀ n, (Layout.view rules xs).testBit n = true → Mated rules T U xs n := by
    intro xs hs n
    refine Layout.closure_induction hs fun q hq m hm hbefore p hp k hk heq => ?_
    obtain ⟨rfl, rfl⟩ := place_inj (i := 0) hq hp (Nat.zero_le _) hk heq
    obtain ⟨p', hp', j, part, hj, hsymbol, rfl⟩ := testBit_allBefore.1 hbefore
    have hlt : j < p'.rule.parts.length := (List.getElem?_eq_some_iff.1 hj).1
    have hsymbols : p'.rule.symbols = p'.rule.symbols.take j ++
        .category q.rule.result :: p'.rule.symbols.drop (j + 1) := by
      have hget : p'.rule.symbols[j]? = some (.category q.rule.result) := by
        rw [Rule.symbols, getElem?_map, hj, ← hsymbol]
        rfl
      obtain ⟨hlt', hget⟩ := List.getElem?_eq_some_iff.1 hget
      rw [← hget, ← drop_eq_getElem_cons, take_append_drop]
    exact fun n hn => hU.step p' (hT.rules_eq ▸ hp') _ _ _ hsymbols n (hm p' hp' j hlt.le rfl n hn)
  refine hclosed ?_
  induction xs using reverseRecOn with
  | nil =>
    intro n hn p hp k hk heq
    obtain rfl : n = 0 := Nat.testBit_one_eq_true_iff_self_eq_zero.1 hn
    obtain ⟨r, rs, rfl, hroot⟩ := hr.first
    obtain ⟨rfl, rfl⟩ := place_inj (p := ⟨r, 0, 0⟩) (i := 0) mem_cons_self hp (Nat.zero_le _) hk heq
    have hstart := hU.start
    rw [hT.addEntries_eq] at hstart
    exact hroot ▸ hstart
  | append_singleton xs x ih =>
    intro n hn p hp k hk heq
    rw [Layout.sight_concat] at hn
    obtain ⟨q, hq, j, part, hj, rfl, rfl, hbefore⟩ := Layout.testBit_after hn
    have hlt : j < q.rule.parts.length := (List.getElem?_eq_some_iff.1 hj).1
    obtain ⟨rfl, rfl⟩ := place_inj hq hp hlt hk heq
    have hsymbol : q.rule.symbols[j]? = some part.symbol := by
      rw [Rule.symbols, getElem?_map, hj]
      rfl
    rw [take_add_one, hsymbol, Option.toList_some, readAll, foldl_append]
    exact hT.closure_sub_reading fun n hn _ => hclosed ih _ hbefore q hq j hlt.le rfl n hn

end Mates

/-! ## What follows a category -/

/-- The terminals that can be read right behind a category, wherever it stands. -/
def readable (T : Chart) (c : Category) : ℕ :=
  let behind := T.reading (T.before (.category c)) (.category c)
  setOf ((Terminal.all.filter fun t => !isApart behind (T.before (.terminal t))).map Terminal.rank)

/-- The table holds what can follow the categories, wherever they stand. -/
structure Follow (T : Chart) (F : Category → ℕ) : Prop where
  next : ∀ c, Sub (T.readable c) (F c)
  last : ∀ p ∈ T.rules, ∀ ys c, p.rule.symbols = ys ++ [.category c] →
    Sub (F p.rule.result) (F c)
  finish : (F .item).testBit Terminal.finish.rank = true

/-- Whether the terminal may follow the category in a state whose closure is part of `s`.  A
category that is a phrase of its own is followed by what follows that phrase in the same state; to a
phrase that began in another state only the table `F` applies. -/
def mayFollow (T : Chart) (F : Category → ℕ) (s : ℕ) (t : Terminal) : (fuel : ℕ) → Category → Bool
  | 0, _ => true
  | fuel + 1, c =>
    let behind := T.reading s (.category c)
    !isApart behind (T.before (.terminal t)) || T.rules.any fun p =>
      behind.testBit p.stop &&
        (bif p.rule.parts.length.beq 1 then T.mayFollow F s t fuel p.rule.result
        else (F p.rule.result).testBit t.rank)

section Follow

variable {F : Category → ℕ} {xs : List Symbol} {c : Category} {t : Terminal}

theorem canRead_iff (hT : T.Shows rules) {x : Symbol} : CanRead rules xs x ↔
    ∃ n, (Layout.view rules xs).testBit n = true ∧
      (T.before x).testBit n = true := by
  rw [CanRead, ← hT.before_eq, and_ne_zero_iff]

theorem isApart_eq_false (hT : T.Shows rules) {s : ℕ} {x : Symbol} (hx : CanRead rules xs x)
    (hs : Sub (Layout.view rules xs) s) :
    isApart s (T.before x) = false := by
  obtain ⟨n, hn, hbefore⟩ := (canRead_iff hT).1 hx
  rw [← Bool.not_eq_true, isApart_iff]
  exact and_ne_zero_iff.2 ⟨n, hs n hn, hbefore⟩

/-- **What is ahead of a category is in the table.** -/
theorem testBit_of_ahead (hT : T.Shows rules) (hF : T.Follow F) (h : Ahead rules xs c t) :
    (F c).testBit t.rank = true := by
  induction h with
  | next hnext =>
    have hbehind := isApart_eq_false hT hnext (hT.closure_sub_reading fun n _ hn => hn)
    refine hF.next _ _ (testBit_setOf.2 (mem_map_of_mem (mem_filter.2 ⟨Terminal.mem_all _, ?_⟩)))
    rw [hbehind]
    rfl
  | last _ hp hsymbols _ _ _ ih => exact hF.last _ (hT.rules_eq ▸ hp) _ _ hsymbols _ ih
  | finish => exact hF.finish

/-- **What is ahead of a category in a state may follow it there.** -/
theorem mayFollow_of_ahead (hT : T.Shows rules) (hF : T.Follow F) (h : Ahead rules xs c t)
    (ht : t ≠ .finish) {s : ℕ}
    (hs : Sub (Layout.view rules xs) s) :
    ∀ fuel, T.mayFollow F s t fuel c = true := by
  induction h with
  | next hnext =>
    rintro (_ | fuel)
    · rfl
    · have hbehind := isApart_eq_false hT hnext (hT.closure_sub_reading fun n hn _ => hs n hn)
      rw [mayFollow, hbehind]
      rfl
  | @last xs ys p c t _ hp hsymbols hbase _ hahead ih =>
    rintro (_ | fuel)
    · rfl
    · have hlen : p.rule.symbols.length = p.rule.parts.length := length_map _
      have hstop := Layout.testBit_sight_append hp hbase p.rule.parts.length le_rfl
      rw [take_of_length_le hlen.le, hsymbols, ← append_assoc] at hstop
      have hbehind := hT.closure_sub_reading (fun n hn _ => hs n hn) _ hstop
      rw [mayFollow, Bool.or_eq_true]
      refine .inr (any_eq_true.2 ⟨p, hT.rules_eq ▸ hp, ?_⟩)
      rw [Placed.stop, hbehind, Bool.true_and]
      cases ys with
      | nil =>
        have hone : p.rule.parts.length = 1 := by rw [← hlen, hsymbols]; rfl
        rw [append_nil] at hs
        rw [hone]
        exact ih ht hs fuel
      | cons y ys =>
        have hmore : p.rule.parts.length.beq 1 = false := by
          rw [← Bool.not_eq_true, Nat.beq_eq, ← hlen, hsymbols]
          simp
        rw [hmore]
        exact testBit_of_ahead hT hF hahead
  | finish => exact absurd rfl ht

end Follow

/-! ## The check -/

section Check

variable (T : Chart) (U F : Category → ℕ)

def stops : ℕ := setOf (T.rules.map Placed.stop)

def shifts : ℕ := Terminal.all.foldl (fun s t => s ||| T.before (.terminal t)) 0

/-- Whether wherever the terminal can be read beside the completed rule `p`, the rule began in a
state in which the terminal may not follow it. -/
def isResolved (p : Placed) (s : ℕ) (t : Terminal) : Bool :=
  T.rules.all fun q => q.rule.parts.zipIdx.all fun e =>
    !s.testBit (q.base + e.2) || !decide (e.1.symbol = .terminal t) ||
      (p.rule.parts.length.ble e.2 &&
        !T.mayFollow F
          (T.readAll (U q.rule.result) (q.rule.symbols.take (e.2 - p.rule.parts.length))) t
          Category.all.length p.rule.result)

/-- Whether the rule `p`, completed with the mates `s`, has no conflict: nothing else is completed,
and no terminal that may follow it can be read. -/
def endChecked (p : Placed) (s : ℕ) : Bool :=
  (s &&& T.stops).beq (1 <<< p.stop) &&
    (isApart s T.shifts || Terminal.all.all fun t =>
      isApart s (T.before (.terminal t)) || !(F p.rule.result).testBit t.rank ||
        T.isResolved U F p s t)

/-- Whether the mates of the places of the rule `p` are those of the categories there, and its end
has no conflict. -/
def partsChecked (p : Placed) : List Part → (s : ℕ) → Bool
  | [], s => T.endChecked U F p s
  | part :: parts, s =>
    (match part.symbol with
    | .terminal _ => true
    | .category c => isPart s (U c)) && partsChecked p parts (T.reading s part.symbol)

/-- Whether the table holds what can follow the categories. -/
def followChecked : Bool :=
  (Category.all.all fun c => isPart (T.readable c) (F c)) &&
    (F .item).testBit Terminal.finish.rank &&
    T.rules.all fun p =>
      match p.rule.parts.getLast? with
      | some ⟨.category c, _⟩ => isPart (F p.rule.result) (F c)
      | _ => true

/-- Whether the tables show that there are no conflicts. -/
def check : Bool :=
  isPart (Layout.addEntries T.entries 1) (U .root) && T.followChecked F &&
    T.rules.all fun p => T.partsChecked U F p p.rule.parts (U p.rule.result)

variable {T U F}

theorem partsChecked_sound {p : Placed} {parts : List Part} {s : ℕ}
    (h : T.partsChecked U F p parts s = true) :
    (∀ ys c zs, parts.map Part.symbol = ys ++ .category c :: zs → Sub (T.readAll s ys) (U c)) ∧
      T.endChecked U F p (T.readAll s (parts.map Part.symbol)) = true := by
  induction parts generalizing s with
  | nil =>
    refine ⟨fun ys c zs hsymbols => ?_, h⟩
    simp at hsymbols
  | cons part parts ih =>
    rw [partsChecked, Bool.and_eq_true] at h
    obtain ⟨hrest, hend⟩ := ih h.2
    refine ⟨fun ys c zs hsymbols => ?_, hend⟩
    rw [map_cons] at hsymbols
    cases ys with
    | nil =>
      obtain ⟨hsymbol, -⟩ := List.cons.inj hsymbols
      have hpart := h.1
      rw [hsymbol] at hpart
      exact isPart_iff.1 hpart
    | cons y ys =>
      obtain ⟨rfl, htail⟩ := List.cons.inj hsymbols
      exact hrest ys c zs htail

theorem mates_of_check (h : T.check U F = true) : T.Mates U := by
  rw [check, Bool.and_eq_true, Bool.and_eq_true, all_eq_true] at h
  exact ⟨isPart_iff.1 h.1.1, fun p hp => (partsChecked_sound (h.2 p hp)).1⟩

theorem follow_of_check (h : T.check U F = true) : T.Follow F := by
  rw [check, Bool.and_eq_true, Bool.and_eq_true] at h
  have hfollow := h.1.2
  rw [followChecked, Bool.and_eq_true, Bool.and_eq_true, all_eq_true, all_eq_true] at hfollow
  refine ⟨fun c => isPart_iff.1 (hfollow.1.1 c c.mem_all),
    fun p hp ys c hsymbols => ?_, hfollow.1.2⟩
  have hlast := hfollow.2 p hp
  have hget : p.rule.parts.getLast?.map Part.symbol = some (.category c) := by
    rw [← getLast?_map, ← Rule.symbols, hsymbols, getLast?_concat]
  obtain ⟨⟨symbol, kept⟩, hpart, rfl⟩ := Option.map_eq_some_iff.1 hget
  rw [hpart] at hlast
  exact isPart_iff.1 hlast

variable {level : Category → ℕ}

/-- **Rules whose chart passes the check are free of conflicts.** -/
theorem conflictFree_of_check (hr : Proper rules level) (hT : T.Shows rules)
    (h : T.check U F = true) : ConflictFree rules := by
  have hU := mates_of_check h
  have hF := follow_of_check h
  rw [check, Bool.and_eq_true, all_eq_true] at h
  have hlen : ∀ p : Placed, p.rule.symbols.take p.rule.parts.length = p.rule.symbols :=
    fun p => take_of_length_le (length_map _).le
  -- what stands beside a completed rule, as far as the check has looked at it
  have hend : ∀ {xs : List Symbol} {p : Placed}, p ∈ place 0 0 rules →
      (Layout.view rules xs).testBit p.stop = true →
      ∃ s, Sub (Layout.view rules xs) s ∧
        T.endChecked U F p s = true := by
    intro xs p hp hstop
    have hsub := mated_of_testBit hr hT hU _ hstop p hp _ le_rfl rfl
    rw [hlen] at hsub
    exact ⟨_, hsub, (partsChecked_sound (h.2 p (hT.rules_eq ▸ hp))).2⟩
  constructor
  · intro xs p q hp hq hpstop hqstop
    obtain ⟨s, hsub, hchecked⟩ := hend hp (Layout.testBit_closure_of_testBit hpstop)
    rw [endChecked, Bool.and_eq_true, Nat.beq_eq] at hchecked
    have hmem : (s &&& T.stops).testBit q.stop = true := by
      rw [Nat.testBit_and, hsub _ (Layout.testBit_closure_of_testBit hqstop), Bool.true_and, stops,
        testBit_setOf, hT.rules_eq]
      exact mem_map_of_mem hq
    rw [hchecked.1] at hmem
    exact (place_inj hp hq le_rfl le_rfl (testBit_one_shiftLeft.1 hmem).symm).1
  · intro xs p t hp hbase hahead hread
    have hstop := Layout.testBit_sight_append hp hbase p.rule.parts.length le_rfl
    rw [hlen] at hstop
    obtain ⟨s, hsub, hchecked⟩ := hend hp hstop
    rw [endChecked, Bool.and_eq_true, Bool.or_eq_true, isApart_iff, all_eq_true] at hchecked
    obtain ⟨n, hn, hbefore⟩ := (canRead_iff hT).1 hread
    have hshifts : T.shifts.testBit n = true := by
      rw [shifts, testBit_foldl (Q := fun t => (T.before (.terminal t)).testBit n = true)
        fun s t _ => by rw [Nat.testBit_or, Bool.or_eq_true]]
      exact .inr ⟨t, t.mem_all, hbefore⟩
    obtain hapart | hall := hchecked.2
    · exact and_ne_zero_iff.2 ⟨n, hsub n hn, hshifts⟩ hapart
    · have hresolved := hall t t.mem_all
      rw [isApart_eq_false hT hread hsub, testBit_of_ahead hT hF hahead, Bool.not_true,
        Bool.false_or, Bool.false_or, isResolved, all_eq_true] at hresolved
      -- the place before the terminal, and where it was when the completed rule began
      rw [hT.before_eq, testBit_allBefore] at hbefore
      obtain ⟨q, hq, j, part, hj, hsymbol, rfl⟩ := hbefore
      have hplace := all_eq_true.1 (hresolved q (hT.rules_eq ▸ hq)) (part, j)
        (mk_mem_zipIdx_iff_getElem?.2 hj)
      have hlt : j < q.rule.parts.length := (List.getElem?_eq_some_iff.1 hj).1
      simp only [hsub _ hn, hsymbol, decide_true, Bool.not_true, Bool.false_or, Bool.and_eq_true,
        Bool.not_eq_true', Nat.ble_eq] at hplace
      have hsymbols : p.rule.symbols.length = p.rule.parts.length := length_map _
      have hbegan := Layout.testBit_of_testBit_sight hq (hsymbols.le.trans hplace.1) hlt.le hn
      rw [hsymbols] at hbegan
      have hmates := mated_of_testBit hr hT hU _ hbegan q hq _ ((Nat.sub_le _ _).trans hlt.le) rfl
      have hfinish : t ≠ .finish := by
        rintro rfl
        exact not_canRead_finish hr _ hread
      exact Bool.false_ne_true
        (hplace.2.symm.trans (mayFollow_of_ahead hT hF hahead hfinish hmates _))

end Check

/-! ## The tables -/

section Tables

variable (T : Chart)

def settle (step : ℕ → ℕ) : (fuel : ℕ) → ℕ → ℕ
  | 0, table => table
  | fuel + 1, table =>
    let next := step table
    bif next.beq table then table else settle step fuel next

def addMates : List Part → (s table : ℕ) → ℕ
  | [], _, table => table
  | part :: parts, s, table =>
    addMates parts (T.reading s part.symbol) (match part.symbol with
      | .terminal _ => table
      | .category c => table ||| s <<< (T.height * c.rank))

def matesTable : ℕ :=
  settle
    (fun table => T.rules.foldl
      (fun table p => T.addMates p.rule.parts (column T.height table p.rule.result.rank) table)
        table)
    Category.all.length (Layout.addEntries T.entries 1 <<< (T.height * Category.root.rank))

def mates (c : Category) : ℕ := column T.height T.matesTable c.rank

def followTable : ℕ :=
  settle
    (fun table => T.rules.foldl
      (fun table p =>
        match p.rule.parts.getLast? with
        | some ⟨.category c, _⟩ => Fields.add table c.rank (Fields.get table p.rule.result.rank)
        | _ => table)
      table)
    Category.all.length
    (Category.all.foldl (fun table c => Fields.add table c.rank (T.readable c))
      (Fields.add 0 Category.item.rank (1 <<< Terminal.finish.rank)))

def follow (c : Category) : ℕ := Fields.get T.followTable c.rank

end Tables

end Chart

end Yielding.Grammar
