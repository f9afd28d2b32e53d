import Yielding.Proofs.Grammar.Rows

/-!
# Proofs/Grammar/Runs — the machine of a grammar derives or rejects

Along a stack, each derivation leads from the set of places below it to the set above it.  So where
a rule may be completed, its parts are on top of the stack (`pop`), and below them the machine can
move on over the category of the rule.  Each step builds one more leaf or node, and a derivation is
not much larger than the row of its tokens, so the machine never runs out of steps.  What remains is
that it derives the tokens or meets one that cannot stand there (`parse_ofRules`).
-/

namespace Yielding.Grammar

open List

/-- The level of a symbol: a terminal is below every category. -/
def Symbol.level (level : Category → ℕ) : Symbol → ℕ
  | .terminal _ => 0
  | .category c => level c

variable {rules : List Rule} {level : Category → ℕ}

/-- The rules that the machine can work with.  The first is the rule of whole texts; no phrase is
empty, and phrases that consist of one part are ordered by the levels of their categories. -/
structure Proper (rules : List Rule) (level : Category → ℕ) : Prop where
  first : ∃ r rs, rules = r :: rs ∧ r.result = .root
  finish_not_mem : ∀ r ∈ rules, Symbol.terminal .finish ∉ r.symbols
  root_not_mem : ∀ r ∈ rules, Symbol.category .root ∉ r.symbols
  parts_ne_nil : ∀ r ∈ rules, r.parts ≠ []
  level_le : ∀ c, level c ≤ Category.all.length
  level_lt : ∀ r ∈ rules, ∀ part, r.parts = [part] → part.symbol.level level < level r.result

theorem Proper.ne_nil (h : Proper rules level) : rules ≠ [] := by
  obtain ⟨r, rs, rfl, -⟩ := h.first
  exact cons_ne_nil r rs

/-! ## Stacks -/

/-- The row on top of a stack is the row of the set of places `s`. -/
def StandsAt (rules : List Rule) (stack : List Frame) (s : ℕ) : Prop :=
  (Layout.ofRules rules).reached[topState stack]? = some s

/-- Along the stack, each derivation fits the rules, and its symbol leads from the set of places
below it to the set above it. -/
inductive Path (rules : List Rule) : List Frame → Prop
  | nil : Path rules []
  | cons {frame : Frame} {rest : List Frame} {s s' : ℕ} : Path rules rest → StandsAt rules rest s →
      (Layout.ofRules rules).next? s frame.tree.symbol = some s' →
      StandsAt rules (frame :: rest) s' → frame.tree.Fits rules → Path rules (frame :: rest)

theorem standsAt_nil (h : rules ≠ []) : StandsAt rules [] 1 := by
  obtain ⟨rest, hrest⟩ := head?_eq_some_iff.1 (Layout.states_closed h).1
  rw [StandsAt, hrest]
  rfl

variable {stack : List Frame}

theorem Path.standsAt (h : rules ≠ []) (hp : Path rules stack) : ∃ s, StandsAt rules stack s := by
  cases hp with
  | nil => exact ⟨1, standsAt_nil h⟩
  | cons _ _ _ hs _ => exact ⟨_, hs⟩

theorem StandsAt.unique {s s' : ℕ} (h : StandsAt rules stack s) (h' : StandsAt rules stack s') :
    s = s' :=
  Option.some.inj (h.symm.trans h')

theorem Path.drop (h : Path rules stack) (k : ℕ) : Path rules (stack.drop k) := by
  induction k generalizing stack with
  | zero => exact h
  | succ k ih =>
    cases h with
    | nil => exact .nil
    | cons hrest _ _ _ _ => exact ih hrest

/-- **Where a rule has been read up to some part, those parts are on top of the stack**, and below
them the rule can begin. -/
theorem Path.pop (h : rules ≠ []) {p : Placed} (hp : p ∈ place 0 0 rules) {k : ℕ}
    (hk : k ≤ p.rule.parts.length) {s : ℕ} (hpath : Path rules stack) (hs : StandsAt rules stack s)
    (hbit : ((Layout.ofRules rules).closure s).testBit (p.base + k) = true) :
    (stack.take k).reverse.map (fun f => f.tree.symbol) = p.rule.symbols.take k ∧
      ∃ s', StandsAt rules (stack.drop k) s' ∧
        ((Layout.ofRules rules).closure s').testBit p.base = true := by
  induction k generalizing stack s with
  | zero => exact ⟨rfl, s, hs, hbit⟩
  | succ k ih =>
    have hbit := Layout.testBit_of_testBit_closure hp hk hbit
    cases hpath with
    | nil =>
      obtain rfl := hs.unique (standsAt_nil h)
      rw [Nat.testBit_one_eq_true_iff_self_eq_zero] at hbit
      omega
    | @cons frame rest t _ hrest ht hnext hs' hfits =>
      obtain rfl := hs.unique hs'
      have hafter : s = (Layout.ofRules rules).after frame.tree.symbol t := by
        rw [Layout.next?] at hnext
        split at hnext
        · cases hnext
        · exact (Option.some.inj hnext).symm
      rw [hafter] at hbit
      obtain ⟨hsymbol, hbelow⟩ := Layout.testBit_after_succ hp hk hbit
      obtain ⟨htake, hdrop⟩ := ih (Nat.le_of_succ_le hk) hrest ht hbelow
      refine ⟨?_, hdrop⟩
      rw [take_succ_cons, reverse_cons, map_append, htake, take_add_one,
        Rule.symbols, getElem?_map, hsymbol]
      rfl

/-! ## Derivations and their tokens -/

namespace Derivation

theorem rowFits_iff {ds : List Derivation} : RowFits rules ds ↔ ∀ d ∈ ds, d.Fits rules := by
  induction ds with
  | nil => simp [RowFits]
  | cons d ds ih => simp [RowFits, ih]

theorem rowTokens_append (ds ds' : List Derivation) :
    rowTokens (ds ++ ds') = rowTokens ds ++ rowTokens ds' := by
  induction ds with
  | nil => rfl
  | cons d ds ih => rw [cons_append, rowTokens, rowTokens, ih, append_assoc]

mutual

/-- The number of leaves and nodes, which is the number of steps that build the derivation. -/
def cost : Derivation → ℕ
  | leaf _ => 1
  | node _ children => rowCost children + 1

def rowCost : List Derivation → ℕ
  | [] => 0
  | d :: ds => cost d + rowCost ds

end

theorem rowCost_append (ds ds' : List Derivation) :
    rowCost (ds ++ ds') = rowCost ds + rowCost ds' := by
  induction ds with
  | nil => rw [nil_append, rowCost, Nat.zero_add]
  | cons d ds ih => rw [cons_append, rowCost, rowCost, ih, Nat.add_assoc]

/-- The most that a step of reading can build for one token. -/
def costPerToken : ℕ := 2 * Category.all.length + 2

mutual

/-- **A derivation is not much larger than the row of its tokens.**  A node with one child is paid
for by its level, a node with more children by the tokens of the others. -/
theorem cost_le (hr : Proper rules level) : ∀ d : Derivation, d.Fits rules →
    d.cost + 2 * Category.all.length + 1 ≤ costPerToken * d.tokens.length + d.symbol.level level
  | .leaf token, _ => by
    simp only [cost, tokens, costPerToken, length_singleton]
    omega
  | .node r [], h => absurd (map_eq_nil_iff.1 h.2.1.symm) (hr.parts_ne_nil r h.1)
  | .node r [d], h => by
    have hd := cost_le hr d h.2.2.1
    obtain ⟨part, hpart, hsymbol⟩ : ∃ part, r.parts = [part] ∧ part.symbol = d.symbol :=
      map_eq_singleton_iff.1 h.2.1.symm
    have hrise := hr.level_lt r h.1 part hpart
    rw [hsymbol] at hrise
    simp only [cost, rowCost, tokens, rowTokens, append_nil, symbol, Symbol.level]
    omega
  | .node r (d :: d' :: ds), h => by
    have hrow := rowCost_le hr (d :: d' :: ds) h.2.2
    have hlen : 2 * (Category.all.length + 1) ≤
        (Category.all.length + 1) * (d :: d' :: ds).length := by
      rw [Nat.mul_comm]
      refine Nat.mul_le_mul_left _ ?_
      simp only [length_cons]
      omega
    rw [cost, tokens]
    omega

theorem rowCost_le (hr : Proper rules level) : ∀ ds : List Derivation, RowFits rules ds →
    rowCost ds + (Category.all.length + 1) * ds.length ≤ costPerToken * (rowTokens ds).length
  | [], _ => by simp [rowCost, rowTokens]
  | d :: ds, h => by
    have hd := cost_le hr d h.1
    have hds := rowCost_le hr ds h.2
    have hbound : d.symbol.level level ≤ Category.all.length := by
      cases d with
      | leaf token => exact Nat.zero_le _
      | node r children => exact hr.level_le r.result
    rw [rowCost, rowTokens, length_append, length_cons, Nat.mul_add, Nat.mul_add]
    omega

end

end Derivation

/-! ## Steps -/

theorem trees_cons (frame : Frame) (stack : List Frame) :
    trees (frame :: stack) = trees stack ++ [frame.tree] := by
  simp [trees]

theorem trees_split (stack : List Frame) (k : ℕ) :
    trees stack = trees (stack.drop k) ++ trees (stack.take k) := by
  rw [trees, trees, trees, ← map_append, ← reverse_append, take_append_drop]

theorem Path.rowFits (h : Path rules stack) : Derivation.RowFits rules (trees stack) := by
  induction h with
  | nil => exact trivial
  | cons _ _ _ _ hfits ih =>
    rw [trees_cons, Derivation.rowFits_iff, forall_mem_append]
    exact ⟨Derivation.rowFits_iff.1 ih, forall_mem_singleton.2 hfits⟩

def Configuration.tokens (c : Configuration) : List Token :=
  Derivation.rowTokens (trees c.stack) ++ c.input

/-- What a step from a configuration on a path leads to: a path that is longer by one leaf or node,
a derivation of the tokens read, or a token that cannot stand there. -/
def Step.Follows (rules : List Rule) (c : Configuration) : Step → Prop
  | .next c' => Path rules c'.stack ∧ c'.tokens = c.tokens ∧
      Derivation.rowCost (trees c'.stack) = Derivation.rowCost (trees c.stack) + 1
  | .accepted tree => tree.Fits rules ∧ tree.symbol = .category .root ∧
      tree.tokens ++ c.input = c.tokens
  | .rejected r => ∃ token expected, r = .unexpected token expected

variable {c : Configuration} {s : ℕ}

/-- A rule whose first place is in the closure of the set below its parts: it is the rule of whole
texts, and there is nothing below, or the machine can move over its category. -/
theorem Path.begins (hr : Proper rules level) (hpath : Path rules stack)
    (hs : StandsAt rules stack s) {p : Placed} (hp : p ∈ place 0 0 rules)
    (hbit : ((Layout.ofRules rules).closure s).testBit p.base = true) :
    (stack = [] ∧ p.rule.result = .root) ∨
      p.rule.result ≠ .root ∧ ∃ s', (Layout.ofRules rules).next? s (.category p.rule.result) =
        some s' := by
  obtain hfirst | ⟨q, hq, hbase, hmeets⟩ := Layout.testBit_closure hbit
  · left
    cases hpath with
    | nil =>
      refine ⟨rfl, ?_⟩
      obtain rfl := hs.unique (standsAt_nil hr.ne_nil)
      obtain ⟨r, rs, rfl, hroot⟩ := hr.first
      have hzero : p.base = 0 := Nat.testBit_one_eq_true_iff_self_eq_zero.1 hfirst
      have hmem : (⟨r, 0, 0⟩ : Placed) ∈ place 0 0 (r :: rs) := mem_cons_self
      obtain ⟨rfl, -⟩ := place_inj (i := 0) (j := 0) hp hmem (Nat.zero_le _) (Nat.zero_le _)
        (by rw [hzero])
      exact hroot
    | cons _ _ hnext hs' _ =>
      obtain rfl := hs.unique hs'
      rw [Layout.next?] at hnext
      split at hnext
      · cases hnext
      · rw [← Option.some.inj hnext] at hfirst
        exact absurd hfirst (Layout.not_testBit_after_base hp)
  · right
    obtain ⟨rfl, -⟩ := place_inj (i := 0) (j := 0) hp hq (Nat.zero_le _) (Nat.zero_le _)
      (by rw [Nat.add_zero, hbase, Nat.add_zero])
    refine ⟨fun hroot => ?_, _, if_neg hmeets⟩
    obtain ⟨r, hmem, hsymbol⟩ := Layout.mem_symbols_of_meets hmeets
    exact hr.root_not_mem r hmem (hroot ▸ hsymbol)

/-- **A rule that may be completed can be reduced.** -/
theorem reduce_follows (hr : Proper rules level) (hpath : Path rules c.stack)
    (hs : StandsAt rules c.stack s) {p : Placed} (hp : p ∈ place 0 0 rules)
    (hbit : s.testBit p.stop = true) :
    ((Automaton.ofRules rules).reduce c p.rule).Follows rules c := by
  obtain ⟨hsymbols, s', hs', hbase⟩ := hpath.pop hr.ne_nil hp le_rfl hs
    (Layout.testBit_closure_of_testBit hbit)
  have hdrop := hpath.drop p.rule.parts.length
  have hsplit := trees_split c.stack p.rule.parts.length
  have hfits : (Derivation.node p.rule (trees (c.stack.take p.rule.parts.length))).Fits rules := by
    have hrow := hpath.rowFits
    rw [hsplit, Derivation.rowFits_iff, forall_mem_append] at hrow
    refine ⟨rule_mem_of_mem_place hp, ?_, Derivation.rowFits_iff.2 hrow.2⟩
    have hlen : p.rule.symbols.length = p.rule.parts.length := length_map _
    rw [take_of_length_le hlen.le] at hsymbols
    rw [trees, map_map]
    exact hsymbols
  dsimp only [Automaton.reduce]
  obtain ⟨hnil, hroot⟩ | ⟨hroot, s'', hnext⟩ := hdrop.begins hr hs' hp hbase
  · rw [if_pos hroot]
    refine ⟨hfits, congrArg Symbol.category hroot, ?_⟩
    rw [hnil] at hsplit
    rw [Configuration.tokens, hsplit]
    rfl
  · obtain ⟨row, hrow, hfor⟩ := rows_ofRules hr.ne_nil hs'
    have hmem := Layout.mem_reached_of_next? hr.ne_nil (mem_of_getElem? hs') hnext
    have hlookup := hfor.gotos p.rule.result
    rw [hnext] at hlookup
    rw [if_neg hroot, hrow, Option.bind_some, hlookup]
    refine ⟨.cons hdrop hs' hnext (getElem?_idxOf hmem) hfits, ?_, ?_⟩
    · rw [Configuration.tokens, Configuration.tokens, trees_cons, hsplit,
        Derivation.rowTokens_append, Derivation.rowTokens_append]
      simp only [Derivation.rowTokens, Derivation.tokens, append_nil]
    · rw [trees_cons, hsplit, Derivation.rowCost_append, Derivation.rowCost_append]
      simp only [Derivation.rowCost, Derivation.cost]
      omega

theorem RowFor.shifts_finish (hr : Proper rules level) {row : Row} (h : RowFor rules s row) :
    row.shifts.lookup .finish = none := by
  rw [h.shifts, Layout.next?]
  split
  · rfl
  · next hmeets =>
    obtain ⟨r, hmem, hsymbol⟩ := Layout.mem_symbols_of_meets hmeets
    exact absurd hsymbol (hr.finish_not_mem r hmem)

theorem Row.reduction_of_action? {row : Row} {t : Terminal} {r : Rule}
    (ha : row.action? t = some (.reduce r)) :
    ∃ e ∈ row.reductions, e.1 = r ∧ e.2.contains t = true := by
  rw [Row.action?] at ha
  split at ha
  · cases ha
  · obtain ⟨e, he, heq⟩ := Option.map_eq_some_iff.1 ha
    exact ⟨e, mem_of_find?_eq_some he, Action.reduce.inj heq, by simpa using find?_some he⟩

theorem reduce_of_action? (hr : Proper rules level) {input : List Token} {row : Row}
    (hpath : Path rules stack) (hs : StandsAt rules stack s) (hfor : RowFor rules s row)
    {t : Terminal} {r : Rule} (ha : row.action? t = some (.reduce r)) :
    ((Automaton.ofRules rules).reduce ⟨stack, input⟩ r).Follows rules ⟨stack, input⟩ := by
  obtain ⟨e, he, rfl, -⟩ := Row.reduction_of_action? ha
  obtain ⟨p, hp, hrule, hbit⟩ := hfor.reductions e he
  rw [hrule]
  exact reduce_follows hr hpath hs hp hbit

theorem shift_follows (hr : Proper rules level) {token : Token} {input : List Token} {row : Row}
    {target : ℕ} (hpath : Path rules stack) (hs : StandsAt rules stack s)
    (hfor : RowFor rules s row) (ha : row.action? token.kind = some (.shift target)) :
    (Step.next ⟨⟨target, .leaf token⟩ :: stack, input⟩).Follows rules ⟨stack, token :: input⟩ := by
  have hlookup : row.shifts.lookup token.kind = some target := by
    rw [Row.action?] at ha
    split at ha
    · next target' h => rwa [← Action.shift.inj (Option.some.inj ha)]
    · obtain ⟨e, -, heq⟩ := Option.map_eq_some_iff.1 ha
      cases heq
  rw [hfor.shifts, Option.map_eq_some_iff] at hlookup
  obtain ⟨s', hnext, rfl⟩ := hlookup
  have hmem := Layout.mem_reached_of_next? hr.ne_nil (mem_of_getElem? hs) hnext
  refine ⟨.cons hpath hs hnext (getElem?_idxOf hmem) trivial, ?_, ?_⟩
  · simp [Configuration.tokens, trees_cons, Derivation.rowTokens_append, Derivation.rowTokens,
      Derivation.tokens]
  · simp [trees_cons, Derivation.rowCost_append, Derivation.rowCost, Derivation.cost]

/-- **A step from a path follows it.** -/
theorem step_follows (hr : Proper rules level) (hpath : Path rules c.stack) :
    ((Automaton.ofRules rules).step c).Follows rules c := by
  obtain ⟨s, hs⟩ := hpath.standsAt hr.ne_nil
  obtain ⟨row, hrow, hfor⟩ := rows_ofRules hr.ne_nil hs
  have hstate : (Automaton.ofRules rules).rows[c.state]? = some row := hrow
  simp only [Automaton.step, hstate]
  obtain ⟨stack, input⟩ := c
  cases input with
  | nil =>
    cases ha : row.action? .finish with
    | none => exact ⟨_, _, rfl⟩
    | some action =>
      cases action with
      | reduce r => exact reduce_of_action? hr hpath hs hfor ha
      | shift target => simp [Row.action?, hfor.shifts_finish hr] at ha
  | cons token input =>
    dsimp only
    cases ha : row.action? token.kind with
    | none => exact ⟨_, _, rfl⟩
    | some action =>
      cases action with
      | reduce r => exact reduce_of_action? hr hpath hs hfor ha
      | shift target => exact shift_follows hr hpath hs hfor ha

/-- The machine with enough fuel derives the tokens or meets one that cannot stand there.  The cost
of the stack grows by one in each step, and is bounded by the number of tokens. -/
theorem run_follows (hr : Proper rules level) {fuel : ℕ} (hpath : Path rules c.stack)
    (hfuel : Derivation.costPerToken * c.tokens.length <
    fuel + Derivation.rowCost (trees c.stack)) :
    (∃ tree, (Automaton.ofRules rules).run fuel c = .ok tree ∧ tree.Fits rules ∧
      tree.symbol = .category .root ∧ tree.tokens <+: c.tokens) ∨
    ∃ token expected, (Automaton.ofRules rules).run fuel c =
      .error (.unexpected token expected) := by
  induction fuel generalizing c with
  | zero =>
    have hcost := Derivation.rowCost_le hr _ hpath.rowFits
    have hlen : Derivation.costPerToken * (Derivation.rowTokens (trees c.stack)).length ≤
        Derivation.costPerToken * c.tokens.length := by
      refine Nat.mul_le_mul_left _ ?_
      rw [Configuration.tokens, length_append]
      omega
    omega
  | succ fuel ih =>
    have hstep := step_follows hr hpath
    rw [Automaton.run]
    cases h : (Automaton.ofRules rules).step c with
    | next c' =>
      rw [h] at hstep
      obtain ⟨hpath', htokens, hcost⟩ := hstep
      rw [← htokens]
      exact ih hpath' (by rw [htokens, hcost]; omega)
    | accepted tree =>
      rw [h] at hstep
      exact .inl ⟨tree, rfl, hstep.1, hstep.2.1, c.input, hstep.2.2⟩
    | rejected r =>
      rw [h] at hstep
      obtain ⟨token, expected, rfl⟩ := hstep
      exact .inr ⟨token, expected, rfl⟩

/-- **The machine of proper rules derives a row of tokens from its start on, or meets a token that
cannot stand there.** -/
theorem parse_ofRules (hr : Proper rules level) (tokens : List Token) :
    (∃ tree, (Automaton.ofRules rules).parse tokens = .ok tree ∧ tree.Fits rules ∧
      tree.symbol = .category .root ∧ tree.tokens <+: tokens) ∨
    ∃ token expected, (Automaton.ofRules rules).parse tokens =
      .error (.unexpected token expected) := by
  refine run_follows (c := ⟨[], tokens⟩) hr .nil ?_
  show Derivation.costPerToken * tokens.length < Automaton.stepBound tokens.length + 0
  rw [Automaton.stepBound, Derivation.costPerToken, Nat.mul_comm]
  exact Nat.mul_lt_mul_of_pos_right (Nat.lt_succ_self _) (Nat.succ_pos _)

end Yielding.Grammar
