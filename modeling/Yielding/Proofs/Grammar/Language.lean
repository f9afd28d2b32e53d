import Mathlib.Logic.Relation
import Yielding.Proofs.Grammar.Lookaheads
import Yielding.Proofs.Grammar.Runs

/-!
# Proofs/Grammar/Language — the machine accepts the language of its rules

Rules are **free of conflicts** when a row never may reduce by two rules, and never may shift a
terminal that is ahead of a rule it may reduce by.  Then the machine builds every derivation step by
step, its leaves by shifts and its nodes by reductions (`Derivation.runs`).  So it accepts exactly
the rows of tokens that have a derivation, and each has only one (`parse_eq_ok_iff`).
-/

namespace Yielding.Grammar

open List Layout

variable {rules : List Rule} {level : Category → ℕ}

/-- The rows of the rules never have two ways to go on. -/
structure ConflictFree (rules : List Rule) : Prop where
  reduce : ∀ {xs : List Symbol} {p q : Placed}, p ∈ place 0 0 rules → q ∈ place 0 0 rules →
    ((ofRules rules).sight xs).testBit p.stop = true →
    ((ofRules rules).sight xs).testBit q.stop = true → p = q
  shift : ∀ {xs : List Symbol} {p : Placed} {t : Terminal}, p ∈ place 0 0 rules →
    (view rules xs).testBit p.base = true →
    Ahead rules xs p.rule.result t → ¬CanRead rules (xs ++ p.rule.symbols) (.terminal t)

/-- The rules are proper and free of conflicts, and a whole text is one item. -/
structure Deterministic (rules : List Rule) (level : Category → ℕ) : Prop
    extends Proper rules level where
  root : ∃ r rs, rules = r :: rs ∧ r.symbols = [.category .item] ∧ ∀ r' ∈ rs, r'.result ≠ .root
  conflictFree : ConflictFree rules

/-! ## What a stack spells -/

def spelled (stack : List Frame) : List Symbol := (trees stack).map Derivation.symbol

theorem spelled_cons (frame : Frame) (stack : List Frame) :
    spelled (frame :: stack) = spelled stack ++ [frame.tree.symbol] := by
  simp [spelled, trees_cons]

theorem spelled_append (frames stack : List Frame) :
    spelled (frames ++ stack) = spelled stack ++ spelled frames := by
  simp [spelled, trees]

variable {stack : List Frame}

theorem Path.standsAt_sight (h : rules ≠ []) (hpath : Path rules stack) :
    StandsAt rules stack ((ofRules rules).sight (spelled stack)) := by
  induction hpath with
  | nil => exact standsAt_nil h
  | cons _ hs hnext hs' _ ih =>
    obtain rfl := hs.unique ih
    rw [Layout.next?] at hnext
    split at hnext
    · cases hnext
    · rw [spelled_cons, sight_concat, Option.some.inj hnext]
      exact hs'

theorem Path.topState (h : rules ≠ []) (hpath : Path rules stack) :
    topState stack = rowOf rules (spelled stack) := by
  have hstands := hpath.standsAt_sight h
  obtain ⟨hlt, hget⟩ := List.getElem?_eq_some_iff.1 hstands
  rw [rowOf, ← hget]
  exact ((reached_nodup rules).idxOf_getElem _ hlt).symm

theorem Path.viable (h : rules ≠ []) (hpath : Path rules stack) : Viable rules (spelled stack) :=
  mem_of_getElem? (hpath.standsAt_sight h)

theorem Path.row (h : rules ≠ []) (hpath : Path rules stack) : ∃ row,
    (Automaton.ofRules rules).rows[Grammar.topState stack]? = some row ∧
      (Automaton.ofRules rules).rows[rowOf rules (spelled stack)]? = some row ∧
      RowFor rules ((ofRules rules).sight (spelled stack)) row := by
  obtain ⟨row, hrow, hfor⟩ := rows_ofRules h (hpath.standsAt_sight h)
  exact ⟨row, hrow, hpath.topState h ▸ hrow, hfor⟩

/-! ## The first token of a phrase -/

theorem mem_place_of_mem (index base : ℕ) {r : Rule} (h : r ∈ rules) :
    ∃ p ∈ place index base rules, p.rule = r := by
  induction rules generalizing index base with
  | nil => cases h
  | cons r' rs ih =>
    rcases mem_cons.1 h with rfl | h
    · exact ⟨_, mem_cons_self, rfl⟩
    · obtain ⟨p, hp, hpr⟩ := ih (index + 1) (base + r'.parts.length + 1) h
      exact ⟨p, mem_cons_of_mem _ hp, hpr⟩

variable {xs : List Symbol}

theorem Derivation.canRead_first (hr : Proper rules level) : ∀ d : Derivation, d.Fits rules →
    CanRead rules xs d.symbol →
      ∃ token rest, d.tokens = token :: rest ∧ CanRead rules xs (.terminal token.kind)
  | .leaf token, _, h => ⟨token, [], rfl, h⟩
  | .node r [], hfits, _ => absurd (map_eq_nil_iff.1 hfits.2.1.symm) (hr.parts_ne_nil r hfits.1)
  | .node r (d :: ds), hfits, h => by
    obtain ⟨p, hp, rfl⟩ := mem_place_of_mem 0 0 hfits.1
    have hfirst : p.rule.symbols[0]? = some d.symbol := by rw [← hfits.2.1]; rfl
    have hread := canRead_part hp (testBit_closure_base hp h) hfirst
    rw [take_zero, append_nil] at hread
    obtain ⟨token, rest, htokens, hcan⟩ := canRead_first hr d hfits.2.2.1 hread
    exact ⟨token, rest ++ rowTokens ds, by simp [tokens, rowTokens, htokens], hcan⟩

/-! ## Steps of the machine -/

def look (input : List Token) : Terminal := (input.head?.map Token.kind).getD .finish

variable {c : Configuration}

theorem step_reduce {a : Automaton} {row : Row} {r : Rule}
    (hrow : a.rows[topState c.stack]? = some row)
    (ha : row.action? (look c.input) = some (.reduce r)) : a.step c = a.reduce c r := by
  obtain ⟨stack, input⟩ := c
  have hrow : a.rows[Configuration.state ⟨stack, input⟩]? = some row := hrow
  cases input with
  | nil =>
    have ha : row.action? .finish = some (.reduce r) := ha
    simp only [Automaton.step, hrow, ha]
  | cons token rest =>
    have ha : row.action? token.kind = some (.reduce r) := ha
    simp only [Automaton.step, hrow, ha]

/-- A machine goes from one configuration to the next. -/
def Next (a : Automaton) (c c' : Configuration) : Prop := a.step c = .next c'

theorem run_of_steps {a : Automaton} {c' : Configuration} {tree : Derivation}
    (h : Relation.ReflTransGen (Next a) c c') (hc' : a.step c' = .accepted tree) (fuel : ℕ) :
    a.run fuel c = .ok tree ∨ a.run fuel c = .error .exhausted := by
  induction h using Relation.ReflTransGen.head_induction_on generalizing fuel with
  | refl =>
    cases fuel with
    | zero => exact .inr rfl
    | succ fuel => exact .inl (by rw [Automaton.run, hc'])
  | head hstep _ ih =>
    cases fuel with
    | zero => exact .inr rfl
    | succ fuel =>
      rw [Automaton.run, hstep]
      exact ih fuel

theorem action?_eq_reduce (hd : ConflictFree rules) {p : Placed} {t : Terminal} {row : Row}
    (hp : p ∈ place 0 0 rules) (hfor : RowFor rules ((ofRules rules).sight xs) row)
    (hstop : ((ofRules rules).sight xs).testBit p.stop = true)
    (hshift : ¬CanRead rules xs (.terminal t))
    (hreduce : ∃ e ∈ row.reductions, e.1 = p.rule ∧ e.2.contains t = true) :
    row.action? t = some (.reduce p.rule) := by
  have hnone : row.shifts.lookup t = none := by
    rw [hfor.shifts, Layout.next?]
    exact congrArg _ (if_pos (not_not.1 hshift))
  obtain ⟨e, he, -, hcontains⟩ := hreduce
  obtain ⟨e', hfind⟩ : ∃ e', row.reductions.find? (·.2.contains t) = some e' :=
    Option.isSome_iff_exists.1 (find?_isSome.2 ⟨e, he, hcontains⟩)
  obtain ⟨q, hq, hrule, hbit⟩ := hfor.reductions e' (mem_of_find?_eq_some hfind)
  obtain rfl := hd.reduce hp hq hstop hbit
  rw [Row.action?, hnone]
  dsimp only
  rw [hfind, Option.map_some, hrule]

theorem action?_eq_shift {t : Terminal} {row : Row}
    (hfor : RowFor rules ((ofRules rules).sight xs) row) (hcan : CanRead rules xs (.terminal t)) :
    row.action? t = some (.shift (rowOf rules (xs ++ [.terminal t]))) := by
  rw [Row.action?, hfor.shifts, next?_sight hcan]
  rfl

section Reduce

variable (hd : Deterministic rules level) {stack frames : List Frame} {ds : List Derivation}
  {input : List Token} {p : Placed}

include hd

theorem testBit_stop (hp : p ∈ place 0 0 rules) (hbase : (view rules xs).testBit p.base = true) :
    ((ofRules rules).sight (xs ++ p.rule.symbols)).testBit p.stop = true := by
  have hread := testBit_sight_append hp hbase p.rule.parts.length le_rfl
  have hlen : p.rule.symbols.length = p.rule.parts.length := length_map _
  rw [take_of_length_le hlen.le] at hread
  obtain ⟨k, hk⟩ : ∃ k, p.rule.parts.length = k + 1 := Nat.exists_eq_succ_of_ne_zero
    (mt length_eq_zero_iff.1 (hd.parts_ne_nil _ (rule_mem_of_mem_place hp)))
  rw [hk] at hread
  rw [Placed.stop, hk]
  exact testBit_of_testBit_closure hp hk.ge hread

/-- **The parts of a phrase on top of a stack are reduced** when what follows is ahead of it. -/
theorem step_reduces (hp : p ∈ place 0 0 rules) (hpath : Path rules stack)
    (hpath' : Path rules (frames ++ stack)) (hframes : trees frames = ds)
    (hsymbols : ds.map Derivation.symbol = p.rule.symbols)
    (hread : CanRead rules (spelled stack) (.category p.rule.result))
    (hahead : Ahead rules (spelled stack) p.rule.result (look input)) :
    ∃ state, Next (.ofRules rules) ⟨frames ++ stack, input⟩
      ⟨⟨state, .node p.rule ds⟩ :: stack, input⟩ ∧
        Path rules (⟨state, .node p.rule ds⟩ :: stack) := by
  have hbase := testBit_closure_base hp hread
  have hspelled : spelled (frames ++ stack) = spelled stack ++ p.rule.symbols := by
    rw [spelled_append, spelled, spelled, hframes, hsymbols]
  have hstop := testBit_stop hd hp hbase
  obtain ⟨row, hrow, hrow', hfor⟩ := hpath'.row hd.ne_nil
  rw [hspelled] at hrow' hfor
  have haction := action?_eq_reduce hd.conflictFree hp hfor hstop
    (hd.conflictFree.shift hp hbase hahead)
    (reductions_of_ahead hd.ne_nil (hpath.viable hd.ne_nil) hp hbase hstop hread hahead hrow')
  have hstep := step_reduce (c := ⟨frames ++ stack, input⟩) hrow haction
  -- the parts are the frames, and the row below them moves over the category
  have hlength : p.rule.parts.length = frames.length := by
    have hlen := congrArg List.length hsymbols
    rw [length_map, ← hframes, Rule.symbols, length_map] at hlen
    rw [← hlen, trees, length_map, length_reverse]
  obtain ⟨below, hbelow, -, hforBelow⟩ := hpath.row hd.ne_nil
  have hgoto := hforBelow.gotos p.rule.result
  rw [next?_sight hread] at hgoto
  have hroot : p.rule.result ≠ .root := by
    intro hroot
    obtain ⟨r, hr, hmem⟩ := Layout.mem_symbols_of_meets hread
    exact hd.root_not_mem r hr (hroot ▸ hmem)
  dsimp only [Automaton.reduce] at hstep
  rw [if_neg hroot, hlength, drop_left, take_left, hframes, hbelow, Option.bind_some,
    hgoto] at hstep
  have hfollows := step_follows hd.toProper (c := ⟨frames ++ stack, input⟩) hpath'
  rw [hstep] at hfollows
  exact ⟨_, hstep, hfollows.1⟩

end Reduce

/-! ## Derivations are built -/

mutual

/-- **The machine builds a derivation from its tokens** where its symbol can be read and what
follows is ahead of it. -/
theorem Derivation.runs (hd : Deterministic rules level) : ∀ (d : Derivation), d.Fits rules →
    ∀ (rest : List Token) {stack : List Frame}, Path rules stack →
      CanRead rules (spelled stack) d.symbol →
      (∀ c, d.symbol = .category c → Ahead rules (spelled stack) c (look rest)) →
      ∃ state, Relation.ReflTransGen (Next (.ofRules rules)) ⟨stack, d.tokens ++ rest⟩
        ⟨⟨state, d⟩ :: stack, rest⟩ ∧ Path rules (⟨state, d⟩ :: stack)
  | .leaf token, _, rest, stack, hpath, hread, _ => by
    obtain ⟨row, hrow, -, hfor⟩ := hpath.row hd.ne_nil
    have hstep : Next (.ofRules rules) ⟨stack, token :: rest⟩
        ⟨⟨rowOf rules (spelled stack ++ [.terminal token.kind]), .leaf token⟩ :: stack, rest⟩ := by
      have hrow : (Automaton.ofRules rules).rows[Configuration.state ⟨stack, token :: rest⟩]? =
          some row := hrow
      simp only [Next, Automaton.step, hrow, action?_eq_shift hfor hread]
    have hfollows := step_follows hd.toProper (c := ⟨stack, token :: rest⟩) hpath
    rw [hstep] at hfollows
    exact ⟨_, .single hstep, hfollows.1⟩
  | .node r ds, hfits, rest, stack, hpath, hread, hahead => by
    obtain ⟨p, hp, rfl⟩ := mem_place_of_mem 0 0 hfits.1
    have hbase := testBit_closure_base hp hread
    have hviable := hpath.viable hd.ne_nil
    obtain ⟨frames, hframes, hsteps, hpath'⟩ := runsRow hd ds hfits.2.2 rest hp hbase 0
      (by simpa using hfits.2.1.symm) hpath (by simp) fun ys c hlast =>
        .last hviable hp hlast hbase hread (hahead _ rfl)
    obtain ⟨state, hstep, hpath''⟩ := step_reduces hd hp hpath hpath' hframes hfits.2.1 hread
      (hahead _ rfl)
    exact ⟨state, hsteps.tail hstep, hpath''⟩

/-- The same for the parts of a rule from the part `k` on, above a stack from which the rule can
begin. -/
theorem Derivation.runsRow (hd : Deterministic rules level) : ∀ (ds : List Derivation),
    RowFits rules ds → ∀ (rest : List Token) {p : Placed} {xs : List Symbol},
      p ∈ place 0 0 rules →
      (view rules xs).testBit p.base = true →
      ∀ (k : ℕ), p.rule.symbols.drop k = ds.map symbol →
      ∀ {stack : List Frame}, Path rules stack → spelled stack = xs ++ p.rule.symbols.take k →
      (∀ ys c, p.rule.symbols = ys ++ [.category c] → Ahead rules (xs ++ ys) c (look rest)) →
      ∃ frames, trees frames = ds ∧
        Relation.ReflTransGen (Next (.ofRules rules)) ⟨stack, rowTokens ds ++ rest⟩
          ⟨frames ++ stack, rest⟩ ∧ Path rules (frames ++ stack)
  | [], _, rest, p, xs, _, _, k, _, stack, hpath, _, _ => ⟨[], rfl, .refl, hpath⟩
  | d :: ds, hfits, rest, p, xs, hp, hbase, k, hdrop, stack, hpath, hspelled, hlast => by
    have hd' : p.rule.symbols[k]? = some d.symbol := by
      rw [← head?_drop, hdrop]
      rfl
    have htake : p.rule.symbols.take (k + 1) = p.rule.symbols.take k ++ [d.symbol] := by
      rw [take_add_one, hd', Option.toList_some]
    have hrest : p.rule.symbols.drop (k + 1) = ds.map symbol := by
      rw [← drop_drop, hdrop]
      rfl
    have hread := canRead_part hp hbase hd'
    rw [← hspelled] at hread
    have hahead : ∀ c, d.symbol = .category c →
        Ahead rules (spelled stack) c (look (rowTokens ds ++ rest)) := by
      intro c hc
      cases ds with
      | nil =>
        have hsymbols : p.rule.symbols = p.rule.symbols.take k ++ [.category c] := by
          rw [← hc, ← htake, take_of_length_le]
          exact drop_eq_nil_iff.1 hrest
        rw [hspelled]
        exact hlast _ c hsymbols
      | cons d' ds =>
        -- the next part begins with a token that can be read behind this one
        have hd'' : p.rule.symbols[k + 1]? = some d'.symbol := by
          rw [← head?_drop, hrest]
          rfl
        have hread' := canRead_part hp hbase hd''
        rw [htake, ← append_assoc, ← hspelled, hc] at hread'
        obtain ⟨token, tokens, htokens, hcan⟩ := canRead_first hd.toProper d' hfits.2.1 hread'
        rw [rowTokens, htokens]
        exact .next hcan
    obtain ⟨state, hsteps, hpath'⟩ := runs hd d hfits.1 (rowTokens ds ++ rest) hpath hread hahead
    have hspelled' : spelled (⟨state, d⟩ :: stack) = xs ++ p.rule.symbols.take (k + 1) := by
      rw [spelled_cons, hspelled, htake, append_assoc]
    obtain ⟨frames, hframes, hsteps', hpath''⟩ := runsRow hd ds hfits.2 rest hp hbase
      (k + 1) hrest hpath' hspelled' hlast
    refine ⟨frames ++ [⟨state, d⟩], ?_, ?_, ?_⟩
    · rw [trees, reverse_append, map_append, reverse_singleton, map_singleton,
        ← trees, hframes]
      rfl
    · rw [rowTokens, append_assoc, append_assoc]
      exact hsteps.trans hsteps'
    · rw [append_assoc]
      exact hpath''

end

/-! ## The language -/

theorem not_canRead_finish (hr : Proper rules level) (xs : List Symbol) :
    ¬CanRead rules xs (.terminal .finish) := by
  intro h
  obtain ⟨r, hmem, hsymbol⟩ := Layout.mem_symbols_of_meets h
  exact hr.finish_not_mem r hmem hsymbol

theorem Deterministic.root_place (hd : Deterministic rules level) {p : Placed}
    (hp : p ∈ place 0 0 rules) (hroot : p.rule.result = .root) :
    p.base = 0 ∧ p.rule.symbols = [.category .item] := by
  obtain ⟨r, rs, rfl, hsymbols, hrest⟩ := hd.root
  rcases mem_cons.1 hp with rfl | hp
  · exact ⟨rfl, hsymbols⟩
  · exact absurd hroot (hrest _ (rule_mem_of_mem_place hp))

/-- **The machine finds every derivation.** -/
theorem parse_of_derives (hd : Deterministic rules level) {tokens : List Token} {d : Derivation}
    (h : d.Derives rules .root tokens) : (Automaton.ofRules rules).parse tokens = .ok d := by
  obtain ⟨hfits, hsymbol, rfl⟩ := h
  cases d with
  | leaf token => cases hsymbol
  | node r ds =>
    obtain ⟨p, hp, rfl⟩ := mem_place_of_mem 0 0 hfits.1
    have hroot : p.rule.result = .root := Symbol.category.inj hsymbol
    obtain ⟨hzero, hitem⟩ := hd.root_place hp hroot
    have hbase : (view rules []).testBit p.base = true := by
      rw [hzero]
      exact testBit_closure_of_testBit (Nat.testBit_one_eq_true_iff_self_eq_zero.2 rfl)
    -- the only part is an item, and nothing follows it
    have hlast : ∀ ys c, p.rule.symbols = ys ++ [.category c] →
        Ahead rules ([] ++ ys) c (look []) := by
      intro ys c hys
      rw [hitem, ← nil_append [Symbol.category _]] at hys
      obtain ⟨rfl, hc⟩ := append_inj' hys rfl
      obtain rfl := Symbol.category.inj (singleton_inj.1 hc)
      exact .finish
    obtain ⟨frames, hframes, hsteps, hpath⟩ := Derivation.runsRow hd ds hfits.2.2 [] hp hbase
      0 (by simpa using hfits.2.1.symm) .nil rfl hlast
    have hspelled : spelled (frames ++ []) = [] ++ p.rule.symbols := by
      rw [append_nil, spelled, hframes, hfits.2.1, nil_append]
    have hstop := testBit_stop hd hp hbase
    rw [← hspelled] at hstop
    obtain ⟨row, hrow, hrow', hfor⟩ := hpath.row hd.ne_nil
    have haction := action?_eq_reduce hd.conflictFree hp hfor hstop
      (not_canRead_finish hd.toProper _)
      (reductions_finish hd.ne_nil (hpath.viable hd.ne_nil) hp hroot hstop hrow')
    have hstep := step_reduce (c := ⟨frames ++ [], []⟩) hrow haction
    have hlength : p.rule.parts.length = frames.length := by
      have hlen := congrArg List.length hfits.2.1
      rw [length_map, ← hframes, Rule.symbols, length_map] at hlen
      rw [← hlen, trees, length_map, length_reverse]
    dsimp only [Automaton.reduce] at hstep
    rw [if_pos hroot, hlength, take_left, hframes] at hstep
    rw [append_nil] at hsteps
    obtain hrun | hrun :=
      run_of_steps hsteps hstep (Automaton.stepBound (Derivation.rowTokens ds).length)
    · exact hrun
    · obtain ⟨tree, htree, -⟩ | ⟨token, expected, herror⟩ :=
        parse_ofRules hd.toProper (Derivation.rowTokens ds)
      · cases htree.symm.trans hrun
      · cases herror.symm.trans hrun

theorem look_of_accepted (hr : Proper rules level) {tree : Derivation} (hpath : Path rules c.stack)
    (h : (Automaton.ofRules rules).step c = .accepted tree) : look c.input = .finish := by
  obtain ⟨row, hrow, -, -⟩ := hpath.row hr.ne_nil
  obtain ⟨stack, input⟩ := c
  cases input with
  | nil => rfl
  | cons token rest =>
    have hrow' : (Automaton.ofRules rules).rows[Configuration.state ⟨stack, token :: rest⟩]? =
      some row := hrow
    simp only [Automaton.step, hrow'] at h
    cases ha : row.action? token.kind with
    | none => simp [ha] at h
    | some action =>
      cases action with
      | shift target => simp [ha] at h
      | reduce r =>
        simp only [ha] at h
        have hroot : r.result = .root := by
          by_contra hroot
          rw [Automaton.reduce, if_neg hroot] at h
          split at h <;> cases h
        obtain ⟨e, he, rfl, hcontains⟩ := Row.reduction_of_action? ha
        exact reductions_root hr.ne_nil hr.root_not_mem (hpath.standsAt_sight hr.ne_nil) hrow he
          hroot hcontains

theorem derives_of_run (hr : Proper rules level) {fuel : ℕ} {tree : Derivation}
    (hpath : Path rules c.stack) (hfinish : ∀ t ∈ c.tokens, t.kind ≠ .finish)
    (h : (Automaton.ofRules rules).run fuel c = .ok tree) :
    tree.Derives rules .root c.tokens := by
  induction fuel generalizing c with
  | zero => cases h
  | succ fuel ih =>
    have hfollows := step_follows hr hpath
    rw [Automaton.run] at h
    cases hstep : (Automaton.ofRules rules).step c with
    | next c' =>
      rw [hstep] at h hfollows
      obtain ⟨hpath', htokens, -⟩ := hfollows
      rw [← htokens] at hfinish ⊢
      exact ih hpath' hfinish h
    | accepted tree' =>
      rw [hstep] at h hfollows
      obtain rfl := Except.ok.inj h
      obtain ⟨hfits, hroot, htokens⟩ := hfollows
      have hinput : c.input = [] := by
        have hlook := look_of_accepted hr hpath hstep
        cases hinput : c.input with
        | nil => rfl
        | cons token rest =>
          rw [hinput] at hlook
          refine absurd hlook (hfinish token ?_)
          simp [Configuration.tokens, hinput]
      rw [hinput, append_nil] at htokens
      exact ⟨hfits, hroot, htokens⟩
    | rejected r =>
      rw [hstep] at h
      cases h

/-- **The machine accepts exactly the derivable rows of tokens**, each with its only derivation. -/
theorem parse_eq_ok_iff (hd : Deterministic rules level) {tokens : List Token}
    (hfinish : ∀ t ∈ tokens, t.kind ≠ .finish) {d : Derivation} :
    (Automaton.ofRules rules).parse tokens = .ok d ↔ d.Derives rules .root tokens :=
  ⟨derives_of_run (c := ⟨[], tokens⟩) hd.toProper .nil hfinish, parse_of_derives hd⟩

end Yielding.Grammar
