import Yielding.Proofs.Moving.Lexing
import Yielding.Proofs.Parsing.Language

/-!
# Proofs/Moving/Parsing — items that are moved down

The machine looks at the kinds of tokens only, so it derives moved tokens as it derives them
(`parse_down`), and what a derivation stands for moves with its tokens (`definition_down`).  So **a
slice that is moved down is read as what it was read as, moved down** (`Slice.parse_down`).
-/

namespace Yielding

open Located Grammar

variable {n : Nat}

namespace Grammar

/-! ## Derivations -/

mutual

def Derivation.move (n : Nat) : Derivation → Derivation
  | .leaf token => .leaf (down n token)
  | .node rule children => .node rule (Derivation.moveRow n children)

def Derivation.moveRow (n : Nat) : List Derivation → List Derivation
  | [] => []
  | d :: ds => Derivation.move n d :: Derivation.moveRow n ds

end

instance : Located Derivation := ⟨Derivation.move⟩

theorem Derivation.moveRow_eq (ds : List Derivation) : Derivation.moveRow n ds = down n ds := by
  induction ds with
  | nil => rfl
  | cons d ds ih => exact congrArg _ ih

theorem Derivation.down_node (rule : Rule) (ds : List Derivation) :
    down n (Derivation.node rule ds) = .node rule (down n ds) := congrArg _ (moveRow_eq ds)

/-! ## The machine -/

instance : Located Frame where
  down n f := { f with tree := down n f.tree }

instance : Located Configuration where
  down n c := ⟨down n c.stack, down n c.input⟩

instance : Located Rejection where
  down n
    | .unexpected token expected => .unexpected (down n token) expected
    | .noMove => .noMove
    | .exhausted => .exhausted

instance : Located Step where
  down n
    | .next c => .next (down n c)
    | .accepted tree => .accepted (down n tree)
    | .rejected r => .rejected (down n r)

instance : Located (Except Rejection Derivation) where
  down n
    | .ok tree => .ok (down n tree)
    | .error r => .error (down n r)

theorem topState_down (stack : List Frame) : topState (down n stack) = topState stack := by
  cases stack <;> rfl

theorem trees_down (stack : List Frame) : trees (down n stack) = down n (trees stack) := by
  show (stack.map (down n)).reverse.map Frame.tree = (stack.reverse.map Frame.tree).map (down n)
  rw [← List.map_reverse, List.map_map, List.map_map]
  rfl

theorem Configuration.state_down (c : Configuration) : (down n c).state = c.state :=
  topState_down c.stack

namespace Automaton

variable (a : Automaton)

theorem reduce_down (c : Configuration) (rule : Rule) :
    a.reduce (down n c) rule = down n (a.reduce c rule) := by
  obtain ⟨stack, input⟩ := c
  have hparts : (down n stack).take rule.parts.length = down n (stack.take rule.parts.length) :=
    List.map_take.symm
  have hrest : (down n stack).drop rule.parts.length = down n (stack.drop rule.parts.length) :=
    List.map_drop.symm
  dsimp only [reduce]
  rw [show (down n (⟨stack, input⟩ : Configuration)).stack = down n stack from rfl,
    show (down n (⟨stack, input⟩ : Configuration)).input = down n input from rfl, hparts, hrest,
    trees_down, topState_down, ← Derivation.down_node]
  split
  · rfl
  · split <;> rfl

theorem step_down (c : Configuration) : a.step (down n c) = down n (a.step c) := by
  rw [step, step, Configuration.state_down]
  cases a.rows[c.state]? with
  | none => rfl
  | some row =>
    obtain ⟨stack, input⟩ := c
    cases input with
    | nil =>
      dsimp only [down]
      cases row.action? .finish with
      | none => rfl
      | some action =>
        cases action with
        | shift => rfl
        | reduce rule => exact a.reduce_down ⟨stack, []⟩ rule
    | cons token rest =>
      rw [show (down n (⟨stack, token :: rest⟩ : Configuration)).input =
        down n token :: down n rest from rfl]
      dsimp only
      rw [show (down n token).kind = token.kind from rfl]
      cases row.action? token.kind with
      | none => rfl
      | some action =>
        cases action with
        | shift => rfl
        | reduce rule => exact a.reduce_down ⟨stack, token :: rest⟩ rule

theorem run_down (fuel : Nat) (c : Configuration) :
    a.run fuel (down n c) = down n (a.run fuel c) := by
  induction fuel generalizing c with
  | zero => rfl
  | succ fuel ih =>
    rw [run, run, step_down]
    cases a.step c with
    | next c => exact ih c
    | _ => rfl

/-- **The machine derives moved tokens as it derives them.** -/
theorem parse_down (tokens : List Token) : a.parse (down n tokens) = down n (a.parse tokens) := by
  rw [parse, parse, show (down n tokens).length = tokens.length from List.length_map _]
  exact a.run_down _ ⟨[], tokens⟩

end Automaton

/-! ## Reading -/

instance : Located Reading where
  down n r := ⟨down n r.region, down n r.values⟩

theorem join?_down (a b : Option Region) :
    Region.join? (down n a) (down n b) = down n (Region.join? a b) := by
  cases a <;> cases b <;> rfl

namespace Derivation

variable {rules : List Rule}

theorem isSome_region (h : ∀ r ∈ rules, r.parts ≠ []) :
    ∀ d : Derivation, d.Fits rules → d.read.region.isSome
  | .leaf _, _ => rfl
  | .node r [], ⟨hr, hsymbols, _⟩ => absurd (List.map_eq_nil_iff.1 hsymbols.symm) (h r hr)
  | .node r (d :: ds), ⟨_, hsymbols, hd, _⟩ => by
    rw [read]
    cases hparts : r.parts with
    | nil => rw [Rule.symbols, hparts] at hsymbols; cases hsymbols
    | cons part parts =>
      obtain ⟨region, hregion⟩ := Option.isSome_iff_exists.1 (isSome_region h d hd)
      show (Region.join? d.read.region (readRow parts ds).region).isSome
      rw [hregion]
      cases (readRow parts ds).region <;> rfl

mutual

theorem read_down (h : ∀ r ∈ rules, r.parts ≠ []) :
    ∀ d : Derivation, d.Fits rules → (down n d).read = down n d.read
  | .leaf _, _ => rfl
  | .node r ds, hd => by
    have hrow : readRow r.parts (down n ds) = down n (readRow r.parts ds) :=
      readRow_down h ds r.parts hd.2.2
    obtain ⟨region, hregion⟩ := Option.isSome_iff_exists.1 (isSome_region h _ hd)
    replace hregion : (readRow r.parts ds).region = some region := hregion
    have hvalues : Value.read r.form (down n region) (down n (readRow r.parts ds).values) =
        down n (Value.read r.form region (readRow r.parts ds).values) := Value.down_read ..
    rw [down_node, read, read, hrow]
    show (⟨down n (readRow r.parts ds).region,
      Value.read r.form ((down n (readRow r.parts ds).region).getD default) _⟩ : Reading) = _
    rw [hregion]
    exact congrArg (Reading.mk (some (down n region))) hvalues

theorem readRow_down (h : ∀ r ∈ rules, r.parts ≠ []) :
    ∀ (ds : List Derivation) (parts : List Part), RowFits rules ds →
      readRow parts (down n ds) = down n (readRow parts ds)
  | [], [], _ => rfl
  | [], _ :: _, _ => rfl
  | _ :: _, [], _ => rfl
  | d :: ds, part :: parts, ⟨hd, hds⟩ => by
    show (⟨Region.join? (down n d).read.region (readRow parts (down n ds)).region,
      (if part.kept then (down n d).read.values else []) ++ (readRow parts (down n ds)).values⟩ :
        Reading) = _
    have hvalues : (if part.kept then down n d.read.values else []) =
        down n (if part.kept then d.read.values else []) := by
      cases part.kept <;> rfl
    rw [read_down h d hd, readRow_down h ds parts hds]
    exact congrArg₂ Reading.mk (join?_down ..)
      ((congrArg (· ++ _) hvalues).trans (down_append ..).symm)

end

theorem definition_down (h : ∀ r ∈ rules, r.parts ≠ []) {d : Derivation} (hd : d.Fits rules) :
    (down n d).definition = down n d.definition := by
  obtain ⟨region, hregion⟩ := Option.isSome_iff_exists.1 (isSome_region h d hd)
  rw [definition, definition, read_down h d hd, hregion]
  rw [show (down n d.read).values = down n d.read.values from rfl,
    show (down n d.read).region = down n d.read.region from rfl, hregion]
  rcases d.read.values with _ | ⟨v, _ | _⟩
  · rfl
  · cases v <;> rfl
  · cases v <;> rfl

end Derivation

end Grammar

/-! ## Slices -/

namespace Slice

variable {s : Slice} {tokens : List Token}

theorem rejection_down (h : tokens ≠ []) (token : Option Token) (expected : List Terminal) :
    (down n s).rejection (down n tokens) (.unexpected (down n token) expected) =
      down n (s.rejection tokens (.unexpected token expected)) := by
  have hplace : ∃ t, (token <|> tokens.getLast?) = some t ∧
      (down n token <|> (down n tokens).getLast?) = some (down n t) := by
    cases token with
    | some t => exact ⟨t, rfl, rfl⟩
    | none =>
      obtain ⟨t, ht⟩ := Option.ne_none_iff_exists.1 (mt List.getLast?_eq_none_iff.1 h)
      exact ⟨t, ht.symm, by rw [getLast?_down, ← ht]; rfl⟩
  obtain ⟨t, ht, ht'⟩ := hplace
  have hbody : (down n s).bodyOpen.before (down n t).region.start =
      s.bodyOpen.before t.region.start := Pos.before_down ..
  unfold rejection
  simp only [ht, ht', Option.map_some, Option.getD_some, hbody]
  cases token with
  | none => rfl
  | some found => rfl

theorem parseBy_down {automaton : Automaton} (hline : 1 ≤ s.start.line)
    (hlex : Lexer.lex s.padded = ⟨tokens, none⟩) (hne : tokens ≠ [])
    (h : (∃ tree, automaton.parse tokens = .ok tree ∧
        (down n tree).definition = down n tree.definition) ∨
      ∃ token expected, automaton.parse tokens = .error (.unexpected token expected)) :
    (down n s).parseBy automaton = down n (s.parseBy automaton) := by
  have hlex' : Lexer.lex (down n s).padded = ⟨down n tokens, none⟩ := by
    rw [lex_padded_down n hline, hlex]
    rfl
  obtain ⟨tree, hparse, htree⟩ | ⟨token, expected, hparse⟩ := h
  · have hparse' : automaton.parse (down n tokens) = .ok (down n tree) := by
      rw [automaton.parse_down, hparse]
      rfl
    rw [parseBy_eq_definition hlex hparse, parseBy_eq_definition hlex' hparse', htree]
  · have hparse' : automaton.parse (down n tokens) =
        .error (.unexpected (down n token) expected) := by
      rw [automaton.parse_down, hparse]
      rfl
    rw [parseBy_eq_rejection hlex hparse, parseBy_eq_rejection hlex' hparse',
      rejection_down hne]
    rfl

attribute [local irreducible] itemAutomaton

/-- **A slice that is moved down is read as what it was read as, moved down.** -/
theorem parse_down (hline : 1 ≤ s.start.line) (hlex : Lexer.lex s.padded = ⟨tokens, none⟩)
    (hne : tokens ≠ []) : (down n s).parse = down n s.parse := by
  rw [Slice.parse, Slice.parse, itemAutomaton]
  refine parseBy_down hline hlex hne ?_
  refine (parse_ofRules proper_itemRules tokens).imp_left ?_
  rintro ⟨tree, hparse, hfits, -, -⟩
  exact ⟨tree, hparse, Derivation.definition_down proper_itemRules.parts_ne_nil hfits⟩

end Slice

end Yielding
