import Yielding.Item.Parsing
import Yielding.Proofs.Grammar.Runs
import Yielding.Proofs.Parsing.Rules

/-!
# Proofs/Parsing/Items — what the items of a text are read as

The machine of the item rules derives a slice or meets a token that cannot stand there
(`parse_ofRules`), and what it derives is read as a definition made of source (`Slice.parse_fine`).
So the definitions of a text are source, and no problem of a text is that the parts of a phrase do
not fit its rule.
-/

namespace Yielding

open List Grammar

/-! ## The rules of items are proper -/

namespace Grammar

/-- The levels of the categories of items: a category is above each one that alone can make up a
phrase of it. -/
def Category.level : Category → ℕ
  | .primary => 1
  | .postfixed => 2
  | .unary => 3
  | .product => 4
  | .sum => 5
  | .comparison => 6
  | .conjunction => 7
  | .disjunction => 8
  | .range => 9
  | .expr => 10
  | .callArgs | .condition => 11
  | .type | .bound | .params | .attrs | .stmt | .arms | .root => 2
  | .typeArg | .stmts => 3
  | _ => 1

theorem proper_itemRules : Proper itemRules Category.level where
  first := ⟨_, _, rfl, rfl⟩
  finish_not_mem := by decide +kernel
  root_not_mem := by decide +kernel
  parts_ne_nil := by decide +kernel
  level_le c := by cases c <;> decide
  level_lt r hr part hpart := by
    have hsingle : ∀ r ∈ itemRules, r.parts.length = 1 → ∀ part ∈ r.parts,
        part.symbol.level Category.level < r.result.level := by decide +kernel
    exact hsingle r hr (by simp [hpart]) part (by simp [hpart])

/-! ## Derivations -/

variable {rules : List Rule}

mutual

/-- **A phrase that sound rules derive is read as its symbol.** -/
theorem Derivation.reads (hs : Sound rules) :
    ∀ d : Derivation, d.Fits rules → (∀ t ∈ d.tokens, t.Formed) → d.symbol.Reads d.read.values
  | .leaf t, _, ht => .of (.token t.kind) (contains_iff_mem.2 mem_cons_self)
    ⟨t, rfl, rfl, ht t mem_cons_self⟩
  | .node r ds, ⟨hr, hsymbols, hds⟩, ht => hs r hr _ _ (readsRow hs ds r.parts hds hsymbols ht)

theorem Derivation.readsRow (hs : Sound rules) :
    ∀ (ds : List Derivation) (parts : List Part), Derivation.RowFits rules ds →
      ds.map symbol = parts.map Part.symbol → (∀ t ∈ Derivation.rowTokens ds, t.Formed) →
      PartsRead parts (readRow parts ds).values
  | [], [], _, _, _ => rfl
  | d :: ds, part :: parts, ⟨hd, hds⟩, hsymbols, ht => by
    rw [map_cons, map_cons, List.cons.injEq] at hsymbols
    rw [Derivation.rowTokens, forall_mem_append] at ht
    refine ⟨_, _, rfl, ?_, readsRow hs ds parts hds hsymbols.2 ht.2⟩
    rw [Part.Reads]
    split
    · exact hsymbols.1 ▸ reads hs d hd ht.1
    · rfl

end

theorem Derivation.definition_fine {d : Derivation} (hd : d.Fits itemRules)
    (hroot : d.symbol = .category .root) (ht : ∀ t ∈ d.tokens, t.Formed) :
    Fine Definition.IsSource d.definition := by
  have hreads := d.reads sound_itemRules hd ht
  rw [hroot] at hreads
  obtain ⟨v, hv, _, hshape, hitem⟩ := (Symbol.reads_iff_of_one rfl).1 hreads
  obtain rfl := mem_singleton.1 hshape
  obtain ⟨definition, rfl, hdefinition⟩ := hitem
  rw [Derivation.definition, hv]
  exact hdefinition

end Grammar

/-! ## Slices -/

theorem Slice.rejection_cause (s : Slice) (tokens : List Token) (token : Option Token)
    (expected : List Terminal) :
    (s.rejection tokens (.unexpected token expected)).cause ≠ .incoherent := by
  unfold Slice.rejection
  cases token with
  | none => exact nofun
  | some t =>
    dsimp only
    split
    · exact nofun
    · split <;> exact nofun

theorem Slice.parseBy_fine {automaton : Automaton} {s : Slice}
    (h : (∃ tree, automaton.parse (Lexer.lex s.padded).tokens = .ok tree ∧
        Fine Definition.IsSource tree.definition) ∨
      ∃ token expected,
        automaton.parse (Lexer.lex s.padded).tokens = .error (.unexpected token expected)) :
    Fine Definition.IsSource (s.parseBy automaton) := by
  unfold Slice.parseBy
  dsimp only
  obtain ⟨tree, hparse, htree⟩ | ⟨token, expected, hparse⟩ := h
  · rw [hparse]
    cases (Lexer.lex s.padded).failure with
    | none => exact htree
    | some f => exact nofun
  · rw [hparse]
    split
    · next heq _ => cases heq
    · exact nofun
    · exact nofun
    · next heq _ =>
      cases heq
      exact s.rejection_cause _ token expected

-- only what `parse_ofRules` says of the automaton is used, its states are never computed
attribute [local irreducible] itemAutomaton

/-- **A slice is read as a definition that is made of source, or it has a problem of its own.** -/
theorem Slice.parse_fine (s : Slice) : Fine Definition.IsSource s.parse := by
  refine Slice.parseBy_fine ?_
  rw [itemAutomaton]
  refine (parse_ofRules proper_itemRules _).imp_left ?_
  rintro ⟨tree, hparse, hfits, hroot, htokens⟩
  exact ⟨tree, hparse, tree.definition_fine hfits hroot fun t ht =>
    Lexer.formed_of_mem_lex (htokens.subset ht)⟩

/-! ## Texts -/

theorem Scan.step_cause {source : List Char} {s : State} {t : Token} {p : Problem}
    (h : .problem p ∈ (step source s t).2) : p.cause ≠ .incoherent := by
  unfold step bodyless at h
  grind

theorem Scan.finish_cause {failure : Option Lexer.Failure} {s : State} {p : Problem}
    (h : .problem p ∈ finish failure s) : p.cause ≠ .incoherent := by
  unfold finish badChar bodyless at h
  grind

theorem Scan.events_cause {source : List Char} {failure : Option Lexer.Failure} {s : State}
    {tokens : List Token} {p : Problem} (h : .problem p ∈ events source failure s tokens) :
    p.cause ≠ .incoherent := by
  induction tokens generalizing s with
  | nil => exact finish_cause h
  | cons t ts ih =>
    rcases mem_append.1 h with h | h
    · exact step_cause h
    · exact ih h

/-- **No problem of a text is an incoherent phrase.** -/
theorem cause_of_mem_problems {source : String} {p : Problem}
    (h : p ∈ (parseItems source).problems) : p.cause ≠ .incoherent := by
  rcases mem_append.1 h with h | h
  · obtain ⟨event, hevent, heq⟩ := mem_filterMap.1 h
    cases event <;> cases heq
    exact Scan.events_cause hevent
  · obtain ⟨result, hresult, heq⟩ := mem_filterMap.1 h
    obtain ⟨slice, -, rfl⟩ := mem_map.1 hresult
    have hfine := slice.parse_fine
    split at heq
    · cases heq
    · next hparse =>
      cases heq
      rwa [hparse] at hfine

/-- **The definitions of a text are made of source.** -/
theorem isSource_of_mem_definitions {source : String} {d : Definition}
    (h : d ∈ (parseItems source).definitions) : d.IsSource := by
  obtain ⟨result, hresult, heq⟩ := mem_filterMap.1 h
  obtain ⟨slice, -, rfl⟩ := mem_map.1 hresult
  have hfine := slice.parse_fine
  split at heq
  · next hparse =>
    cases heq
    rwa [hparse] at hfine
  · cases heq

end Yielding
