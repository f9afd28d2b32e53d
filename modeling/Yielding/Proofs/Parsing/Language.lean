import Yielding.Proofs.Grammar.Conflicts
import Yielding.Proofs.Parsing.Items

/-!
# Proofs/Parsing/Language — the language of items

The rules of items are free of conflicts, so their machine derives a row of tokens exactly if some
derivation of an item has it at its leaves, and then the row has no other derivation
(`parse_item_iff`).  What a slice is read as is what that derivation stands for.
-/

namespace Yielding

open Grammar

namespace Grammar

/-! ## The rules of items are deterministic -/

def itemChart : Chart := .ofRules (Layout.ofRules itemRules).placeCount itemRules

theorem deterministic_itemRules : Deterministic itemRules Category.level where
  toProper := proper_itemRules
  root := ⟨_, _, rfl, rfl, by decide +kernel⟩
  conflictFree := by
    have hshows : itemChart.Shows itemRules := Chart.shows_ofRules le_rfl
    have hcheck : itemChart.check itemChart.mates itemChart.follow = true := by decide +kernel
    exact Chart.conflictFree_of_check proper_itemRules hshows hcheck

/-! ## Whole texts -/

/-- The rule that a whole text is one item. -/
def wholeRule : Rule := ⟨.root, [⟨.category .item, true⟩], .same⟩

theorem eq_wholeRule {r : Rule} (h : r ∈ itemRules) (hroot : r.result = .root) : r = wholeRule := by
  obtain ⟨first, rest, hrules, -, hrest⟩ := deterministic_itemRules.root
  obtain ⟨rfl, rfl⟩ : wholeRule = first ∧ _ = rest := List.cons.inj hrules
  exact (List.mem_cons.1 h).resolve_right fun hmem => hrest r hmem hroot

namespace Derivation

variable {tokens : List Token} {d : Derivation}

theorem derives_root_iff : d.Derives itemRules .root tokens ↔
    ∃ item, Derives itemRules .item tokens item ∧ d = .node wholeRule [item] := by
  constructor
  · rintro ⟨hfits, hsymbol, rfl⟩
    cases d with
    | leaf t => cases hsymbol
    | node r ds =>
      obtain ⟨hr, hsymbols, hrow⟩ := hfits
      obtain rfl := eq_wholeRule hr (Symbol.category.inj hsymbol)
      -- the rule has one part, so there is one child
      obtain ⟨item, rfl, hitem⟩ : ∃ item, ds = [item] ∧ item.symbol = .category .item := by
        simpa [Rule.symbols, wholeRule, List.map_eq_cons_iff] using hsymbols
      exact ⟨item, ⟨hrow.1, hitem, by simp [tokens, rowTokens]⟩, rfl⟩
  · rintro ⟨item, ⟨hfits, hsymbol, rfl⟩, rfl⟩
    refine ⟨⟨List.mem_cons_self, ?_, hfits, trivial⟩, rfl, by simp [tokens, rowTokens]⟩
    rw [List.map_singleton, hsymbol]
    rfl

theorem definition_whole (item : Derivation) :
    (node wholeRule [item]).definition = item.definition := by
  have hread : (node wholeRule [item]).read = item.read := by
    rw [read, wholeRule]
    simp only [readRow, Value.read, List.append_nil, if_true]
    cases hregion : item.read.region <;> simp [Region.join?, ← hregion]
  rw [definition, definition, hread]

end Derivation

end Grammar

namespace Grammar.Derivation

mutual

/-- Whether a derivation fits rules is decided node by node. -/
def decideFits (rules : List Rule) : (d : Derivation) → Decidable (d.Fits rules)
  | leaf _ => .isTrue trivial
  | node rule children =>
    have := decideRowFits rules children
    inferInstanceAs (Decidable (rule ∈ rules ∧ children.map symbol = rule.symbols ∧
      RowFits rules children))

def decideRowFits (rules : List Rule) : (ds : List Derivation) → Decidable (RowFits rules ds)
  | [] => .isTrue trivial
  | d :: ds =>
    have := decideFits rules d
    have := decideRowFits rules ds
    inferInstanceAs (Decidable (Fits rules d ∧ RowFits rules ds))

end

instance (rules : List Rule) (c : Category) (ts : List Token) (d : Derivation) :
    Decidable (d.Derives rules c ts) :=
  have := decideFits rules d
  inferInstanceAs (Decidable (d.Fits rules ∧ d.symbol = .category c ∧ d.tokens = ts))

end Grammar.Derivation

/-! ## Slices -/

theorem Lexer.kind_ne_finish {text : List Char} {t : Token} (h : t ∈ (lex text).tokens) :
    t.kind ≠ .finish := by
  intro hk
  obtain ⟨before, after, htokens⟩ := List.append_of_mem h
  obtain ⟨rest, n, hnext, -⟩ := (readIn_of_tokens htokens).text
  rw [hk] at hnext
  simpa [Terminal.punctuation, Terminal.keywords] using class_of_next? hnext

-- only what is known of the automata of deterministic rules is used
attribute [local irreducible] itemAutomaton

section Slices

variable {s : Slice} {tokens : List Token} {automaton : Automaton}

theorem Slice.parseBy_eq_definition {tree : Derivation} (hlex : Lexer.lex s.padded = ⟨tokens, none⟩)
    (h : automaton.parse tokens = .ok tree) : s.parseBy automaton = tree.definition := by
  rw [Slice.parseBy, hlex]
  dsimp only
  rw [h]

theorem Slice.parseBy_eq_rejection {token : Option Token} {expected : List Terminal}
    (hlex : Lexer.lex s.padded = ⟨tokens, none⟩)
    (h : automaton.parse tokens = .error (.unexpected token expected)) :
    s.parseBy automaton = .error (s.rejection tokens (.unexpected token expected)) := by
  rw [Slice.parseBy, hlex]
  dsimp only
  rw [h]
  cases token <;> rfl

theorem parse_of_derives_item {d : Derivation} (h : d.Derives itemRules .item tokens) :
    itemAutomaton.parse tokens = .ok (.node wholeRule [d]) := by
  rw [itemAutomaton]
  exact parse_of_derives deterministic_itemRules (Derivation.derives_root_iff.2 ⟨d, h, rfl⟩)

theorem derives_of_parse_item {tree : Derivation} (hfinish : ∀ t ∈ tokens, t.kind ≠ .finish)
    (h : itemAutomaton.parse tokens = .ok tree) :
    ∃ d, Derivation.Derives itemRules .item tokens d ∧ tree = .node wholeRule [d] := by
  rw [itemAutomaton] at h
  exact Derivation.derives_root_iff.1 ((parse_eq_ok_iff deterministic_itemRules hfinish).1 h)

theorem Slice.parse_of_derives {d : Derivation}
    (hlex : Lexer.lex s.padded = ⟨tokens, none⟩) (h : d.Derives itemRules .item tokens) :
    s.parse = d.definition :=
  (Slice.parseBy_eq_definition hlex (parse_of_derives_item h)).trans d.definition_whole

theorem Slice.parse_of_not_derives (hlex : Lexer.lex s.padded = ⟨tokens, none⟩)
    (h : ¬∃ d, Derivation.Derives itemRules .item tokens d) :
    ∃ token expected, itemAutomaton.parse tokens = .error (.unexpected token expected) ∧
      s.parse = .error (s.rejection tokens (.unexpected token expected)) := by
  have hfinish : ∀ t ∈ (Lexer.lex s.padded).tokens, t.kind ≠ .finish :=
    fun t => Lexer.kind_ne_finish
  rw [hlex] at hfinish
  have hparse : ∃ token expected,
      itemAutomaton.parse tokens = .error (.unexpected token expected) := by
    rcases parse_ofRules proper_itemRules tokens with ⟨tree, hok, -⟩ | herror
    · obtain ⟨d, hd, -⟩ := derives_of_parse_item hfinish (by rw [itemAutomaton]; exact hok)
      exact absurd ⟨d, hd⟩ h
    · rw [itemAutomaton]
      exact herror
  obtain ⟨token, expected, herror⟩ := hparse
  exact ⟨token, expected, herror, Slice.parseBy_eq_rejection hlex herror⟩

/-- **The machine of the item rules derives exactly the rows of tokens that have a derivation from
`item`.**  No row has two, and a slice is read as what the derivation of its tokens stands for. -/
theorem parse_item_iff (hfinish : ∀ t ∈ tokens, t.kind ≠ .finish) :
    ((∃ tree, itemAutomaton.parse tokens = .ok tree) ↔
      ∃ d, Derivation.Derives itemRules .item tokens d) ∧
    (∀ d d', Derivation.Derives itemRules .item tokens d →
      Derivation.Derives itemRules .item tokens d' → d = d') ∧
    (∀ tree, itemAutomaton.parse tokens = .ok tree →
      ∃ d, Derivation.Derives itemRules .item tokens d ∧ tree.definition = d.definition) ∧
    ∀ s : Slice, Lexer.lex s.padded = ⟨tokens, none⟩ →
      (∀ d, Derivation.Derives itemRules .item tokens d → s.parse = d.definition) ∧
      ((¬∃ d, Derivation.Derives itemRules .item tokens d) →
        ∃ token expected, itemAutomaton.parse tokens = .error (.unexpected token expected) ∧
          s.parse = .error (s.rejection tokens (.unexpected token expected))) := by
  refine ⟨⟨?_, ?_⟩, ?_, ?_, fun s hlex => ⟨fun d hd => ?_, Slice.parse_of_not_derives hlex⟩⟩
  · rintro ⟨tree, htree⟩
    obtain ⟨d, hd, -⟩ := derives_of_parse_item hfinish htree
    exact ⟨d, hd⟩
  · rintro ⟨d, hd⟩
    exact ⟨_, parse_of_derives_item hd⟩
  · intro d d' hd hd'
    have htrees := (parse_of_derives_item hd).symm.trans (parse_of_derives_item hd')
    simpa using htrees
  · intro tree htree
    obtain ⟨d, hd, rfl⟩ := derives_of_parse_item hfinish htree
    exact ⟨d, hd, d.definition_whole⟩
  · exact Slice.parse_of_derives hlex hd

end Slices

/-! ## An item that yields one number -/

namespace Single

def text : String := "fn* single() yields i32 \x7b yield 1; \x7d"

def tokens : List Token :=
  [⟨.kwFn, "fn", ⟨⟨1, 1⟩, ⟨1, 3⟩⟩, 0⟩, ⟨.star, "*", ⟨⟨1, 3⟩, ⟨1, 4⟩⟩, 2⟩,
   ⟨.name, "single", ⟨⟨1, 5⟩, ⟨1, 11⟩⟩, 4⟩, ⟨.lpar, "(", ⟨⟨1, 11⟩, ⟨1, 12⟩⟩, 10⟩,
   ⟨.rpar, ")", ⟨⟨1, 12⟩, ⟨1, 13⟩⟩, 11⟩, ⟨.kwYields, "yields", ⟨⟨1, 14⟩, ⟨1, 20⟩⟩, 13⟩,
   ⟨.name, "i32", ⟨⟨1, 21⟩, ⟨1, 24⟩⟩, 20⟩, ⟨.lbrace, "\x7b", ⟨⟨1, 25⟩, ⟨1, 26⟩⟩, 24⟩,
   ⟨.kwYield, "yield", ⟨⟨1, 27⟩, ⟨1, 32⟩⟩, 26⟩, ⟨.int, "1", ⟨⟨1, 33⟩, ⟨1, 34⟩⟩, 32⟩,
   ⟨.semicolon, ";", ⟨⟨1, 34⟩, ⟨1, 35⟩⟩, 33⟩, ⟨.rbrace, "\x7d", ⟨⟨1, 36⟩, ⟨1, 37⟩⟩, 35⟩]

/-- A phrase over parts that are kept or passed over. -/
def phrase (c : Category) (form : Form) (parts : List (Bool × Derivation)) : Derivation :=
  .node ⟨c, parts.map fun (kept, d) => ⟨d.symbol, kept⟩, form⟩ (parts.map Prod.snd)

def derivation : Derivation :=
  match tokens with
  | [fn, star, name, lpar, rpar, yields, type, lbrace, yield, number, semicolon, rbrace] =>
    let value := [.postfixed, .unary, .product, .sum, .comparison, .conjunction, .disjunction,
      .range].foldl (fun d c => phrase c .same [(true, d)])
      (phrase .primary .literal [(true, .leaf number)])
    let yielded := phrase .yieldExpr .yieldExpr [(false, .leaf yield), (true, value)]
    let statement := phrase .exprStmt .exprStmt
      [(true, phrase .expr .same [(true, yielded)]), (false, .leaf semicolon)]
    let statements := phrase .stmts .row [(true, phrase .stmt .same [(true, statement)])]
    let named := phrase .typePath .typePath [(true, .leaf type)]
    phrase .item .item
      [(true, phrase .itemKeyword .starKeyword [(true, .leaf fn), (true, .leaf star)]),
       (true, .leaf name), (false, .leaf lpar), (false, .leaf rpar),
       (true, phrase .yieldsClause .yieldsClause
        [(true, .leaf yields), (true, phrase .type .same [(true, named)])]),
       (true, phrase .block .block
        [(false, .leaf lbrace), (true, statements), (false, .leaf rbrace)])]
  | _ => default

def definition : Definition :=
  { name := "single", params := [], yielded := .ofName "i32", region := ⟨⟨1, 5⟩, ⟨1, 11⟩⟩
    body := .mk [.expr ⟨⟨1, 27⟩, ⟨1, 35⟩⟩ (.yield ⟨⟨1, 27⟩, ⟨1, 34⟩⟩
      (some (.literal ⟨⟨1, 33⟩, ⟨1, 34⟩⟩ (.int 1 none))))] ⟨⟨1, 25⟩, ⟨1, 37⟩⟩ none
    isAsync := false, isPub := false, docs := [], attrs := [], generics := [], form := .star
    prelude := [] }

def slice : Slice := ⟨text, ⟨1, 1⟩, ⟨1, 25⟩⟩

theorem lex_padded : Lexer.lex slice.padded = ⟨tokens, none⟩ := by decide +kernel

theorem derives : derivation.Derives itemRules .item tokens := by decide +kernel

theorem scan_toList : scan text.toList = ⟨[slice], []⟩ := by decide +kernel

theorem parseItems_eq : parseItems text = ⟨[definition], []⟩ := by
  have hparse : slice.parse = .ok definition :=
    (Slice.parse_of_derives lex_padded derives).trans rfl
  rw [parseItems, scan_toList]
  simp only [List.map_cons, List.map_nil, hparse, List.filterMap_cons, List.filterMap_nil,
    List.append_nil]

/-- It is derived in one way, and read as what that derivation stands for. -/
theorem derivation_unique :
    (∀ t ∈ tokens, t.kind ≠ .finish) ∧ (∃ tree, itemAutomaton.parse tokens = .ok tree) ∧
    (∀ d, Derivation.Derives itemRules .item tokens d → d = derivation) ∧
    slice.parse = .ok definition := by
  have hfinish : ∀ t ∈ tokens, t.kind ≠ .finish := by decide
  obtain ⟨hiff, hunique, -, hslice⟩ := parse_item_iff hfinish
  exact ⟨hfinish, hiff.2 ⟨_, derives⟩, fun d hd => hunique d _ hd derives,
    (hslice slice lex_padded).1 _ derives⟩

end Single

end Yielding
