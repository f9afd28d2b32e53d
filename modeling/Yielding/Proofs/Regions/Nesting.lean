import Yielding.Proofs.Regions.Readers
import Yielding.Proofs.Scanning.Coverage

/-!
# Proofs/Regions/Nesting — the regions of an item nest

The tokens of a slice lie in the slice and follow one another, so a phrase takes up a proper region
and what its parts are read as sits in it, one after another (`Derivation.sits_read`).  Hence **the
nodes of a definition are nested inside its slice** (`regions_nest`).
-/

namespace Yielding

open List Node Grammar
open Scoping (bind_eq_ok)

/-! ## Tokens -/

namespace Lexer

theorem headedLength?_pos {start part : Char → Bool} {cs : List Char} {n : ℕ}
    (h : headedLength? start part cs = some n) : 0 < n := by
  obtain ⟨c, cs, -, -, rfl⟩ := headedLength?_cases h
  exact Nat.succ_pos _

theorem lineLength?_pos {mark cs : List Char} {n : ℕ} (hmark : 0 < mark.length)
    (h : lineLength? mark cs = some n) : 0 < n := by
  unfold lineLength? at h
  grind

/-- Every word has a character. -/
theorem pos_of_classes : ∀ f ∈ classes, ∀ cs k n, f cs = some (k, n) → 0 < n := by
  have hmap : ∀ {f : List Char → Option ℕ} {k : Found}, (∀ cs n, f cs = some n → 0 < n) →
      ∀ cs k' n, (f cs).map (k, ·) = some (k', n) → 0 < n := by
    intro f k hf cs k' n h
    obtain ⟨m, hm, heq⟩ := Option.map_eq_some_iff.1 h
    obtain ⟨-, rfl⟩ := Prod.mk.inj heq
    exact hf cs m hm
  simp only [classes, forall_mem_cons]
  refine ⟨hmap fun _ _ => lineLength?_pos (by decide), hmap ?_, hmap ?_, hmap ?_, hmap ?_, ?_,
    hmap ?_, hmap ?_, hmap ?_, hmap fun _ _ => lineLength?_pos (by decide), ?_, forall_mem_nil _⟩
  · intro cs n h
    obtain ⟨whole, hwhole, h⟩ := Option.bind_eq_some_iff.1 h
    split at h
    · obtain ⟨part, -, rfl⟩ := Option.map_eq_some_iff.1 h
      omega
    · cases h
  · intro cs n h
    obtain ⟨m, hm, rfl⟩ := Option.map_eq_some_iff.1 h
    exact Nat.add_pos_left (headedLength?_pos hm) _
  · intro cs n h
    unfold charLength? at h
    split at h
    · obtain ⟨m, -, rfl⟩ := Option.map_eq_some_iff.1 h
      omega
    · cases h
  · intro cs n h
    unfold lifetimeLength? at h
    split at h
    · obtain ⟨m, -, h⟩ := Option.bind_eq_some_iff.1 h
      grind
    · cases h
  · intro cs k n h
    obtain ⟨m, hm, heq⟩ := Option.map_eq_some_iff.1 h
    obtain ⟨-, rfl⟩ := Prod.mk.inj heq
    exact headedLength?_pos hm
  · intro cs n h
    unfold stringLength? at h
    split at h
    · obtain ⟨m, -, rfl⟩ := Option.map_eq_some_iff.1 h
      omega
    · cases h
  · intro cs n h
    unfold blockCommentLength? at h
    split at h
    · obtain ⟨m, -, rfl⟩ := Option.map_eq_some_iff.1 h
      omega
    · cases h
  · intro cs n h
    unfold gapLength? at h
    grind
  · intro cs k n h
    obtain ⟨⟨text, kind⟩, hfind, heq⟩ := Option.map_eq_some_iff.1 h
    obtain ⟨-, rfl⟩ := Prod.mk.inj heq
    have htable : ∀ p ∈ Terminal.punctuation, 0 < p.1.length := by decide
    exact htable _ (mem_of_find?_eq_some hfind)

theorem pos_of_next? {cs : List Char} {k : Found} {n : ℕ} (h : next? cs = some (k, n)) : 0 < n := by
  obtain ⟨f, hf, hn⟩ := exists_of_findSome?_eq_some h
  exact pos_of_classes f hf cs k n hn

/-- Tokens lie in the text behind what was found before, and follow one another. -/
theorem regions_lexFrom (pos : Pos) (offset skip : ℕ) (cs : List Char) :
    (∀ t ∈ (lexFrom pos offset skip cs).tokens, t.region.start < t.region.stop ∧
      t.region ≤ ⟨pos.advance (cs.take skip), pos.advance cs⟩) ∧
    (lexFrom pos offset skip cs).tokens.Pairwise fun t u => t.region.Precedes u.region := by
  fun_induction lexFrom pos offset skip cs with
  | case1 => exact ⟨forall_mem_nil _, .nil⟩
  | case2 pos offset skip c cs ih => exact ih
  | case3 pos offset c cs h => exact ⟨forall_mem_nil _, .nil⟩
  | case4 pos offset c cs n rest h ih =>
    refine ⟨fun t ht => ?_, ih.2⟩
    obtain ⟨hproper, hstart, hstop⟩ := ih.1 t ht
    exact ⟨hproper, (pos.lt_after c).le.trans ((Pos.le_advance _ _).trans hstart), hstop⟩
  | case5 pos offset c cs n rest kind lexeme token h ih =>
    obtain ⟨n, rfl⟩ := Nat.exists_eq_add_one.2 (pos_of_next? h)
    refine ⟨forall_mem_cons.2 ⟨⟨Pos.lt_advance _ (by simp [lexeme]), le_rfl,
      Pos.advance_take_le ..⟩, fun t ht => ?_⟩,
      pairwise_cons.2 ⟨fun t ht => (ih.1 t ht).2.1, ih.2⟩⟩
    obtain ⟨hproper, hstart, hstop⟩ := ih.1 t ht
    exact ⟨hproper, (pos.lt_after c).le.trans ((Pos.le_advance _ _).trans hstart), hstop⟩

end Lexer

/-! ## Phrases -/

namespace Grammar.Derivation

/-- What is read of tokens that begin and end the region. -/
structure Sited (ts : List Token) (reading : Reading) (r : Region) : Prop where
  region : reading.region = some r
  proper : r.IsProper
  first : ∃ t ∈ ts, t.region.start = r.start
  last : ∃ t ∈ ts, t.region.stop = r.stop
  sits : Sits r (Value.rowNodes reading.values)

/-- Tokens of proper regions, one after another. -/
def InOrder (ts : List Token) : Prop :=
  (∀ t ∈ ts, t.region.IsProper) ∧ ts.Pairwise fun t u => t.region.Precedes u.region

variable {rules : List Rule}

mutual

/-- **What a phrase is read as sits in the region of its tokens.** -/
theorem sits_read (hrules : ∀ r ∈ rules, r.parts ≠ []) :
    ∀ d : Derivation, d.Fits rules → InOrder d.tokens → ∃ r, Sited d.tokens d.read r
  | .leaf t, _, ht => by
    refine ⟨t.region, rfl, ht.1 t mem_cons_self, ⟨t, mem_cons_self, rfl⟩,
      ⟨t, mem_cons_self, rfl⟩, ?_⟩
    exact sits_nil _
  | .node rule ds, ⟨hr, hsymbols, hds⟩, ht => by
    obtain ⟨r, hrow⟩ := sits_readRow hrules ds rule.parts hds hsymbols (hrules rule hr) ht
    refine ⟨r, hrow.region, hrow.proper, hrow.first, hrow.last, ?_⟩
    rw [read, hrow.region]
    exact hrow.sits.follows hrow.proper (Value.read_follows _ _ _)

theorem sits_readRow (hrules : ∀ r ∈ rules, r.parts ≠ []) :
    ∀ (ds : List Derivation) (parts : List Part), Derivation.RowFits rules ds →
      ds.map symbol = parts.map Part.symbol → parts ≠ [] → InOrder (rowTokens ds) →
      ∃ r, Sited (rowTokens ds) (readRow parts ds) r
  | _, [], _, _, hne, _ => absurd rfl hne
  | d :: ds, part :: parts, ⟨hd, hds⟩, hsymbols, _, ht => by
    obtain ⟨hproper, horder⟩ := ht
    rw [rowTokens, forall_mem_append] at hproper
    rw [rowTokens, pairwise_append] at horder
    obtain ⟨r, hfirst⟩ := sits_read hrules d hd ⟨hproper.1, horder.1⟩
    -- a part that is not kept leaves no nodes
    have hsits : Sits r (Value.rowNodes (if part.kept then d.read.values else [])) := by
      split
      · exact hfirst.sits
      · exact sits_nil r
    cases parts with
    | nil =>
      obtain rfl : ds = [] := map_eq_nil_iff.1 (cons.inj hsymbols).2
      refine ⟨r, ?_, hfirst.proper, ?_, ?_, ?_⟩
      · rw [readRow, hfirst.region]
        rfl
      · simpa [rowTokens] using hfirst.first
      · simpa [rowTokens] using hfirst.last
      · simpa [readRow] using hsits
    | cons part' parts =>
      obtain ⟨s, hrest⟩ :=
        sits_readRow hrules ds (part' :: parts) hds (by simpa using (cons.inj hsymbols).2)
        (cons_ne_nil _ _) ⟨hproper.2, horder.2.1⟩
      obtain ⟨t, ht, hstart⟩ := hrest.first
      obtain ⟨u, hu, hstop⟩ := hfirst.last
      have hrs : r.Precedes s := by
        rw [Region.Precedes, ← hstop, ← hstart]
        exact horder.2.2 u hu t ht
      obtain ⟨hjoin, hr, hs⟩ := hfirst.proper.join hrest.proper hrs
      refine ⟨⟨r.start, s.stop⟩, ?_, hjoin, ?_, ?_, ?_⟩
      · rw [readRow, hfirst.region, hrest.region]
        rfl
      · obtain ⟨t, ht, hstart⟩ := hfirst.first
        exact ⟨t, mem_append_left _ ht, hstart⟩
      · obtain ⟨t, ht, hstop⟩ := hrest.last
        exact ⟨t, mem_append_right _ ht, hstop⟩
      · rw [readRow, Value.rowNodes_append]
        exact hsits.append hrest.sits hrs hr hs

end

end Grammar.Derivation

/-! ## Items -/

/-- The statements of a definition, up to its body. -/
def Definition.course (d : Definition) : List Node := d.prelude.map .stmt ++ [.block d.body]

namespace Value

variable {r : Region} {v : Value} {vs : List Value} {ns : List Node}

/-- The nodes of a draft, as far as they are read: the arguments of its attributes, and its
statements up to its body. -/
def Draft.From (d : Draft) (ns : List Node) : Prop :=
  attrNodes d.attrs <+ ns ∧ d.prelude.map .stmt ++ d.body.toList.map .block <+ ns

theorem Draft.From.mono {ns' : List Node} {d : Draft} (h : d.From ns) (hs : ns <+ ns') :
    d.From ns' :=
  ⟨h.1.trans hs, h.2.trans hs⟩

theorem Draft.From.add {d d' : Draft} (h : d.From ns) (hadd : d.add r v = .ok d') :
    d'.From (ns ++ v.nodes) := by
  cases v with
  | token t =>
    rw [nodes_token, append_nil]
    simp only [Draft.add] at hadd
    split at hadd <;> cases hadd <;> exact h
  | attr a =>
    obtain ⟨a, rfl, ⟨⟩⟩ := bind_eq_ok.1 hadd
    refine ⟨?_, h.2.trans (sublist_append_left _ _)⟩
    rw [attrNodes, flatMap_append]
    exact h.1.append (.refl _)
  | genBody prelude attrs isAsync body =>
    obtain ⟨prelude, rfl, hrest⟩ := bind_eq_ok.1 hadd
    obtain ⟨attrs, rfl, hlast⟩ := bind_eq_ok.1 hrest
    obtain ⟨body, rfl, ⟨⟩⟩ := bind_eq_ok.1 hlast
    constructor
    · rw [attrNodes, flatMap_append]
      refine h.1.append (Sublist.trans ?_ (sublist_append_right _ _))
      exact sublist_append_left _ _
    · refine Sublist.trans ?_ (sublist_append_right _ _)
      exact (Sublist.refl _).append (sublist_append_right _ _)
  | block b =>
    obtain ⟨b, rfl, ⟨⟩⟩ := bind_eq_ok.1 hadd
    refine ⟨h.1.trans (sublist_append_left _ _), .append ?_ (.refl _)⟩
    exact (sublist_append_left _ _).trans h.2
  | keyword form | generics ps | resultType t =>
    cases hadd
    exact h.mono (sublist_append_left _ _)
  | params ps | yields marker t =>
    obtain ⟨_, -, ⟨⟩⟩ := bind_eq_ok.1 hadd
    exact h.mono (sublist_append_left _ _)
  | _ => cases hadd

theorem Draft.From.addAll {d d' : Draft} (h : d.From ns)
    (hadd : vs.foldlM (Draft.add r) d = .ok d') : d'.From (ns ++ rowNodes vs) := by
  induction vs generalizing d ns with
  | nil =>
    cases hadd
    rwa [rowNodes_nil, append_nil]
  | cons v vs ih =>
    rw [foldlM_cons] at hadd
    obtain ⟨d₁, hv, hadd⟩ := bind_eq_ok.1 hadd
    rw [rowNodes_cons, ← append_assoc]
    exact ih (h.add hv) hadd

theorem finish_eq_ok {draft : Draft} {d : Definition} (h : draft.finish r = .ok d) :
    d.attrs = draft.attrs ∧ d.prelude = draft.prelude ∧ draft.body = some d.body := by
  unfold Draft.finish at h
  split at h
  · split at h
    · next body hbody =>
      have hd : ∀ {yielded : Build Ty} {f : Ty → Definition},
          (∀ t, (f t).attrs = draft.attrs ∧ (f t).prelude = draft.prelude ∧ (f t).body = body) →
          (yielded >>= fun t => pure (f t)) = .ok d →
          d.attrs = draft.attrs ∧ d.prelude = draft.prelude ∧ d.body = body := by
        intro yielded f hf h
        obtain ⟨t, -, ⟨⟩⟩ := bind_eq_ok.1 h
        exact hf t
      rw [hbody, Option.some.injEq, eq_comm (a := body)]
      dsimp only at h
      split at h
      · exact hd (fun _ => ⟨rfl, rfl, rfl⟩) h
      · split at h
        · exact hd (fun _ => ⟨rfl, rfl, rfl⟩) h
        · exact hd (fun _ => ⟨rfl, rfl, rfl⟩) h
    · cases h
  · cases h

theorem readItem_eq_ok {d : Definition} (h : readItem r vs = .ok d) :
    attrNodes d.attrs <+ rowNodes vs ∧ d.course <+ rowNodes vs := by
  obtain ⟨draft, hdraft, h⟩ := bind_eq_ok.1 h
  have hstart : ({} : Draft).From [] := ⟨.refl _, .refl _⟩
  have hfrom := hstart.addAll hdraft
  obtain ⟨hattrs, hprelude, hbody⟩ := finish_eq_ok h
  rw [Definition.course, hattrs, hprelude]
  rwa [Draft.From, hbody] at hfrom

end Value

/-- The stretch of the source that a slice is cut from. -/
def Slice.region (s : Slice) : Region := ⟨s.start, s.start.advance s.text.toList⟩

/-- The nodes of a definition: the arguments of its attributes, the statements of its prelude, its
body, and all nodes that these are made of. -/
inductive Definition.Has (d : Definition) : Node → Prop
  | arg {a : Attr} {e : Expr} (ha : a ∈ d.attrs) (he : e ∈ a.args) : d.Has (.expr e)
  | prelude {s : Stmt} (hs : s ∈ d.prelude) : d.Has (.stmt s)
  | body : d.Has (.block d.body)
  | part {m n : Node} (hn : d.Has n) (hm : m ∈ n.parts) : d.Has m

/-- Nodes inside nested nodes are nested, and lie where those lie. -/
theorem Definition.Has.nested {d : Definition} {r : Region} {n : Node} (h : d.Has n)
    (hattrs : Sits r (Value.attrNodes d.attrs)) (hcourse : Sits r d.course) :
    n.region ≤ r ∧ n.Nested := by
  induction h with
  | @arg a e ha he =>
    have hmem : .expr e ∈ Value.attrNodes d.attrs := mem_flatMap.2 ⟨a, ha, mem_map_of_mem he⟩
    exact ⟨hattrs.inside _ hmem, hattrs.nested _ hmem⟩
  | @prelude s hs =>
    have hmem : .stmt s ∈ d.course := mem_append_left _ (mem_map_of_mem hs)
    exact ⟨hcourse.inside _ hmem, hcourse.nested _ hmem⟩
  | body =>
    have hmem : .block d.body ∈ d.course := mem_append_right _ mem_cons_self
    exact ⟨hcourse.inside _ hmem, hcourse.nested _ hmem⟩
  | part _ hm ih =>
    obtain ⟨hregion, hnested⟩ := refines_of_mem hm ih.2
    exact ⟨hregion.trans ih.1, hnested⟩

/-- What a row of parts is read as is all that an item is read from. -/
theorem Grammar.Derivation.sits_item {tree : Derivation} {tokens : List Token} {d : Definition}
    (h : tree.Derives itemRules .item tokens) (ht : InOrder tokens) (hd : tree.definition = .ok d) :
    ∃ r vs, Value.readItem r vs = .ok d ∧ Sits r (Value.rowNodes vs) ∧
      (∃ t ∈ tokens, t.region.start = r.start) ∧ ∃ t ∈ tokens, t.region.stop = r.stop := by
  obtain ⟨hfits, hsymbol, rfl⟩ := h
  cases tree with
  | leaf t => cases hsymbol
  | node rule ds =>
    obtain ⟨hr, hsymbols, hrow⟩ := hfits
    obtain ⟨r, hsited⟩ := sits_readRow proper_itemRules.parts_ne_nil ds rule.parts hrow hsymbols
      (proper_itemRules.parts_ne_nil rule hr) ht
    refine ⟨r, _, ?_, hsited.sits, hsited.first, hsited.last⟩
    have hforms : ∀ r ∈ itemRules, r.result = .item → r.form = .item ∨ r.form = .genItem := by
      decide +kernel
    rw [definition, read] at hd
    dsimp only at hd
    rw [hsited.region] at hd
    rcases hforms rule hr (Symbol.category.inj hsymbol) with hform | hform
    · rwa [hform] at hd
    · rwa [hform] at hd

theorem Pos.Proper.first_le {p : Pos} (h : p.Proper) : Pos.first ≤ p := by
  obtain ⟨line, column⟩ := p
  obtain ⟨hline, hcolumn⟩ := h
  rw [le_iff_lt_or_eq, lt_iff, first, mk.injEq]
  dsimp only at hline hcolumn ⊢
  omega

theorem Slice.inOrder_tokens {source : List Char} {s : Slice} (hs : s ∈ (scan source).slices) :
    Derivation.InOrder (Lexer.lex s.padded).tokens ∧
      ∀ t ∈ (Lexer.lex s.padded).tokens, t.region ≤ s.region := by
  obtain ⟨offset, hlex⟩ := lexFrom_of_mem_slices hs
  obtain ⟨hinside, horder⟩ := Lexer.regions_lexFrom s.start offset 0 s.text.toList
  rw [hlex]
  refine ⟨⟨fun t ht => ?_, horder⟩, fun t ht => (hinside t ht).2⟩
  obtain ⟨hproper, hregion⟩ := hinside t ht
  exact ⟨(lex_of_mem_slices hs).1.first_le.trans hregion.1, hproper⟩

theorem Slice.sits_of_parse {source : List Char} {s : Slice} {d : Definition}
    (hs : s ∈ (scan source).slices) (h : s.parse = .ok d) :
    Sits s.region (Value.attrNodes d.attrs) ∧ Sits s.region d.course := by
  obtain ⟨-, tokens, hlex, -⟩ := lex_of_mem_slices hs
  obtain ⟨horder, hinside⟩ := s.inOrder_tokens hs
  rw [hlex] at horder hinside
  have hderives : ∃ tree, Derivation.Derives itemRules .item tokens tree := by
    by_contra hnone
    obtain ⟨_, _, -, herror⟩ := Slice.parse_of_not_derives hlex hnone
    rw [h] at herror
    cases herror
  obtain ⟨tree, hderives⟩ := hderives
  rw [Slice.parse_of_derives hlex hderives] at h
  obtain ⟨r, vs, hitem, hsits, ⟨t, ht, hstart⟩, ⟨u, hu, hstop⟩⟩ := tree.sits_item hderives horder h
  have hr : r ≤ s.region := by
    rw [Region.le_iff, ← hstart, ← hstop]
    exact ⟨(hinside t ht).1, (hinside u hu).2⟩
  obtain ⟨hattrs, hcourse⟩ := Value.readItem_eq_ok hitem
  exact ⟨(hsits.sublist hattrs).mono hr, (hsits.sublist hcourse).mono hr⟩

/-- **The nodes of a definition are nested inside its slice**: each has a proper region that holds
the regions of its parts, and the parts follow one another. -/
theorem regions_nest {source : String} {d : Definition} (h : d ∈ (parseItems source).definitions) :
    ∃ s ∈ (scan source.toList).slices, s.parse = .ok d ∧
      d.course.Pairwise Precedes ∧
      ∀ n, d.Has n → n.region.IsProper ∧ n.region ≤ s.region ∧
        (∀ m ∈ n.parts, m.region ≤ n.region) ∧ n.parts.Pairwise Precedes := by
  obtain ⟨result, hresult, heq⟩ := mem_filterMap.1 h
  obtain ⟨s, hs, rfl⟩ := mem_map.1 hresult
  have hparse : s.parse = .ok d := by
    split at heq
    · next hok => rw [hok, Option.some.inj heq]
    · cases heq
  obtain ⟨hattrs, hcourse⟩ := s.sits_of_parse hs hparse
  refine ⟨s, hs, hparse, hcourse.inOrder, fun n hn => ?_⟩
  obtain ⟨hregion, hnested⟩ := hn.nested hattrs hcourse
  obtain ⟨hproper, hparts⟩ := nested_iff.1 hnested
  exact ⟨hproper, hregion, hparts.inside, hparts.inOrder⟩

theorem Single.regions_nested : Single.definition ∈ (parseItems Single.text).definitions ∧
    ∃ s ∈ (scan Single.text.toList).slices, s.parse = .ok Single.definition ∧
      s.region = ⟨⟨1, 1⟩, ⟨1, 37⟩⟩ ∧ ∀ n, Single.definition.Has n → n.region.IsProper ∧
        n.region ≤ ⟨⟨1, 1⟩, ⟨1, 37⟩⟩ ∧ n.parts.Pairwise Precedes := by
  have hmem : Single.definition ∈ (parseItems Single.text).definitions := by
    rw [Single.parseItems_eq]
    exact mem_cons_self
  obtain ⟨s, hs, hparse, -, hnodes⟩ := regions_nest hmem
  have hslice : s = Single.slice := by
    rw [Single.scan_toList] at hs
    exact mem_singleton.1 hs
  have hregion : s.region = ⟨⟨1, 1⟩, ⟨1, 37⟩⟩ := by
    rw [hslice]
    decide
  refine ⟨hmem, s, hs, hparse, hregion, fun n hn => ?_⟩
  obtain ⟨hproper, hinside, -, horder⟩ := hnodes n hn
  exact ⟨hproper, hregion ▸ hinside, horder⟩

end Yielding
