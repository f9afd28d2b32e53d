import Mathlib.Algebra.Ring.Int.Defs
import Yielding.Item.Slice
import Yielding.Proofs.Lexing.Cut

/-!
# Proofs/Lexing/Slices — an item is read like its place in the source

A source is cut into tokens twice: once as a whole, to find its items, and once item by item, each
slice padded with blank lines and blanks.  **Both readings agree**: a padded slice has exactly the
tokens that the whole source has from the first word of the item to the brace that closes its body,
at the same places (`slice_reads_source`).
-/

namespace Yielding

/-! ## Positions -/

/-- Lines and columns count from one. -/
def Pos.Proper (p : Pos) : Prop := 1 ≤ p.line ∧ 1 ≤ p.column

theorem Pos.Proper.after {p : Pos} (h : p.Proper) (c : Char) : (p.after c).Proper := by
  unfold Pos.after
  split
  · exact ⟨Nat.le_add_left 1 p.line, Nat.le_refl 1⟩
  · exact ⟨h.1, Nat.le_add_left 1 p.column⟩

theorem Pos.Proper.advance {p : Pos} (h : p.Proper) (cs : List Char) : (p.advance cs).Proper := by
  induction cs generalizing p with
  | nil => exact h
  | cons c cs ih => exact ih (h.after c)

theorem Pos.advance_lines (p : Pos) (n : Nat) (hp : p.column = 1) :
    p.advance (List.replicate n '\n') = ⟨p.line + n, 1⟩ := by
  induction n generalizing p with
  | zero => rw [← hp]; rfl
  | succ n ih =>
    rw [List.replicate_succ, advance_cons, ih _ (by simp [after])]
    simp [after, Nat.add_assoc, Nat.add_comm 1]

theorem Pos.advance_blanks (p : Pos) (n : Nat) :
    p.advance (List.replicate n ' ') = ⟨p.line, p.column + n⟩ := by
  induction n generalizing p with
  | zero => rfl
  | succ n ih =>
    rw [List.replicate_succ, advance_cons, ih]
    simp [after, Nat.add_assoc, Nat.add_comm 1]

/-! ## Padding -/

namespace Lexer

theorem run_all {p : Char → Bool} {u : List Char} (hu : ∀ c ∈ u, p c) {c : Char} (hc : p c = false)
    (cs : List Char) : run p (u ++ c :: cs) = u.length := by
  induction u with
  | nil => simp [run, hc]
  | cons d u ih =>
    rw [List.forall_mem_cons] at hu
    rw [List.cons_append, run_cons, if_pos hu.1, ih hu.2, List.length_cons]

theorem lexFrom_blanks {pad : List Char} (hpad : ∀ c ∈ pad, isGap c) {c : Char}
    (hc : isGap c = false) (pos : Pos) (offset : Nat) (cs : List Char) :
    lexFrom pos offset 0 (pad ++ c :: cs) =
      lexFrom (pos.advance pad) (offset + pad.length) 0 (c :: cs) := by
  cases pad with
  | nil => rfl
  | cons d pad =>
    rw [List.forall_mem_cons] at hpad
    rw [List.cons_append, lexFrom, next?_gap hpad.1, run_all hpad.2 hc]
    simp only [Nat.add_sub_cancel]
    rw [lexFrom_skip, List.take_left, List.drop_left, Pos.advance_cons, List.length_cons,
      Nat.add_comm pad.length, ← Nat.add_assoc]

/-- The padding of a slice puts its text back in its place. -/
theorem lex_padded {s : Slice} (hs : s.start.Proper) {c : Char} {cs : List Char}
    (ht : s.text.toList = c :: cs) (hc : isGap c = false) :
    ∃ offset, lex s.padded = lexFrom s.start offset 0 s.text.toList := by
  have hpad : ∀ d ∈ List.replicate (s.start.line - 1) '\n' ++
      List.replicate (s.start.column - 1) ' ', isGap d := by
    intro d hd
    rcases List.mem_append.1 hd with hd | hd <;> obtain rfl := List.eq_of_mem_replicate hd <;> rfl
  have hstart : Pos.first.advance (List.replicate (s.start.line - 1) '\n' ++
      List.replicate (s.start.column - 1) ' ') = s.start := by
    rw [Pos.advance_append, Pos.advance_lines _ _ rfl, Pos.advance_blanks]
    obtain ⟨hline, hcolumn⟩ := hs
    simp only [Pos.first, Nat.add_sub_cancel' hline, Nat.add_sub_cancel' hcolumn]
  have hlex := lexFrom_blanks hpad hc Pos.first 0 cs
  rw [hstart, ← ht] at hlex
  exact ⟨_, hlex⟩

end Lexer

/-! ## Braces -/

/-- By how much a token changes the depth of braces. -/
def Token.nesting (t : Token) : Int :=
  match t.kind with
  | .lbrace => 1
  | .rbrace => -1
  | _ => 0

def nesting (ts : List Token) : Int := (ts.map Token.nesting).sum

@[simp]
theorem nesting_append (ts us : List Token) : nesting (ts ++ us) = nesting ts + nesting us := by
  simp [nesting]

@[simp]
theorem nesting_singleton (t : Token) : nesting [t] = t.nesting := by
  simp [nesting]

/-- The braces are **balanced**, and the depth returns to zero only at the last token. -/
def Balanced (ts : List Token) : Prop :=
  nesting ts = 0 ∧ ∀ us, us ≠ [] → us <+: ts → us ≠ ts → 0 < nesting us

/-- The depth is positive behind each of the tokens. -/
def Inside (ts : List Token) : Prop := ∀ us, us ≠ [] → us <+: ts → 0 < nesting us

theorem inside_singleton {t : Token} (h : t.kind = .lbrace) : Inside [t] := by
  intro us hne hus
  rcases List.prefix_cons_iff.1 hus with rfl | ⟨vs, rfl, hvs⟩
  · exact absurd rfl hne
  · obtain rfl := List.prefix_nil.1 hvs
    simp [Token.nesting, h]

theorem Inside.snoc {ts : List Token} (h : Inside ts) {t : Token}
    (ht : 0 < nesting (ts ++ [t])) : Inside (ts ++ [t]) := by
  intro us hne hus
  rcases List.prefix_concat_iff.1 hus with rfl | hus
  · exact ht
  · exact h us hne hus

theorem Inside.balanced {ts : List Token} (h : Inside ts) {t : Token}
    (ht : nesting (ts ++ [t]) = 0) : Balanced (ts ++ [t]) := by
  refine ⟨ht, fun us hne hus hlt => ?_⟩
  rcases List.prefix_concat_iff.1 hus with rfl | hus
  · exact absurd rfl hlt
  · exact h us hne hus

/-! ## What the scan has read -/

namespace Scan

/-- What the reader knows of the tokens that it has read. -/
def Knows (read : List Token) : State → Prop
  | .outside | .lost => True
  | .header first _ _ => ∃ before header, read = before ++ first :: header
  | .body first brace depth =>
    ∃ before header body, read = before ++ (first :: header ++ brace :: body) ∧
      brace.kind = .lbrace ∧ nesting (brace :: body) = depth ∧ Inside (brace :: body)

/-- A slice of the tokens that were read: from a first token to the brace that closes a body. -/
def Closes (source : List Char) (read : List Token) (s : Slice) : Prop :=
  ∃ before first header brace body last,
    read = before ++ (first :: header ++ brace :: body ++ [last]) ∧
      s = cut source first brace last ∧ brace.kind = .lbrace ∧ last.kind = .rbrace ∧
      Balanced (brace :: body ++ [last])

theorem knows_begin (read : List Token) (t : Token) : Knows (read ++ [t]) (begin t) :=
  ⟨read, [], rfl⟩

/-- What a step leads to: the reader knows where it stands, and the slices found are closed. -/
def Leads (source : List Char) (read : List Token) (p : State × List Event) : Prop :=
  Knows read p.1 ∧ ∀ x, .slice x ∈ p.2 → Closes source read x

theorem Knows.quietly {source : List Char} {read : List Token} {s : State} (h : Knows read s) :
    Leads source read (s, []) :=
  ⟨h, nofun⟩

theorem Knows.bodyless {source : List Char} {read : List Token} {s : State} (h : Knows read s)
    (first : Token) : Leads source read (s, [bodyless first]) :=
  ⟨h, by simp [Scan.bodyless]⟩

theorem Knows.step {source : List Char} {read : List Token} {s : State} (h : Knows read s)
    (t : Token) : Leads source (read ++ [t]) (step source s t) := by
  cases s with
  | outside =>
    simp only [Scan.step]
    split
    · exact (knows_begin read t).quietly
    · exact ⟨trivial, by simp⟩
  | lost =>
    simp only [Scan.step]
    split
    · exact (knows_begin read t).quietly
    · exact Knows.quietly (s := .lost) trivial
  | header first depth seenFn =>
    obtain ⟨before, header, rfl⟩ := h
    have hmore : ∀ depth seenFn, Leads source (before ++ first :: header ++ [t])
        (.header first depth seenFn, []) := fun depth seenFn =>
      Knows.quietly (s := .header first depth seenFn) ⟨before, header ++ [t], by simp⟩
    simp only [Scan.step]
    split
    · exact hmore _ _
    · exact hmore _ _
    · exact hmore _ _
    · exact hmore _ _
    · split
      · exact hmore _ _
      · split
        · next hkind =>
          refine Knows.quietly (s := .body first t 1) ?_
          exact ⟨before, header, [], by simp, hkind, by simp [Token.nesting, hkind],
            inside_singleton hkind⟩
        · split
          · exact Knows.bodyless (s := .outside) trivial first
          · split
            · exact (knows_begin _ t).bodyless first
            · exact hmore _ _
  | body first brace depth =>
    obtain ⟨before, header, body, rfl, hbrace, hdepth, hinside⟩ := h
    have hnesting : nesting (brace :: body ++ [t]) = depth + t.nesting := by
      rw [nesting_append, hdepth, nesting_singleton]
    have hpos : 0 < (depth : Int) := hdepth ▸ hinside _ (List.cons_ne_nil _ _) List.prefix_rfl
    have hmore : ∀ {depth' : Nat}, nesting (brace :: body ++ [t]) = depth' → 0 < depth' →
        Leads source (before ++ (first :: header ++ brace :: body) ++ [t])
          (.body first brace depth', []) := by
      intro depth' h hlt
      refine Knows.quietly (s := .body first brace depth') ?_
      exact ⟨before, header, body ++ [t], by simp, hbrace, h, hinside.snoc (by omega)⟩
    simp only [Scan.step]
    split
    · next hkind =>
      have hone : t.nesting = 1 := by simp [Token.nesting, hkind]
      exact hmore (by omega) (by omega)
    · next hkind =>
      have hone : t.nesting = -1 := by simp [Token.nesting, hkind]
      split
      · next h =>
        refine ⟨trivial, fun x hx => ?_⟩
        obtain rfl : x = cut source first brace t := by simpa using hx
        exact ⟨before, first, header, brace, body, t, by simp, rfl, hbrace, hkind,
          hinside.balanced (by omega)⟩
      · exact hmore (by omega) (by omega)
    · have hzero : t.nesting = 0 := by simp [Token.nesting]
      exact hmore (by omega) (by omega)

theorem not_slice_finish (failure : Option Lexer.Failure) (s : State) (x : Slice) :
    .slice x ∉ finish failure s := by
  unfold finish
  split <;> simp [badChar, bodyless]

/-- **Every slice found is closed** by one of the tokens. -/
theorem Knows.closes {source : List Char} {failure : Option Lexer.Failure} {x : Slice} :
    ∀ {ts read : List Token} {s : State}, Knows read s →
      .slice x ∈ events source failure s ts →
      ∃ inside after, ts = inside ++ after ∧ Closes source (read ++ inside) x
  | [], _, s, _, hx => absurd hx (not_slice_finish failure s x)
  | t :: ts, read, s, h, hx => by
    have hstep : Leads source (read ++ [t]) (Scan.step source s t) := h.step t
    obtain ⟨hnext, hfound⟩ := hstep
    rcases List.mem_append.1 hx with hx | hx
    · exact ⟨[t], ts, rfl, hfound x hx⟩
    · obtain ⟨inside, after, rfl, hclosed⟩ := hnext.closes hx
      exact ⟨t :: inside, after, rfl, by rwa [List.append_assoc, List.singleton_append] at hclosed⟩

end Scan

/-! ## Both readings -/

namespace Lexer

theorem isGap_of_next? {c : Char} {cs : List Char} {kind : Terminal} {n : Nat}
    (h : next? (c :: cs) = some (.word kind, n)) : isGap c = false := by
  by_contra hc
  rw [Bool.not_eq_false] at hc
  rw [next?_gap hc] at h
  cases h

theorem ReadIn.brace {pos : Pos} {offset : Nat} {cs : List Char} {t : Token} {ts : List Token}
    (h : ReadIn pos offset cs t ts) (hkind : t.kind = .rbrace) :
    ∃ u q, cs = u ++ '\x7d' :: q ∧ t.offset = offset + u.length ∧
      t.stopOffset = offset + (u.length + 1) := by
  obtain ⟨u, rest, n, rfl, hoffset, -, hnext, htokens⟩ := h
  rw [hkind] at hnext
  obtain ⟨q, rfl⟩ := eq_brace_of_next? hnext
  simp only [lexFrom, next?_brace] at htokens
  have htext : t.text.length = 1 := by
    obtain ⟨rfl, -⟩ := List.cons.inj htokens
    exact String.length_ofList
  refine ⟨u, q, rfl, hoffset, ?_⟩
  rw [Token.stopOffset, htext, hoffset, Nat.add_assoc]

end Lexer

section

open Lexer Scan

variable {source : List Char} {before ts after : List Token} {first last : Token}

/-- A slice is read from its place on like the source. -/
theorem padded_cut (h : (lex source).tokens = before ++ (first :: ts ++ [last]) ++ after)
    (hlast : last.kind = .rbrace) (brace : Token) :
    (cut source first brace last).start.Proper ∧
      (cut source first brace last).text.toList <+: source.drop first.offset ∧
      ∃ offset offset' u q, (cut source first brace last).text.toList = u ++ ['\x7d'] ∧
      (lexFrom (cut source first brace last).start offset 0 (u ++ '\x7d' :: q)).tokens =
        first :: ts ++ last :: after ∧ last.offset = offset + u.length ∧
      lex (cut source first brace last).padded =
        lexFrom (cut source first brace last).start offset' 0
          (cut source first brace last).text.toList := by
  have hwhole : (lexFrom .first 0 0 source).tokens = before ++ first :: (ts ++ last :: after) := by
    simpa [lex] using h
  obtain ⟨pre, text, n, hsource, hoffset, hpos, hnext, htokens⟩ := readIn_of_tokens hwhole
  have hproper : (cut source first brace last).start.Proper := by
    rw [cut, hpos]
    exact Pos.Proper.advance ⟨Nat.le_refl 1, Nat.le_refl 1⟩ pre
  rw [← List.cons_append] at htokens
  obtain ⟨u, q, rfl, hlastOffset, hstop⟩ := (readIn_of_tokens htokens).brace hlast
  have htext : (cut source first brace last).text.toList = u ++ ['\x7d'] := by
    simp only [cut, hsource, hstop, hoffset, String.toList_ofList, Nat.zero_add, List.drop_left,
      Nat.add_sub_cancel_left, take_append_cons]
  have hprefix : (cut source first brace last).text.toList <+: source.drop first.offset := by
    rw [htext, hsource, hoffset, Nat.zero_add, List.drop_left]
    exact ⟨q, by simp⟩
  obtain ⟨c, cs, hc⟩ : ∃ c cs, u ++ ['\x7d'] = c :: cs := List.exists_cons_of_ne_nil (by simp)
  have hgap : isGap c = false := by
    have hcs : u ++ '\x7d' :: q = c :: (cs ++ q) := by
      rw [← List.cons_append, ← hc, List.append_assoc, List.singleton_append]
    exact isGap_of_next? (hcs ▸ hnext)
  obtain ⟨offset, hlex⟩ := lex_padded hproper (htext.trans hc) hgap
  rw [← hpos] at htokens
  exact ⟨hproper, hprefix, _, offset, u, q, htext, htokens, hlastOffset, hlex⟩

theorem lex_cut (h : (lex source).tokens = before ++ (first :: ts ++ [last]) ++ after)
    (hlast : last.kind = .rbrace) (brace : Token) :
    (cut source first brace last).start.Proper ∧
      (cut source first brace last).text.toList <+: source.drop first.offset ∧
      (lex (cut source first brace last).padded).failure = none ∧
      (lex (cut source first brace last).padded).tokens.map Token.reading =
        (first :: ts ++ [last]).map Token.reading := by
  obtain ⟨hproper, hprefix, offset, offset', u, q, htext, htokens, hoffset, hlex⟩ :=
    padded_cut h hlast brace
  refine ⟨hproper, hprefix, ?_⟩
  rw [hlex, htext]
  exact lexFrom_cut (Nat.zero_le _) htokens hoffset

/-- **A slice is read like its place in the source**: the padded slice can be cut into tokens to its
end, and they are those of the source, with their places, from the first token of the slice to the
brace that closes its body.  From the brace at `bodyOpen` on they are balanced, and the depth
returns to zero only at the last one. -/
theorem slice_reads_source {s : Slice} (hs : s ∈ (scan source).slices) :
    ∃ before first header brace body after,
      (lex source).tokens = before ++ (first :: header ++ brace :: body) ++ after ∧
      s.text.toList <+: source.drop first.offset ∧ first.region.start = s.start ∧
      brace.kind = .lbrace ∧ brace.region.start = s.bodyOpen ∧ Balanced (brace :: body) ∧
      (lex s.padded).failure = none ∧
      (lex s.padded).tokens.map Token.reading =
        (first :: header ++ brace :: body).map Token.reading := by
  have hslice :
      .slice s ∈ Scan.events source (lex source).failure .outside (lex source).tokens := by
    obtain ⟨x, hx, he⟩ := List.mem_filterMap.1 hs
    split at he <;> cases he
    exact hx
  have hstart : Scan.Knows [] .outside := trivial
  obtain ⟨inside, after, htokens, hclosed⟩ := hstart.closes hslice
  obtain ⟨before, first, header, brace, body, last, hinside, rfl, hbrace, hlast, hbalanced⟩ :=
    hclosed
  rw [List.nil_append] at hinside
  subst hinside
  have hwhole : (lex source).tokens =
      before ++ (first :: (header ++ brace :: body) ++ [last]) ++ after := htokens
  obtain ⟨-, hprefix, hlex⟩ := lex_cut hwhole hlast brace
  exact ⟨before, first, header, brace, body ++ [last], after, by simpa using htokens, hprefix, rfl,
    hbrace, rfl, hbalanced, by simpa using hlex⟩

end

/-- A source whose item stands behind a comment and holds braces that are no tokens. -/
def braced : List Char :=
  "/* \x7b */ fn;\n  fn* f() yields i32 \x7b g('\x7d', \"\x7b\"); /* \x7d */ \x7d \x7d".toList

def bracedSlice : Slice :=
  ⟨"fn* f() yields i32 \x7b g('\x7d', \"\x7b\"); /* \x7d */ \x7d", ⟨2, 3⟩, ⟨2, 22⟩⟩

theorem braced_reads_source :
    bracedSlice ∈ (scan braced).slices ∧ (Lexer.lex bracedSlice.padded).failure = none ∧
      ∃ before after, (Lexer.lex braced).tokens.map Token.reading =
        before ++ (Lexer.lex bracedSlice.padded).tokens.map Token.reading ++ after := by
  have hs : bracedSlice ∈ (scan braced).slices := by decide +kernel
  obtain ⟨before, first, header, brace, body, after, htokens, -, -, -, -, -, hfailure, hreading⟩ :=
    slice_reads_source hs
  refine ⟨hs, hfailure, before.map Token.reading, after.map Token.reading, ?_⟩
  rw [htokens, hreading, List.map_append, List.map_append]

end Yielding
