import Yielding.Proofs.Lexing.Slices
import Yielding.Proofs.Parsing.Language

/-!
# Proofs/Scanning/Coverage — nothing in a text is passed over in silence

The reader that has found no problem has put every token into a slice, but for those of the item
that it stands in (`Pending`).  So **a text without diagnostics is the row of its items**: each
token belongs to one slice, the slices follow each other without a gap, and each is read as a
definition. Whatever else a text holds, each slice and each problem of the scan shows as a
definition or a diagnostic.
-/

namespace Yielding

/-!
## The reader of a text, token by token

What the reader finds in a row of tokens is what it finds in the first part, and then, from where
that leaves it, in the second (`run_append`).  A slice that it finds holds a whole row of the
tokens, and the text of the slice reads like that row (`lex_cut`).
-/

/-! ## Runs -/

namespace Scan

def Event.slice? : Event → Option Slice
  | .slice s => some s
  | .problem _ => none

def Event.problem? : Event → Option Problem
  | .slice _ => none
  | .problem p => some p

variable {source : List Char} {s : State}

def run (source : List Char) : State → List Token → State × List Event
  | s, [] => (s, [])
  | s, t :: ts =>
    let next := step source s t
    let rest := run source next.1 ts
    (rest.1, next.2 ++ rest.2)

theorem run_append (s : State) (ts us : List Token) :
    run source s (ts ++ us) =
      ((run source (run source s ts).1 us).1,
        (run source s ts).2 ++ (run source (run source s ts).1 us).2) := by
  induction ts generalizing s with
  | nil => rfl
  | cons t ts ih => rw [List.cons_append, run, run, ih, List.append_assoc]

theorem events_eq_run (failure : Option Lexer.Failure) (s : State) (ts : List Token) :
    events source failure s ts = (run source s ts).2 ++ finish failure (run source s ts).1 := by
  induction ts generalizing s with
  | nil => rfl
  | cons t ts ih =>
    show (step source s t).2 ++ events source failure (step source s t).1 ts = _
    rw [ih, ← List.append_assoc]
    rfl

theorem Knows.run {read : List Token} (h : Knows read s) (ts : List Token) :
    Knows (read ++ ts) (run source s ts).1 := by
  induction ts generalizing read s with
  | nil => rwa [List.append_nil]
  | cons t ts ih => exact List.append_cons read t ts ▸ ih (h.step t).1

def found (source : List Char) : List Event :=
  events source (Lexer.lex source).failure .outside (Lexer.lex source).tokens

/-- Where the scan of a source ends. -/
def lastState (source : List Char) : State := (run source .outside (Lexer.lex source).tokens).1

end Scan

open Scan

theorem scan_slices (source : List Char) :
    (scan source).slices = (found source).filterMap Event.slice? :=
  congrArg (List.filterMap · _) (funext fun e => by cases e <;> rfl)

theorem scan_problems (source : List Char) :
    (scan source).problems = (found source).filterMap Event.problem? :=
  congrArg (List.filterMap · _) (funext fun e => by cases e <;> rfl)

/-! ## The text of a slice -/

section

open Lexer

variable {source : List Char}

theorem cut_of_mem_slices {s : Slice} (hs : s ∈ (scan source).slices) :
    ∃ before first ts brace last after,
      (lex source).tokens = before ++ (first :: ts ++ [last]) ++ after ∧ last.kind = .rbrace ∧
      s = cut source first brace last := by
  rw [scan_slices] at hs
  obtain ⟨e, he, hslice⟩ := List.mem_filterMap.1 hs
  cases e <;> cases hslice
  have hstart : Knows [] .outside := trivial
  obtain ⟨inside, after, htokens, before, first, header, brace, body, last, hinside, rfl, -, hlast,
    -⟩ := hstart.closes he
  obtain rfl : inside = before ++ (first :: (header ++ brace :: body) ++ [last]) := hinside
  exact ⟨before, first, _, brace, last, after, htokens, hlast, rfl⟩

theorem lex_of_mem_slices {s : Slice} (hs : s ∈ (scan source).slices) :
    s.start.Proper ∧ ∃ tokens, lex s.padded = ⟨tokens, none⟩ ∧ tokens ≠ [] := by
  obtain ⟨before, first, ts, brace, last, after, htokens, hlast, rfl⟩ := cut_of_mem_slices hs
  obtain ⟨hproper, -, hfailure, hreading⟩ := lex_cut htokens hlast brace
  refine ⟨hproper, _, congrArg (Result.mk _) hfailure, fun hnil => ?_⟩
  rw [lex, hnil] at hreading
  cases hreading

theorem lexFrom_of_mem_slices {s : Slice} (hs : s ∈ (scan source).slices) :
    ∃ offset, lex s.padded = lexFrom s.start offset 0 s.text.toList := by
  obtain ⟨before, first, ts, brace, last, after, htokens, hlast, rfl⟩ := cut_of_mem_slices hs
  obtain ⟨-, -, -, offset, -, -, -, -, -, hlex⟩ := padded_cut htokens hlast brace
  exact ⟨offset, hlex⟩

end

end Yielding

namespace Yielding

/-! ## Nothing in a text is passed over in silence -/

open List Scan

/-! ## What the items are read as -/

/-- The problem of a text that could not be read. -/
def Build.problem? {α : Type} : Build α → Option Problem
  | .ok _ => none
  | .error p => some p

def itemDefinitions (slices : List Slice) : List Definition :=
  (slices.map Slice.parse).filterMap Except.toOption

def itemProblems (slices : List Slice) : List Problem :=
  (slices.map Slice.parse).filterMap Build.problem?

theorem parseItems_definitions (source : String) :
    (parseItems source).definitions = itemDefinitions (scan source.toList).slices :=
  congrArg (filterMap · _) (funext fun r => by cases r <;> rfl)

theorem parseItems_problems (source : String) :
    (parseItems source).problems =
      (scan source.toList).problems ++ itemProblems (scan source.toList).slices :=
  congrArg (_ ++ filterMap · _) (funext fun r => by cases r <;> rfl)

theorem parseReport_fst (file : Option String) (text : String) :
    (parseReport file text).1 = itemDefinitions (scan text.toList).slices :=
  parseItems_definitions text

theorem parseReport_snd (file : Option String) (text : String) :
    (parseReport file text).2 = (scan text.toList).problems.map (Problem.diagnostic file) ++
      (itemProblems (scan text.toList).slices).map (Problem.diagnostic file) :=
  (congrArg (List.map _) (parseItems_problems text)).trans map_append

theorem length_toOption_add_problem? {α : Type} (results : List (Build α)) :
    (results.filterMap Except.toOption).length + (results.filterMap Build.problem?).length =
      results.length := by
  induction results with
  | nil => rfl
  | cons r results ih =>
    cases r with
    | ok a =>
      show (results.filterMap Except.toOption).length + 1 + _ = results.length + 1
      rw [← ih, Nat.add_right_comm]
      rfl
    | error p =>
      show _ + ((results.filterMap Build.problem?).length + 1) = results.length + 1
      rw [← ih, Nat.add_assoc]
      rfl

theorem eq_map_ok {α : Type} {results : List (Build α)}
    (h : results.filterMap Build.problem? = []) :
    results = (results.filterMap Except.toOption).map .ok := by
  induction results with
  | nil => rfl
  | cons r results ih =>
    cases r with
    | ok a => exact congrArg (Except.ok a :: ·) (ih h)
    | error p => cases h

/-! ## Tokens that wait for the end of an item -/

namespace Scan

variable {source : List Char} {s : State} {t : Token} {ts us : List Token}

def Spans (source : List Char) (ts : List Token) (x : Slice) : Prop :=
  ∃ first inner brace last,
    ts = first :: inner ++ [last] ∧ last.kind = .rbrace ∧ x = cut source first brace last

/-- The tokens are those of the item that the reader stands in. -/
def Pending (ts : List Token) : State → Prop
  | .outside => ts = []
  | .lost => False
  | .header first _ _ => ∃ header, ts = first :: header
  | .body first _ _ => ∃ inner, ts = first :: inner

theorem Pending.step (h : Pending ts s)
    (hp : (step source s t).2.filterMap Event.problem? = []) :
    ((step source s t).2 = [] ∧ Pending (ts ++ [t]) (step source s t).1) ∨
      ∃ x, step source s t = (.outside, [.slice x]) ∧ Spans source (ts ++ [t]) x := by
  cases s with
  | outside =>
    obtain rfl : ts = [] := h
    simp only [Scan.step] at hp ⊢
    split
    · exact .inl ⟨rfl, [], rfl⟩
    · next hopens =>
      rw [if_neg hopens] at hp
      cases hp
  | lost => exact h.elim
  | header first depth seenFn =>
    obtain ⟨header, rfl⟩ := h
    have hmore : ∃ header', first :: header ++ [t] = first :: header' := ⟨header ++ [t], rfl⟩
    unfold Scan.step at hp ⊢
    grind [Pending, bodyless, Event.problem?]
  | body first brace depth =>
    obtain ⟨inner, rfl⟩ := h
    have hmore : ∃ inner', first :: inner ++ [t] = first :: inner' := ⟨inner ++ [t], rfl⟩
    simp only [Scan.step]
    split
    · exact .inl ⟨rfl, hmore⟩
    · next hkind =>
      split
      · exact .inr ⟨_, rfl, first, inner, brace, t, rfl, hkind, rfl⟩
      · exact .inl ⟨rfl, hmore⟩
    · exact .inl ⟨rfl, hmore⟩

/-- **Without a problem the tokens fall into the rows of the slices**, and those of the item that
the reader stands in. -/
theorem Pending.run (h : Pending ts s)
    (hp : (run source s us).2.filterMap Event.problem? = []) :
    ∃ rows left, ts ++ us = rows.flatten ++ left ∧
      Forall₂ (Spans source) rows ((run source s us).2.filterMap Event.slice?) ∧
      Pending left (run source s us).1 := by
  induction us generalizing s ts with
  | nil => exact ⟨[], ts, by simp, .nil, h⟩
  | cons t us ih =>
    rw [Scan.run, filterMap_append, append_eq_nil_iff] at hp
    rw [Scan.run, filterMap_append]
    rcases h.step hp.1 with ⟨hnone, hnext⟩ | ⟨x, hstep, hspans⟩
    · obtain ⟨rows, left, htokens, hrows, hleft⟩ := ih hnext hp.2
      exact ⟨rows, left, by rw [← htokens]; simp, by rwa [hnone], hleft⟩
    · rw [hstep] at hp ⊢
      have houtside : Pending [] .outside := rfl
      obtain ⟨rows, left, htokens, hrows, hleft⟩ := ih houtside hp.2
      exact ⟨(ts ++ [t]) :: rows, left, by simpa using htokens, .cons hspans hrows, hleft⟩

theorem Pending.finish {failure : Option Lexer.Failure} (h : Pending ts s)
    (hp : (finish failure s).filterMap Event.problem? = []) :
    failure = none ∧ s = .outside ∧ ts = [] := by
  cases s with
  | outside =>
    cases failure with
    | none => exact ⟨rfl, rfl, h⟩
    | some f => cases hp
  | lost => exact h.elim
  | header => cases failure <;> cases hp
  | body => cases failure <;> cases hp

end Scan

/-! ## Texts without problems -/

variable {source : List Char}

theorem rows_of_problems_eq_nil (h : (scan source).problems = []) :
    (Lexer.lex source).failure = none ∧ lastState source = .outside ∧
      ∃ rows, (Lexer.lex source).tokens = rows.flatten ∧
        Forall₂ (Spans source) rows (scan source).slices := by
  rw [scan_problems, found, events_eq_run, filterMap_append, append_eq_nil_iff] at h
  have hstart : Pending [] .outside := rfl
  obtain ⟨rows, left, htokens, hrows, hleft⟩ := hstart.run h.1
  obtain ⟨hfailure, hlast, rfl⟩ := hleft.finish h.2
  refine ⟨hfailure, hlast, rows, by simpa using htokens, ?_⟩
  rw [scan_slices, found, events_eq_run, filterMap_append, hlast, hfailure]
  simpa [finish] using hrows

theorem flatten_reading {before : List Token} {rows : List (List Token)} {slices : List Slice}
    (htokens : (Lexer.lex source).tokens = before ++ rows.flatten)
    (h : Forall₂ (Spans source) rows slices) :
    rows.flatten.map Token.reading =
      slices.flatMap fun s => (Lexer.lex s.padded).tokens.map Token.reading := by
  induction h generalizing before with
  | nil => rfl
  | @cons row s rows slices hrow _ ih =>
    obtain ⟨first, inner, brace, last, rfl, hlast, rfl⟩ := hrow
    rw [flatten_cons, ← append_assoc] at htokens
    rw [flatten_cons, map_append, flatMap_cons, ih htokens,
      (lex_cut htokens hlast brace).2.2.2]

/-- **Nothing in a text is passed over in silence.**  Each slice and each problem of the scan shows
as a definition or a diagnostic.  Without diagnostics the tokens of the text are those of its
slices, one slice after the other, and each slice is read as a definition. -/
theorem parseReport_accounts (file : Option String) (text : String) :
    (parseReport file text).1.length + (parseReport file text).2.length =
        (scan text.toList).slices.length + (scan text.toList).problems.length ∧
      ((parseReport file text).2 = [] →
        (Lexer.lex text.toList).failure = none ∧
        (Lexer.lex text.toList).tokens.map Token.reading =
          (scan text.toList).slices.flatMap
            (fun s => (Lexer.lex s.padded).tokens.map Token.reading) ∧
        (scan text.toList).slices.map Slice.parse = (parseReport file text).1.map .ok) := by
  rw [parseReport_fst, parseReport_snd]
  refine ⟨?_, fun h => ?_⟩
  · have hcount := length_toOption_add_problem? ((scan text.toList).slices.map Slice.parse)
    rw [length_map] at hcount
    rw [length_append, length_map, length_map, ← hcount, itemDefinitions, itemProblems]
    omega
  · rw [append_eq_nil_iff, map_eq_nil_iff, map_eq_nil_iff] at h
    obtain ⟨hfailure, -, rows, hrows, hspans⟩ := rows_of_problems_eq_nil h.1
    have hwhole : (Lexer.lex text.toList).tokens = [] ++ rows.flatten := hrows
    exact ⟨hfailure, by rw [hrows, flatten_reading hwhole hspans], eq_map_ok h.2⟩

theorem Single.parseReport_text (file : Option String) :
    parseReport file Single.text = ([Single.definition], []) := by
  rw [parseReport, Single.parseItems_eq]
  rfl

theorem Single.parseReport_covers :
    (parseReport none Single.text).2 = [] ∧
      (Lexer.lex Single.text.toList).tokens.map Token.reading =
        (Lexer.lex Single.slice.padded).tokens.map Token.reading := by
  have hreport : (parseReport none Single.text).2 = [] := by rw [Single.parseReport_text]
  have hcovers := ((parseReport_accounts none Single.text).2 hreport).2.1
  rw [Single.scan_toList] at hcovers
  exact ⟨hreport, hcovers.trans (append_nil _)⟩

end Yielding
