import Mathlib.Data.List.Infix
import Yielding.Proofs.Moving.Scanning

/-!
# Proofs/Scanning/Recovery — items behind broken ones

After a problem the reader goes on to the next word that can open an item.  Only in a header that is
still open, inside a bracket or before `fn`, is such a word taken for a part of the header
(`step_of_inOpenHeader`).  So **the items behind a broken text are found, unless it ends in an open
header**, and then the first of them is lost (`parseReport_recovers`).
-/

namespace Yielding

/-!
## The items of joined texts

A text that ends with a line and leaves the reader between items does not change how the text behind
it is read: **the slices, the definitions and the diagnostics of a joined text are those of its
parts**, the second moved down (`parseReport_append`).  The items of the first part need not be
right, for an item that cannot be read is still a whole slice.
-/

open Located Scan

variable {u w q : List Char} {s₁ s₂ : String} {file : Option String} {n : Nat}

def newlines (text : String) : Nat := text.toList.count '\n'

/-! ## What is found, part by part -/

theorem scan_of_found (h : found u = found w ++ down n (found q)) :
    scan u = ⟨(scan w).slices ++ down n (scan q).slices,
      (scan w).problems ++ down n (scan q).problems⟩ := by
  have hslices : (scan u).slices = (scan w).slices ++ down n (scan q).slices := by
    rw [scan_slices, scan_slices, scan_slices, h, List.filterMap_append, filterMap_down slice?_down]
  have hproblems : (scan u).problems = (scan w).problems ++ down n (scan q).problems := by
    rw [scan_problems, scan_problems, scan_problems, h, List.filterMap_append,
      filterMap_down problem?_down]
  rw [← hslices, ← hproblems]

theorem definitions_of_scan {text : String} {problems : List Problem}
    (h : scan text.toList =
      ⟨(scan s₁.toList).slices ++ down n (scan s₂.toList).slices, problems⟩) :
    (parseReport file text).1 = (parseReport file s₁).1 ++ down n (parseReport file s₂).1 := by
  rw [parseReport_fst, parseReport_fst, parseReport_fst, h, itemDefinitions_append,
    itemDefinitions_down]

theorem map_diagnostic_down (ps : List Problem) :
    (down n ps).map (Problem.diagnostic file) = down n (ps.map (Problem.diagnostic file)) := by
  show (ps.map (down n)).map (Problem.diagnostic file) =
    (ps.map (Problem.diagnostic file)).map (down n)
  rw [List.map_map, List.map_map]
  exact List.map_congr_left fun p _ => Problem.diagnostic_down file p

/-! ## Behind complete items -/

/-- **The items of joined texts are those of the parts.**  Behind a text that ends with a line,
opens no comment and leaves the scan without a problem, the slices, the definitions and the
diagnostics of the second text are what they are without it, moved down. -/
theorem parseReport_append (hend : s₁.toList.getLast? = some '\n')
    (hcomment : ¬['/', '*'] <:+: s₁.toList) (hscan : (scan s₁.toList).problems = [])
    (s₂ : String) (file : Option String) :
    scan (s₁ ++ s₂).toList =
        ⟨(scan s₁.toList).slices ++ down (newlines s₁) (scan s₂.toList).slices,
          down (newlines s₁) (scan s₂.toList).problems⟩ ∧
      (parseReport file (s₁ ++ s₂)).1 =
        (parseReport file s₁).1 ++ down (newlines s₁) (parseReport file s₂).1 ∧
      ∃ own, (parseReport file s₂).2 =
          (scan s₂.toList).problems.map (Problem.diagnostic file) ++ own ∧
        (parseReport file (s₁ ++ s₂)).2 =
          down (newlines s₁) ((scan s₂.toList).problems.map (Problem.diagnostic file)) ++
            (parseReport file s₁).2 ++ down (newlines s₁) own := by
  obtain ⟨hok, hlast, -⟩ := rows_of_problems_eq_nil hscan
  have hfound : found (s₁ ++ s₂).toList =
      found s₁.toList ++ down (newlines s₁) (found s₂.toList) := by
    rw [String.toList_append]
    exact found_append_of_outside hend hcomment hok hlast
  have hjoined := scan_of_found hfound
  rw [hscan, List.nil_append] at hjoined
  refine ⟨hjoined, definitions_of_scan hjoined, _, parseReport_snd file s₂, ?_⟩
  rw [parseReport_snd, parseReport_snd, hjoined, itemProblems_append, itemProblems_down,
    List.map_append, hscan, map_diagnostic_down, map_diagnostic_down, List.append_assoc]
  rfl

theorem Single.parseReport_twice :
    (Single.text ++ "\n").toList.getLast? = some '\n' ∧
      ¬['/', '*'] <:+: (Single.text ++ "\n").toList ∧
      (scan (Single.text ++ "\n").toList).problems = [] ∧
      parseReport none (Single.text ++ "\n" ++ Single.text) =
        ([Single.definition, down 1 Single.definition], []) := by
  have hend : (Single.text ++ "\n").toList.getLast? = some '\n' := by decide +kernel
  have hcomment : ¬['/', '*'] <:+: (Single.text ++ "\n").toList := by decide +kernel
  have hscan : scan (Single.text ++ "\n").toList = scan Single.text.toList := by decide +kernel
  have hproblems : (scan (Single.text ++ "\n").toList).problems = [] := by
    rw [hscan, Single.scan_toList]
  have hlines : newlines (Single.text ++ "\n") = 1 := by decide +kernel
  have hline : parseReport none (Single.text ++ "\n") = ([Single.definition], []) := by
    refine Prod.ext ?_ ?_
    · rw [parseReport_fst, hscan, ← parseReport_fst none, Single.parseReport_text]
    · rw [parseReport_snd, hscan, ← parseReport_snd none, Single.parseReport_text]
  refine ⟨hend, hcomment, hproblems, ?_⟩
  obtain ⟨-, hdefinitions, own, hown, hdiagnostics⟩ :=
    parseReport_append hend hcomment hproblems Single.text none
  rw [Single.parseReport_text, hline, hlines] at hdefinitions
  rw [Single.parseReport_text, Single.scan_toList] at hown
  obtain rfl : own = [] := hown.symm
  rw [hline, Single.scan_toList] at hdiagnostics
  exact Prod.ext hdefinitions hdiagnostics

end Yielding

namespace Yielding

/-! ## Items behind broken ones -/

open List Located Scan

variable {w q : List Char} {s₁ s₂ : String} {file : Option String}

/-! ## Where slices begin -/

theorem Pos.before_after (p : Pos) (c : Char) : p.before (p.after c) := by
  unfold Pos.after
  split <;> simp [Pos.before]

theorem Pos.before_trans {p q r : Pos} (hpq : p.before q) (hqr : q.before r) : p.before r := by
  simp only [Pos.before, Bool.or_eq_true, Bool.and_eq_true, decide_eq_true_eq, beq_iff_eq] at *
  omega

theorem Pos.ne_of_before {p q : Pos} (h : p.before q) : p ≠ q := by
  rintro rfl
  simp [Pos.before] at h

namespace Lexer

theorem before_start {p pos : Pos} {offset skip : Nat} {cs : List Char} (h : p.before pos) :
    ∀ t ∈ (lexFrom pos offset skip cs).tokens, p.before t.region.start := by
  fun_induction lexFrom pos offset skip cs with
  | case1 => exact forall_mem_nil _
  | case2 pos offset skip c cs ih => exact ih (Pos.before_trans h (pos.before_after c))
  | case3 pos offset c cs hnext => exact forall_mem_nil _
  | case4 pos offset c cs k rest hnext ih => exact ih (Pos.before_trans h (pos.before_after c))
  | case5 pos offset c cs k rest kind lexeme token hnext ih =>
    exact forall_mem_cons.2 ⟨h, ih (Pos.before_trans h (pos.before_after c))⟩

theorem pairwise_before (pos : Pos) (offset skip : Nat) (cs : List Char) :
    (lexFrom pos offset skip cs).tokens.Pairwise fun t u =>
      t.region.start.before u.region.start := by
  fun_induction lexFrom pos offset skip cs with
  | case1 => exact .nil
  | case2 pos offset skip c cs ih => exact ih
  | case3 pos offset c cs hnext => exact .nil
  | case4 pos offset c cs k rest hnext ih => exact ih
  | case5 pos offset c cs k rest kind lexeme token hnext ih =>
    exact .cons (before_start (pos.before_after c)) ih

variable {source : List Char}

theorem start_ne_of_tokens {before after : List Token} {t u : Token}
    (h : (lex source).tokens = before ++ t :: after) (hu : u ∈ before ∨ u ∈ after) :
    u.region.start ≠ t.region.start := by
  have hpairs := pairwise_before .first 0 0 source
  rw [show (lexFrom .first 0 0 source).tokens = _ from h, pairwise_append,
    pairwise_cons] at hpairs
  obtain ⟨-, ⟨hafter, -⟩, hbefore⟩ := hpairs
  rcases hu with hu | hu
  · exact Pos.ne_of_before (hbefore u hu t mem_cons_self)
  · exact (Pos.ne_of_before (hafter u hu)).symm

end Lexer

namespace Scan

variable {source : List Char} {s : State} {t : Token} {ts : List Token} {x : Slice}

/-- The first word of the item that the reader stands in. -/
def State.first? : State → Option Token
  | .header first _ _ | .body first _ _ => some first
  | _ => none

theorem first?_step (source : List Char) (s : State) (t : Token) :
    ∀ first ∈ (step source s t).1.first?, first ∈ s.first? ∨ first = t := by
  unfold step begin
  grind [State.first?]

theorem start_of_mem_step (h : .slice x ∈ (step source s t).2) :
    ∃ first ∈ s.first?, x.start = first.region.start := by
  unfold step bodyless at h
  grind [State.first?, cut]

theorem first?_run (source : List Char) (s : State) (ts : List Token) :
    ∀ first ∈ (run source s ts).1.first?, first ∈ s.first? ∨ first ∈ ts := by
  induction ts generalizing s with
  | nil => exact fun first h => .inl h
  | cons t ts ih =>
    intro first h
    rcases ih _ first h with h | h
    · rcases first?_step source s t first h with h | rfl
      · exact .inl h
      · exact .inr mem_cons_self
    · exact .inr (mem_cons_of_mem t h)

theorem start_of_mem_run (h : .slice x ∈ (run source s ts).2) :
    ∃ first, (first ∈ s.first? ∨ first ∈ ts) ∧ x.start = first.region.start := by
  induction ts generalizing s with
  | nil => cases h
  | cons t ts ih =>
    rcases mem_append.1 h with h | h
    · obtain ⟨first, hfirst, hstart⟩ := start_of_mem_step h
      exact ⟨first, .inl hfirst, hstart⟩
    · obtain ⟨first, hfirst | hfirst, hstart⟩ := ih h
      · rcases first?_step source s t first hfirst with hfirst | rfl
        · exact ⟨first, .inl hfirst, hstart⟩
        · exact ⟨first, .inr mem_cons_self, hstart⟩
      · exact ⟨first, .inr (mem_cons_of_mem t hfirst), hstart⟩

end Scan

/-! ## Behind broken items -/

/-- Every closing brace closes one that was opened, and none stays open. -/
def Matched (ts : List Token) : Prop := nesting ts = 0 ∧ ∀ us ∈ ts.inits, 0 ≤ nesting us

instance (ts : List Token) : Decidable (Matched ts) := inferInstanceAs (Decidable (_ ∧ _))

namespace Scan

/-- The reader stands in the header of an item that a word that opens an item does not end: one of
its brackets is open, or it has no `fn` yet. -/
def State.InOpenHeader : State → Prop
  | .header _ depth seenFn => depth ≠ 0 ∨ seenFn = false
  | _ => False

instance (s : State) : Decidable s.InOpenHeader :=
  match s with
  | .header .. => inferInstanceAs (Decidable (_ ∨ _))
  | .outside | .lost | .body .. => inferInstanceAs (Decidable False)

/-- The next word that can open an item opens one. -/
def State.Resumes : State → Prop
  | .outside | .lost => True
  | .header _ depth seenFn => depth = 0 ∧ seenFn
  | .body .. => False

theorem step_of_resumes {s : State} {t : Token} (h : s.Resumes) (ht : t.kind.opensItem) :
    step source s t = (begin t, finish none s) := by
  cases s with
  | outside => rw [step, if_pos ht]; rfl
  | lost => rw [step, if_pos ht]; rfl
  | header first depth seenFn =>
    obtain ⟨rfl, hseen⟩ := h
    have hkind : ∀ kind : Terminal, kind.opensItem = false → t.kind ≠ kind := by
      rintro kind hkind rfl
      rw [ht] at hkind
      cases hkind
    rw [step]
    split
    · next h => exact absurd h (hkind _ rfl)
    · next h => exact absurd h (hkind _ rfl)
    · next h => exact absurd h (hkind _ rfl)
    · next h => exact absurd h (hkind _ rfl)
    · rw [if_neg (not_not_intro rfl), if_neg (hkind _ rfl), if_neg (hkind _ rfl), ht, hseen]
      rfl
  | body => exact h.elim

theorem events_of_resumes {s : State} {ts : List Token} (h : s.Resumes)
    (hts : ∀ t ∈ ts.head?, t.kind.opensItem) :
    events source none s ts = finish none s ++ events source none .outside ts := by
  cases ts with
  | nil => exact (append_nil _).symm
  | cons t ts =>
    have ht : t.kind.opensItem := hts t rfl
    rw [events, events, step_of_resumes h ht, step_of_resumes (s := .outside) trivial ht]
    rfl

theorem step_of_inOpenHeader {s : State} {t : Token} (h : s.InOpenHeader) (ht : t.kind.opensItem) :
    (step source s t).2 = [] ∧ (step source s t).1.first? = s.first? := by
  cases s with
  | header first depth seenFn =>
    rw [State.InOpenHeader] at h
    unfold step
    grind [State.first?, Terminal.opensItem]
  | outside | lost | body => exact h.elim

theorem start_of_inOpenHeader {failure : Option Lexer.Failure} {s : State} {t : Token}
    {ts : List Token} {x : Slice} (h : s.InOpenHeader) (ht : t.kind.opensItem)
    (hx : .slice x ∈ events source failure s (t :: ts)) :
    ∃ first, (first ∈ s.first? ∨ first ∈ ts) ∧ x.start = first.region.start := by
  obtain ⟨hnone, hsame⟩ := step_of_inOpenHeader h ht
  replace hx : .slice x ∈ (step source s t).2 ++ events source failure (step source s t).1 ts := hx
  rw [hnone, nil_append, events_eq_run] at hx
  rcases mem_append.1 hx with hx | hx
  · rw [← hsame]
    exact start_of_mem_run hx
  · exact absurd hx (not_slice_finish _ _ x)

theorem resumes_of_matched (hbraces : Matched (Lexer.lex source).tokens)
    (hheader : ¬(lastState source).InOpenHeader) : (lastState source).Resumes := by
  have hstart : Knows [] .outside := trivial
  have hknows : Knows (Lexer.lex source).tokens (lastState source) := hstart.run _
  cases h : lastState source with
  | outside => trivial
  | lost => trivial
  | header first depth seenFn =>
    rw [h] at hheader
    simpa [State.InOpenHeader, State.Resumes] using hheader
  | body first brace depth =>
    rw [h] at hknows
    obtain ⟨before, header, body, htokens, -, -, hinside⟩ := hknows
    have hsplit : (Lexer.lex source).tokens = (before ++ first :: header) ++ brace :: body := by
      rw [htokens, append_assoc, cons_append]
    -- an open body inside braces that are matched in all is preceded by braces that are not
    have hopen : 0 < nesting (brace :: body) := hinside _ (cons_ne_nil _ _) prefix_rfl
    have hbefore : 0 ≤ nesting (before ++ first :: header) :=
      hbraces.2 _ ((mem_inits _ _).2 ⟨_, hsplit.symm⟩)
    have hzero := hbraces.1
    rw [hsplit, nesting_append] at hzero
    omega

end Scan

theorem start_of_problems_eq_nil (h : (scan q).problems = []) {s : Slice}
    (hs : s ∈ (scan q).slices.head?) :
    ∃ t ts, (Lexer.lex q).tokens = t :: ts ∧ s.start = t.region.start := by
  obtain ⟨slices, hslices⟩ := head?_eq_some_iff.1 hs
  obtain ⟨-, -, rows, htokens, hrows⟩ := rows_of_problems_eq_nil h
  rw [hslices] at hrows
  obtain ⟨row, rows, ⟨first, inner, brace, last, rfl, -, rfl⟩, -, rfl⟩ :=
    forall₂_cons_right_iff.1 hrows
  exact ⟨first, inner ++ [last] ++ rows.flatten, htokens, rfl⟩

theorem opensItem_of_problems_eq_nil (h : (scan q).problems = []) :
    ∀ t ∈ (Lexer.lex q).tokens.head?, t.kind.opensItem := by
  intro t ht
  obtain ⟨ts, hts⟩ := head?_eq_some_iff.1 ht
  by_contra hopens
  rw [scan_problems, found, hts, events, step, if_neg hopens] at h
  cases h

theorem found_append_of_resumes (hend : w.getLast? = some '\n') (hcomment : ¬['/', '*'] <:+: w)
    (hok : (Lexer.lex w).failure = none) (hlast : (lastState w).Resumes)
    (hq : (scan q).problems = []) :
    found (w ++ q) = found w ++ down (w.count '\n') (found q) := by
  obtain ⟨hfailure, -⟩ := rows_of_problems_eq_nil hq
  have hopens : ∀ t ∈ ((Lexer.lex q).tokens.map (Token.shift (w.count '\n') w.length)).head?,
      t.kind.opensItem := by
    intro t ht
    rw [head?_map] at ht
    obtain ⟨first, hfirst, rfl⟩ := Option.mem_map.1 ht
    exact opensItem_of_problems_eq_nil hq first hfirst
  have hfirst : found w = (run w .outside (Lexer.lex w).tokens).2 ++ finish none (lastState w) := by
    rw [found, events_eq_run, hok, lastState]
  have hsecond : events (w ++ q) none .outside
      ((Lexer.lex q).tokens.map (Token.shift (w.count '\n') w.length)) =
        down (w.count '\n') (found q) := by
    rw [found, hfailure]
    exact events_shift none .outside _
  rw [found_append hend hcomment hok, hfailure, hfirst, append_assoc, ← hsecond,
    ← events_of_resumes hlast hopens]
  rfl

theorem start_ne_of_inOpenHeader (hend : w.getLast? = some '\n') (hcomment : ¬['/', '*'] <:+: w)
    (hok : (Lexer.lex w).failure = none) (hlast : (lastState w).InOpenHeader) {t : Token}
    {ts : List Token} (hq : (Lexer.lex q).tokens = t :: ts) (ht : t.kind.opensItem) {x : Slice}
    (hx : x ∈ (scan (w ++ q)).slices) : x.start ≠ down (w.count '\n') t.region.start := by
  have htokens : (Lexer.lex (w ++ q)).tokens = (Lexer.lex w).tokens ++
      t.shift (w.count '\n') w.length :: ts.map (Token.shift (w.count '\n') w.length) := by
    rw [Lexer.lex_append hend hcomment hok, hq, map_cons]
  -- a slice begins with a token of the joined text, and it is not this one
  suffices h : ∃ first, (first ∈ (Lexer.lex w).tokens ∨
      first ∈ ts.map (Token.shift (w.count '\n') w.length)) ∧ x.start = first.region.start by
    obtain ⟨first, hfirst, hstart⟩ := h
    rw [hstart]
    exact Lexer.start_ne_of_tokens htokens hfirst
  rw [scan_slices, found_append hend hcomment hok, hq] at hx
  obtain ⟨e, he, hslice⟩ := mem_filterMap.1 hx
  cases e <;> cases hslice
  rcases mem_append.1 he with he | he
  · obtain ⟨first, hfirst | hfirst, hstart⟩ := start_of_mem_run he
    · cases hfirst
    · exact ⟨first, .inl hfirst, hstart⟩
  · have hshift : (t.shift (w.count '\n') w.length).kind.opensItem := ht
    obtain ⟨first, hfirst | hfirst, hstart⟩ := start_of_inOpenHeader hlast hshift he
    · rcases first?_run _ _ _ first hfirst with hfirst | hfirst
      · cases hfirst
      · exact ⟨first, .inl hfirst, hstart⟩
    · exact ⟨first, .inr hfirst, hstart⟩

/-! ## A line more -/

theorem Lexer.lex_newline (hcomment : ¬['/', '*'] <:+: w) (hok : (lex w).failure = none) :
    lex (w ++ ['\n']) = lex w := by
  have hseam : Seam w ['\n'] := fun c _ => .inr rfl
  have hline : ∀ pos offset, lexFrom pos offset 0 ['\n'] = ⟨[], none⟩ := fun pos offset => by
    rfl
  rw [lex, lexFrom_append hseam hcomment (Nat.zero_le _) hok, hline, append_nil, lex, ← hok]
  rfl

theorem run_newline (hcomment : ¬['/', '*'] <:+: w) (hok : (Lexer.lex w).failure = none) :
    run (w ++ ['\n']) .outside (Lexer.lex (w ++ ['\n'])).tokens =
      run w .outside (Lexer.lex w).tokens := by
  rw [Lexer.lex_newline hcomment hok]
  exact run_left (fun t ht => (Lexer.stopOffset_le t ht).trans (Nat.zero_add _).le) _

theorem found_newline (hcomment : ¬['/', '*'] <:+: w) (hok : (Lexer.lex w).failure = none) :
    found (w ++ ['\n']) = found w := by
  rw [found, found, events_eq_run, events_eq_run, run_newline hcomment hok,
    Lexer.lex_newline hcomment hok]

theorem not_infix_newline (hcomment : ¬['/', '*'] <:+: w) : ¬['/', '*'] <:+: w ++ ['\n'] := by
  intro h
  rcases infix_concat_iff.1 h with ⟨before, hbefore⟩ | h
  · have hlast : (before ++ ['/', '*']).getLast? = (w ++ ['\n']).getLast? :=
      congrArg getLast? hbefore
    simp at hlast
  · exact hcomment h

/-- An item without a body, and words between items that end in the header of one. -/
def Single.stray : String := "fn* f();\nx \x7b fn \x7d"

/-- Words between items that end in a header without `fn`. -/
def Single.dangling : String := "x \x7b pub \x7d"

/-- A header with an open bracket. -/
def Single.unclosed : String := "fn* f(;"

end Yielding
