import Yielding.Proofs.Moving.Parsing
import Yielding.Proofs.Scanning.Coverage

/-!
# Proofs/Moving/Scanning — the items behind other text

The reader of a joined text finds in its first part what it finds there alone (`run_left`), and in
its second part what it finds there alone, moved down (`run_shift`).  So what is found in the joined
text depends on the first part only through where that leaves the reader (`found_append`).
-/

namespace Yielding

open List Located Scan

variable {w q : List Char} {n : Nat}

/-! ## Cuts -/

theorem Scan.cut_left {first last : Token} (h : last.stopOffset ≤ w.length) (brace : Token) :
    cut (w ++ q) first brace last = cut w first brace last := by
  have hlength : last.stopOffset - first.offset ≤ (w.drop first.offset).length := by
    rw [length_drop]
    omega
  rw [cut, cut, drop_append, take_append_of_le_length hlength]

theorem Scan.cut_shift (first brace last : Token) :
    cut (w ++ q) (first.shift n w.length) (brace.shift n w.length) (last.shift n w.length) =
      down n (cut q first brace last) := by
  have hlength : (last.shift n w.length).stopOffset - (first.offset + w.length) =
      last.stopOffset - first.offset := by
    simp only [Token.shift, Token.stopOffset]
    omega
  have hdrop : (w ++ q).drop (first.offset + w.length) = q.drop first.offset := by
    rw [Nat.add_comm, ← drop_drop, drop_left]
  have htext : ((w ++ q).drop (first.offset + w.length)).take
      ((last.shift n w.length).stopOffset - (first.offset + w.length)) =
        (q.drop first.offset).take (last.stopOffset - first.offset) := by
    rw [hlength, hdrop]
  exact congrArg (fun text => Slice.mk (String.ofList text) _ _) htext

/-! ## Runs -/

namespace Scan

/-- The state with its tokens `lines` lines further down, with `chars` more characters before
them. -/
def State.shift (lines chars : Nat) : State → State
  | .outside => .outside
  | .lost => .lost
  | .header first depth seenFn => .header (first.shift lines chars) depth seenFn
  | .body first bodyOpen depth => .body (first.shift lines chars) (bodyOpen.shift lines chars) depth

instance : Located Event where
  down n
    | .slice s => .slice (down n s)
    | .problem p => .problem (down n p)

theorem step_left {t : Token} (h : t.stopOffset ≤ w.length) (s : State) :
    step (w ++ q) s t = step w s t := by
  cases s with
  | body first brace depth => rw [step, step, cut_left h]
  | _ => rfl

theorem run_left {ts : List Token} (h : ∀ t ∈ ts, t.stopOffset ≤ w.length) (s : State) :
    run (w ++ q) s ts = run w s ts := by
  induction ts generalizing s with
  | nil => rfl
  | cons t ts ih =>
    rw [forall_mem_cons] at h
    rw [run, run, step_left h.1, ih h.2]

theorem step_shift (s : State) (t : Token) :
    step (w ++ q) (s.shift n w.length) (t.shift n w.length) =
      ((step q s t).1.shift n w.length, down n (step q s t).2) := by
  have hkind : (t.shift n w.length).kind = t.kind := rfl
  cases s with
  | outside =>
    rw [State.shift, step, step, hkind]
    split <;> rfl
  | lost =>
    rw [State.shift, step, step, hkind]
    split <;> rfl
  | header first depth seenFn =>
    rw [State.shift, step, step, hkind]
    split
    · rfl
    · rfl
    · rfl
    · rfl
    · split
      · rfl
      · split
        · rfl
        · split
          · rfl
          · split <;> rfl
  | body first brace depth =>
    rw [State.shift, step, step, hkind, cut_shift]
    split
    · rfl
    · split <;> rfl
    · rfl

theorem run_shift (s : State) (ts : List Token) :
    run (w ++ q) (s.shift n w.length) (ts.map (Token.shift n w.length)) =
      ((run q s ts).1.shift n w.length, down n (run q s ts).2) := by
  induction ts generalizing s with
  | nil => rfl
  | cons t ts ih =>
    rw [map_cons, run, run, step_shift, ih]
    exact congrArg (Prod.mk _) (down_append ..).symm

theorem finish_shift (failure : Option Lexer.Failure) (s : State) :
    finish (down n failure) (s.shift n w.length) = down n (finish failure s) := by
  cases s <;> cases failure <;> rfl

theorem events_shift (failure : Option Lexer.Failure) (s : State) (ts : List Token) :
    events (w ++ q) (down n failure) (s.shift n w.length) (ts.map (Token.shift n w.length)) =
      down n (events q failure s ts) := by
  rw [events_eq_run, events_eq_run, run_shift, finish_shift]
  exact (down_append ..).symm

end Scan

/-! ## Joined texts -/

theorem Lexer.lex_append (hend : w.getLast? = some '\n') (hcomment : ¬['/', '*'] <:+: w)
    (hok : (lex w).failure = none) :
    lex (w ++ q) =
      ⟨(lex w).tokens ++ (lex q).tokens.map (Token.shift (w.count '\n') w.length),
        down (w.count '\n') (lex q).failure⟩ := by
  have hseam : Seam w q := fun c hc => .inl (Option.some.inj (hc.symm.trans hend))
  have hstart : Pos.first.advance w = down (w.count '\n') Pos.first :=
    Pos.advance_of_getLast? hend _
  have hsecond : lexFrom (Pos.first.advance w) (0 + w.length) 0 q =
      (lex q).shift (w.count '\n') w.length := by
    rw [hstart, lexFrom_shift]
    rfl
  rw [lex, lexFrom_append hseam hcomment (Nat.zero_le _) hok, hsecond]
  rfl

/-- **What is found in a joined text**: what the reader meets in the first part, and then, from
where that leaves it, what it finds in the second. -/
theorem found_append (hend : w.getLast? = some '\n') (hcomment : ¬['/', '*'] <:+: w)
    (hok : (Lexer.lex w).failure = none) :
    found (w ++ q) = (run w .outside (Lexer.lex w).tokens).2 ++
      events (w ++ q) (down (w.count '\n') (Lexer.lex q).failure) (lastState w)
        ((Lexer.lex q).tokens.map (Token.shift (w.count '\n') w.length)) := by
  have hstop : ∀ t ∈ (Lexer.lex w).tokens, t.stopOffset ≤ w.length := fun t ht =>
    (Lexer.stopOffset_le t ht).trans (Nat.zero_add _).le
  rw [found, Lexer.lex_append hend hcomment hok, events_eq_run, events_eq_run, run_append,
    run_left hstop, append_assoc]
  rfl

theorem found_append_of_outside (hend : w.getLast? = some '\n') (hcomment : ¬['/', '*'] <:+: w)
    (hok : (Lexer.lex w).failure = none) (hlast : lastState w = .outside) :
    found (w ++ q) = found w ++ down (w.count '\n') (found q) := by
  have hfirst : found w = (run w .outside (Lexer.lex w).tokens).2 := by
    rw [found, events_eq_run, hok, show (run w .outside (Lexer.lex w).tokens).1 =
      .outside from hlast]
    exact append_nil _
  rw [found_append hend hcomment hok, hfirst, hlast]
  exact congrArg (_ ++ ·) (events_shift _ .outside _)

theorem slice?_down (e : Event) : (down n e).slice? = down n e.slice? := by cases e <;> rfl

theorem problem?_down (e : Event) : (down n e).problem? = down n e.problem? := by cases e <;> rfl

theorem Problem.diagnostic_down (file : Option String) (p : Problem) :
    (down n p).diagnostic file = down n (p.diagnostic file) := by
  have hspan : Span.ofSite file (down n p.site) = down n (Span.ofSite file p.site) := by
    obtain ⟨start, stop⟩ := p.site
    cases stop <;> rfl
  rw [diagnostic, diagnostic, show (down n p).site = down n p.site from rfl, hspan,
    show (down n p).cause = p.cause from rfl]
  cases p.cause.isRejection <;> rfl

/-! ## Items -/

theorem itemDefinitions_append (xs ys : List Slice) :
    itemDefinitions (xs ++ ys) = itemDefinitions xs ++ itemDefinitions ys := by
  rw [itemDefinitions, map_append, filterMap_append]
  rfl

theorem itemProblems_append (xs ys : List Slice) :
    itemProblems (xs ++ ys) = itemProblems xs ++ itemProblems ys := by
  rw [itemProblems, map_append, filterMap_append]
  rfl

theorem map_parse_down {source : List Char} :
    (down n (scan source).slices).map Slice.parse =
      down n ((scan source).slices.map Slice.parse) := by
  have hparse : ∀ s ∈ (scan source).slices, (down n s).parse = down n s.parse := by
    intro s hs
    obtain ⟨hproper, tokens, hlex, hne⟩ := lex_of_mem_slices hs
    exact Slice.parse_down hproper.1 hlex hne
  show ((scan source).slices.map (down n)).map Slice.parse =
    ((scan source).slices.map Slice.parse).map (down n)
  rw [map_map, map_map]
  refine map_congr_left fun s hs => ?_
  rw [Function.comp_apply, Function.comp_apply, hparse s hs]

theorem itemDefinitions_down (source : List Char) :
    itemDefinitions (down n (scan source).slices) =
      down n (itemDefinitions (scan source).slices) := by
  rw [itemDefinitions, map_parse_down]
  exact filterMap_down (fun r => by cases r <;> rfl) _

theorem itemProblems_down (source : List Char) :
    itemProblems (down n (scan source).slices) = down n (itemProblems (scan source).slices) := by
  rw [itemProblems, map_parse_down]
  exact filterMap_down (fun r => by cases r <;> rfl) _

end Yielding
