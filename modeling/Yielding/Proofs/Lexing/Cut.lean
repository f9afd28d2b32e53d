import Mathlib.Data.List.TakeWhile
import Yielding.Token.Lexer

/-!
# Proofs/Lexing/Cut — cutting a text behind a brace keeps its words

A word that ends before a closing brace is read the same whether the text goes on after the brace or
not: runs stop at a brace, and quoted words and comments are settled by what they consist of.  So
when the words of a text reach a closing brace, **the text cut behind the brace has the same words**
(`lexFrom_cut`), though a word could well be read across the cut, as `'\x7d'` is.
-/

namespace Yielding

open List

/-- What a token reads: its kind, its text and its place, without the number of characters before
it. -/
def Token.reading (t : Token) : Terminal × String × Region := (t.kind, t.text, t.region)

namespace Lexer

open Text

/-! ## Runs -/

theorem run_cons (p : Char → Bool) (c : Char) (cs : List Char) :
    run p (c :: cs) = if p c then run p cs + 1 else 0 := by
  unfold run
  rw [takeWhile_cons]
  split <;> simp

theorem run_le (p : Char → Bool) (u : List Char) : run p u ≤ u.length :=
  IsPrefix.length_le <| takeWhile_prefix p

theorem drop_run (p : Char → Bool) (cs : List Char) : cs.drop (run p cs) = cs.dropWhile p := by
  induction cs with
  | nil => rfl
  | cons c cs ih =>
    rw [run_cons, dropWhile_cons]
    split
    · exact ih
    · rfl

variable {b : Char}

theorem run_stops {p : Char → Bool} (hp : p b = false) (u q : List Char) : run p (u ++ b :: q)
    = run p u := by
  induction u with
  | nil => simp [run, hp]
  | cons c u ih => rw [cons_append, run_cons, run_cons, ih]

variable {start part : Char → Bool} {n : Nat}

theorem headedLength?_stops (hstart : start b = false) (hpart : part b = false) (u q : List Char) :
    headedLength? start part (u ++ b :: q) = headedLength? start part u := by
  cases u with
  | nil => simp [headedLength?, hstart]
  | cons c u => simp only [cons_append, headedLength?, run_stops hpart]

variable {u q : List Char}

theorem headedLength?_cases (h : headedLength? start part u = some n) :
    ∃ c cs, u = c :: cs ∧ start c = true ∧ n = run part cs + 1 := by
  unfold headedLength? at h
  grind

theorem headedLength?_le (h : headedLength? start part u = some n) : n ≤ u.length := by
  obtain ⟨c, cs, rfl, -, rfl⟩ := headedLength?_cases h
  exact Nat.succ_le_succ (run_le part cs)

theorem run_inside {p : Char → Bool} (hp : p '\x7d') (h : run p (u ++ '\x7d' :: q) ≤ u.length) :
    run p (u ++ ['\x7d']) = run p (u ++ '\x7d' :: q) := by
  induction u with
  | nil => simp [run, hp] at h
  | cons c u ih =>
    rw [cons_append, run_cons] at h ⊢
    rw [cons_append, run_cons]
    split at h
    · rename_i hc
      simp only [hc, if_true]
      rw [ih (by simpa using h)]
    · rename_i hc
      simp [hc]

/-! ## Two kinds of stable words -/

/-- The length of a word that ends before a closing brace, and that there is none, are the same when
the text is cut behind the brace. -/
structure Stable (f : List Char → Option Nat) : Prop where
  keeps : ∀ {u q n}, u ≠ [] → f (u ++ '\x7d' :: q) = some n → n ≤ u.length →
    f (u ++ ['\x7d']) = some n
  fails : ∀ {u q}, u ≠ [] → f (u ++ '\x7d' :: q) = none → f (u ++ ['\x7d']) = none

variable {f : List Char → Option Nat}

theorem Stable.of_stops (h : ∀ u q, f (u ++ '\x7d' :: q) = f u) : Stable f where
  keeps _ hn _ := by rw [h _ []]; rwa [h] at hn
  fails _ hn := by rw [h _ []]; rwa [h] at hn

/-- The word is settled by its own characters. -/
def Settled (f : List Char → Option Nat) : Prop :=
  ∀ w n, f w = some n → n ≤ w.length ∧ ∀ v, f (w.take n ++ v) = some n

theorem Settled.stable (h : Settled f) : Stable f where
  keeps {u q n} _ hn hle := by
    have hw := (h _ _ hn).2 (u.drop n ++ ['\x7d'])
    rwa [take_append_of_le_length hle, ← append_assoc, take_append_drop] at hw
  fails {u q} _ hn := by
    rw [Option.eq_none_iff_forall_ne_some]
    intro n hc
    have hw := (h _ _ hc).2 ((u ++ ['\x7d']).drop n ++ q)
    rw [← append_assoc, take_append_drop, append_assoc, singleton_append,
      hn] at hw
    cases hw

/-! ## Names and numbers -/

/-- Names and numbers end before the character. -/
structure EndsWords (b : Char) : Prop where
  notPart : isNamePart b = false
  notDigit : isDecimalDigit b = false
  notMark : b ∉ ['.', '+', '-', '\'']

theorem endsWords_brace : EndsWords '\x7d' := ⟨by decide, by decide, by decide⟩

theorem endsWords_newline : EndsWords '\n' := ⟨by decide, by decide, by decide⟩

section Ends

variable {b : Char} (hb : EndsWords b) (u q : List Char)

include hb

theorem EndsWords.notStart : isNameStart b = false := by
  have := hb.notPart
  simp only [isNamePart, Char.isAlphanum, Bool.or_eq_false_iff] at this
  simp [isNameStart, this]

theorem nameLength?_ends : nameLength? (u ++ b :: q) = nameLength? u :=
  headedLength?_stops hb.notStart hb.notPart u q

theorem digitsLength?_ends : digitsLength? (u ++ b :: q) = digitsLength? u := by
  have hpart : (isDecimalDigit b || b == '_') = false := by
    have := hb.notPart
    simp only [isNamePart, Bool.or_eq_false_iff] at this
    simp [hb.notDigit, this]
  exact headedLength?_stops hb.notDigit hpart u q

end Ends

theorem isPrefixOf_ends {t : List Char} (ht : b ∉ t) (u q : List Char) : t.isPrefixOf (u ++ b :: q)
    = t.isPrefixOf u := by
  induction t generalizing u with
  | nil => simp
  | cons c t ih =>
    rw [mem_cons, not_or] at ht
    cases u with
    | nil => simp [isPrefixOf, Ne.symm ht.1]
    | cons d u => simp only [cons_append, isPrefixOf, ih ht.2]

theorem find?_congr {α : Type} {p q : α → Bool} : ∀ {xs : List α}, (∀ x ∈ xs, p x = q x) →
    xs.find? p = xs.find? q
  | [], _ => rfl
  | x :: xs, h => by
    rw [forall_mem_cons] at h
    simp only [find?_cons, h.1, find?_congr h.2]

theorem suffixLength_ends (hb : EndsWords b) {suffixes : List String}
    (h : ∀ s ∈ suffixes, s.toList.all isNamePart) (u q : List Char) :
    suffixLength suffixes (u ++ b :: q) = suffixLength suffixes u := by
  have hnot : ∀ s ∈ suffixes, b ∉ s.toList := fun s hs hmem =>
    Bool.false_ne_true (hb.notPart.symm.trans (all_eq_true.1 (h s hs) b hmem))
  have hfind : suffixes.find? (·.toList.isPrefixOf (u ++ b :: q)) =
      suffixes.find? (·.toList.isPrefixOf u) :=
    find?_congr fun s hs => isPrefixOf_ends (hnot s hs) u q
  unfold suffixLength
  rw [hfind]

theorem signLength_le (u : List Char) : signLength u ≤ u.length := by
  unfold signLength
  split <;> simp

theorem signLength_ends (hb : EndsWords b) (u q : List Char) : signLength (u ++ b :: q)
    = signLength u := by
  cases u with
  | nil =>
    have := hb.notMark
    unfold signLength
    split <;> simp_all
  | cons c u =>
    rw [cons_append]
    unfold signLength
    split
    · simp_all
    · simp_all
    · split <;> simp_all

theorem exponentLength_ends (hb : EndsWords b) (u q : List Char) : exponentLength (u ++ b :: q)
    = exponentLength u := by
  cases u with
  | nil =>
    have hletter : ∀ c, isNamePart c = true → b ≠ c := by
      rintro c hc rfl
      exact Bool.false_ne_true (hb.notPart.symm.trans hc)
    have he : b ≠ 'e' := hletter 'e' (by decide)
    have hE : b ≠ 'E' := hletter 'E' (by decide)
    rw [nil_append, exponentLength, if_neg (by simp [he, hE])]
    rfl
  | cons c u =>
    rw [cons_append, exponentLength, exponentLength, signLength_ends hb,
      drop_append_of_le_length (signLength_le u), run_stops hb.notDigit]

theorem exponentLength_le (u : List Char) : exponentLength u ≤ u.length := by
  cases u with
  | nil => exact Nat.le_refl 0
  | cons c u =>
    have hsign := signLength_le u
    have hrun := run_le isDecimalDigit (u.drop (signLength u))
    rw [length_drop] at hrun
    rw [exponentLength, length_cons]
    split
    · simp only
      split <;> omega
    · omega

theorem namePart_intSuffixes : ∀ s ∈ intSuffixes, s.toList.all isNamePart := by decide

theorem namePart_floatSuffixes : ∀ s ∈ floatSuffixes, s.toList.all isNamePart := by decide

theorem intLength?_ends (hb : EndsWords b) (u q : List Char) : intLength? (u ++ b :: q)
    = intLength? u := by
  unfold intLength?
  rw [digitsLength?_ends hb]
  cases hd : digitsLength? u with
  | none => rfl
  | some n =>
    rw [Option.map_some, Option.map_some, drop_append_of_le_length (headedLength?_le hd),
      suffixLength_ends hb namePart_intSuffixes]

theorem fractionLength?_ends (hb : EndsWords b) (u q : List Char) : fractionLength? (u ++ b :: q)
    = fractionLength? u := by
  unfold fractionLength?
  rw [digitsLength?_ends hb]
  cases hd : digitsLength? u with
  | none => rfl
  | some n =>
    have hn := headedLength?_le hd
    have hpower := exponentLength_le (u.drop n)
    rw [length_drop] at hpower
    simp only [Option.map_some]
    rw [drop_append_of_le_length hn, exponentLength_ends hb,
      drop_append_of_le_length (by omega), suffixLength_ends hb namePart_floatSuffixes]

theorem floatLength?_ends (hb : EndsWords b) (u q : List Char) : floatLength? (u ++ b :: q)
    = floatLength? u := by
  have hpoint : b ≠ '.' := fun h => hb.notMark (by simp [h])
  rw [floatLength?, floatLength?, digitsLength?_ends hb]
  cases hd : digitsLength? u with
  | none => rfl
  | some whole =>
    simp only [Option.bind_some]
    rw [drop_append_of_le_length (headedLength?_le hd)]
    cases hu : u.drop whole with
    | nil => simp [hpoint]
    | cons c rest =>
      by_cases hc : c = '.'
      · subst hc
        simp only [cons_append, fractionLength?_ends hb]
      · simp [hc]

theorem lifetimeLength?_ends (hb : EndsWords b) (u q : List Char) : lifetimeLength? (u ++ b :: q)
    = lifetimeLength? u := by
  have hquote : b ≠ '\'' := fun h => hb.notMark (by simp [h])
  cases u with
  | nil => simp [lifetimeLength?, hquote]
  | cons c u =>
    by_cases hc : c = '\''
    · subst hc
      simp only [cons_append, lifetimeLength?, nameLength?_ends hb]
      cases hn : nameLength? u with
      | none => rfl
      | some n =>
        simp only [Option.bind_eq_bind, Option.bind_some]
        rw [drop_append_of_le_length (headedLength?_le hn)]
        cases u.drop n with
        | nil => simp [hquote]
        | cons d v =>
          by_cases hd : d = '\''
          · subst hd
            rcases n with _ | _ | n <;> rfl
          · simp [hd]
    · simp [lifetimeLength?, hc]

theorem gapLength?_brace (u q : List Char) : gapLength? (u ++ '\x7d' :: q) = gapLength? u := by
  unfold gapLength?
  rw [run_stops (by decide)]

/-! ## Quoted words and comments -/

theorem blockEnd?_cons (c : Char) (cs : List Char) : blockEnd? (c :: cs) =
    if c = '*' ∧ cs.head? = some '/' then some 2 else (blockEnd? cs).map (· + 1) := by
  rw [blockEnd?.eq_def]
  split
  · rename_i h
    cases h
    simp
  · rename_i hne h
    cases h
    rw [if_neg]
    rintro ⟨rfl, hcs⟩
    obtain ⟨cs', rfl⟩ := head?_eq_some_iff.1 hcs
    exact hne cs' rfl rfl
  · rename_i h
    cases h

theorem blockEnd?_pos : ∀ {w : List Char} {n : Nat}, blockEnd? w = some n → 0 < n
  | c :: cs, n, h => by
    rw [blockEnd?_cons] at h
    split at h
    · cases h
      decide
    · obtain ⟨m, -, rfl⟩ := Option.map_eq_some_iff.1 h
      exact Nat.succ_pos m

variable {cs : List Char}

theorem head?_take_append {v : List Char} (hn : 0 < n) (hle : n ≤ cs.length) :
    (cs.take n ++ v).head? = cs.head? := by
  cases cs with
  | nil => simp at hle; omega
  | cons c cs =>
    obtain ⟨n, rfl⟩ := Nat.exists_eq_succ_of_ne_zero (Nat.pos_iff_ne_zero.1 hn)
    rfl

theorem settled_blockEnd : Settled blockEnd?
  | c :: cs, n, h => by
    rw [blockEnd?_cons] at h
    split at h
    · rename_i hc
      cases h
      obtain ⟨cs', rfl⟩ := head?_eq_some_iff.1 hc.2
      exact ⟨by simp, fun v => by simp [blockEnd?_cons, hc.1]⟩
    · rename_i hc
      obtain ⟨m, hm, rfl⟩ := Option.map_eq_some_iff.1 h
      obtain ⟨hle, hv⟩ := settled_blockEnd _ _ hm
      refine ⟨by simpa using hle, fun v => ?_⟩
      rw [take_succ_cons, cons_append, blockEnd?_cons,
        head?_take_append (blockEnd?_pos hm) hle, if_neg hc, hv, Option.map_some]

theorem settled_blockComment : Settled blockCommentLength? := by
  intro w n h
  unfold blockCommentLength? at h
  split at h
  · obtain ⟨m, hm, rfl⟩ := Option.map_eq_some_iff.1 h
    obtain ⟨hle, hv⟩ := settled_blockEnd _ _ hm
    exact ⟨by simpa using hle, fun v => by simp [blockCommentLength?, hv]⟩
  · cases h

theorem settled_stringEnd : Settled stringEnd? := by
  intro w
  fun_induction stringEnd? w with
  | case1 cs =>
    intro n h
    cases h
    exact ⟨by simp, fun v => by simp [stringEnd?]⟩
  | case2 c cs ih =>
    intro n h
    obtain ⟨m, hm, rfl⟩ := Option.map_eq_some_iff.1 h
    obtain ⟨hle, hv⟩ := ih _ hm
    exact ⟨by simpa using hle, fun v => by simp [stringEnd?, hv]⟩
  | case3 => nofun
  | case4 c cs hquote hescape hlast ih =>
    intro n h
    obtain ⟨m, hm, rfl⟩ := Option.map_eq_some_iff.1 h
    obtain ⟨hle, hv⟩ := ih _ hm
    have hc : c ≠ '\\' := by
      rintro rfl
      cases cs with
      | nil => exact hlast rfl rfl
      | cons d cs => exact hescape d cs rfl rfl
    exact ⟨by simpa using hle, fun v => by simp [stringEnd?, hc, hv]⟩
  | case5 => nofun

theorem settled_string : Settled stringLength? := by
  intro w n h
  unfold stringLength? at h
  split at h
  · obtain ⟨m, hm, rfl⟩ := Option.map_eq_some_iff.1 h
    obtain ⟨hle, hv⟩ := settled_stringEnd _ _ hm
    exact ⟨by simpa using hle, fun v => by simp [stringLength?, hv]⟩
  · cases h

/-! ### Characters -/

theorem take_append_cons (xs ys : List Char) (x : Char) :
    (xs ++ x :: ys).take (xs.length + 1) = xs ++ [x] := by
  induction xs with
  | nil => simp
  | cons z xs ih => simpa using ih

variable {w : List Char}

/-- A braced code is one or more digits and the brace that closes it. -/
theorem codeEscapeLength?_eq_some : codeEscapeLength? w = some n ↔ ∃ digits rest, digits ≠ [] ∧
    (∀ c ∈ digits, isCodePart c) ∧
      w = '\\' :: 'u' :: '\x7b' :: (digits ++ '\x7d' :: rest) ∧ n = digits.length + 4 := by
  constructor
  · intro h
    unfold codeEscapeLength? at h
    split at h
    next cs =>
      split at h
      next => cases h
      next m hm =>
        have hlen : (cs.takeWhile isCodePart).length = m + 1 := hm
        split at h
        next rest hrest =>
          cases h
          have hdrop : cs.dropWhile isCodePart = '\x7d' :: rest := by
            rw [← hrest, ← drop_run, run, hlen]
          refine ⟨cs.takeWhile isCodePart, rest, ?_, fun c hc => ?_, ?_, by rw [hlen]⟩
          · rintro h
            rw [h] at hlen
            cases hlen
          · exact all_eq_true.1 all_takeWhile c hc
          · rw [← hdrop, takeWhile_append_dropWhile]
        next => cases h
    next => cases h
  · rintro ⟨digits, rest, hne, hdigits, rfl, rfl⟩
    have hrun : run isCodePart (digits ++ '\x7d' :: rest) = digits.length := by
      have hall : digits.takeWhile isCodePart = digits := takeWhile_eq_self_iff.2 hdigits
      exact (run_stops (p := isCodePart) (by decide) digits rest).trans (by rw [run, hall])
    obtain ⟨d, ds, rfl⟩ := exists_cons_of_ne_nil hne
    simp only [codeEscapeLength?, hrun, length_cons]
    simp

theorem settled_codeEscape : Settled codeEscapeLength? := by
  intro w n h
  obtain ⟨digits, rest, hne, hdigits, rfl, rfl⟩ := codeEscapeLength?_eq_some.1 h
  refine ⟨by simp, fun v => ?_⟩
  refine codeEscapeLength?_eq_some.2 ⟨digits, v, hne, hdigits, ?_, rfl⟩
  simp [take_append_cons]

theorem settled_byteEscape : Settled byteEscapeLength? := by
  intro w n h
  unfold byteEscapeLength? at h
  split at h
  · split at h
    · rename_i hx
      cases h
      exact ⟨by simp, fun v => by simp [byteEscapeLength?, hx]⟩
    · cases h
  · cases h

theorem settled_plainEscape : Settled plainEscapeLength? := by
  intro w n h
  unfold plainEscapeLength? at h
  split at h
  · split at h
    · cases h
    · rename_i hc
      cases h
      exact ⟨by simp, fun v => by simp [plainEscapeLength?, hc]⟩
  · cases h

theorem settled_plainChar : Settled plainCharLength? := by
  intro w n h
  unfold plainCharLength? at h
  split at h
  · split at h
    · cases h
    · rename_i hc
      cases h
      exact ⟨by simp, fun v => by simp [plainCharLength?, hc]⟩
  · cases h

variable {form : List Char → Option Nat}

theorem Settled.closed (h : Settled form) : Settled (closedLength? form) := by
  intro w n hn
  obtain ⟨m, hm, hq⟩ := Option.bind_eq_some_iff.1 hn
  split at hq
  · next rest hrest =>
    cases hq
    obtain ⟨hle, hv⟩ := h _ _ hm
    have hw : w = w.take m ++ '\'' :: rest := by rw [← hrest, take_append_drop]
    have hlen : (w.take m).length = m := length_take_of_le hle
    generalize w.take m = chars at hw hlen hv
    subst hw hlen
    refine ⟨by simp, fun v => ?_⟩
    simp [closedLength?, take_append_cons, hv]
  · cases hq

theorem closedLength?_eq_some {m : Nat} : closedLength? form cs = some m ↔
      ∃ n rest, form cs = some n ∧ cs.drop n = '\'' :: rest ∧ m = n + 1 := by
  unfold closedLength?
  rw [Option.bind_eq_some_iff]
  constructor
  · rintro ⟨n, hn, h⟩
    split at h
    · next rest hrest =>
      cases h
      exact ⟨n, rest, hn, hrest, rfl⟩
    · cases h
  · rintro ⟨n, rest, hn, hrest, rfl⟩
    exact ⟨n, hn, by simp [hrest]⟩

theorem closedLength?_eq_none (h : form cs = none) : closedLength? form cs = none := by
  rw [closedLength?, h, Option.bind_none]

theorem Settled.or {g : List Char → Option Nat} (hf : Settled f) (hg : Settled g)
    (h : ∀ w n, g w = some n → ∀ v, f (w.take n ++ v) = none) :
    Settled fun w => (f w).or (g w) := by
  intro w n hn
  rcases Option.or_eq_some_iff.1 hn with hn | ⟨-, hn⟩
  · obtain ⟨hle, hv⟩ := hf _ _ hn
    exact ⟨hle, fun v => Option.or_eq_some_iff.2 (.inl (hv v))⟩
  · obtain ⟨hle, hv⟩ := hg _ _ hn
    exact ⟨hle, fun v => Option.or_eq_some_iff.2 (.inr ⟨h _ _ hn v, hv v⟩)⟩

theorem closed_plainChar (h : closedLength? plainCharLength? w = some n) (v : List Char) : ∃ c tail,
    c ≠ '\\' ∧ w.take n ++ v = c :: tail := by
  obtain ⟨n, rest, hn, -, rfl⟩ := closedLength?_eq_some.1 h
  unfold plainCharLength? at hn
  split at hn
  · split at hn <;> cases hn
    simp_all
  · cases hn

theorem closed_plainEscape (h : closedLength? plainEscapeLength? w = some n) (v : List Char) : ∃ c,
    w.take n ++ v = '\\' :: c :: '\'' :: v := by
  obtain ⟨n, rest, hn, hrest, rfl⟩ := closedLength?_eq_some.1 h
  unfold plainEscapeLength? at hn
  split at hn
  · split at hn <;> cases hn
    simp_all
  · cases hn

theorem closed_byteEscape (h : closedLength? byteEscapeLength? w = some n) (v : List Char) : ∃ tail,
    w.take n ++ v = '\\' :: 'x' :: tail := by
  obtain ⟨n, rest, hn, -, rfl⟩ := closedLength?_eq_some.1 h
  unfold byteEscapeLength? at hn
  split at hn
  · split at hn <;> cases hn
    simp
  · cases hn

theorem settled_plain :
    Settled fun w =>
      (closedLength? plainEscapeLength? w).or (closedLength? plainCharLength? w) := by
  refine settled_plainEscape.closed.or settled_plainChar.closed fun _ _ h v => ?_
  obtain ⟨c, tail, hc, hw⟩ := closed_plainChar h v
  rw [hw]
  exact closedLength?_eq_none (by simp [plainEscapeLength?, hc])

theorem settled_byte : Settled fun w => (closedLength? byteEscapeLength? w).or <|
    (closedLength? plainEscapeLength? w).or (closedLength? plainCharLength? w) := by
  refine settled_byteEscape.closed.or settled_plain fun _ _ h v => closedLength?_eq_none ?_
  rcases Option.or_eq_some_iff.1 h with h | ⟨-, h⟩
  · obtain ⟨c, hw⟩ := closed_plainEscape h v
    rw [hw]
    unfold byteEscapeLength?
    split
    · next heq =>
      cases heq
      rfl
    · rfl
  · obtain ⟨c, tail, hc, hw⟩ := closed_plainChar h v
    rw [hw]
    simp [byteEscapeLength?, hc]

theorem settled_code : Settled fun w => (closedLength? codeEscapeLength? w).or <|
    (closedLength? byteEscapeLength? w).or <|
    (closedLength? plainEscapeLength? w).or (closedLength? plainCharLength? w) := by
  refine settled_codeEscape.closed.or settled_byte fun _ _ h v => closedLength?_eq_none ?_
  rcases Option.or_eq_some_iff.1 h with h | ⟨-, h⟩
  · obtain ⟨tail, hw⟩ := closed_byteEscape h v
    rw [hw]
    simp [codeEscapeLength?]
  rcases Option.or_eq_some_iff.1 h with h | ⟨-, h⟩
  · obtain ⟨c, hw⟩ := closed_plainEscape h v
    rw [hw]
    simp [codeEscapeLength?]
  · obtain ⟨c, tail, hc, hw⟩ := closed_plainChar h v
    rw [hw]
    simp [codeEscapeLength?, hc]

theorem settled_char : Settled charLength? := by
  intro w n h
  cases w with
  | nil => cases h
  | cons c cs =>
    by_cases hc : c = '\''
    · subst hc
      rw [charLength?] at h
      obtain ⟨m, hm, rfl⟩ := Option.map_eq_some_iff.1 h
      obtain ⟨hle, hv⟩ := settled_code _ _ hm
      refine ⟨by simpa using hle, fun v => ?_⟩
      rw [take_succ_cons, cons_append, charLength?, Option.map_eq_some_iff]
      exact ⟨m, hv v, rfl⟩
    · simp [charLength?, hc] at h

/-! ### Comments up to the end of the line -/

theorem stable_lineLength {mark : List Char} (hmark : '\x7d' ∉ mark) :
    Stable (lineLength? mark) where
  keeps {u q n} _ hn hle := by
    unfold lineLength? at hn ⊢
    rw [isPrefixOf_ends hmark] at hn ⊢
    split at hn
    · next hp =>
      cases hn
      have hlen := IsPrefix.length_le <| isPrefixOf_iff_prefix.1 hp
      rw [drop_append_of_le_length hlen] at hle
      have hrun := run_inside (u := u.drop mark.length) (q := q) (p := (· ≠ '\n')) (by decide)
        (by rw [length_drop]; omega)
      rw [if_pos hp, drop_append_of_le_length hlen, drop_append_of_le_length hlen, hrun]
    · cases hn
  fails {u q} _ hn := by
    unfold lineLength? at hn ⊢
    rw [isPrefixOf_ends hmark] at hn ⊢
    split at hn
    · cases hn
    · next hp => rw [if_neg hp]

/-! ## Words -/

/-- The same of the class of a word and its length. -/
structure StableClass (f : List Char → Option (Found × Nat)) : Prop where
  keeps : ∀ {u q k n}, u ≠ [] → f (u ++ '\x7d' :: q) = some (k, n) → n ≤ u.length →
    f (u ++ ['\x7d']) = some (k, n)
  fails : ∀ {u q}, u ≠ [] → f (u ++ '\x7d' :: q) = none → f (u ++ ['\x7d']) = none

theorem Stable.map (h : Stable f) (k : Found) : StableClass fun cs => (f cs).map (k, ·) where
  keeps hu hn hle := by
    obtain ⟨m, hm, he⟩ := Option.map_eq_some_iff.1 hn
    cases he
    exact Option.map_eq_some_iff.2 ⟨_, h.keeps hu hm hle, rfl⟩
  fails hu hn := by
    rw [Option.map_eq_none_iff] at hn ⊢
    exact h.fails hu hn

theorem stable_name :
    StableClass fun cs => (nameLength? cs).map fun n => (.word (nameKind (cs.take n)), n) where
  keeps {u q k n} _ hn hle := by
    obtain ⟨m, hm, he⟩ := Option.map_eq_some_iff.1 hn
    cases he
    rw [nameLength?_ends endsWords_brace] at hm ⊢
    rw [hm, Option.map_some, take_append_of_le_length hle, take_append_of_le_length hle]
  fails _ hn := by
    rw [Option.map_eq_none_iff, nameLength?_ends endsWords_brace] at hn ⊢
    exact hn

theorem punctuation?_brace (hu : u ≠ []) (q : List Char) : punctuation? (u ++ '\x7d' :: q)
    = punctuation? u := by
  have hmarks : ∀ m ∈ Terminal.punctuation, '\x7d' ∉ m.1.toList ∨ m.1.toList = ['\x7d'] := by
    decide
  unfold punctuation?
  refine congrArg _ (find?_congr fun m hm => ?_)
  rcases hmarks m hm with h | h
  · exact isPrefixOf_ends h u q
  · obtain ⟨c, u, rfl⟩ := exists_cons_of_ne_nil hu
    rw [h]
    simp [isPrefixOf]

theorem stable_classes : ∀ f ∈ classes, StableClass f := by
  simp only [classes, forall_mem_cons]
  refine ⟨(stable_lineLength (by decide)).map _,
    (Stable.of_stops (floatLength?_ends endsWords_brace)).map _,
    (Stable.of_stops (intLength?_ends endsWords_brace)).map _, settled_char.stable.map _,
    (Stable.of_stops (lifetimeLength?_ends endsWords_brace)).map _, stable_name,
    settled_string.stable.map _, settled_blockComment.stable.map _,
    (Stable.of_stops gapLength?_brace).map _, (stable_lineLength (by decide)).map _, ?_, by simp⟩
  exact ⟨fun hu hn _ => by rwa [punctuation?_brace hu] at hn ⊢,
    fun hu hn => by rwa [punctuation?_brace hu] at hn ⊢⟩

theorem findSome?_stable {fs : List (List Char → Option (Found × Nat))}
    (hfs : ∀ f ∈ fs, StableClass f) {k : Found} (hu : u ≠ [])
    (h : fs.findSome? (· (u ++ '\x7d' :: q)) = some (k, n)) (hn : n ≤ u.length) :
    fs.findSome? (· (u ++ ['\x7d'])) = some (k, n) := by
  induction fs with
  | nil => cases h
  | cons f fs ih =>
    rw [forall_mem_cons] at hfs
    rw [findSome?_cons] at h ⊢
    split at h
    · next b hb =>
      cases h
      rw [hfs.1.keeps hu hb hn]
    · next hb =>
      rw [hfs.1.fails hu hb]
      exact ih hfs.2 h

/-- **A word that ends before a closing brace is read the same when the text is cut behind the
brace.** -/
theorem next?_cut {k : Found} (hu : u ≠ []) (h : next? (u ++ '\x7d' :: q) = some (k, n))
    (hn : n ≤ u.length) : next? (u ++ ['\x7d']) = some (k, n) :=
  findSome?_stable stable_classes hu h hn

/-! ## First characters -/

theorem next?_gap {c : Char} (hc : isGap c) (cs : List Char) :
    next? (c :: cs) = some (.gap, run isGap cs + 1) := by
  have hcases : c = ' ' ∨ c = '\t' ∨ c = '\x0c' ∨ c = '\r' ∨ c = '\n' := by
    simpa [isGap, or_assoc] using hc
  have hgap : gapLength? (c :: cs) = some (run isGap cs + 1) := by
    unfold gapLength?
    rw [run_cons, if_pos hc]
  unfold next? classes
  simp only [findSome?_cons, hgap]
  rcases hcases with rfl | rfl | rfl | rfl | rfl <;> rfl

theorem next?_brace (cs : List Char) : next? ('\x7d' :: cs) = some (.word .rbrace, 1) := by
  have hmark : punctuation? ('\x7d' :: cs) = some (.word .rbrace, 1) := by
    have hlength : "\x7d".length = 1 := by decide
    simp [punctuation?, Terminal.punctuation, find?, isPrefixOf, hlength]
  have hgap : gapLength? ('\x7d' :: cs) = none := by
    unfold gapLength?
    rw [run_cons]
    rfl
  unfold next? classes
  simp only [findSome?_cons, hmark, hgap]
  rfl

/-- **What a word is**: punctuation, a keyword, or a word of its class. -/
theorem class_of_next? {k : Terminal} (h : next? cs = some (.word k, n)) :
    (∃ m ∈ Terminal.punctuation, m.2 = k ∧ m.1.toList <+: cs) ∨ k ∈ Terminal.keywords.map Prod.snd ∨
      k = .docComment ∨ k = .float ∨ k = .int ∨ k = .char ∧ charLength? cs = some n ∨
      k = .lifetime ∨ k = .name ∧ nameLength? cs = some n ∨ k = .string := by
  obtain ⟨f, hf, hn⟩ := exists_of_findSome?_eq_some h
  simp only [classes, mem_cons, not_mem_nil, or_false] at hf
  rcases hf with rfl | rfl | rfl | rfl | rfl | rfl | rfl | rfl | rfl | rfl | rfl
  case inr.inr.inr.inr.inr.inl =>
    obtain ⟨m, hm, he⟩ := Option.map_eq_some_iff.1 hn
    simp only [Prod.mk.injEq, Found.word.injEq] at he
    obtain ⟨rfl, rfl⟩ := he
    unfold nameKind
    split
    · next hfound => exact .inr (.inl (mem_map_of_mem (mem_of_find?_eq_some hfound)))
    · simp [hm]
  case inr.inr.inr.inr.inr.inr.inr.inr.inr.inr =>
    obtain ⟨m, hm, he⟩ := Option.map_eq_some_iff.1 hn
    simp only [Prod.mk.injEq, Found.word.injEq] at he
    have hprefix := find?_some hm
    exact .inl ⟨m, mem_of_find?_eq_some hm, he.1, isPrefixOf_iff_prefix.1 hprefix⟩
  all_goals
    obtain ⟨m, hm, he⟩ := Option.map_eq_some_iff.1 hn
    cases he <;> simp [hm]

theorem eq_brace_of_next? (h : next? cs = some (.word .rbrace, n)) :
    ∃ rest, cs = '\x7d' :: rest := by
  have hmarks : ∀ m ∈ Terminal.punctuation, m.2 = .rbrace → m.1.toList = ['\x7d'] := by decide
  rcases class_of_next? h with ⟨m, hm, hk, rest, hrest⟩ | hk | h
  · exact ⟨rest, by rw [← hrest, hmarks m hm hk]; rfl⟩
  · exact absurd hk (by decide)
  · simp at h

/-! ## Texts -/

theorem lexFrom_skip (pos : Pos) (offset skip : Nat) (cs : List Char) :
    lexFrom pos offset skip cs =
      lexFrom (pos.advance (cs.take skip)) (offset + (cs.take skip).length) 0 (cs.drop skip) := by
  induction cs generalizing pos offset skip with
  | nil => cases skip <;> rfl
  | cons c cs ih =>
    cases skip with
    | zero => rfl
    | succ skip =>
      rw [lexFrom, ih]
      simp [Nat.add_assoc, Nat.add_comm 1]

theorem le_offset {pos : Pos} {offset skip : Nat} : ∀ t ∈ (lexFrom pos offset skip cs).tokens,
    offset + skip ≤ t.offset := by
  fun_induction lexFrom pos offset skip cs with
  | case1 => nofun
  | case2 pos offset skip c cs ih =>
    intro t ht
    have := ih t ht
    omega
  | case3 pos offset c cs h => nofun
  | case4 pos offset c cs n rest h ih =>
    intro t ht
    have := ih t ht
    omega
  | case5 pos offset c cs n rest kind lexeme token h ih =>
    intro t ht
    rcases mem_cons.1 ht with rfl | ht
    · exact Nat.le_refl _
    · have := ih t ht
      omega

/-- The token `t`, with the tokens `ts` after it, is read somewhere in `cs`, which begins at
`pos`. -/
def ReadIn (pos : Pos) (offset : Nat) (cs : List Char) (t : Token) (ts : List Token) : Prop :=
  ∃ before rest n, cs = before ++ rest ∧ t.offset = offset + before.length ∧
    t.region.start = pos.advance before ∧ next? rest = some (.word t.kind, n) ∧
    (lexFrom (pos.advance before) (offset + before.length) 0 rest).tokens = t :: ts

theorem ReadIn.cons {pos : Pos} {offset : Nat} {t : Token} {ts : List Token} {c : Char}
    (h : ReadIn (pos.after c) (offset + 1) cs t ts) : ReadIn pos offset (c :: cs) t ts := by
  obtain ⟨before, rest, n, rfl, hoffset, hstart, hnext, htokens⟩ := h
  refine ⟨c :: before, rest, n, rfl, ?_, hstart, hnext, ?_⟩
  · rw [hoffset, length_cons]
    omega
  · rwa [Pos.advance_cons, length_cons, Nat.add_comm before.length, ← Nat.add_assoc]

theorem readIn_of_tokens {pos : Pos} {offset skip : Nat} {ts ts' : List Token} {t : Token}
    (h : (lexFrom pos offset skip cs).tokens = ts ++ t :: ts') : ReadIn pos offset cs t ts' := by
  fun_induction lexFrom pos offset skip cs generalizing ts with
  | case1 => simp at h
  | case2 pos offset skip c cs ih => exact (ih h).cons
  | case3 pos offset c cs hnext => simp at h
  | case4 pos offset c cs n rest hnext =>
    rename_i ih
    exact (ih h).cons
  | case5 pos offset c cs n rest kind lexeme token hnext =>
    rename_i ih
    cases ts with
    | cons _ ts => exact (ih (List.cons.inj h).2).cons
    | nil =>
      obtain ⟨rfl, rfl⟩ := List.cons.inj h
      refine ⟨[], c :: cs, n, rfl, rfl, rfl, hnext, ?_⟩
      rw [Pos.advance_nil, lexFrom, hnext]
      rfl

/-- **The text cut behind a closing brace has the same tokens** as the whole text has up to the
brace. -/
theorem lexFrom_cut {skip : Nat} {pos : Pos} {offset offset' : Nat} {ts ts' : List Token}
    {t : Token} (hskip : skip ≤ u.length)
    (h : (lexFrom pos offset skip (u ++ '\x7d' :: q)).tokens = ts ++ t :: ts')
    (ht : t.offset = offset + u.length) :
    (lexFrom pos offset' skip (u ++ ['\x7d'])).failure = none ∧
      (lexFrom pos offset' skip (u ++ ['\x7d'])).tokens.map Token.reading =
        (ts ++ [t]).map Token.reading := by
  induction u generalizing skip pos offset offset' ts with
  | nil =>
    obtain rfl : skip = 0 := by simpa using hskip
    simp only [nil_append, lexFrom, next?_brace] at h ⊢
    cases ts with
    | nil =>
      obtain ⟨rfl, -⟩ := List.cons.inj h
      simp [Token.reading]
    | cons _ ts =>
      have hmem : t ∈ (lexFrom (pos.after '\x7d') (offset + 1) 0 q).tokens := by
        rw [(List.cons.inj h).2]
        simp
      have := le_offset t hmem
      simp at ht
      omega
  | cons c u ih =>
    rw [length_cons] at ht hskip
    cases skip with
    | succ skip =>
      rw [cons_append, lexFrom] at h ⊢
      exact ih (by omega) h (by omega)
    | zero =>
      rw [cons_append, lexFrom] at h ⊢
      cases hnext : next? (c :: (u ++ '\x7d' :: q)) with
      | none => simp [hnext] at h
      | some found =>
        obtain ⟨found, n⟩ := found
        -- What is found ends before the brace, since `t` is found after it.
        have hlast : ∀ {ts : List Token},
            (lexFrom (pos.after c) (offset + 1) (n - 1) (u ++ '\x7d' :: q)).tokens =
              ts ++ t :: ts' →
            n ≤ (c :: u).length := by
          intro ts h
          have := le_offset t (h ▸ mem_append_right ts mem_cons_self)
          rw [length_cons]
          omega
        have hcut : n ≤ (c :: u).length → next? (c :: (u ++ ['\x7d'])) = some (found, n) :=
          next?_cut (cons_ne_nil c u) hnext
        cases found with
        | gap =>
          simp only [hnext] at h
          simp only [hcut (hlast h)]
          exact ih (by have := hlast h; simp at this; omega) h (by omega)
        | word kind =>
          simp only [hnext] at h
          cases ts with
          | nil =>
            obtain ⟨rfl, -⟩ := List.cons.inj h
            simp at ht
          | cons first ts =>
            obtain ⟨rfl, hmore⟩ := List.cons.inj h
            have hn := hlast hmore
            have hlexeme : (c :: (u ++ ['\x7d'])).take n = (c :: (u ++ '\x7d' :: q)).take n := by
              rw [← cons_append, ← cons_append, take_append_of_le_length hn,
                take_append_of_le_length hn]
            rw [length_cons] at hn
            obtain ⟨hfailure, htokens⟩ :=
              @ih (n - 1) _ _ (offset' + 1) _ (by omega) hmore (by omega)
            simp only [hcut hn, hfailure, cons_append, map_cons, htokens, hlexeme,
              Token.reading, true_and]

end Lexer

end Yielding
