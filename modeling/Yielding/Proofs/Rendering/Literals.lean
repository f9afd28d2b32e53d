import Mathlib.Algebra.Group.Nat.Defs
import Yielding.Item.Value
import Yielding.Proofs.Lexing.Words
import Yielding.Proofs.Rendering.Documentation

/-!
# Proofs/Rendering/Literals — quoted words keep their meaning

A quoted word of a source text **means** a row of characters, by the escapes between its quotes.
The generated module has escapes of its own, and a literal of it is read up to the quote that closes
it (`readString`).  A word that means anything is written as a literal that denotes what the word
means, on one line; a word that means nothing is refused (`literal_keeps_meaning`).
-/

namespace Yielding.Script

open List Text Lexer

variable (cs : List Char) {c : Char} {n : ℕ}

/-! ## What a quoted word means -/

/-- The escapes of one character behind the backslash. -/
def simpleEscapes : List (Char × Char) :=
  [('n', '\n'), ('r', '\r'), ('t', '\t'), ('\\', '\\'), ('0', '\x00'), ('\'', '\''), ('"', '"')]

/-- A braced code: a digit, then at most seven more digits or underscores. -/
inductive IsCode : List Char → Prop
  | mk {c : Char} {cs : List Char} : isHexDigit c → (∀ d ∈ cs, isCodePart d) → cs.length ≤ 7 →
    IsCode (c :: cs)

/-- The escape at the beginning of a text, behind its backslash: what it means, and the rest of the
text. -/
inductive Escape : (text meant rest : List Char) → Prop
  | simple {c d : Char} {rest : List Char} : (c, d) ∈ simpleEscapes → Escape (c :: rest) [d] rest
  | byte {a b : Char} {rest : List Char} : isHexDigit a → isHexDigit b → hexNumber [a, b] ≤ 0x7f →
    Escape ('x' :: a :: b :: rest) [Char.ofNat (hexNumber [a, b])] rest
  | code {digits rest : List Char} : IsCode digits → (hexNumber digits).isValidChar →
    Escape ('u' :: '\x7b' :: (digits ++ '\x7d' :: rest)) [Char.ofNat (hexNumber digits)] rest
  /-- A line break disappears together with all blanks behind it. -/
  | joined {blanks rest : List Char} : (∀ c ∈ blanks, isBlank c) → (∀ c ∈ rest.head?, ¬isBlank c) →
    Escape ('\n' :: (blanks ++ rest)) [] rest
  /-- No quoted word ends in a single backslash. -/
  | lone : Escape [] ['\\'] []

/-- What stands between the quotes of a word, and the characters that it means. -/
inductive Means : List Char → List Char → Prop
  | nil : Means [] []
  | plain {c : Char} {cs ds : List Char} : c ≠ '\\' → Means cs ds → Means (c :: cs) (c :: ds)
  | escaped {cs meant rest ds : List Char} : Escape cs meant rest → Means rest ds →
    Means ('\\' :: cs) (meant ++ ds)

theorem simpleEscape?_eq_some {c d : Char} : simpleEscape? c = some d ↔ (c, d) ∈ simpleEscapes := by
  constructor
  · intro h
    unfold simpleEscape? at h
    split at h <;> cases h <;> decide
  · intro h
    simp only [simpleEscapes, mem_cons, Prod.mk.injEq, not_mem_nil, or_false] at h
    rcases h with ⟨rfl, rfl⟩ | ⟨rfl, rfl⟩ | ⟨rfl, rfl⟩ | ⟨rfl, rfl⟩ | ⟨rfl, rfl⟩ | ⟨rfl, rfl⟩ |
      ⟨rfl, rfl⟩ <;> rfl

theorem exists_hexValue : (∃ x, hexValue? c = some x) ↔ isHexDigit c = true := by
  rw [← isSome_hexValue, Option.isSome_iff_exists]

theorem hexNumber_pair {a b : Char} {x y : ℕ} (ha : hexValue? a = some x)
    (hb : hexValue? b = some y) : hexNumber [a, b] = x * 16 + y := by
  simp [hexNumber, ha, hb]

theorem codeDigits?_eq_some {cs digits : List Char} :
    codeDigits? cs = some digits ↔ IsCode digits ∧ ∃ rest, cs = digits ++ '\x7d' :: rest := by
  have hpart : (fun c => isHexDigit c || c == '_') = isCodePart := rfl
  constructor
  · intro h
    cases cs with
    | nil => cases h
    | cons c cs =>
      obtain ⟨rest, hrest⟩ := takeWhile_prefix isCodePart (l := cs)
      simp only [codeDigits?, isSome_hexValue, hpart] at h
      split at h
      · next hc =>
        split at h
        · next more hmore =>
          split at h
          · next hlength =>
            cases h
            nth_rewrite 2 [← hrest] at hmore
            rw [drop_left] at hmore
            refine ⟨.mk hc (fun d hd => mem_takeWhile_imp hd) hlength, more, ?_⟩
            rw [cons_append, ← hmore, hrest]
          · cases h
        · cases h
      · cases h
  · rintro ⟨⟨hc, hcs, hlength⟩, rest, rfl⟩
    rename_i c cs
    have htake : (cs ++ '\x7d' :: rest).takeWhile isCodePart = cs := by
      rw [takeWhile_append_of_pos hcs]
      simp [isCodePart, isHexDigit]
    simp only [cons_append, codeDigits?, isSome_hexValue, hpart, hc, htake, drop_left,
      if_true, hlength]

/-- The blanks at the beginning of a text, and what stands behind them. -/
theorem exists_blanks : ∃ blanks rest, cs = blanks ++ rest ∧
    cs.drop (cs.takeWhile isBlank).length = rest ∧ (∀ c ∈ blanks, isBlank c) ∧
    ∀ c ∈ rest.head?, ¬isBlank c := by
  have hcs := takeWhile_append_dropWhile (p := isBlank) (l := cs)
  refine ⟨_, _, hcs.symm, ?_, fun c hc => mem_takeWhile_imp hc, fun c hc => ?_⟩
  · nth_rewrite 2 [← hcs]
    exact drop_left
  · have hhead := head?_dropWhile_not isBlank cs
    rw [Option.mem_def.1 hc] at hhead
    simpa using hhead

theorem escape_of_plain {cs meant : List Char} (h : plainEscape cs = .ok (meant, n)) :
    Escape cs meant (cs.drop n) := by
  unfold plainEscape at h
  split at h
  · next rest =>
    cases h
    obtain ⟨blanks, rest, rfl, hdrop, hblanks, hhead⟩ := exists_blanks rest
    rw [Nat.add_comm, drop_succ_cons, hdrop]
    exact .joined hblanks hhead
  · next c cs _ =>
    split at h
    · next d hd =>
      cases h
      exact .simple (simpleEscape?_eq_some.1 hd)
    · cases h
  · cases h
    exact .lone

/-- **An escape that is read means what it should.** -/
theorem escape_of_eq_ok {cs meant : List Char} (h : escape cs = .ok (meant, n)) :
    Escape cs meant (cs.drop n) := by
  unfold escape at h
  dsimp only at h
  split at h
  · next rest =>
    split at h
    · next digits hdigits =>
      obtain ⟨hcode, rest, rfl⟩ := codeDigits?_eq_some.1 hdigits
      split at h
      · next hvalid =>
        cases h
        have hdrop : ('u' :: '\x7b' :: (digits ++ '\x7d' :: rest)).drop (digits.length + 3) =
            rest := by
          simp [drop_append]
        rw [hdrop]
        exact .code hcode hvalid
      · cases h
    · exact escape_of_plain h
  · next a b rest =>
    split at h
    · next x y ha hb =>
      split at h
      · next hle =>
        cases h
        rw [← hexNumber_pair ha hb] at hle ⊢
        exact .byte (exists_hexValue.1 ⟨x, ha⟩) (exists_hexValue.1 ⟨y, hb⟩) hle
      · cases h
    · exact escape_of_plain h
  · exact escape_of_plain h

/-- **An escape that means something is read.** -/
theorem Escape.eq_ok {cs meant rest : List Char} (h : Escape cs meant rest) :
    ∃ n, escape cs = .ok (meant, n) ∧ cs.drop n = rest := by
  cases h with
  | simple hmem => exact ⟨1, escape_simple (simpleEscape?_eq_some.2 hmem) _, rfl⟩
  | @byte a b _ ha hb hle =>
    obtain ⟨x, hx⟩ := exists_hexValue.2 ha
    obtain ⟨y, hy⟩ := exists_hexValue.2 hb
    rw [hexNumber_pair hx hy] at hle ⊢
    exact ⟨3, by simp [escape, hx, hy, hle], rfl⟩
  | @code digits _ hcode hvalid =>
    have hdigits := codeDigits?_eq_some.2 ⟨hcode, rest, rfl⟩
    exact ⟨digits.length + 3, by simp [escape, hdigits, hvalid], by simp [drop_append]⟩
  | @joined blanks rest hblanks hhead =>
    have htake : (blanks ++ rest).takeWhile isBlank = blanks := by
      rw [takeWhile_append_of_pos hblanks]
      cases rest with
      | nil => simp
      | cons c rest => simp [hhead c rfl]
    exact ⟨1 + blanks.length, by simp [escape, plainEscape, htake], by simp [Nat.add_comm]⟩
  | lone => exact ⟨0, rfl, rfl⟩

theorem unescapeFrom_eq (n : ℕ) (cs : List Char) : unescapeFrom n cs = unescape (cs.drop n) := by
  induction cs generalizing n with
  | nil => simp [unescape, unescapeFrom]
  | cons c cs ih =>
    cases n with
    | zero => rfl
    | succ n => rw [unescapeFrom, ih, drop_succ_cons]

theorem unescape_plain (hc : c ≠ '\\') (cs : List Char) :
    unescape (c :: cs) = (c :: ·) <$> unescape cs := by
  simp only [unescape, unescapeFrom, hc, if_false, map_eq_pure_bind]

theorem unescape_slash :
    unescape ('\\' :: cs) = escape cs >>= fun found =>
      (found.1 ++ ·) <$> unescape (cs.drop found.2) := by
  simp only [unescape, unescapeFrom, if_true, map_eq_pure_bind]
  exact bind_congr fun found => by rw [unescapeFrom_eq]; rfl

theorem means_of_unescape (cs : List Char) {ds : List Char} (h : unescape cs = .ok ds) :
    Means cs ds := by
  match cs with
  | [] =>
    cases h
    exact .nil
  | c :: cs =>
    by_cases hc : c = '\\'
    · subst hc
      rw [unescape_slash] at h
      cases hescape : escape cs with
      | error e => simp [hescape, bind, Except.bind] at h
      | ok found =>
        obtain ⟨meant, n⟩ := found
        rw [hescape] at h
        cases hrest : unescape (cs.drop n) with
        | error e => simp [hrest, bind, Except.bind, Functor.map, Except.map] at h
        | ok rest =>
          simp only [bind, Except.bind, hrest, Functor.map, Except.map, Except.ok.injEq] at h
          exact h ▸ .escaped (escape_of_eq_ok hescape) (means_of_unescape _ hrest)
    · rw [unescape_plain hc] at h
      cases hrest : unescape cs with
      | error e => simp [hrest, Functor.map, Except.map] at h
      | ok rest =>
        simp only [hrest, Functor.map, Except.map, Except.ok.injEq] at h
        exact h ▸ .plain hc (means_of_unescape _ hrest)
termination_by cs.length
decreasing_by
  · simp only [length_drop, length_cons]
    omega
  · simp

/-- **A quoted word is read as what it means**, and one that means nothing is not read. -/
theorem unescape_eq_ok_iff {cs ds : List Char} : unescape cs = .ok ds ↔ Means cs ds := by
  refine ⟨means_of_unescape cs, fun h => ?_⟩
  induction h with
  | nil => rfl
  | plain hc _ ih => rw [unescape_plain hc, ih]; rfl
  | escaped hescape _ ih =>
    obtain ⟨n, hok, hdrop⟩ := hescape.eq_ok
    rw [unescape_slash, hok]
    simp only [bind, Except.bind, hdrop, ih, Functor.map, Except.map]

/-! ## Literals of generated code -/

/-- The characters that end a line. -/
def lineBreaks : List Char :=
  ['\n', '\r', '\x0b', '\x0c', '\x1c', '\x1d', '\x1e', '\x85', '\u2028', '\u2029']

/-- The escapes of generated code that are one character behind the backslash. -/
def controlEscapes : List (Char × Char) :=
  [('\\', '\\'), ('\'', '\''), ('"', '"'), ('a', '\x07'), ('b', '\x08'), ('f', '\x0c'), ('n', '\n'),
   ('r', '\r'), ('t', '\t'), ('v', '\x0b')]

/-- An escape by a code point of so many digits, behind its letter. -/
def readCode (width : ℕ) (cs : List Char) : Option (List Char × ℕ) :=
  let digits := cs.take width
  let value := hexNumber digits
  if digits.length = width ∧ digits.all isHexDigit ∧ value.isValidChar then
    some ([Char.ofNat value], width + 1)
  else none

/-- What an escape denotes, and how many characters behind the backslash belong to it.  A backslash
before any other character stands for itself; characters by name are not read. -/
def readEscape : List Char → Option (List Char × ℕ)
  | [] => none
  | '\n' :: _ => some ([], 1)
  | 'x' :: cs => readCode 2 cs
  | 'u' :: cs => readCode 4 cs
  | 'U' :: cs => readCode 8 cs
  | 'N' :: _ => none
  | c :: cs =>
    match controlEscapes.lookup c with
    | some d => some ([d], 1)
    | none =>
      let isOctal (c : Char) : Bool := '0' ≤ c && c ≤ '7'
      let digits := ((c :: cs).take 3).takeWhile isOctal
      if digits.isEmpty then some (['\\', c], 1)
      else some ([Char.ofNat (digits.foldl (fun n d => n * 8 + (d.toNat - '0'.toNat)) 0)],
        digits.length)

/-- Reads a literal up to the quote that closes it: gives what it denotes and what stands behind it.
Its first `skip` characters belong to an escape already read. -/
def readShort (quote : Char) : (skip : ℕ) → List Char → Option (List Char × List Char)
  | _, [] => none
  | skip + 1, _ :: cs => readShort quote skip cs
  | 0, c :: cs =>
    if c = quote then some ([], cs)
    else if c = '\n' ∨ c = '\r' then none
    else if c = '\\' then do
      let (meant, n) ← readEscape cs
      denoting meant (readShort quote n cs)
    else denoting [c] (readShort quote 0 cs)

/-- Reads a literal at the beginning of a text.  Three quotes begin no literal of one line. -/
def readString : List Char → Option (List Char × List Char)
  | [] => none
  | quote :: cs =>
    if (quote = '\'' ∨ quote = '"') ∧ cs.take 2 ≠ [quote, quote] then readShort quote 0 cs else none

theorem readShort_eq (quote : Char) (n : ℕ) (cs : List Char) :
    readShort quote n cs = readShort quote 0 (cs.drop n) := by
  induction cs generalizing n with
  | nil => simp [readShort]
  | cons c cs ih =>
    cases n with
    | zero => rfl
    | succ n => rw [readShort, ih, drop_succ_cons]

/-! ### Digits -/

theorem hexValue_hexDigit : ∀ n < 16, hexValue? (hexDigit n) = some n := by decide

theorem isPrintable_hexDigit : ∀ n < 16, isPrintable (hexDigit n) = true := by decide

theorem length_hexDigits (width n : ℕ) : (hexDigits width n).length = width := by
  induction width generalizing n with
  | zero => rfl
  | succ width ih => simp [hexDigits, ih]

theorem mem_hexDigits {width n : ℕ} (h : c ∈ hexDigits width n) : ∃ k < 16, c = hexDigit k := by
  induction width generalizing n with
  | zero => cases h
  | succ width ih =>
    rw [hexDigits, mem_append, mem_singleton] at h
    obtain h | rfl := h
    · exact ih h
    · exact ⟨n % 16, Nat.mod_lt _ (by decide), rfl⟩

theorem hexNumber_concat (h : hexValue? c = some n) (cs : List Char) :
    hexNumber (cs ++ [c]) = hexNumber cs * 16 + n := by
  simp [hexNumber, h]

theorem hexNumber_hexDigits (width n : ℕ) : hexNumber (hexDigits width n) = n % 16 ^ width := by
  induction width generalizing n with
  | zero => simp [hexDigits, hexNumber, Nat.mod_one]
  | succ width ih =>
    rw [hexDigits, hexNumber_concat (hexValue_hexDigit _ (Nat.mod_lt _ (by decide))), ih,
      Nat.pow_succ', Nat.mod_mul]
    omega

theorem readCode_hexDigits {width : ℕ} (h : c.toNat < 16 ^ width) (rest : List Char) :
    readCode width (hexDigits width c.toNat ++ rest) = some ([c], width + 1) := by
  have htake : (hexDigits width c.toNat ++ rest).take width = hexDigits width c.toNat :=
    take_left' (length_hexDigits width _)
  have hdigits : (hexDigits width c.toNat).all isHexDigit = true := by
    refine all_eq_true.2 fun d hd => ?_
    obtain ⟨k, hk, rfl⟩ := mem_hexDigits hd
    exact exists_hexValue.1 ⟨k, hexValue_hexDigit k hk⟩
  have hvalid : c.toNat.isValidChar := c.valid
  rw [readCode]
  simp only [htake, length_hexDigits, hexNumber_hexDigits, Nat.mod_eq_of_lt h, hdigits, hvalid,
    and_self, if_true, Char.ofNat_toNat]

theorem exists_codePoint (n : ℕ) : ∃ letter width, isPrintable letter = true ∧
    codePointEscape n = '\\' :: letter :: hexDigits width n := by
  unfold codePointEscape
  split
  · exact ⟨'x', 2, rfl, rfl⟩
  split
  · exact ⟨'u', 4, rfl, rfl⟩
  · exact ⟨'U', 8, rfl, rfl⟩

theorem readEscape_control {e : Char × Char} (h : e ∈ controlEscapes) (rest : List Char) :
    readEscape (e.1 :: rest) = some ([e.2], 1) := by
  have hall : ∀ e ∈ controlEscapes, readEscape (e.1 :: rest) = some ([e.2], 1) := by
    simp only [controlEscapes, forall_mem_cons]
    exact ⟨rfl, rfl, rfl, rfl, rfl, rfl, rfl, rfl, rfl, rfl, nofun⟩
  exact hall e h

/-! ### Quoted texts -/

section Quoted

variable {quote : Char} (hquote : quote = '\'' ∨ quote = '"')

include hquote

theorem readShort_escape {cs meant : List Char} {n : ℕ} (h : readEscape cs = some (meant, n)) :
    readShort quote 0 ('\\' :: cs) = denoting meant (readShort quote 0 (cs.drop n)) := by
  have hne : ('\\' : Char) ≠ quote := by rcases hquote with rfl | rfl <;> decide
  simp [readShort, hne, h, readShort_eq quote n]

theorem readShort_codePoint (c : Char) (rest : List Char) :
    readShort quote 0 (codePointEscape c.toNat ++ rest) =
      denoting [c] (readShort quote 0 rest) := by
  have key : ∀ (letter : Char) (width : ℕ), (∀ cs, readEscape (letter :: cs) = readCode width cs) →
      c.toNat < 16 ^ width →
        readShort quote 0 ('\\' :: letter :: (hexDigits width c.toNat ++ rest)) =
        denoting [c] (readShort quote 0 rest) := by
    intro letter width hletter hlt
    have hcode := (hletter _).trans (readCode_hexDigits hlt rest)
    rw [readShort_escape hquote hcode, drop_succ_cons, drop_left' (length_hexDigits width _)]
  unfold codePointEscape
  split
  · next hlt => exact key 'x' 2 (fun _ => rfl) hlt
  · split
    · next hlt => exact key 'u' 4 (fun _ => rfl) hlt
    · refine key 'U' 8 (fun _ => rfl) ?_
      have hvalid : c.toNat.isValidChar := c.valid
      omega

/-- How a character is written between quotes: behind a backslash, as it is, or by its code
point. -/
theorem quotedChar_cases (c : Char) :
    (∃ x, (x, c) ∈ controlEscapes ∧ quotedChar quote c = ['\\', x]) ∨
    (isPrintable c = true ∧ c ≠ quote ∧ c ≠ '\\' ∧ quotedChar quote c = [c]) ∨
    quotedChar quote c = codePointEscape c.toNat := by
  unfold quotedChar
  split
  · next hc =>
    simp only [Bool.or_eq_true, decide_eq_true_eq] at hc
    refine .inl ⟨c, ?_, rfl⟩
    obtain rfl | rfl := hc
    · obtain rfl | rfl := hquote <;> decide
    · decide
  · next hc =>
    simp only [Bool.or_eq_true, decide_eq_true_eq, not_or] at hc
    split
    · next hn => exact .inl ⟨'n', by rw [hn]; decide, rfl⟩
    split
    · next hr => exact .inl ⟨'r', by rw [hr]; decide, rfl⟩
    split
    · next ht => exact .inl ⟨'t', by rw [ht]; decide, rfl⟩
    split
    · next hprintable => exact .inr (.inl ⟨hprintable, hc.1, hc.2, rfl⟩)
    · exact .inr (.inr rfl)

/-- A character between quotes denotes itself. -/
theorem readShort_quotedChar (c : Char) (rest : List Char) :
    readShort quote 0 (quotedChar quote c ++ rest) = denoting [c] (readShort quote 0 rest) := by
  obtain ⟨x, hx, heq⟩ | ⟨hprintable, hne, hslash, heq⟩ | heq :=
    quotedChar_cases hquote c <;> rw [heq]
  · exact readShort_escape hquote (readEscape_control hx rest)
  · have hn : c ≠ '\n' := by rintro rfl; cases hprintable
    have hr : c ≠ '\r' := by rintro rfl; cases hprintable
    simp [readShort, hne, hslash, hn, hr]
  · exact readShort_codePoint hquote c rest

theorem readShort_quoted (cs rest : List Char) :
    readShort quote 0 (cs.flatMap (quotedChar quote) ++ quote :: rest) = some (cs, rest) := by
  induction cs with
  | nil => simp [readShort]
  | cons c cs ih =>
    rw [flatMap_cons, append_assoc, readShort_quotedChar hquote, ih]
    rfl

/-- What is written for a character begins with no quote. -/
theorem exists_quotedChar (c : Char) : ∃ d ds, quotedChar quote c = d :: ds ∧ d ≠ quote := by
  have hne : ('\\' : Char) ≠ quote := by rcases hquote with rfl | rfl <;> decide
  obtain ⟨x, -, heq⟩ | ⟨-, hc, -, heq⟩ | heq := quotedChar_cases hquote c <;> rw [heq]
  · exact ⟨_, _, rfl, hne⟩
  · exact ⟨_, _, rfl, hc⟩
  · obtain ⟨letter, width, -, heq⟩ := exists_codePoint c.toNat
    exact ⟨_, _, heq, hne⟩

theorem isPrintable_quotedChar {c d : Char} (hd : d ∈ quotedChar quote c) :
    isPrintable d = true := by
  have hslash : isPrintable '\\' = true := by decide
  obtain ⟨x, hx, heq⟩ | ⟨hprintable, -, -, heq⟩ | heq :=
    quotedChar_cases hquote c <;> rw [heq] at hd
  · have hcontrol : ∀ e ∈ controlEscapes, isPrintable e.1 = true := by decide
    simp only [mem_cons, not_mem_nil, or_false] at hd
    obtain rfl | rfl := hd
    · exact hslash
    · exact hcontrol _ hx
  · obtain rfl := mem_singleton.1 hd
    exact hprintable
  · obtain ⟨letter, width, hletter, heq⟩ := exists_codePoint c.toNat
    rw [heq] at hd
    simp only [mem_cons] at hd
    obtain rfl | rfl | hd := hd
    · exact hslash
    · exact hletter
    · obtain ⟨k, hk, rfl⟩ := mem_hexDigits hd
      exact isPrintable_hexDigit k hk

end Quoted

theorem quoteFor_eq : quoteFor cs = '\'' ∨ quoteFor cs = '"' := by
  unfold quoteFor
  split
  · exact .inr rfl
  · exact .inl rfl

theorem readString_append {rest : List Char} (h : ∀ c ∈ rest.head?, c ≠ quoteFor cs) :
    readString (quotedChars cs ++ rest) = some (cs, rest) := by
  have hquote := quoteFor_eq cs
  have hfirst : (cs.flatMap (quotedChar (quoteFor cs)) ++ quoteFor cs :: rest).take 2 ≠
      [quoteFor cs, quoteFor cs] := by
    cases cs with
    | nil => cases rest <;> simp_all
    | cons c cs =>
      obtain ⟨d, ds, hd, hne⟩ := exists_quotedChar hquote c
      simp [hd, hne]
  rw [quotedChars, cons_append, cons_append, append_assoc, singleton_append, readString,
    if_pos ⟨hquote, hfirst⟩, readShort_quoted hquote]

/-- **A quoted text denotes itself.** -/
theorem readString_quoted : readString (quotedChars cs) = some (cs, []) := by
  simpa using readString_append cs (nofun : ∀ c ∈ [].head?, c ≠ quoteFor cs)

/-- **A quoted text stands on one line.** -/
theorem quoted_one_line : ∀ c ∈ quotedChars cs, c ∉ lineBreaks := by
  have hbreaks : lineBreaks.all (fun c => !isPrintable c) = true := by decide +kernel
  intro c hc hmem
  have hquote := quoteFor_eq cs
  have hprintable : isPrintable c = true := by
    simp only [quotedChars, cons_append, mem_cons, mem_append, mem_flatMap, not_mem_nil,
      or_false] at hc
    obtain rfl | ⟨d, -, hd⟩ | rfl := hc
    · rcases hquote with h | h <;> rw [h] <;> decide
    · exact isPrintable_quotedChar hquote hd
    · rcases hquote with h | h <;> rw [h] <;> decide
  simpa [hprintable] using all_eq_true.1 hbreaks c hmem

/-! ## Words and their literals -/

/-- What stands between the quotes of a word. -/
def betweenQuotes (t : Token) : List Char := (t.text.toList.drop 1).dropLast

theorem unquoted_of_means {region : Region} {t : Token} {cs : List Char}
    (h : Means (betweenQuotes t) cs) : Value.unquoted region t = .ok cs := by
  rw [Value.unquoted, ← betweenQuotes, unescape_eq_ok_iff.2 h]

theorem unquoted_cases (region : Region) (t : Token) :
    (∃ e, Value.unquoted region t = .error ⟨.body, .escape e, region.site⟩ ∧
      ∀ cs, ¬Means (betweenQuotes t) cs) ∨
    ∃ cs, Means (betweenQuotes t) cs ∧ Value.unquoted region t = .ok cs := by
  cases h : unescape (betweenQuotes t) with
  | ok cs =>
    have hmeans := unescape_eq_ok_iff.1 h
    exact .inr ⟨cs, hmeans, unquoted_of_means hmeans⟩
  | error e =>
    refine .inl ⟨e, by rw [Value.unquoted, ← betweenQuotes, h], fun cs hcs => ?_⟩
    rw [unescape_eq_ok_iff.2 hcs] at h
    cases h

/-- **Quoted words keep their meaning.**  A word between quotes that means nothing is refused.  Any
other is read as the text or the one character that it means, and the literal that is written for it
denotes the same characters, with nothing behind them, on one line. -/
theorem literal_keeps_meaning {text : List Char} {t : Token} (ht : t ∈ (Lexer.lex text).tokens)
    (hkind : t.kind = .string ∨ t.kind = .char) (region : Region) :
    (∃ e, Value.literalOf region t = .error ⟨.body, .escape e, region.site⟩ ∧
      ∀ cs, ¬Means (betweenQuotes t) cs) ∨
    ∃ cs literal, Means (betweenQuotes t) cs ∧ Value.literalOf region t = .ok literal ∧
      (t.kind = .string ∧ literal = .str (String.ofList cs) ∨
        t.kind = .char ∧ ∃ c, cs = [c] ∧ literal = .char c) ∧
      readString (Term.ofLiteral literal).text.toList = some (cs, []) ∧
      ∀ c ∈ (Term.ofLiteral literal).text.toList, c ∉ lineBreaks := by
  obtain ⟨e, herror, hnone⟩ | ⟨cs, hmeans, hok⟩ := unquoted_cases region t
  · refine .inl ⟨e, ?_, hnone⟩
    rcases hkind with hkind | hkind <;> simp [Value.literalOf, hkind, herror, bind, Except.bind]
  · have htext : (quoted (String.ofList cs)).toList = quotedChars cs := by simp [quoted]
    refine .inr ⟨cs, ?_⟩
    rcases hkind with hkind | hkind
    · refine ⟨.str (String.ofList cs), hmeans, ?_, .inl ⟨hkind, rfl⟩, ?_⟩
      · simp [Value.literalOf, hkind, hok, bind, Except.bind, pure, Except.pure]
      · rw [Term.ofLiteral, Term.text, htext]
        exact ⟨readString_quoted cs, quoted_one_line cs⟩
    · obtain ⟨c, rfl⟩ := (formed_of_mem_lex ht).char hkind cs (unescape_eq_ok_iff.2 hmeans)
      refine ⟨.char c, hmeans, ?_, .inr ⟨hkind, c, rfl, rfl⟩, ?_⟩
      · simp [Value.literalOf, hkind, hok, bind, Except.bind, pure, Except.pure]
      · rw [Term.ofLiteral, Term.text, show c.toString = String.ofList [c] from rfl, htext]
        exact ⟨readString_quoted [c], quoted_one_line [c]⟩

/-- A word with a quote, a byte and a braced code, which ends a line. -/
def escapedWord : Token := ⟨.string, "\"it\\'s \\x41\\u\x7b2_028\x7d\"", ⟨⟨1, 1⟩, ⟨1, 22⟩⟩, 0⟩

theorem escapedWord_keeps_meaning :
    escapedWord ∈ (Lexer.lex escapedWord.text.toList).tokens ∧ escapedWord.kind = .string ∧
    Value.literalOf escapedWord.region escapedWord = .ok (.str "it's A\u2028") ∧
    readString (Term.ofLiteral (.str "it's A\u2028")).text.toList =
      some ("it's A\u2028".toList, []) := by
  have hmem : escapedWord ∈ (Lexer.lex escapedWord.text.toList).tokens := by decide
  have hread : Value.literalOf escapedWord.region escapedWord = .ok (.str "it's A\u2028") := rfl
  refine ⟨hmem, rfl, hread, ?_⟩
  obtain ⟨e, herror, -⟩ | ⟨cs, literal, -, hok, hkind, hdenotes, -⟩ :=
    literal_keeps_meaning hmem (.inl rfl) escapedWord.region
  · rw [hread] at herror
    cases herror
  · rw [hread] at hok
    cases hok
    obtain ⟨-, htext⟩ | ⟨hchar, -⟩ := hkind
    · rw [Literal.str.injEq] at htext
      rw [hdenotes, htext, String.toList_ofList]
    · cases hchar

end Yielding.Script
