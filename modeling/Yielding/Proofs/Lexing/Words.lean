import Yielding.Proofs.Lexing.Cut
import Yielding.Text.Escape

/-!
# Proofs/Lexing/Words — what the words of a text look like

A name begins with a letter or an underscore, and what stands between the quotes of a character is
one character or an escape: if it means anything, it means one character (`formed_of_mem_lex`).
-/

namespace Yielding

open List

/-- The text of the token is that of a word of its kind, as far as the kind alone says. -/
structure Token.Formed (t : Token) : Prop where
  name : t.kind = .name → ∃ c cs, t.text.toList = c :: cs ∧ Lexer.isNameStart c
  char : t.kind = .char → ∀ cs, Text.unescape ((t.text.toList.drop 1).dropLast) = .ok cs →
    ∃ c, cs = [c]

namespace Lexer

open Text

/-! ## Names -/

variable {cs : List Char}

theorem nameStart_of_nameLength {n : Nat} (h : nameLength? cs = some n) :
    ∃ c rest, cs.take n = c :: rest ∧ isNameStart c := by
  obtain ⟨c, rest, rfl, hc, rfl⟩ := headedLength?_cases h
  exact ⟨c, _, take_succ_cons, hc⟩

/-! ## Characters -/

theorem isSome_hexValue (c : Char) : (hexValue? c).isSome = isHexDigit c := by
  unfold hexValue? isHexDigit
  grind

theorem codeDigits_eq {digits ds : List Char} (hdigits : ∀ c ∈ digits, isCodePart c)
    (h : codeDigits? (digits ++ ['\x7d']) = some ds) : ds = digits := by
  cases digits with
  | nil =>
    have : codeDigits? ['\x7d'] = none := by decide
    rw [nil_append, this] at h
    cases h
  | cons c cs =>
    have hpart : (fun c => (hexValue? c).isSome || c == '_') = isCodePart := by
      funext c
      rw [isSome_hexValue, isCodePart]
    have hall : (cs ++ ['\x7d']).takeWhile isCodePart = cs := by
      rw [takeWhile_append_of_pos fun x hx => hdigits x (mem_cons_of_mem c hx)]
      simp [takeWhile, isCodePart, isHexDigit]
    rw [cons_append] at h
    simp only [codeDigits?, hpart, hall, drop_left] at h
    split at h
    · split at h
      · exact (Option.some.inj h).symm
      · cases h
    · cases h

theorem unescapeFrom_all {skip : Nat} (h : cs.length ≤ skip) : unescapeFrom skip cs = .ok [] := by
  induction cs generalizing skip with
  | nil => rw [unescapeFrom]
  | cons c cs ih =>
    obtain ⟨skip, rfl⟩ := Nat.exists_eq_add_of_le' (Nat.lt_of_lt_of_le (Nat.succ_pos _) h)
    exact ih (by simpa using h)

theorem unescape_escape {meant : List Char} {n : Nat} (h : escape cs = .ok (meant, n))
    (hn : cs.length ≤ n) : unescape ('\\' :: cs) = .ok meant := by
  simp [unescape, unescapeFrom, h, bind, Except.bind, unescapeFrom_all hn, pure, Except.pure]

theorem unescape_error {e : EscapeError} (h : escape cs = .error e) : unescape ('\\' :: cs)
    = .error e := by
  simp [unescape, unescapeFrom, h, bind, Except.bind]

/-- What an escape means to which `n` characters belong, if it means anything, is one character. -/
def MeansOne (cs : List Char) (n : Nat) : Prop :=
  ∀ meant m, escape cs = .ok (meant, m) → (∃ c, meant = [c]) ∧ m = n

theorem MeansOne.unescape {content : List Char} (h : MeansOne cs cs.length)
    (hcontent : Text.unescape ('\\' :: cs) = .ok content) : ∃ c, content = [c] := by
  cases hcs : escape cs with
  | error e =>
    rw [unescape_error hcs] at hcontent
    cases hcontent
  | ok found =>
    obtain ⟨meant, m⟩ := found
    obtain ⟨⟨c, rfl⟩, rfl⟩ := h meant m hcs
    rw [unescape_escape hcs (Nat.le_refl _)] at hcontent
    cases hcontent
    exact ⟨c, rfl⟩

theorem escape_simple {c d : Char} (h : simpleEscape? c = some d) (rest : List Char) :
    escape (c :: rest) = .ok ([d], 1) := by
  unfold simpleEscape? at h
  split at h <;> cases h <;> rfl

theorem meansOne_plain {c : Char} (hc : c ≠ '\n') : MeansOne [c] 1 := by
  intro meant m h
  cases hsimple : simpleEscape? c with
  | some d =>
    cases escape_simple hsimple [] ▸ h
    exact ⟨⟨_, rfl⟩, rfl⟩
  | none =>
    have hplain : escape [c] = .error (.unknown c) := by
      unfold escape plainEscape
      grind
    cases hplain ▸ h

theorem meansOne_byte {a b : Char} (ha : isHexDigit a) (hb : isHexDigit b) :
    MeansOne ['x', a, b] 3 := by
  intro meant m h
  rw [← isSome_hexValue, Option.isSome_iff_exists] at ha hb
  obtain ⟨x, hx⟩ := ha
  obtain ⟨y, hy⟩ := hb
  simp only [escape, hx, hy] at h
  split at h
  · cases h
    exact ⟨⟨_, rfl⟩, rfl⟩
  · cases h

theorem meansOne_code {digits : List Char} (hdigits : ∀ c ∈ digits, isCodePart c) :
    MeansOne ('u' :: '\x7b' :: (digits ++ ['\x7d'])) (digits.length + 3) := by
  intro meant m h
  simp only [escape] at h
  split at h
  · next ds hds =>
    obtain rfl := codeDigits_eq hdigits hds
    split at h
    · cases h
      exact ⟨⟨_, rfl⟩, rfl⟩
    · cases h
  · simp [plainEscape, simpleEscape?] at h

theorem dropLast_of_closed {form : List Char → Option Nat} {m : Nat}
    (h : closedLength? form cs = some m) :
    ∃ k, form cs = some k ∧ (cs.take m).dropLast = cs.take k := by
  obtain ⟨k, rest, hk, hrest, rfl⟩ := closedLength?_eq_some.1 h
  refine ⟨k, hk, ?_⟩
  have hquote : cs[k]? = some '\'' := by simpa using congrArg head? hrest
  rw [take_add_one, hquote, Option.toList_some, dropLast_concat]

/-- The content of a character: one that is no backslash, or a backslash with what it escapes. -/
inductive CharContent : List Char → Prop
  | plain {c : Char} : c ≠ '\\' → CharContent [c]
  | escaped {cs : List Char} : MeansOne cs cs.length → CharContent ('\\' :: cs)

theorem CharContent.unescape {content : List Char} (h : CharContent cs)
    (hcontent : Text.unescape cs = .ok content) : ∃ c, content = [c] := by
  cases h with
  | @plain c hc =>
    simp only [Text.unescape, unescapeFrom, hc, if_false, bind, Except.bind, pure,
      Except.pure] at hcontent
    cases hcontent
    exact ⟨c, rfl⟩
  | escaped h => exact h.unescape hcontent

theorem content_of_plainChar {k : Nat} (h : plainCharLength? cs = some k) : CharContent (cs.take k)
    := by
  unfold plainCharLength? at h
  split at h
  · split at h
    · cases h
    · next hc =>
      cases h
      simp only [Bool.or_eq_true, decide_eq_true_eq, not_or] at hc
      exact .plain hc.2
  · cases h

theorem content_of_plainEscape {k : Nat} (h : plainEscapeLength? cs = some k) :
    CharContent (cs.take k) := by
  unfold plainEscapeLength? at h
  split at h
  · split at h
    · cases h
    · next hc =>
      cases h
      exact .escaped (meansOne_plain hc)
  · cases h

theorem content_of_byteEscape {k : Nat} (h : byteEscapeLength? cs = some k) :
    CharContent (cs.take k) := by
  unfold byteEscapeLength? at h
  split at h
  · split at h
    · next hab =>
      cases h
      rw [Bool.and_eq_true] at hab
      exact .escaped (meansOne_byte hab.1 hab.2)
    · cases h
  · cases h

theorem content_of_codeEscape {k : Nat} (h : codeEscapeLength? cs = some k) :
    CharContent (cs.take k) := by
  obtain ⟨digits, rest, -, hdigits, rfl, rfl⟩ := codeEscapeLength?_eq_some.1 h
  have htake : (digits ++ '\x7d' :: rest).take (digits.length + 1) = digits ++ ['\x7d'] :=
    take_append_cons _ _ _
  have hmeans := meansOne_code hdigits
  rw [show digits.length + 3 = ('u' :: '\x7b' :: (digits ++ ['\x7d'])).length by simp] at hmeans
  simpa [htake] using CharContent.escaped hmeans

theorem content_of_charLength {n : Nat} (h : charLength? cs = some n) :
    CharContent ((cs.take n).drop 1).dropLast := by
  obtain ⟨cs, rfl⟩ : ∃ rest, cs = '\'' :: rest := by
    unfold charLength? at h
    split at h
    · exact ⟨_, rfl⟩
    · cases h
  rw [charLength?] at h
  obtain ⟨m, hm, rfl⟩ := Option.map_eq_some_iff.1 h
  rw [take_succ_cons, drop_one, tail_cons]
  simp only [Option.or_eq_some_iff] at hm
  obtain hm | ⟨-, hm | ⟨-, hm | ⟨-, hm⟩⟩⟩ := hm <;>
    obtain ⟨k, hk, hlast⟩ := dropLast_of_closed hm <;> rw [hlast]
  · exact content_of_codeEscape hk
  · exact content_of_byteEscape hk
  · exact content_of_plainEscape hk
  · exact content_of_plainChar hk

/-! ## Tokens -/

theorem ReadIn.text {pos : Pos} {offset : Nat} {t : Token} {ts : List Token}
    (h : ReadIn pos offset cs t ts) :
    ∃ rest n, next? rest = some (.word t.kind, n) ∧ t.text.toList = rest.take n := by
  obtain ⟨before, rest, n, -, -, -, hnext, htokens⟩ := h
  refine ⟨rest, n, hnext, ?_⟩
  cases rest with
  | nil => cases htokens
  | cons c cs =>
    rw [lexFrom] at htokens
    simp only [hnext] at htokens
    rw [← (List.cons.inj htokens).1, String.toList_ofList]

/-- **The words of a text are formed as their kinds say.** -/
theorem formed_of_mem_lex {text : List Char} {t : Token} (h : t ∈ (lex text).tokens) :
    t.Formed := by
  obtain ⟨before, after, htokens⟩ := append_of_mem h
  obtain ⟨rest, n, hnext, htext⟩ := (readIn_of_tokens htokens).text
  refine ⟨fun hk => ?_, fun hk content hcontent => ?_⟩ <;> rw [hk] at hnext <;>
    have hclass := class_of_next? hnext <;>
    simp [Terminal.punctuation, Terminal.keywords] at hclass
  · rw [htext]
    exact nameStart_of_nameLength hclass
  · rw [htext] at hcontent
    exact (content_of_charLength hclass).unescape hcontent

end Lexer

end Yielding
