import Mathlib.Data.List.DropRight
import Yielding.Script.Item

/-!
# Proofs/Rendering/Documentation — documentation read back

A **long literal** stands between triple quotes.  Inside it a backslash before a quote or a
backslash stands for that character, and the first triple quote without backslashes ends it.  Read
so, the documentation string of several lines denotes them, between two line breaks.  That of a
single line denotes it as long as the line does not end in a quote that is left when its quotes are
taken by threes; otherwise the literal ends early, and those quotes stand behind it
(`docString_reads`, `closing_quote_left_behind`).
-/

namespace Yielding.Script

open List

/-- What is read, with some characters denoted before it. -/
def denoting (cs : List Char) (read : Option (List Char × List Char)) :
    Option (List Char × List Char) :=
  read.map (.map (cs ++ ·) id)

/-- Reads a long literal behind its opening quotes: gives what it denotes and what stands behind
it. -/
def readLong : List Char → Option (List Char × List Char)
  | [] => none
  | '"' :: '"' :: '"' :: rest => some ([], rest)
  | '\\' :: c :: cs => if c = '"' ∨ c = '\\' then denoting [c] (readLong cs) else none
  | c :: cs => if c = '\\' then none else denoting [c] (readLong cs)

/-- Reads a long literal at the beginning of a text. -/
def readLiteral : List Char → Option (List Char × List Char)
  | '"' :: '"' :: '"' :: cs => readLong cs
  | _ => none

/-- The number of quotes at the end of a line that are left when they are taken by threes. -/
def spareQuotes (line : String) : ℕ := (line.toList.rtakeWhile (· == '"')).length % 3

variable {c : Char} {cs tail : List Char}

theorem denoting_nil (read : Option (List Char × List Char)) : denoting [] read = read := by
  cases read <;> rfl

theorem denoting_denoting (cs ds : List Char) (read : Option (List Char × List Char)) :
    denoting cs (denoting ds read) = denoting (cs ++ ds) read := by
  rcases read with _ | ⟨ds', rest⟩
  · rfl
  · simp [denoting]

section Characters

attribute [local simp] readLong docEscape

/-- A character that begins no triple quote denotes itself. -/
theorem readLong_cons (hc : c ≠ '\\') (hcs : c = '"' → ∀ rest, cs ≠ '"' :: '"' :: rest) :
    readLong (c :: cs) = denoting [c] (readLong cs) := by
  rw [readLong, if_neg hc]
  · rintro rest rfl rfl
    exact hcs rfl _ rfl
  · rintro _ _ rfl
    exact absurd rfl hc

theorem readLong_escaped (hc : c = '"' ∨ c = '\\') :
    readLong ('\\' :: c :: cs) = denoting [c] (readLong cs) := by
  rw [readLong, if_pos hc]

theorem docEscape_cons (hc : c ≠ '\\') (hcs : c = '"' → ∀ rest, cs ≠ '"' :: '"' :: rest) :
    docEscape (c :: cs) = c :: docEscape cs := by
  rw [docEscape, if_neg hc]
  rintro rest rfl rfl
  exact hcs rfl _ rfl

end Characters

section

variable {x : Char} (hx : x ≠ '"')

include hx

/-- Escaping makes no triple quote. -/
theorem docEscape_ne_quotes (hcs : ∀ rest, cs ≠ '"' :: '"' :: rest) (rest : List Char) :
    docEscape cs ++ x :: tail ≠ '"' :: '"' :: rest := by
  match cs, hcs with
  | [], _ => simp [docEscape, hx]
  | c :: cs, hcs =>
    by_cases hc : c = '"'
    · subst hc
      rw [docEscape_cons (by decide) fun _ rest hcs' => hcs _ (by rw [hcs'])]
      match cs, hcs with
      | [], _ => simp [docEscape, hx]
      | d :: cs, hcs =>
        have hd : d ≠ '"' := fun hd => hcs cs (by rw [hd])
        by_cases hslash : d = '\\'
        · simp [hslash, docEscape]
        · simp [docEscape_cons hslash fun h => absurd h hd, hd]
    · by_cases hslash : c = '\\'
      · simp [hslash, docEscape]
      · simp [docEscape_cons hslash fun h => absurd h hc, hc]

/-- **An escaped text denotes the text**, unless a quote follows. -/
theorem readLong_docEscape :
    readLong (docEscape cs ++ x :: tail) = denoting cs (readLong (x :: tail)) := by
  fun_induction docEscape cs with
  | case1 => exact (denoting_nil _).symm
  | case2 cs ih | case3 cs _ ih => simp [readLong_escaped, ih, denoting_denoting]
  | case4 c cs htriple hc ih =>
    rw [cons_append, readLong_cons hc, ih, denoting_denoting]
    · rfl
    · rintro rfl
      exact docEscape_ne_quotes hx fun rest hcs => htriple rest rfl hcs

/-- A text is escaped in parts, the second of which does not begin with a quote. -/
theorem docEscape_append : docEscape (cs ++ x :: tail) = docEscape cs ++ docEscape (x :: tail) := by
  fun_induction docEscape cs with
  | case1 => rfl
  | case2 cs ih =>
    simp only [cons_append]
    rw [docEscape, ih]
  | case3 cs _ ih => simp [docEscape, ih]
  | case4 c cs htriple hc ih =>
    rw [cons_append, docEscape_cons hc, ih, cons_append]
    rintro rfl rest heq
    match cs, htriple with
    | [], _ => exact hx (cons.inj heq).1
    | [d], _ => exact hx (cons.inj (cons.inj heq).2).1
    | d :: e :: es, htriple =>
      simp only [cons_append, cons.injEq] at heq
      exact htriple es rfl (by rw [heq.1, heq.2.1])

/-- A text up to the quotes that it ends in denotes itself. -/
theorem readLong_quoted (n : ℕ) : readLong (docEscape (cs ++ x :: replicate n '"') ++ tail) =
    denoting (cs ++ [x]) (readLong (docEscape (replicate n '"') ++ tail)) := by
  rw [docEscape_append hx, append_assoc]
  by_cases hslash : x = '\\'
  · subst hslash
    rw [docEscape, if_pos rfl, cons_append, readLong_docEscape (by decide), cons_append,
      readLong_escaped (.inr rfl), denoting_denoting]
    nofun
  · rw [docEscape_cons hslash fun h => absurd h hx, cons_append, readLong_docEscape hx,
      readLong_cons hslash fun h => absurd h hx, denoting_denoting]

end

theorem mem_docEscape : '\n' ∈ docEscape cs ↔ '\n' ∈ cs := by
  fun_induction docEscape cs <;> simp_all

theorem readLong_quotes : ∀ n, readLong (docEscape (replicate n '"') ++ ['"', '"', '"']) =
    some (replicate (n - n % 3) '"', replicate (n % 3) '"')
  | 0 | 1 | 2 => by decide
  | n + 3 => by
    have hmod : n + 3 - n % 3 = n - n % 3 + 3 := by omega
    simp [replicate_succ, docEscape, readLong_escaped, readLong_quotes n, denoting]
    rw [hmod]
    rfl

theorem readLiteral_docString (lines : List String) (text : List Char)
    (htext : ("\n".intercalate lines).toList = text) : readLiteral (docString lines).toList =
      readLong ((if '\n' ∈ text then '\n' :: docEscape text ++ ['\n'] else docEscape text) ++
        ['"', '"', '"']) := by
  simp only [docString, htext, contains_iff_mem, mem_docEscape, String.toList_append,
    String.toList_ofList]
  rfl

theorem reads_line (line : String) (h : '\n' ∉ line.toList) :
    readLiteral (docString [line]).toList = some
      (line.toList.take (line.toList.length - spareQuotes line),
        replicate (spareQuotes line) '"') := by
  set base := line.toList.rdropWhile (· == '"')
  set n := (line.toList.rtakeWhile (· == '"')).length with hn
  have hquotes : line.toList.rtakeWhile (· == '"') = replicate n '"' :=
    eq_replicate_of_mem fun c hc => by simpa using mem_rtakeWhile_imp hc
  have hline : line.toList = base ++ replicate n '"' := by
    rw [← hquotes, rdropWhile_append_rtakeWhile]
  have hread : readLong (docEscape line.toList ++ ['"', '"', '"']) =
      denoting base (some (replicate (n - n % 3) '"', replicate (n % 3) '"')) := by
    rw [hline, ← readLong_quotes]
    obtain hnil | ⟨cs, x, hbase⟩ := eq_nil_or_concat' base
    · rw [hnil, denoting_nil, nil_append]
    · have hne : base ≠ [] := by simp [hbase]
      have hlast : ¬(base.getLast hne == '"') = true := rdropWhile_last_not _ _ hne
      have hx : x ≠ '"' := by simpa [hbase] using hlast
      rw [hbase, append_assoc, singleton_append, readLong_quoted hx]
  have hlength : base.length + n - n % 3 = base.length + (n - n % 3) := by
    have := Nat.mod_le n 3
    omega
  rw [readLiteral_docString [line] line.toList (by simp), if_neg h, hread, spareQuotes, ← hn, hline]
  simp [denoting, hlength, take_length_add_append]

theorem reads_lines (lines : List String) (h : 1 < lines.length) :
    readLiteral (docString lines).toList =
      some ('\n' :: ("\n".intercalate lines).toList ++ ['\n'], []) := by
  have hbreak : '\n' ∈ ("\n".intercalate lines).toList := by
    match lines, h with
    | a :: b :: rest, _ => simp
  rw [readLiteral_docString lines _ rfl, if_pos hbreak, append_assoc, cons_append,
    readLong_cons (by decide) fun h => absurd h (by decide),
    singleton_append, readLong_docEscape (by decide)]
  simp [denoting, readLong]

/-- **A documentation string read back.**  One line is denoted up to its spare quotes, which are
left behind the literal; several lines are denoted as they are, between two line breaks. -/
theorem docString_reads (lines : List String) :
    (∀ line, lines = [line] → '\n' ∉ line.toList → readLiteral (docString lines).toList = some
      (line.toList.take (line.toList.length - spareQuotes line),
        replicate (spareQuotes line) '"')) ∧
    (1 < lines.length → readLiteral (docString lines).toList =
      some ('\n' :: ("\n".intercalate lines).toList ++ ['\n'], [])) :=
  ⟨fun line hline hn => hline ▸ reads_line line hn, reads_lines lines⟩

theorem quotes_read_back : '\n' ∉ "\\\"\"\"\" \\\"\"\"".toList ∧
    readLiteral (docString ["\\\"\"\"\" \\\"\"\""]).toList =
      some ("\\\"\"\"\" \\\"\"\"".toList, []) ∧
    readLiteral (docString ["\"\"a\\", "b\""]).toList = some ("\n\"\"a\\\nb\"\n".toList, []) :=
  ⟨by decide, (docString_reads [_]).1 _ rfl (by decide), (docString_reads _).2 (by decide)⟩

theorem closing_quote_left_behind :
    readLiteral (docString ["say \"hi\""]).toList = some ("say \"hi".toList, ['"']) := by
  decide

end Yielding.Script
