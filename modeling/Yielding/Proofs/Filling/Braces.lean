import Yielding.Datum.Format

/-!
# Proofs/Filling/Braces — braces that stand for themselves

A brace that is written twice stands for one brace, so a text whose braces are **doubled** has no
fields. But debugging holes are looked for before that, and a doubled text has them wherever the
text has them.  So filling a doubled text gives the text with its holes written as conversions, and
gives the text itself exactly if it has no hole (`fill_doubled`).
-/

namespace Yielding.Datum

open List Format

def isBrace (c : Char) : Bool := c = '\x7b' || c = '\x7d'

/-- A text with each of its braces written twice. -/
def doubled : List Char → List Char
  | [] => []
  | c :: cs => if isBrace c then c :: c :: doubled cs else c :: doubled cs

/-- A colon and a question mark in braces. -/
def debugHole : List Char := ['\x7b', ':', '?', '\x7d']

theorem doubled_brace {c : Char} (h : isBrace c = true) (cs : List Char) :
    doubled (c :: cs) = c :: c :: doubled cs := if_pos h

theorem doubled_plain {c : Char} (h : isBrace c = false) (cs : List Char) :
    doubled (c :: cs) = c :: doubled cs := if_neg (by simp [h])

/-! ## Holes -/

/-- Doubling braces makes no holes. -/
theorem hole_of_doubled {cs rest : List Char} (h : doubled cs = ':' :: '?' :: '\x7d' :: rest) :
    ∃ rest', cs = ':' :: '?' :: '\x7d' :: rest' := by
  have head : ∀ {c : Char} {cs rest : List Char}, doubled cs = c :: rest → ∃ cs', cs = c :: cs' ∧
      (isBrace c = false → doubled cs' = rest) := by
    rintro c (_ | ⟨d, cs⟩) rest h
    · cases h
    · cases hd : isBrace d with
      | true =>
        obtain ⟨rfl, -⟩ := cons.inj (doubled_brace hd cs ▸ h)
        exact ⟨cs, rfl, fun hc => by simp [hd] at hc⟩
      | false =>
        obtain ⟨rfl, hrest⟩ := cons.inj (doubled_plain hd cs ▸ h)
        exact ⟨cs, rfl, fun _ => hrest⟩
  obtain ⟨cs, rfl, hcolon⟩ := head h
  obtain ⟨cs, rfl, hquestion⟩ := head (hcolon (by decide))
  obtain ⟨cs, rfl, -⟩ := head (hquestion (by decide))
  exact ⟨cs, rfl⟩

theorem debugHoles_cons {c : Char} {cs : List Char}
    (h : ∀ rest, c = '\x7b' → cs ≠ ':' :: '?' :: '\x7d' :: rest) :
    debugHoles (c :: cs) = c :: debugHoles cs := by
  rw [debugHoles]
  intro rest hc hcs
  exact h rest hc hcs

/-- **Holes of a doubled text** are the holes of the text. -/
theorem debugHoles_doubled (cs : List Char) :
    debugHoles (doubled cs) = doubled (debugHoles cs) := by
  fun_induction debugHoles cs with
  | case1 cs ih =>
    simp only [doubled_brace (c := '\x7b') (by decide), doubled_brace (c := '\x7d') (by decide),
      doubled_plain (c := ':') (by decide), doubled_plain (c := '?') (by decide),
      doubled_plain (c := '!') (by decide), doubled_plain (c := 'r') (by decide)]
    rw [debugHoles_cons (by simp), debugHoles, debugHoles_cons (by simp), ih]
  | case2 c cs hne ih =>
    cases hc : isBrace c with
    | false =>
      have hopen : c ≠ '\x7b' := by rintro rfl; cases hc
      rw [doubled_plain hc, doubled_plain hc, debugHoles_cons fun _ h => absurd h hopen, ih]
    | true =>
      rw [doubled_brace hc, doubled_brace hc, debugHoles_cons (by rintro _ rfl; simp),
        debugHoles_cons, ih]
      intro rest hopen hrest
      obtain ⟨cs', rfl⟩ := hole_of_doubled hrest
      exact hne cs' hopen rfl
  | case3 => rfl

theorem debugHoles_eq_self_iff (cs : List Char) : debugHoles cs = cs ↔ ¬debugHole <:+: cs := by
  fun_induction debugHoles cs with
  | case1 cs ih =>
    have hole : debugHole <:+: '\x7b' :: ':' :: '?' :: '\x7d' :: cs := ⟨[], cs, rfl⟩
    simp [hole]
  | case2 c cs hne ih =>
    have hstart : ¬debugHole <+: c :: cs := by
      rintro ⟨rest, hrest⟩
      obtain ⟨rfl, rfl⟩ := cons.inj hrest
      exact hne rest rfl rfl
    rw [cons_inj_right, ih, infix_cons_iff, not_or, and_iff_right hstart]
  | case3 => simp [debugHole]

/-! ## Pieces -/

theorem pieces_doubled (cs : List Char) : pieces (doubled cs) = cs.map .char := by
  induction cs with
  | nil => rw [doubled, pieces, map_nil]
  | cons c cs ih =>
    cases hc : isBrace c with
    | true =>
      rw [doubled_brace hc, map_cons, ← ih]
      obtain rfl | rfl : c = '\x7b' ∨ c = '\x7d' := by simpa [isBrace] using hc
      · rw [pieces]
      · rw [pieces]
    | false =>
      obtain ⟨hopen, hclose⟩ : c ≠ '\x7b' ∧ c ≠ '\x7d' := by simpa [isBrace] using hc
      rw [doubled_plain hc, map_cons, ← ih, pieces, if_neg hclose, if_neg hopen]
      · exact fun _ h => absurd h hopen
      · exact fun _ h => absurd h hclose

theorem fillPieces_chars (s : Store) (args : List Datum)
    (inner : Numbering → List Char → Except Fault (List Char × Numbering)) (k : Numbering)
    (cs : List Char) : fillPieces s args inner k (cs.map .char) = .ok (cs, k) := by
  induction cs with
  | nil => rfl
  | cons c cs ih =>
    rw [map_cons, fillPieces, ih]
    rfl

theorem fill_doubled_eq (s : Store) (cs : List Char) (args : List Datum) :
    fill s (doubled cs) args = .ok (debugHoles cs) := by
  rw [fill, fillTo, debugHoles_doubled, pieces_doubled, fillPieces_chars]
  rfl

/-- **Doubled braces print as braces, holes apart.**  Filling a text with its braces doubled,
whatever the arguments are, gives the text with its debugging holes written as conversions; so it
gives the text itself exactly if the text has no such hole. -/
theorem fill_doubled (s : Store) (cs : List Char) (args : List Datum) :
    fill s (doubled cs) args = .ok (debugHoles cs) ∧
      (fill s (doubled cs) args = .ok cs ↔ ¬debugHole <:+: cs) := by
  have hfill := fill_doubled_eq s cs args
  refine ⟨hfill, ?_⟩
  rw [hfill, Except.ok.injEq]
  exact debugHoles_eq_self_iff cs

/-- **An escaped hole is rewritten all the same**: it prints as the conversion that stands for
it. -/
theorem doubled_hole_is_rewritten :
    fill default (doubled debugHole) [] = .ok ['\x7b', '!', 'r', '\x7d'] ∧
      fill default (doubled debugHole) [] ≠ .ok debugHole := by
  rw [fill_doubled_eq, Except.ok.injEq, Ne, Except.ok.injEq]
  decide

end Yielding.Datum
