import Yielding.Proofs.Lexing.Seam
import Yielding.Proofs.Lexing.Slices
import Yielding.Proofs.Moving.Basic

/-!
# Proofs/Moving/Lexing — the tokens of a text that is moved down

A text has the same tokens wherever it begins, each as far from the first place as before
(`lexFrom_shift`).  So the tokens of a slice that is moved down are moved down with it
(`lex_padded_down`).
-/

namespace Yielding

open List Located

variable (n m : Nat)

/-! ## Places -/

theorem Pos.after_down (p : Pos) (c : Char) : (down n p).after c = down n (p.after c) := by
  unfold Pos.after
  split
  · exact congrArg (Pos.mk · 1) (Nat.add_right_comm p.line n 1)
  · rfl

theorem Pos.advance_down (p : Pos) (cs : List Char) :
    (down n p).advance cs = down n (p.advance cs) := by
  induction cs generalizing p with
  | nil => rfl
  | cons c cs ih => rw [advance_cons, advance_cons, after_down, ih]

theorem Pos.before_down (p q : Pos) : (down n p).before (down n q) = p.before q := by
  have hline : (p.line + n == q.line + n) = (p.line == q.line) := by
    rw [Bool.eq_iff_iff]
    simp
  simp [Pos.before, down, hline]

theorem Pos.advance_of_getLast? {cs : List Char} (h : cs.getLast? = some '\n') (p : Pos) :
    p.advance cs = ⟨p.line + cs.count '\n', 1⟩ := by
  induction cs generalizing p with
  | nil => cases h
  | cons c cs ih =>
    cases cs with
    | nil =>
      obtain rfl : c = '\n' := by simpa using h
      rfl
    | cons d cs =>
      rw [getLast?_cons_cons] at h
      rw [advance_cons, ih h, Pos.after]
      by_cases hc : c = '\n'
      · rw [if_pos hc, hc, count_cons_self, Nat.add_assoc, Nat.add_comm 1]
      · rw [if_neg hc, count_cons_of_ne hc]

/-! ## Tokens -/

namespace Lexer

/-- The tokens of a text that begins `lines` lines further down, behind `chars` more characters. -/
def Result.shift (lines chars : Nat) (r : Result) : Result :=
  ⟨r.tokens.map (Token.shift lines chars), down lines r.failure⟩

/-- **A text has the same tokens wherever it begins.** -/
theorem lexFrom_shift (pos : Pos) (offset skip : Nat) (cs : List Char) :
    lexFrom (down n pos) (offset + m) skip cs = (lexFrom pos offset skip cs).shift n m := by
  fun_induction lexFrom pos offset skip cs with
  | case1 => rfl
  | case2 pos offset skip c cs ih =>
    rw [lexFrom, Pos.after_down, Nat.add_right_comm, ih]
  | case3 pos offset c cs hnext =>
    rw [lexFrom, hnext]
    rfl
  | case4 pos offset c cs k rest hnext ih =>
    rw [lexFrom, hnext]
    simp only
    rw [Pos.after_down, Nat.add_right_comm, ih]
  | case5 pos offset c cs k rest kind lexeme token hnext ih =>
    rw [lexFrom, hnext]
    simp only
    rw [Pos.after_down, Nat.add_right_comm, ih, Pos.advance_down]
    rfl

theorem lex_lines (cs : List Char) : lex (replicate n '\n' ++ cs) = (lex cs).shift n n := by
  have hlines : ∀ pos : Pos, pos.column = 1 → ∀ offset,
      lexFrom pos offset 0 (replicate n '\n' ++ cs) =
        lexFrom (down n pos) (offset + n) 0 cs := by
    induction n with
    | zero => exact fun _ _ _ => rfl
    | succ n ih =>
      intro pos hpos offset
      have hdown : down n (pos.after '\n') = down (n + 1) pos := by
        obtain ⟨line, column⟩ := pos
        obtain rfl : column = 1 := hpos
        exact congrArg (Pos.mk · 1) (Nat.add_right_comm line 1 n)
      rw [replicate_succ, cons_append, lexFrom_gap (by decide), ih _ rfl, hdown,
        Nat.add_right_comm, Nat.add_assoc]
  rw [lex, hlines _ rfl, lexFrom_shift]
  rfl

theorem stopOffset_le {pos : Pos} {offset skip : Nat} {cs : List Char} :
    ∀ t ∈ (lexFrom pos offset skip cs).tokens, t.stopOffset ≤ offset + cs.length := by
  fun_induction lexFrom pos offset skip cs with
  | case1 => exact forall_mem_nil _
  | case2 pos offset skip c cs ih =>
    intro t ht
    have := ih t ht
    rw [length_cons]
    omega
  | case3 pos offset c cs hnext => exact forall_mem_nil _
  | case4 pos offset c cs k rest hnext ih =>
    intro t ht
    have := ih t ht
    rw [length_cons]
    omega
  | case5 pos offset c cs k rest kind lexeme token hnext ih =>
    intro t ht
    rcases mem_cons.1 ht with rfl | ht
    · have hlength : lexeme.length ≤ (c :: cs).length := length_take_le' _ _
      simpa [Token.stopOffset, token] using hlength
    · have := ih t ht
      rw [length_cons]
      omega

end Lexer

/-! ## Slices -/

theorem Slice.padded_down {s : Slice} (h : 1 ≤ s.start.line) :
    (down n s).padded = replicate n '\n' ++ s.padded := by
  have hlines : s.start.line + n - 1 = n + (s.start.line - 1) := by omega
  show replicate (s.start.line + n - 1) '\n' ++ replicate (s.start.column - 1) ' ' ++
    s.text.toList = _
  rw [hlines, ← replicate_append_replicate, Slice.padded]
  simp only [append_assoc]

theorem Slice.lex_padded_down {s : Slice} (h : 1 ≤ s.start.line) :
    Lexer.lex (down n s).padded = (Lexer.lex s.padded).shift n n := by
  rw [Slice.padded_down n h, Lexer.lex_lines]

end Yielding
