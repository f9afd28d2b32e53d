import Yielding.Proofs.Lexing.Cut

/-!
# Proofs/Lexing/Seam — no word goes over the end of a text

A text that is cut into tokens to its end, and in which no `/*` stands, is cut in the same way when
more lines follow it (`lexFrom_append`): runs and comments stop at a line feed, and a quoted word
that is not closed would have stopped the lexer.
-/

namespace Yielding.Lexer

open Option List Text

/-! ## Lengths -/

theorem suffixLength_le (suffixes : List String) (cs : List Char) :
    suffixLength suffixes cs ≤ cs.length := by
  unfold suffixLength
  split
  · next s hs =>
    have hprefix := find?_some hs
    replace hprefix := isPrefixOf_iff_prefix.1 hprefix
    exact String.length_toList ▸ hprefix.length_le
  · exact Nat.zero_le _

variable {cs : List Char} {n : Nat}

theorem intLength?_le (h : intLength? cs = some n) : n ≤ cs.length := by
  obtain ⟨m, hm, rfl⟩ := map_eq_some_iff.1 h
  have hdigits := headedLength?_le hm
  have hsuffix := suffixLength_le intSuffixes (cs.drop m)
  rw [length_drop] at hsuffix
  omega

theorem fractionLength?_le (h : fractionLength? cs = some n) : n ≤ cs.length := by
  obtain ⟨m, hm, rfl⟩ := map_eq_some_iff.1 h
  have hdigits := headedLength?_le hm
  have hpower := exponentLength_le (cs.drop m)
  have hsuffix := suffixLength_le floatSuffixes (cs.drop (m + exponentLength (cs.drop m)))
  rw [length_drop] at hpower hsuffix
  dsimp only
  omega

theorem floatLength?_le (h : floatLength? cs = some n) : n ≤ cs.length := by
  obtain ⟨whole, hwhole, h⟩ := bind_eq_some_iff.1 h
  have hdigits := headedLength?_le hwhole
  split at h
  · next rest hrest =>
    obtain ⟨m, hm, rfl⟩ := map_eq_some_iff.1 h
    have hfraction := fractionLength?_le hm
    have hlength := congrArg List.length hrest
    rw [length_drop, length_cons] at hlength
    omega
  · cases h

theorem lifetimeLength?_le (h : lifetimeLength? cs = some n) : n ≤ cs.length := by
  unfold lifetimeLength? at h
  split at h
  · obtain ⟨m, hm, h⟩ := bind_eq_some_iff.1 h
    have hname := headedLength?_le hm
    rw [length_cons]
    split at h <;> cases h <;> omega
  · cases h

theorem lineLength?_le {mark : List Char} (h : lineLength? mark cs = some n) : n ≤ cs.length := by
  unfold lineLength? at h
  split at h
  · next hmark =>
    cases h
    have hlength := IsPrefix.length_le <| isPrefixOf_iff_prefix.1 hmark
    have hrun := run_le (· ≠ '\n') (cs.drop mark.length)
    rw [length_drop] at hrun
    omega
  · cases h

theorem gapLength?_le (h : gapLength? cs = some n) : n ≤ cs.length := by
  have hrun := run_le isGap cs
  unfold gapLength? at h
  split at h <;> cases h
  omega

theorem next?_le {found : Found} (h : next? cs = some (found, n)) : n ≤ cs.length := by
  obtain ⟨f, hf, hn⟩ := exists_of_findSome?_eq_some h
  simp only [classes, mem_cons, not_mem_nil, or_false] at hf
  rcases hf with rfl | rfl | rfl | rfl | rfl | rfl | rfl | rfl | rfl | rfl | rfl <;>
    obtain ⟨m, hm, he⟩ := map_eq_some_iff.1 hn <;> cases he
  · exact lineLength?_le hm
  · exact floatLength?_le hm
  · exact intLength?_le hm
  · exact (settled_char _ _ hm).1
  · exact lifetimeLength?_le hm
  · exact headedLength?_le hm
  · exact (settled_string _ _ hm).1
  · exact (settled_blockComment _ _ hm).1
  · exact gapLength?_le hm
  · exact lineLength?_le hm
  · have hprefix := find?_some hm
    replace hprefix := isPrefixOf_iff_prefix.1 hprefix
    exact String.length_toList ▸ hprefix.length_le

/-! ## Words at the end of a text -/

def Seam (w q : List Char) : Prop := ∀ c, w.getLast? = some c → c = '\n' ∨ q.head? = some '\n'

variable {w q : List Char}

theorem Seam.tail {c : Char} (h : Seam (c :: w) q) : Seam w q := by
  intro d hd
  cases w with
  | nil => cases hd
  | cons e w => exact h d (by rwa [getLast?_cons_cons])

theorem append_of_seam {α : Type} {f : List Char → α} (hf : ∀ u q, f (u ++ '\n' :: q) = f u)
    (hw : w ≠ []) (h : Seam w q) : f (w ++ q) = f w := by
  rcases h (w.getLast hw) (getLast?_eq_some_getLast hw) with hlast | hhead
  · rw [← dropLast_concat_getLast hw, hlast, append_assoc, singleton_append, hf, hf]
  · obtain ⟨q, rfl⟩ := head?_eq_some_iff.1 hhead
    exact hf w q

theorem lineLength?_newline {mark : List Char} (hmark : '\n' ∉ mark) (u q : List Char) :
    lineLength? mark (u ++ '\n' :: q) = lineLength? mark u := by
  unfold lineLength?
  rw [isPrefixOf_ends hmark]
  split
  · next hp =>
    have hlen := IsPrefix.length_le <| isPrefixOf_iff_prefix.1 hp
    rw [drop_append_of_le_length hlen, run_stops (by decide)]
  · rfl

theorem punctuation?_newline (u q : List Char) :
    punctuation? (u ++ '\n' :: q) = punctuation? u := by
  have hmarks : ∀ m ∈ Terminal.punctuation, '\n' ∉ m.1.toList := by decide
  unfold punctuation?
  exact congrArg _ (find?_congr fun m hm => isPrefixOf_ends (hmarks m hm) u q)

theorem name_newline (u q : List Char) :
    (nameLength? (u ++ '\n' :: q)).map
      (fun n => (Found.word (nameKind ((u ++ '\n' :: q).take n)), n)) =
      (nameLength? u).map fun n => (Found.word (nameKind (u.take n)), n) := by
  rw [nameLength?_ends endsWords_newline]
  cases hn : nameLength? u with
  | none => rfl
  | some n => rw [map_some, map_some, take_append_of_le_length (headedLength?_le hn)]

theorem blockCommentLength?_eq_none (h : ¬['/', '*'] <+: w) : blockCommentLength? w = none := by
  unfold blockCommentLength?
  split
  · exact absurd ⟨_, rfl⟩ h
  · rfl

theorem Seam.comment (hw : w ≠ []) (h : Seam w q) (hcomment : ¬['/', '*'] <+: w) : ¬['/', '*'] <+:
    w ++ q := by
  rintro ⟨rest, hrest⟩
  match w, hw with
  | [c], _ =>
    obtain ⟨rfl, rfl⟩ := List.cons.inj hrest
    simpa using h '/' rfl
  | c :: d :: w, _ =>
    simp only [cons_append, List.cons.injEq, nil_append] at hrest
    obtain ⟨rfl, rfl, -⟩ := hrest
    exact hcomment ⟨w, rfl⟩

theorem next?_congr {v : List Char} (h : ∀ f ∈ classes, f v = f w) : next? v = next? w := by
  have hfind : ∀ fs : List (List Char → Option (Found × Nat)), (∀ f ∈ fs, f v = f w) →
      fs.findSome? (· v) = fs.findSome? (· w) := by
    intro fs hfs
    induction fs with
    | nil => rfl
    | cons f fs ih =>
      rw [forall_mem_cons] at hfs
      rw [findSome?_cons, findSome?_cons, hfs.1, ih hfs.2]
  exact hfind classes h

theorem next?_plain {c : Char} (hgap : isGap c = false) (hstring : c ≠ '"') (hchar : c ≠ '\'')
    (h : Seam (c :: w) q) (hcomment : ¬['/', '*'] <+: c :: w) : next? (c :: w ++ q) = next? (c :: w)
    := by
  have hne : c :: w ≠ [] := List.cons_ne_nil c w
  have hends : ∀ {f : List Char → Option Nat} (k : Found), (∀ u q, f (u ++ '\n' :: q) = f u) →
      (f (c :: w ++ q)).map (k, ·) = (f (c :: w)).map (k, ·) :=
    fun k hf => congrArg _ (append_of_seam hf hne h)
  have hnever : ∀ {f : List Char → Option Nat} (k : Found), (∀ v, f (c :: v) = none) →
      (f (c :: w ++ q)).map (k, ·) = (f (c :: w)).map (k, ·) :=
    fun k hf => congrArg _ ((hf _).trans (hf _).symm)
  refine next?_congr ?_
  simp only [classes, List.forall_mem_cons]
  refine ⟨hends _ (lineLength?_newline (by decide)), hends _ (floatLength?_ends endsWords_newline),
    hends _ (intLength?_ends endsWords_newline), hnever _ ?_,
    hends _ (lifetimeLength?_ends endsWords_newline), ?_, hnever _ ?_, ?_, hnever _ ?_,
    hends _ (lineLength?_newline (by decide)), append_of_seam punctuation?_newline hne h,
      List.forall_mem_nil _⟩
  · exact fun v => by simp [charLength?, hchar]
  · exact append_of_seam
      (f := fun cs => (nameLength? cs).map fun n => (Found.word (nameKind (cs.take n)), n))
      name_newline hne h
  · exact fun v => by simp [stringLength?, hstring]
  · rw [blockCommentLength?_eq_none hcomment, blockCommentLength?_eq_none (h.comment hne hcomment)]
  · exact fun v => by simp [gapLength?, run_cons, hgap]

theorem next?_string (cs : List Char) :
    next? ('"' :: cs) = (stringLength? ('"' :: cs)).map (.word .string, ·) := by
  have hmarks : punctuation? ('"' :: cs) = none := by
    simp [punctuation?, Terminal.punctuation, find?, isPrefixOf]
  have hgap : gapLength? ('"' :: cs) = none := by
    unfold gapLength?
    rw [run_cons]
    rfl
  unfold next? classes
  simp only [List.findSome?_cons, hmarks, hgap]
  cases hlength : stringLength? ('"' :: cs) <;> rfl

theorem next?_char (cs : List Char) :
    next? ('\'' :: cs) = ((charLength? ('\'' :: cs)).map (Found.word .char, ·)).or
      ((lifetimeLength? ('\'' :: cs)).map (.word .lifetime, ·)) := by
  have hmarks : punctuation? ('\'' :: cs) = none := by
    simp [punctuation?, Terminal.punctuation, find?, isPrefixOf]
  have hgap : gapLength? ('\'' :: cs) = none := by
    unfold gapLength?
    rw [run_cons]
    rfl
  unfold next? classes
  simp only [findSome?_cons, hmarks, hgap]
  cases hchar : charLength? ('\'' :: cs) with
  | some n => rfl
  | none => cases hlifetime : lifetimeLength? ('\'' :: cs) <;> rfl

theorem charLength?_name {d : Char} (hd : isNameStart d) (cs : List Char) :
    charLength? ('\'' :: d :: cs) = if cs.head? = some '\'' then some 3 else none := by
  have hquote : d ≠ '\'' := by
    rintro rfl
    cases hd
  have hslash : d ≠ '\\' := by
    rintro rfl
    cases hd
  have hplain : closedLength? plainCharLength? (d :: cs) =
      if cs.head? = some '\'' then some 2 else none := by
    simp only [closedLength?, plainCharLength?, hquote, hslash, decide_false, Bool.or_false,
      Bool.false_eq_true, if_false, bind_some, drop_one, tail_cons]
    cases cs with
    | nil => rfl
    | cons c cs =>
      by_cases hc : c = '\''
      · simp [hc]
      · simp [hc]
  have hcode : codeEscapeLength? (d :: cs) = none := by simp [codeEscapeLength?, hslash]
  have hbyte : byteEscapeLength? (d :: cs) = none := by simp [byteEscapeLength?, hslash]
  have hescape : plainEscapeLength? (d :: cs) = none := by simp [plainEscapeLength?, hslash]
  rw [charLength?, hplain]
  simp only [closedLength?, hcode, hbyte, hescape, bind_none, none_or]
  split <;> rfl

theorem next?_quoted {c : Char} {found : Found} (hc : c = '"' ∨ c = '\'') (h : Seam (c :: w) q)
    (hnext : next? (c :: w) = some (found, n)) : next? (c :: w ++ q) = some (found, n) := by
  -- a word that is settled by its own characters
  have hsettled : ∀ {f : List Char → Option Nat} {m : Nat}, Settled f → f (c :: w) = some m →
      f (c :: w ++ q) = some m := by
    intro f m hf hm
    have hw := (hf _ _ hm).2 ((c :: w).drop m ++ q)
    rwa [← List.append_assoc, List.take_append_drop] at hw
  rcases hc with rfl | rfl
  · rw [next?_string] at hnext
    obtain ⟨m, hm, he⟩ := Option.map_eq_some_iff.1 hnext
    rw [List.cons_append, next?_string, ← List.cons_append, hsettled settled_string hm,
      Option.map_some, he]
  · rw [next?_char, Option.or_eq_some_iff] at hnext
    rw [List.cons_append, next?_char, ← List.cons_append, Option.or_eq_some_iff]
    rcases hnext with hnext | ⟨hnone, hnext⟩
    · obtain ⟨m, hm, he⟩ := Option.map_eq_some_iff.1 hnext
      rw [hsettled settled_char hm, Option.map_some, he]
      exact .inl rfl
    · rw [append_of_seam (lifetimeLength?_ends endsWords_newline) (List.cons_ne_nil _ _) h]
      refine .inr ⟨?_, hnext⟩
      obtain ⟨d, w, rfl, hd⟩ : ∃ d v, w = d :: v ∧ isNameStart d := by
        obtain ⟨m, hm, -⟩ := Option.map_eq_some_iff.1 hnext
        obtain ⟨k, hk, -⟩ := Option.bind_eq_some_iff.1 hm
        obtain ⟨d, v, hw, hd, -⟩ := headedLength?_cases hk
        exact ⟨d, v, hw, hd⟩
      -- it would be a character only if a quote followed its first letter
      rw [Option.map_eq_none_iff, charLength?_name hd] at hnone
      rw [List.cons_append, List.cons_append, Option.map_eq_none_iff, charLength?_name hd, if_neg]
      cases w with
      | nil =>
        rcases h d rfl with rfl | hhead
        · cases hd
        · simp [hhead]
      | cons e w => simpa using hnone

/-- **What is found in a text is found also if more lines follow**, except for blanks, of which more
may follow. -/
theorem next?_append {c : Char} {found : Found} (hgap : isGap c = false) (h : Seam (c :: w) q)
    (hcomment : ¬['/', '*'] <+: c :: w) (hnext : next? (c :: w) = some (found, n)) :
    next? (c :: w ++ q) = some (found, n) := by
  by_cases hquote : c = '"' ∨ c = '\''
  · exact next?_quoted hquote h hnext
  · rw [not_or] at hquote
    rw [next?_plain hgap hquote.1 hquote.2 h hcomment, hnext]

/-! ## Texts -/

theorem lexFrom_run (pos : Pos) (offset : Nat) (cs : List Char) :
    lexFrom pos offset (run isGap cs) cs = lexFrom pos offset 0 cs := by
  cases cs with
  | nil => rfl
  | cons c cs =>
    rw [run_cons]
    split
    · next hc =>
      rw [lexFrom, lexFrom, next?_gap hc]
      rfl
    · rfl

theorem lexFrom_gap {c : Char} (hc : isGap c) (pos : Pos) (offset : Nat) (cs : List Char) :
    lexFrom pos offset 0 (c :: cs) = lexFrom (pos.after c) (offset + 1) 0 cs := by
  rw [lexFrom, next?_gap hc]
  exact lexFrom_run _ _ cs

/-- **The tokens of a text do not change when more lines follow**, and the tokens of those lines
follow them. -/
theorem lexFrom_append {pos : Pos} {offset skip : Nat} (h : Seam w q)
    (hcomment : ¬['/', '*'] <:+: w) (hskip : skip ≤ w.length)
    (hok : (lexFrom pos offset skip w).failure = none) :
    lexFrom pos offset skip (w ++ q) =
      ⟨(lexFrom pos offset skip w).tokens ++
          (lexFrom (pos.advance w) (offset + w.length) 0 q).tokens,
        (lexFrom (pos.advance w) (offset + w.length) 0 q).failure⟩ := by
  induction w generalizing pos offset skip with
  | nil =>
    obtain rfl : skip = 0 := by simpa using hskip
    simp [lexFrom]
  | cons c w ih =>
    have hcomment' : ¬['/', '*'] <:+: w := fun hw => hcomment (hw.trans (suffix_cons c w).isInfix)
    have hlater : ∀ {skip}, skip ≤ w.length →
        (lexFrom (pos.after c) (offset + 1) skip w).failure = none →
        lexFrom (pos.after c) (offset + 1) skip (w ++ q) =
          ⟨(lexFrom (pos.after c) (offset + 1) skip w).tokens ++
              (lexFrom (pos.advance (c :: w)) (offset + (c :: w).length) 0 q).tokens,
            (lexFrom (pos.advance (c :: w)) (offset + (c :: w).length) 0 q).failure⟩ := by
      intro skip hskip hok
      rw [ih h.tail hcomment' hskip hok, Pos.advance_cons, length_cons, Nat.add_assoc,
        Nat.add_comm 1]
    cases skip with
    | succ skip => exact hlater (by simpa using hskip) hok
    | zero =>
      by_cases hgap : isGap c
      · rw [lexFrom_gap hgap] at hok ⊢
        rw [cons_append, lexFrom_gap hgap]
        exact hlater (Nat.zero_le _) hok
      · rw [Bool.not_eq_true] at hgap
        rw [lexFrom] at hok ⊢
        rw [cons_append, lexFrom]
        cases hnext : next? (c :: w) with
        | none => simp [hnext] at hok
        | some found =>
          obtain ⟨found, n⟩ := found
          have hle := next?_le hnext
          have hsame := next?_append hgap h (fun hw => hcomment hw.isInfix) hnext
          have htake : (c :: (w ++ q)).take n = (c :: w).take n := by
            rw [← cons_append, take_append_of_le_length hle]
          have hskip : n - 1 ≤ w.length := by
            rw [length_cons] at hle
            omega
          rw [cons_append] at hsame
          rw [hnext] at hok
          simp only [hsame, htake]
          cases found with
          | gap => exact hlater hskip hok
          | word kind => rw [hlater hskip hok, cons_append]

end Yielding.Lexer
