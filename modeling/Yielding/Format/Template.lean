import Yielding.Text.Digit

/-!
# Format/Template — texts with holes

A template is a row of **pieces**: characters that stand for themselves, and fields in braces, which
have a name, an optional conversion after `!` and an optional specification after `:`.  Two equal
braces in a row stand for one.  A template that goes wrong somewhere has all its pieces up to there,
and then `broken`.
-/

namespace Yielding.Format

/-- A hole of a template. -/
structure Field where
  name : List Char
  conversion : Option Char
  spec : List Char
deriving DecidableEq, Repr

/-- A piece of a template: a character, a field to fill, or a place where the template is malformed.
-/
inductive Piece
  | char (c : Char)
  | field (field : Field)
  | broken
deriving DecidableEq, Repr

/-- The name of a field, the character that ends it, and what follows.  Within square brackets no
character ends the name. -/
def scanName : (bracketed : Bool) → List Char → List Char × Option Char × List Char
  | _, [] => ([], none, [])
  | bracketed, c :: cs =>
    if !bracketed && (c = '\x7b' || c = '\x7d' || c = ':' || c = '!') then ([], some c, cs)
    else
      let (name, stop, rest) := scanName (if bracketed then c ≠ ']' else c = '[') cs
      (c :: name, stop, rest)

/-- A specification inside `depth` braces, up to the brace that closes the last of them, and what
follows. -/
def scanSpec : (depth : Nat) → List Char → Option (List Char × List Char)
  | _, [] => none
  | depth, c :: cs =>
    if c = '\x7d' && depth = 0 then some ([], cs)
    else
      let depth := if c = '\x7b' then depth + 1 else if c = '\x7d' then depth - 1 else depth
      (scanSpec depth cs).map fun (spec, rest) => (c :: spec, rest)

/-- Reads a field after its opening brace. -/
def scanField (cs : List Char) : Option (Field × List Char) :=
  match scanName false cs with
  | (name, some '\x7d', rest) => some (⟨name, none, []⟩, rest)
  | (name, some ':', rest) =>
    (scanSpec 0 rest).map fun (spec, rest) => (⟨name, none, spec⟩, rest)
  | (name, some '!', conversion :: '\x7d' :: rest) => some (⟨name, some conversion, []⟩, rest)
  | (name, some '!', conversion :: ':' :: rest) =>
    (scanSpec 0 rest).map fun (spec, rest) => (⟨name, some conversion, spec⟩, rest)
  | _ => none

/-! Reading a field leaves no more than there was. -/

theorem length_scanName (bracketed : Bool) (cs : List Char) :
    (scanName bracketed cs).2.2.length ≤ cs.length := by
  induction cs generalizing bracketed with
  | nil => simp [scanName]
  | cons c cs ih =>
    rw [scanName]
    split
    · simp
    · exact Nat.le_succ_of_le (ih _)

theorem length_scanSpec {depth : Nat} {cs : List Char} {r : List Char × List Char}
    (h : scanSpec depth cs = some r) : r.2.length ≤ cs.length := by
  induction cs generalizing depth r with
  | nil => simp [scanSpec] at h
  | cons c cs ih =>
    rw [scanSpec] at h
    split at h
    · cases h; simp
    · obtain ⟨q, hq, rfl⟩ := Option.map_eq_some_iff.1 h
      have := ih hq
      simp only [List.length_cons]
      omega

theorem length_scanField {cs : List Char} {r : Field × List Char}
    (h : scanField cs = some r) : r.2.length ≤ cs.length := by
  have hn := length_scanName false cs
  unfold scanField at h
  split at h
  all_goals try rename_i hs; rw [hs] at hn; simp only at hn
  · cases h; simpa using hn
  · obtain ⟨q, hq, rfl⟩ := Option.map_eq_some_iff.1 h
    exact Nat.le_trans (length_scanSpec hq) hn
  · cases h; simp only [List.length_cons] at hn; simp only; omega
  · obtain ⟨q, hq, rfl⟩ := Option.map_eq_some_iff.1 h
    have := length_scanSpec hq
    simp only [List.length_cons] at hn
    simp only
    omega
  · simp at h

def pieces : List Char → List Piece
  | [] => []
  | '\x7b' :: '\x7b' :: cs => .char '\x7b' :: pieces cs
  | '\x7d' :: '\x7d' :: cs => .char '\x7d' :: pieces cs
  | c :: cs =>
    if c = '\x7d' then [.broken]
    else if c = '\x7b' then
      match _h : scanField cs with
      | some (field, rest) => .field field :: pieces rest
      | none => [.broken]
    else .char c :: pieces cs
termination_by cs => cs.length
decreasing_by
  · simp only [List.length_cons]; omega
  · simp only [List.length_cons]; omega
  · exact Nat.lt_succ_of_le (length_scanField _h)
  · exact Nat.lt_succ_self _

/-! ## Names of fields -/

/-- One step from an argument to what a hole names. -/
inductive Step
  | attr (name : List Char)
  | item (key : List Char)
  | broken
deriving DecidableEq, Repr

/-- The steps after the first part of a field's name, each read up to the next.  After a closing
bracket only another step may follow. -/
def steps : List Char → List Step
  | [] => []
  | '.' :: cs =>
    match cs.takeWhile fun c => c ≠ '.' && c ≠ '[' with
    | [] => [.broken]
    | name => .attr name :: steps (cs.drop name.length)
  | '[' :: cs =>
    match cs.takeWhile (· ≠ ']') with
    | [] => [.broken]
    | key =>
      if key.length = cs.length then [.broken] else .item key :: steps (cs.drop (key.length + 1))
  | _ :: _ => [.broken]
termination_by cs => cs.length
decreasing_by
  all_goals simp only [List.length_cons, List.length_drop]
  all_goals omega

/-- The first part of a field's name, and the steps after it. -/
def splitName (name : List Char) : List Char × List Step :=
  let isStep (c : Char) : Bool := c == '.' || c == '['
  (name.takeWhile fun c => !isStep c, steps (name.dropWhile fun c => !isStep c))

end Yielding.Format
