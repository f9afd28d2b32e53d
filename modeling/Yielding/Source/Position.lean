/-!
# Source/Position — where a character stands

Lines and columns count from one.  A column is a number of characters, and only a line feed ends a
line.  A **region** runs from the position of its first character to the position right after its
last one; a **site** is a region whose end may be unknown.
-/

namespace Yielding

/-- A line and a column, both counted from one. -/
structure Pos where
  line : Nat
  column : Nat
deriving DecidableEq, Repr, Inhabited

namespace Pos

def first : Pos := ⟨1, 1⟩

/-- The position right after the character `c` standing at `p`. -/
def after (p : Pos) (c : Char) : Pos :=
  if c = '\n' then ⟨p.line + 1, 1⟩ else ⟨p.line, p.column + 1⟩

/-- The position right after the characters `cs` that start at `p`. -/
def advance (p : Pos) (cs : List Char) : Pos := cs.foldl after p

@[simp] theorem advance_nil (p : Pos) : p.advance [] = p := rfl

@[simp] theorem advance_cons (p : Pos) (c : Char) (cs : List Char) :
    p.advance (c :: cs) = (p.after c).advance cs := rfl

theorem advance_append (p : Pos) (cs ds : List Char) :
    p.advance (cs ++ ds) = (p.advance cs).advance ds := List.foldl_append

/-- Reading order: by line, then by column. -/
def before (p q : Pos) : Bool :=
  p.line < q.line || (p.line == q.line && p.column < q.column)

end Pos

/-- A stretch of text: from `start` up to, and without, `stop`. -/
structure Region where
  start : Pos
  stop : Pos
deriving DecidableEq, Repr, Inhabited

/-- Where something stands, if only by its start. -/
structure Site where
  start : Pos
  stop : Option Pos
deriving DecidableEq, Repr

def Region.site (r : Region) : Site := ⟨r.start, some r.stop⟩

def Pos.site (p : Pos) : Site := ⟨p, none⟩

end Yielding
