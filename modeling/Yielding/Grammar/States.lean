import Yielding.Grammar.Rule

/-!
# Grammar/States — sets of places inside rules

While a text is read from left to right, what matters of the past is the set of **places** the
reader may be at: a place is a rule together with the number of its parts already read.  The places
of all rules are numbered so that reading one more part adds one, and a set of places is a number
whose bits are its members.  Moving a set over a symbol is then a mask and a shift.
-/

namespace Yielding.Grammar

/-- A rule with its number and the number of its first place. -/
structure Placed where
  rule : Rule
  index : Nat
  base : Nat
deriving Repr

def Placed.stop (p : Placed) : Nat := p.base + p.rule.parts.length

/-- Numbers the places of rules, from `base` on; the rules are numbered from `index` on. -/
def place (index base : Nat) : List Rule → List Placed
  | [] => []
  | r :: rs => ⟨r, index, base⟩ :: place (index + 1) (base + r.parts.length + 1) rs

def placesBefore (x : Symbol) : (start : Nat) → List Part → Nat
  | _, [] => 0
  | start, p :: ps =>
    (if p.symbol = x then 1 <<< start else 0) ||| placesBefore x (start + 1) ps

/-- The sets of places of a grammar that the moves are made of. -/
structure Layout where
  rules : List Placed
  /-- The places right before a terminal. -/
  beforeTerminal : List (Terminal × Nat)
  /-- The places right before a category, and the first places of the rules that can begin it. -/
  beforeCategory : List (Category × Nat × Nat)

namespace Layout

def allBefore (rules : List Placed) (x : Symbol) : Nat :=
  rules.foldl (fun s p => s ||| placesBefore x p.base p.rule.parts) 0

def firstPlaces (rules : List Placed) (c : Category) : Nat :=
  rules.foldl (fun s p => if p.rule.result = c then s ||| 1 <<< p.base else s) 0

/-- Adds to a set the entries whose mask it meets. -/
def addEntries (entries : List (Category × Nat × Nat)) (s : Nat) : Nat :=
  entries.foldl (fun t (_, mask, places) => if s &&& mask = 0 then t else t ||| places) s

/-- Applies `addEntries` until nothing changes, at most `fuel` times. -/
def saturate (entries : List (Category × Nat × Nat)) : (fuel : Nat) → Nat → Nat
  | 0, s => s
  | fuel + 1, s =>
    let t := addEntries entries s
    if t = s then s else saturate entries fuel t

def ofRules (rules : List Rule) : Layout :=
  let placed := place 0 0 rules
  let direct := Category.all.map fun c =>
    (c, allBefore placed (.category c), firstPlaces placed c)
  { rules := placed
    beforeTerminal := Terminal.all.map fun t => (t, allBefore placed (.terminal t))
    beforeCategory := direct.map fun (c, mask, places) =>
      (c, mask, saturate direct Category.all.length places) }

def closure (l : Layout) (s : Nat) : Nat := addEntries l.beforeCategory s

end Layout

/-- Where reading each symbol leads from a set of places. -/
structure Moves where
  shifts : List (Terminal × Nat)
  gotos : List (Category × Nat)
deriving Repr

/-- The moves out of the set `s`: for each symbol that can come next, the set after it. -/
def Layout.moves (l : Layout) (s : Nat) : Moves :=
  let all := l.closure s
  let move (mask : Nat) : Option Nat :=
    match all &&& mask with
    | 0 => none
    | next + 1 => some ((next + 1) <<< 1)
  { shifts := l.beforeTerminal.filterMap fun (t, mask) => (move mask).map (t, ·)
    gotos := l.beforeCategory.filterMap fun (c, mask, _) => (move mask).map (c, ·) }

/-! ## The states that can be reached -/

/-- The members of `news` that `seen` lacks, each once. -/
def unseen (seen news : List Nat) : List Nat :=
  news.foldl (fun found s => if seen.contains s || found.contains s then found else found ++ [s]) []

/-- Collects the sets that moves lead to, with the moves out of each.  The sets of `queue` are still
to be looked at, and `seen` holds every set met so far. -/
def Layout.explore (l : Layout) : (fuel : Nat) → (seen queue : List Nat) → List (Nat × Moves)
  | 0, _, _ => []
  | _, _, [] => []
  | fuel + 1, seen, s :: queue =>
    let moves := l.moves s
    let news := unseen seen (moves.shifts.map Prod.snd ++ moves.gotos.map Prod.snd)
    (s, moves) :: explore l fuel (seen ++ news) (queue ++ news)

def Layout.placeCount (l : Layout) : Nat :=
  l.rules.foldr (fun p count => p.rule.parts.length + 1 + count) 0

/-- The sets of places that reading a text from its start can lead to, first of all the set it
starts in.  There are no more of them than sets of places. -/
def Layout.states (l : Layout) : List (Nat × Moves) := l.explore (1 <<< l.placeCount) [1] [1]

end Yielding.Grammar
