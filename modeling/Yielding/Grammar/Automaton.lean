import Yielding.Grammar.States

/-!
# Grammar/Automaton — states, lookaheads and actions

The automaton has one **row** for each set of places that can be reached.  A row knows where each
symbol leads and, for each rule that may just have been completed, the terminals that can follow
there: a terminal can follow the category `c` begun in state `p` when it can be read right after
`c`, or when `c` ends a longer phrase begun in some state and the terminal can follow that phrase.
Rows are told apart by their places alone, so what can follow is merged over all the ways of
reaching a row.
-/

namespace Yielding.Grammar

/-- A set of terminals, as the bits of a number. -/
structure TerminalSet where
  bits : Nat
deriving DecidableEq, Repr, Inhabited

namespace TerminalSet

def contains (s : TerminalSet) (t : Terminal) : Bool := s.bits.testBit t.rank

def ofList (ts : List Terminal) : TerminalSet :=
  ⟨ts.foldl (fun bits t => bits ||| 1 <<< t.rank) 0⟩

end TerminalSet

/-- A row of the automaton: where terminals and categories lead, and the rules that may just have
been completed, each with the terminals that can follow it. -/
structure Row where
  shifts : List (Terminal × Nat)
  gotos : List (Category × Nat)
  reductions : List (Rule × TerminalSet)
deriving Repr

/-- The automaton of a grammar: its rows, the first of which it starts in. -/
structure Automaton where
  rows : Array Row

/-! ## Tables of sets

Many sets of terminals are kept side by side in one number, each in a field of fixed width. -/

namespace Fields

def width : Nat := Terminal.all.length

def get (table i : Nat) : Nat := (table >>> (width * i)) % (1 <<< width)

def add (table i bits : Nat) : Nat := table ||| bits <<< (width * i)

end Fields

/-! ## Following a phrase -/

/-- A row whose targets are numbers of rows, without its lookaheads. -/
structure Skeleton where
  places : Nat
  shifts : List (Terminal × Nat)
  /-- For each category the row it leads to and the number of that edge. -/
  gotos : List (Category × Nat × Nat)
deriving Repr

namespace Skeleton

/-- The state that a symbol leads to. -/
def next? (row : Skeleton) : Symbol → Option Nat
  | .terminal t => row.shifts.lookup t
  | .category c => (row.gotos.lookup c).map Prod.fst

def readable (row : Skeleton) : Nat :=
  row.shifts.foldl (fun bits (t, _) => bits ||| 1 <<< t.rank) 0

end Skeleton

/-- Numbers the edges of a list of gotos from `edge` on. -/
def numberGotos (states : List Nat) : (edge : Nat) → List (Category × Nat) →
    List (Category × Nat × Nat)
  | _, [] => []
  | edge, (c, s) :: gotos => (c, states.idxOf s, edge) :: numberGotos states (edge + 1) gotos

def skeletons (states : List Nat) : (edge : Nat) → List (Nat × Moves) → List Skeleton
  | _, [] => []
  | edge, (s, moves) :: rest =>
    { places := s
      shifts := moves.shifts.map fun (t, target) => (t, states.idxOf target)
      gotos := numberGotos states edge moves.gotos } ::
    skeletons states (edge + moves.gotos.length) rest

/-- What the end of a phrase tells: that what follows the edge `outer` also follows the edge
`inner`, or that it follows the completed rule `rule` in the state `state`. -/
inductive Ending
  | inside (inner outer : Nat)
  | completed (state rule outer : Nat)
deriving DecidableEq, Repr

def walk (rows : Array Skeleton) (outer rule : Nat) : (state : Nat) → List Symbol → List Ending
  | state, [] => [.completed state rule outer]
  | state, x :: xs =>
    match rows[state]? with
    | none => []
    | some row =>
      let inner : List Ending :=
        match xs, x with
        | [], .category c =>
          match row.gotos.lookup c with
          | some (_, inner) => [.inside inner outer]
          | none => []
        | _, _ => []
      match row.next? x with
      | some next => inner ++ walk rows outer rule next xs
      | none => inner

def endings (rules : List Placed) (rows : Array Skeleton) : List Ending :=
  (List.range rows.size).flatMap fun state =>
    match rows[state]? with
    | none => []
    | some row => row.gotos.flatMap fun (c, _, edge) =>
      rules.flatMap fun p =>
        if p.rule.result = c then walk rows edge p.index state p.rule.symbols else []

/-- One round: what follows an outer edge is added to what follows the inner one. -/
def spread (ends : List Ending) (table : Nat) : Nat :=
  ends.foldl
    (fun table e =>
      match e with
      | .inside inner outer => Fields.add table inner (Fields.get table outer)
      | .completed .. => table)
    table

/-- Rounds of `spread` until nothing changes, at most `fuel` of them. -/
def spreadAll (ends : List Ending) : (fuel : Nat) → Nat → Nat
  | 0, table => table
  | fuel + 1, table =>
    let next := spread ends table
    if next = table then table else spreadAll ends fuel next

def directFollow (rows : Array Skeleton) : Nat :=
  rows.foldl
    (fun table row => row.gotos.foldl
      (fun table (c, target, edge) =>
        let readable := ((rows[target]?).map Skeleton.readable).getD 0
        let final := if c = .item then 1 <<< Terminal.finish.rank else 0
        Fields.add table edge (readable ||| final))
      table)
    0

/-- The lookaheads of the completed rules of one state. -/
def reductionsOf (rules : List Placed) (ends : List Ending) (follow state places : Nat) :
    List (Rule × TerminalSet) :=
  rules.filterMap fun p =>
    if places.testBit p.stop then
      let bits := ends.foldl
        (fun bits e =>
          match e with
          | .completed s r outer =>
            if s = state && r = p.index then bits ||| Fields.get follow outer else bits
          | .inside .. => bits)
        0
      let final := if p.rule.result = .root then 1 <<< Terminal.finish.rank else 0
      some (p.rule, ⟨bits ||| final⟩)
    else none

/-- The automaton of a list of rules, the first of which is the rule of whole texts. -/
def Automaton.ofRules (rules : List Rule) : Automaton :=
  let layout := Layout.ofRules rules
  let states := layout.states
  let rows := (skeletons (states.map Prod.fst) 0 states).toArray
  let ends := endings layout.rules rows
  let follow := spreadAll ends ends.length (directFollow rows)
  { rows := rows.mapIdx fun i row =>
      { shifts := row.shifts
        gotos := row.gotos.map fun (c, target, _) => (c, target)
        reductions := reductionsOf layout.rules ends follow i row.places } }

/-!
## Running the automaton over tokens

The machine keeps a stack of derivations, each with the state it was entered in.  In the state on
top it either **shifts** the next token, or **reduces**: it replaces the topmost derivations, which
are the parts of a completed rule, by one.  A token with neither is rejected, together with the list
of terminals that the state would have taken.
-/

/-- What an automaton does at a token. -/
inductive Action
  | shift (target : Nat)
  | reduce (rule : Rule)
deriving Repr

def Row.action? (row : Row) (t : Terminal) : Option Action :=
  match row.shifts.lookup t with
  | some target => some (.shift target)
  | none => (row.reductions.find? (·.2.contains t)).map fun (rule, _) => .reduce rule

def Row.expected (row : Row) : List Terminal := Terminal.all.filter fun t => (row.action? t).isSome

/-- A state on the stack, with the tree that led to it. -/
structure Frame where
  state : Nat
  tree : Derivation
deriving Repr

/-- The stack, topmost frame first, and the tokens still to be read. -/
structure Configuration where
  stack : List Frame
  input : List Token
deriving Repr

/-- The row on top of a stack. -/
def topState (stack : List Frame) : Nat := (stack.head?.map Frame.state).getD 0

/-- The derivations of a stack, in the order of their tokens. -/
def trees (stack : List Frame) : List Derivation := stack.reverse.map Frame.tree

def Configuration.state (c : Configuration) : Nat := topState c.stack

/-- Why a row of tokens is not accepted. -/
inductive Rejection
  /-- The next token, or the end of the input, has no action; these terminals have. -/
  | unexpected (token : Option Token) (expected : List Terminal)
  /-- The automaton has no such row or move. -/
  | noMove
  /-- The bound on the number of steps was reached. -/
  | exhausted
deriving Repr

/-- What one step of an automaton leads to. -/
inductive Step
  | next (c : Configuration)
  | accepted (tree : Derivation)
  | rejected (r : Rejection)
deriving Repr

namespace Automaton

/-- Replaces the parts of `rule` on top of the stack by their derivation. -/
def reduce (a : Automaton) (c : Configuration) (rule : Rule) : Step :=
  let tree := Derivation.node rule (trees (c.stack.take rule.parts.length))
  let rest := c.stack.drop rule.parts.length
  if rule.result = .root then .accepted tree
  else
    match (a.rows[topState rest]?).bind (·.gotos.lookup rule.result) with
    | some target => .next ⟨⟨target, tree⟩ :: rest, c.input⟩
    | none => .rejected .noMove

def step (a : Automaton) (c : Configuration) : Step :=
  match a.rows[c.state]? with
  | none => .rejected .noMove
  | some row =>
    match c.input with
    | [] =>
      match row.action? .finish with
      | some (.reduce rule) => a.reduce c rule
      | some (.shift _) => .rejected .noMove
      | none => .rejected (.unexpected none row.expected)
    | token :: rest =>
      match row.action? token.kind with
      | some (.reduce rule) => a.reduce c rule
      | some (.shift target) => .next ⟨⟨target, .leaf token⟩ :: c.stack, rest⟩
      | none => .rejected (.unexpected (some token) row.expected)

def run (a : Automaton) : (fuel : Nat) → Configuration → Except Rejection Derivation
  | 0, _ => .error .exhausted
  | fuel + 1, c =>
    match a.step c with
    | .next c => run a fuel c
    | .accepted tree => .ok tree
    | .rejected r => .error r

/-- A bound on the steps for `n` tokens: a shift for each, and above each token and each branching
at most one reduction per category. -/
def stepBound (n : Nat) : Nat := (n + 1) * (2 * Category.all.length + 2)

/-- The derivation of a whole row of tokens. -/
def parse (a : Automaton) (tokens : List Token) : Except Rejection Derivation :=
  a.run (stepBound tokens.length) ⟨[], tokens⟩

end Automaton

end Yielding.Grammar
