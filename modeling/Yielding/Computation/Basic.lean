/-!
# Computation/Basic — bodies that are resumed step by step

A **body** runs in segments.  Each segment ends in a value that the body yields, in its completion
or in an error, and the next one begins with what the body receives.  On its way a segment may leave
notes, call its own computation, and pause for something else to happen first.

A body is run by a **generator**, which lets no sign of an end out of the body.  A **computation**
owns one generator.  Only one resumption can be under way at a time; once the body has come to its
end, or the computation was closed, every further one reports completion.
-/

namespace Yielding

/-- Why a resumption or a closing fails. -/
inductive Interruption (ε : Type)
  /-- Another resumption is under way. -/
  | concurrent
  /-- The sign by which a plain generator says that it has come to its end. -/
  | stop
  /-- The sign by which an awaited one does. -/
  | asyncStop
  /-- The sign to a body that it is to leave. -/
  | exit
  /-- A body let the sign of an end escape, or did not leave when it was told to. -/
  | misuse
  /-- Any other error of a body. -/
  | error (error : ε)
deriving DecidableEq, Repr

/-- The message about a resumption while another one is under way. -/
def concurrentMessage : String := "computation resumed while it is already running"

/-- What a resumption comes to. -/
inductive Reply (α ε : Type)
  | yielded (value : α)
  | completed
  | failed (reason : Interruption ε)
deriving DecidableEq, Repr, Inhabited

/-- What a body receives where it waits: what is sent to it, if anything is, or the sign to
leave. -/
inductive Signal (α : Type)
  | sent (value : Option α)
  | exit

/-- How a segment ends.  `σ` is where a body can be between two segments. -/
inductive Ending (σ α ε : Type)
  /-- In a value; what the body then receives says where it goes on. -/
  | yields (value : α) (next : Signal α → σ)
  | finishes
  | fails (reason : Interruption ε)

/-- What a body does from where it goes on to where it waits or ends. -/
inductive Segment (σ α ε : Type)
  | done (ending : Ending σ α ε)
  /-- Leaves a note. -/
  | note (text : String) (next : Segment σ α ε)
  /-- Resumes its own computation, and goes on with the reply. -/
  | reenter (next : Reply α ε → Segment σ α ε)
  /-- Closes its own computation, which does not end the segment. -/
  | close (next : Segment σ α ε)
  /-- Lets others go first. -/
  | pause (next : Segment σ α ε)

abbrev Body (σ α ε : Type) := σ → Segment σ α ε

/-- Where a body is when none of its segments is under way. -/
inductive Place (σ α : Type)
  | start (state : σ)
  | waiting (next : Signal α → σ)
  | gone

variable {σ α ε : Type}

/-- Where a body is after a segment. -/
def Ending.place : Ending σ α ε → Place σ α
  | yields _ next => .waiting next
  | finishes | fails _ => .gone

def Ending.isLast : Ending σ α ε → Bool
  | yields .. => false
  | finishes | fails _ => true

/-! ## Generators -/

/-- The kinds of generators: one runs its body at once, the other is awaited. -/
inductive Generator
  | plain | awaited
deriving DecidableEq, Repr

namespace Generator

/-- The sign by which a generator says that it has come to its end. -/
def sign : Generator → Interruption ε
  | plain => .stop
  | awaited => .asyncStop

def isSign : Generator → Interruption ε → Bool
  | plain, .stop | awaited, .asyncStop => true
  | _, _ => false

/-- What a generator makes of an error of its body.  No generator lets `stop` out, and none its own
sign. -/
def passes (g : Generator) : Interruption ε → Interruption ε
  | .stop => .misuse
  | reason => if g.isSign reason then .misuse else reason

/-- What a generator gives for a segment of its body. -/
def gives (g : Generator) : Ending σ α ε → Except (Interruption ε) α
  | .yields value _ => .ok value
  | .finishes => .error g.sign
  | .fails reason => .error (g.passes reason)

/-- The reply of a resumption for what the generator gives: its sign is the completion. -/
def reply (g : Generator) (e : Ending σ α ε) : Reply α ε :=
  match g.gives e with
  | .ok value => .yielded value
  | .error reason => if g.isSign reason then .completed else .failed reason

/-- What a closing raises for how the body leaves, if it raises anything. -/
def leftover? (g : Generator) (e : Ending σ α ε) : Option (Interruption ε) :=
  match g.gives e with
  | .ok _ => some .misuse
  | .error .exit => none
  | .error reason => if g.isSign reason then none else some reason

end Generator

/-! ## Computations -/

/-- One run of a body. -/
structure Computation (σ α : Type) where
  place : Place σ α
  started : Bool
  running : Bool
  finished : Bool
  notes : List String

namespace Computation

/-- A computation of a body that has not started. -/
def create (state : σ) : Computation σ α := ⟨.start state, false, false, false, []⟩

/-- What a resumption comes to without running the body, if it does. -/
def refuse? (c : Computation σ α) : Option (Reply α ε) :=
  if c.finished then some .completed
  else if c.running then some (.failed .concurrent)
  else none

/-- Runs a segment to its end, through all its pauses. -/
def complete : Segment σ α ε → Computation σ α → Ending σ α ε × Computation σ α
  | .done e, c => (e, c)
  | .note text next, c => complete next { c with notes := c.notes ++ [text] }
  | .reenter next, c => complete (next (c.refuse?.getD (.failed .concurrent))) c
  | .close next, c => complete next { c with finished := true }
  | .pause next, c => complete next c

/-- A computation after a resumption: nothing is under way any more. -/
def settle (c : Computation σ α) (e : Ending σ α ε) : Computation σ α :=
  { c with place := e.place, started := true, running := false, finished := c.finished || e.isLast }

/-- What a resumption with a value sends to the body.  Before the body has started there is nothing
that could receive the value, so nothing is sent. -/
def sent (c : Computation σ α) (value : α) : Option α := if c.started then some value else none

/-- The segment that begins when the body receives a signal; there is none left at its end. -/
def segment (body : Body σ α ε) (c : Computation σ α) (signal : Signal α) : Segment σ α ε :=
  match c.place with
  | .start state => body state
  | .waiting next => body (next signal)
  | .gone => .done .finishes

/-- The computation and the reply at the end of a segment. -/
def conclude (g : Generator) (s : Segment σ α ε) (c : Computation σ α) :
    Reply α ε × Computation σ α :=
  (g.reply (complete s c).1, (complete s c).2.settle (complete s c).1)

/-- Resumes the body, and runs it to its reply. -/
def resume (g : Generator) (body : Body σ α ε) (c : Computation σ α) (value : α) :
    Reply α ε × Computation σ α :=
  match c.refuse? with
  | some reply => (reply, c)
  | none => conclude g (segment body c (.sent (c.sent value))) { c with running := true }

/-- The computation, and what a closing raises, at the end of the segment in which a body leaves. -/
def leave (g : Generator) (s : Segment σ α ε) (c : Computation σ α) :
    Option (Interruption ε) × Computation σ α :=
  (g.leftover? (complete s c).1, { (complete s c).2 with place := (complete s c).1.place })

/-- Closes the computation.  A body that waits is told to leave, and runs once more. -/
def close (g : Generator) (body : Body σ α ε) (c : Computation σ α) :
    Option (Interruption ε) × Computation σ α :=
  match c.place with
  | .waiting next => leave g (body (next .exit)) { c with finished := true }
  | _ => (none, { c with place := .gone, finished := true })

/-! ## Resumptions that pause -/

/-- How far a resumption has come: to its reply, or to a pause before the rest of the segment. -/
inductive Progress (σ α ε : Type)
  | settled (reply : Reply α ε)
  | pending (rest : Segment σ α ε)

/-- Runs a segment up to its next pause. -/
def advance (g : Generator) : Segment σ α ε → Computation σ α → Progress σ α ε × Computation σ α
  | .done e, c => (.settled (g.reply e), c.settle e)
  | .note text next, c => advance g next { c with notes := c.notes ++ [text] }
  | .reenter next, c => advance g (next (c.refuse?.getD (.failed .concurrent))) c
  | .close next, c => advance g next { c with finished := true }
  | .pause next, c => (.pending next, c)

/-- Begins a resumption. -/
def begin (g : Generator) (body : Body σ α ε) (c : Computation σ α) (value : α) :
    Progress σ α ε × Computation σ α :=
  match c.refuse? with
  | some reply => (.settled reply, c)
  | none => advance g (segment body c (.sent (c.sent value))) { c with running := true }

end Computation

end Yielding
