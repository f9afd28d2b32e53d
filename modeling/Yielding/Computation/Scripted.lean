import Yielding.Computation.Basic
import Yielding.Datum.Session

/-!
# Computation/Scripted — computations whose bodies follow a script

A script is a row of instructions.  A **trial** creates a computation of a script, takes steps with
it, and reports after each of them.
-/

namespace Yielding

/-- The errors of scripted bodies that are no signs. -/
inductive ScriptError
  | panic (text : String)
  | noSuchKey
  | wrongValue (text : String)
  /-- A body closed its own computation while it was running. -/
  | closedWhileRunning
deriving DecidableEq, Repr

/-- What a scripted body does next. -/
inductive Instruction (α : Type)
  | yield (value : α)
  /-- Yields what was received last. -/
  | echo
  /-- Yields its inputs. -/
  | inputs
  | log (text : String)
  | ret
  | raise (reason : Interruption ScriptError)
  /-- Resumes its own computation, and yields the message if it catches the error. -/
  | reenter (catches : Bool)
  | close
  | await (times : Nat)

/-- The instruction with its value written another way. -/
def Instruction.mapM {α β : Type} (f : α → Act β) : Instruction α → Act (Instruction β)
  | yield value => do return yield (← f value)
  | echo => return echo
  | inputs => return inputs
  | log text => return log text
  | ret => return ret
  | raise reason => return raise reason
  | reenter catches => return reenter catches
  | close => return close
  | await times => return await times

/-- Where a scripted body is: what it received last, and what is left of its script. -/
structure ScriptState where
  received : Datum
  rest : List (Instruction Datum)

/-- Where a scripted body goes on before the rest of its script; `None` stands for what is not
received.  A script does not catch the sign to leave. -/
def ScriptState.before (rest : List (Instruction Datum)) : Signal Datum → ScriptState
  | .sent received => ⟨received.getD .none, rest⟩
  | .exit => ⟨.none, [.raise .exit]⟩

def pauses {σ α ε : Type} : Nat → Segment σ α ε → Segment σ α ε
  | 0, s => s
  | n + 1, s => .pause (pauses n s)

def scriptSegment (inputs : List Datum) (received : Datum) :
    List (Instruction Datum) → Segment ScriptState Datum ScriptError
  | [] | .ret :: _ => .done .finishes
  | .yield value :: rest => .done (.yields value (.before rest))
  | .echo :: rest => .done (.yields received (.before rest))
  | .inputs :: rest => .done (.yields (.tuple inputs) (.before rest))
  | .log text :: rest => .note text (scriptSegment inputs received rest)
  | .raise reason :: _ => .done (.fails reason)
  | .reenter catches :: rest => .reenter fun
    | .failed reason => .done <|
      if catches then .yields (.str concurrentMessage) (.before rest) else .fails reason
    | _ => scriptSegment inputs received rest
  | .close :: _ => .close (.done (.fails (.error .closedWhileRunning)))
  | .await times :: rest => pauses times (scriptSegment inputs received rest)

abbrev ScriptBody := Body ScriptState Datum ScriptError

def scriptBody (inputs : List Datum) : ScriptBody :=
  fun state => scriptSegment inputs state.received state.rest

/-! ## Trials -/

/-- What is done with a computation in a trial. -/
inductive TrialStep
  | resume (value : Shape)
  /-- Begins a resumption that may be left pending. -/
  | begin (value : Shape)
  /-- Ends the pending resumption. -/
  | finish
  | close

/-- What a step comes to, with the values written in some way. -/
inductive TrialResult (α : Type)
  | reply (reply : Reply α ScriptError)
  | pending
  | nothingPending
  /-- A closing, with what it raised. -/
  | closed (raised : Option (Interruption ScriptError))

/-- A computation, and the rest of the resumption that is pending. -/
structure Trial where
  computation : Computation ScriptState Datum
  pending : Option (Segment ScriptState Datum ScriptError)

/-- The result of a step and the state of the computation after it. -/
structure TrialReport where
  result : TrialResult Shape
  finished : Bool
  started : Bool
  running : Bool
  log : List String

/-- A result as it is shown. -/
def TrialResult.reveal : TrialResult Datum → Act (TrialResult Shape)
  | reply (.yielded value) => do return reply (.yielded (← Shape.reveal value))
  | reply .completed => return reply .completed
  | reply (.failed reason) => return reply (.failed reason)
  | pending => return pending
  | nothingPending => return nothingPending
  | closed raised => return closed raised

namespace Trial

def step (g : Generator) (body : ScriptBody) (t : Trial) :
    TrialStep → Act (TrialResult Datum × Trial)
  | .resume value => do
    let (reply, c) := t.computation.resume g body (← value.eval [])
    return (.reply reply, { t with computation := c })
  | .begin value => do
    match t.computation.begin g body (← value.eval []) with
    | (.settled reply, c) => return (.reply reply, { t with computation := c })
    | (.pending rest, c) => return (.pending, ⟨c, some rest⟩)
  | .finish =>
    match t.pending with
    | none => return (.nothingPending, t)
    | some rest =>
      let (reply, c) := Computation.conclude g rest t.computation
      return (.reply reply, ⟨c, none⟩)
  | .close =>
    let (raised, c) := t.computation.close g body
    return (.closed raised, { t with computation := c })

def steps (g : Generator) (body : ScriptBody) : List TrialStep → Trial → Act (List TrialReport)
  | [], _ => return []
  | s :: ss, t => do
    let (result, t) ← t.step g body s
    let c := t.computation
    let report := ⟨← result.reveal, c.finished, c.started, c.running, c.notes⟩
    return report :: (← steps g body ss t)

/-- A trial of a script.  A body that cannot suspend is refused. -/
def run (suspends isAsync : Bool) (inputs : List Shape) (script : List (Instruction Shape))
    (todo : List TrialStep) : Except Fault (List TrialReport) :=
  let act : Act (List TrialReport) := do
    unless suspends do throw .wrongType
    let inputs ← Shape.evalRow [] inputs
    let script ← script.mapM (Instruction.mapM (Shape.eval []))
    let g := if isAsync then Generator.awaited else .plain
    steps g (scriptBody inputs) todo ⟨.create ⟨.none, script⟩, none⟩
  (act.run.run .empty).1

end Trial

end Yielding
