import Yielding.Borrow.Walk
import Yielding.Item.Parsing
import Yielding.Legality.Flow
import Yielding.Lowering.Body
import Yielding.Script.Item
import Yielding.Typing.Yields

/-!
# Expansion/Basic — from a source text to the generated module

Expansion parses the items of a text, checks them, lowers them and writes their module.  An error
stops it after the phase that found it; whatever else was found is carried along.
-/

namespace Yielding

/-- The findings of every check, one after the other; none hides another. -/
def Definition.validate (file : Option String) (d : Definition) : List Diagnostic :=
  Legality.check file d ++ Typing.checkYields file d ++ Typing.checkReturns file d ++
    Borrow.checkEscapes file d

/-! ## From a source text to the generated module -/

/-- The outcome of an expansion: the generated text unless there was an error, everything that was
reported, and the definitions that were parsed. -/
structure Expansion where
  code : Option String
  diagnostics : List Diagnostic
  definitions : List Definition

namespace Expansion

def anonymous : String := "<source>"

/-- The module of definitions that passed all checks. -/
def generate (o : Script.Options) (file : String) (ds : List Definition) :
    Except Script.Failure String :=
  let o := { o with sourceName := some (o.sourceName.getD file) }
  Script.moduleText o (ds.map Definition.lower)

/-- The expansion of a source. -/
def ofSource (o : Script.Options) (file source : String) : Except Script.Failure Expansion := do
  if (parseItems source).breaksOff then throw .oversized
  let (definitions, parsing) := parseReport (some file) source
  if hasErrors parsing then return ⟨none, parsing, definitions⟩
  let diagnostics := parsing ++ definitions.flatMap (Definition.validate (some file))
  if hasErrors diagnostics then return ⟨none, diagnostics, definitions⟩
  let code ← generate o file definitions
  return ⟨some code, diagnostics, definitions⟩

/-- The names of the definitions, each once and at its first place. -/
def names (e : Expansion) : List String := (e.definitions.map Definition.name).eraseDups

end Expansion

/-- Why a source text gives no module, or not the one that was asked for. -/
inductive Refusal
  | invalid (failure : ExpansionFailure)
  | script (failure : Script.Failure)
  | notSingle (count : Nat)
deriving DecidableEq, Repr

/-- The message of a refusal to choose one item. -/
def Refusal.notSingleMessage (count : Nat) : String :=
  "expected exactly one iterator item, found " ++ toString count

def expandValid (o : Script.Options) (file source : String) :
    Except Refusal (String × Expansion) := do
  match Expansion.ofSource o file source with
  | .error failure => throw (.script failure)
  | .ok e =>
    match e.code with
    | some code => return (code, e)
    | none => throw (.invalid ⟨e.diagnostics⟩)

def loadedNames (o : Script.Options) (file source : String) : Except Refusal (List String) := do
  let (_, e) ← expandValid o file source
  return e.names

def singleName (o : Script.Options) (file source : String) : Except Refusal String := do
  match ← loadedNames o file source with
  | [name] => return name
  | names => throw (.notSingle names.length)

end Yielding
