import Yielding.CommandLine.Run

/-!
# Main — the command line

Reads the sources that the arguments name, takes the steps of the batch on the real files, and
prints the report.
-/

namespace Yielding.CommandLine

def isDirectoryCode : UInt32 := 21

def readReason : IO.Error → String
  | .noFileOrDirectory .. => FileProblem.missing.message
  | .inappropriateType _ code _ =>
    (if code = isDirectoryCode then FileProblem.isDirectory else .notDirectory).message
  | .permissionDenied .. => "Permission denied"
  | e => toString e

def readSource (path : Path) : IO SourceFile := do
  try
    let bytes ← IO.FS.readBinFile path.text
    return ⟨path, .ok bytes.toList⟩
  catch e => return ⟨path, .error (readReason e)⟩

def Step.perform : Step → IO Unit
  | .makeDirectories path => IO.FS.createDirAll path.text
  | .write path text => IO.FS.writeFile path.text text
  | .print text => IO.print text

/-- Expands the sources and reports; gives the exit code. -/
def Arguments.perform (a : Arguments) : IO UInt32 := do
  match Batch.ofSources a (← a.sources.mapM readSource) with
  | .error .oversized => throw (IO.userError "a number has too many digits")
  | .error .emptyConversion => throw (IO.userError "a conversion has no argument")
  | .error .notLowered => throw (IO.userError "an item is not in lowered form")
  | .ok batch =>
    for step in a.steps batch do step.perform
    IO.print (a.summary batch)
    IO.eprint (a.complaints batch)
    return UInt32.ofNat batch.exitCode

end Yielding.CommandLine

open Yielding.CommandLine in
def main (args : List String) : IO UInt32 := do
  match Request.ofArguments args with
  | .error e =>
    IO.eprint (usage ++ e.line ++ "\n")
    return 2
  | .ok .help =>
    IO.print help
    return 0
  | .ok (.expand a) => a.perform
