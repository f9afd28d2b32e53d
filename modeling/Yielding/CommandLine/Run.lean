import Yielding.CommandLine.Arguments
import Yielding.Expansion.Basic
import Yielding.Text.Utf8

/-!
# CommandLine/Run — expanding the sources that were named

All sources are read and expanded first: that gives a **batch** of findings and modules.  Only then
the modules are put out, by **steps**, and there are none if any finding is an error.  The report
comes last.  `run` carries this out on a tree of files.
-/

namespace Yielding.CommandLine

/-! ## Sources -/

/-- A source as it was found: its bytes, or the reason why there are none. -/
structure SourceFile where
  path : Path
  content : Except String (List UInt8)

namespace SourceFile

def text (s : SourceFile) : Except String String :=
  match s.content with
  | .error reason => .error ("cannot read source: " ++ reason)
  | .ok bytes =>
    match Text.ofBytes bytes with
    | .error m => .error ("cannot read source: not valid UTF-8 (" ++ m.fault.message ++
        " at byte " ++ toString m.start ++ ")")
    | .ok text => .ok (String.ofList (Text.feedLines text.toList))

def unreadable (s : SourceFile) (message : String) : Diagnostic :=
  { message, phase := some "driver", span := Span.ofFile (some s.path.text) }

/-- What the generated module of a source is to look like. -/
def options (a : Arguments) (s : SourceFile) : Script.Options :=
  { Script.Options.standard with
    supportModule := a.supportModule, banner := a.banner, sourceName := some s.path.name }

def expand (a : Arguments) (s : SourceFile) :
    Except Script.Failure (List Diagnostic × Option String) :=
  match s.text with
  | .error message => .ok ([s.unreadable message], none)
  | .ok text => do
    let e ← Expansion.ofSource (s.options a) s.path.text text
    return (e.diagnostics, e.code)

end SourceFile

/-! ## Batches -/

/-- What was found in the sources, and the modules generated from them, each with its source. -/
structure Batch where
  findings : List (Diagnostic × Path)
  modules : List (Path × String)
deriving DecidableEq, Repr

namespace Batch

def ofSources (a : Arguments) : List SourceFile → Except Script.Failure Batch
  | [] => .ok ⟨[], []⟩
  | s :: rest => do
    let (diagnostics, code) ← s.expand a
    let batch ← ofSources a rest
    return ⟨diagnostics.map (·, s.path) ++ batch.findings,
      (code.map (s.path, ·)).toList ++ batch.modules⟩

def diagnostics (b : Batch) : List Diagnostic := b.findings.map (·.1)

def failed (b : Batch) : Bool := hasErrors b.diagnostics

def exitCode (b : Batch) : Nat := if b.failed then 1 else 0

end Batch

/-! ## Steps -/

/-- What a run does to the files or prints. -/
inductive Step
  | makeDirectories (path : Path)
  | write (path : Path) (text : String)
  | print (text : String)
deriving DecidableEq, Repr

/-- The name of the file for the module of a source. -/
def moduleName (source : Path) : String :=
  source.stem.map (fun c => if c = '-' then '_' else c) ++ ".py"

/-- The steps for one module. -/
def Arguments.putOut (a : Arguments) (source : Path) (code : String) : List Step :=
  match a.output, a.outDir with
  | some path, _ => [.write path code]
  | none, some dir => [.makeDirectories dir, .write (dir.child (moduleName source)) code]
  | none, none => if a.json then [] else [.print code]

def Arguments.steps (a : Arguments) (b : Batch) : List Step :=
  if b.failed || a.check then [] else b.modules.flatMap fun (source, code) => a.putOut source code

/-! ## Reports -/

def findingRecord (d : Diagnostic) (source : Path) : Text.Record :=
  let text? := Text.Record.ofOption Text.Record.text
  let number? := Text.Record.ofOption Text.Record.number
  .object
    [("phase", text? d.phase), ("code", text? d.code), ("message", .text d.message),
     ("severity", .text d.severity),
     ("file", .text ((d.span.file.filter (· ≠ "")).getD source.text)),
     ("line", number? d.span.line), ("column", number? d.span.column),
     ("notes", .list (d.notes.map .text))]

def Batch.record (b : Batch) : Text.Record :=
  .object
    [("exit_code", .number b.exitCode),
     ("diagnostics", .list (b.findings.map fun (d, source) => findingRecord d source))]

/-- What is printed at the end on the standard output. -/
def Arguments.summary (a : Arguments) (b : Batch) : String :=
  if a.json then b.record.write ++ "\n" else ""

/-- What is printed at the end on the standard error. -/
def Arguments.complaints (a : Arguments) (b : Batch) : String :=
  if a.json then "" else String.join (b.diagnostics.map (·.render ++ "\n"))

/-! ## Runs -/

/-- Why a run breaks off. -/
inductive Breakdown
  | script (failure : Script.Failure)
  | file (problem : FileProblem)
deriving DecidableEq, Repr

/-- What a run leaves: its exit code, what it printed and the files. -/
structure Aftermath where
  exit : Except Breakdown Nat
  stdout : String
  stderr : String
  files : FileTree

def take (files : FileTree) (printed : String) :
    List Step → FileTree × String × Option FileProblem
  | [] => (files, printed, none)
  | .makeDirectories path :: steps =>
    match files.makeDirectories path with
    | .ok files => take files printed steps
    | .error problem => (files, printed, some problem)
  | .write path text :: steps =>
    match files.write path (Text.toBytes text) with
    | .ok files => take files printed steps
    | .error problem => (files, printed, some problem)
  | .print text :: steps => take files (printed ++ text) steps

/-- The sources that are named, read. -/
def Arguments.load (a : Arguments) (files : FileTree) : List SourceFile :=
  a.sources.map fun p => ⟨p, (files.read p).mapError FileProblem.message⟩

/-- **Runs on a tree of files.** -/
def Arguments.run (a : Arguments) (files : FileTree) : Aftermath :=
  match Batch.ofSources a (a.load files) with
  | .error failure => ⟨.error (.script failure), "", "", files⟩
  | .ok batch =>
    match take files "" (a.steps batch) with
    | (files, printed, some problem) => ⟨.error (.file problem), printed, "", files⟩
    | (files, printed, none) =>
      ⟨.ok batch.exitCode, printed ++ a.summary batch, a.complaints batch, files⟩

end Yielding.CommandLine
