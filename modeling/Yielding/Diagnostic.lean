import Yielding.Source.Position

/-!
# Diagnostic — messages about a source text
-/

namespace Yielding

/-!
## A place in a file, as far as it is known

Every part of a span may be missing.  A missing or empty file is shown as `<unknown>`.
-/

/-- Where a diagnostic points, as far as known. -/
structure Span where
  file : Option String := none
  line : Option Int := none
  column : Option Int := none
  endLine : Option Int := none
  endColumn : Option Int := none
deriving DecidableEq, Repr

namespace Span

def named (file : Option String) : Option String := file.filter (· ≠ "")

def known (n : Option Int) : Option Int := n.filter (0 ≤ ·)

def ofFile (file : Option String) : Span := { file := file }

/-- The span of a place with the given coordinates; negative ones are unknown. -/
def ofCoordinates (file : Option String) (line column endLine endColumn : Option Int) : Span :=
  ⟨named file, known line, known column, known endLine, known endColumn⟩

def ofSite (file : Option String) (s : Site) : Span :=
  { file := named file
    line := some s.start.line
    column := some s.start.column
    endLine := s.stop.map fun p => (p.line : Int)
    endColumn := s.stop.map fun p => (p.column : Int) }

def ofRegion (file : Option String) (r : Region) : Span := ofSite file r.site

/-- The span with its file filled in, if it had none. -/
def within (s : Span) (file : Option String) : Span :=
  match s.file, file with
  | none, some f => { s with file := some f }
  | _, _ => s

/-- `file:line:column`, as far as it is known. -/
def describe (s : Span) : String :=
  let file := (named s.file).getD "<unknown>"
  match s.line, s.column with
  | none, _ => file
  | some line, none => file ++ ":" ++ toString line
  | some line, some column => file ++ ":" ++ toString line ++ ":" ++ toString column

end Span

/-!
## Diagnostics

A diagnostic is an error when its severity says so; everything else is carried along.  A failed
expansion is summed up by its first error and the number of the others.
-/

/-- What kind of rule a diagnostic reports. -/
inductive ErrorKind
  | malformedSignature | malformedBody | multipleYieldedTypes | nonUnitReturn
  | escapingSelfReference
deriving DecidableEq, Repr

def ErrorKind.code : ErrorKind → String
  | malformedSignature => "MalformedSignature"
  | malformedBody => "MalformedBody"
  | multipleYieldedTypes => "MultipleYieldedTypes"
  | nonUnitReturn => "NonUnitReturn"
  | escapingSelfReference => "EscapingSelfReference"

/-- A message with what is known of its origin. -/
structure Diagnostic where
  message : String
  code : Option String := none
  phase : Option String := none
  severity : String := "error"
  span : Span := {}
  notes : List String := []
deriving DecidableEq, Repr

namespace Diagnostic

def isError (d : Diagnostic) : Bool := d.severity == "error"

def ofCheck (kind : ErrorKind) (message : String) (span : Span) (notes : List String) :
    Diagnostic :=
  { message, code := some kind.code, phase := some "validate", span, notes }

/-- The lines of a diagnostic: place, severity and message, then the notes. -/
def render (d : Diagnostic) : String :=
  "\n".intercalate
    ((d.span.describe ++ ": " ++ d.severity ++ ": " ++ d.message) ::
      d.notes.map ("  note: " ++ ·))

end Diagnostic

/-- Whether an error is among the diagnostics. -/
def hasErrors (ds : List Diagnostic) : Bool := ds.any Diagnostic.isError

theorem hasErrors_append (ds es : List Diagnostic) :
    hasErrors (ds ++ es) = (hasErrors ds || hasErrors es) := List.any_append

theorem hasErrors_flatMap {α : Type} (xs : List α) (f : α → List Diagnostic) :
    hasErrors (xs.flatMap f) = xs.any fun x => hasErrors (f x) := List.any_flatMap

/-- A failed expansion, with everything that was reported. -/
structure ExpansionFailure where
  diagnostics : List Diagnostic
deriving DecidableEq, Repr

namespace ExpansionFailure

def errors (f : ExpansionFailure) : List Diagnostic := f.diagnostics.filter Diagnostic.isError

/-- The first error and the number of the others. -/
def message (f : ExpansionFailure) : String :=
  match f.errors with
  | [] => "expansion failed"
  | [d] => d.render
  | d :: ds => d.render ++ " (and " ++ toString ds.length ++ " more error(s))"

def kinds (f : ExpansionFailure) : List String :=
  f.errors.filterMap fun d => d.code.filter (· ≠ "")

end ExpansionFailure

end Yielding
