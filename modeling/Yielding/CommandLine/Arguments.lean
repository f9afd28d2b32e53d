import Yielding.File.Tree
import Yielding.Script.Item

/-!
# CommandLine/Arguments — what the command line asks for

Every argument is first a **word**: an option, a separator or a plain text.  Options may be
abbreviated as long as one name alone begins that way, and may carry their value after an equals
sign or, for the short ones, right behind the letter.  The first run of plain words names the
sources; later ones are left over, and leftovers are refused last.
-/

namespace Yielding.CommandLine

/-- The options of the command line. -/
inductive Flag
  | help | output | outDir | check | json | supportModule | noBanner
deriving DecidableEq, Repr

namespace Flag

def names : Flag → List String
  | help => ["-h", "--help"]
  | output => ["-o", "--output"]
  | outDir => ["--out-dir"]
  | check => ["--check"]
  | json => ["--json"]
  | supportModule => ["--runtime-module"]
  | noBanner => ["--no-header"]

def takesValue : Flag → Bool
  | output | outDir | supportModule => true
  | help | check | json | noBanner => false

def all : List Flag := [help, output, outDir, check, json, supportModule, noBanner]

def table : List (String × Flag) := all.flatMap fun f => f.names.map (·, f)

end Flag

/-- Why the arguments are refused. -/
inductive UsageError
  | ambiguous (word : String) (names : List String)
  | unwantedValue (flag : Flag) (value : String)
  | missingValue (flag : Flag)
  | noSource
  | leftover (words : List String)
  | twoTargets
  | severalForOutput
  | severalWithoutDirectory
deriving DecidableEq, Repr

namespace UsageError

/-- The reason, with the option it concerns in front. -/
def about (flag : Flag) (reason : String) : String :=
  "argument " ++ "/".intercalate flag.names ++ ": " ++ reason

def message : UsageError → String
  | ambiguous word names =>
    "ambiguous option: " ++ word ++ " could match " ++ ", ".intercalate names
  | unwantedValue flag value => about flag ("ignored explicit argument " ++ Text.quoted value)
  | missingValue flag => about flag "expected one argument"
  | noSource => "the following arguments are required: source"
  | leftover words => "unrecognized arguments: " ++ " ".intercalate words
  | twoTargets => "-o/--output and --out-dir are mutually exclusive"
  | severalForOutput => "-o/--output needs exactly one source"
  | severalWithoutDirectory => "several sources need --out-dir (or --check)"

def line (e : UsageError) : String := "iterator_item: error: " ++ e.message

end UsageError

/-! ## Words -/

/-- An argument by its role.  An option has the name it was found by and the value attached to it;
an unknown one has neither. -/
inductive Word
  | plain (text : String)
  | separator
  | option (flag : Flag) (name : String) (value : Option String)
  | unknown (text : String)
deriving DecidableEq, Repr

/-- The text of a word that is not an option of the table. -/
def Word.text : Word → String
  | plain text | unknown text => text
  | separator => "--"
  | option _ name _ => name

/-- A text up to its first equals sign, and what follows the sign. -/
def splitEquals (cs : List Char) : List Char × Option (List Char) :=
  (cs.takeWhile (· ≠ '='), match cs.dropWhile (· ≠ '=') with
    | [] => none
    | _ :: value => some value)

/-- The options that an abbreviation may stand for, with their values.  A single dash is followed by
a letter and its value; after two dashes stand the first letters of a name. -/
def candidates (cs : List Char) : List (Flag × String × Option String) :=
  match cs with
  | '-' :: '-' :: _ =>
    let (start, value) := splitEquals cs
    Flag.table.filterMap fun (name, flag) =>
      if start.isPrefixOf name.toList then some (flag, name, value.map String.ofList) else none
  | '-' :: c :: value =>
    Flag.table.filterMap fun (name, flag) =>
      if name = String.ofList ['-', c] then some (flag, name, some (String.ofList value)) else none
  | _ => []

/-- A text without the line feed at its end. -/
def dropLineFeed (cs : List Char) : List Char :=
  if cs.getLast? = some '\n' then cs.dropLast else cs

/-- Whether a text is a negative number: digits after the sign, with a point before the last ones
or nowhere.  A line feed at the end does not count. -/
def isNegativeNumber : List Char → Bool
  | '-' :: cs =>
    let cs := dropLineFeed cs
    match cs.dropWhile Text.isDecimalDigit with
    | [] => !cs.isEmpty
    | '.' :: ds => !ds.isEmpty && ds.all Text.isDecimalDigit
    | _ => false
  | _ => false

/-- The role of an argument before any separator. -/
def classify (arg : String) : Except UsageError Word :=
  let cs := arg.toList
  if cs.head? ≠ some '-' then .ok (.plain arg)
  else match Flag.table.lookup arg with
  | some flag => .ok (.option flag arg none)
  | none =>
    if cs.length = 1 then .ok (.plain arg)
    else
      let (start, value) := splitEquals cs
      let name := String.ofList start
      match value, Flag.table.lookup name with
      | some value, some flag => .ok (.option flag name (some (String.ofList value)))
      | _, _ =>
        match candidates cs with
        | [(flag, name, value)] => .ok (.option flag name value)
        | [] =>
          if isNegativeNumber cs || cs.contains ' ' then .ok (.plain arg) else .ok (.unknown arg)
        | found => .error (.ambiguous arg (found.map (·.2.1)))

/-- The roles of all arguments; behind a separator every one is plain. -/
def words : List String → Except UsageError (List Word)
  | [] => .ok []
  | arg :: args =>
    if arg = "--" then .ok (.separator :: args.map .plain)
    else do
      let word ← classify arg
      return word :: (← words args)

/-! ## Settings -/

/-- What a command line asks for. -/
structure Arguments where
  sources : List Path
  output : Option Path
  outDir : Option Path
  check : Bool
  json : Bool
  supportModule : String
  banner : Bool
deriving DecidableEq, Repr

/-- What was read so far: the sources once they were found, and the words left over. -/
structure Reading where
  settings : Arguments
  found : Bool
  leftover : List String
deriving DecidableEq, Repr

namespace Reading

def start : Reading :=
  ⟨⟨[], none, none, false, false, Script.Options.standard.supportModule, true⟩, false, []⟩

/-- Takes a run of words between options: the sources, if there is a plain word and they were not
found before. -/
def takeRun (r : Reading) (run : List Word) : Reading :=
  if !r.found && run.any (· ≠ .separator) then
    let texts := (run.filter (· ≠ .separator)).map Word.text
    { r with settings.sources := texts.map Path.ofString, found := true }
  else { r with leftover := r.leftover ++ run.map Word.text }

/-- Takes an option with its value, which is empty for those that have none. -/
def takeFlag (r : Reading) (value : String) : Flag → Reading
  | .help => r
  | .output => { r with settings.output := some (Path.ofString value) }
  | .outDir => { r with settings.outDir := some (Path.ofString value) }
  | .check => { r with settings.check := true }
  | .json => { r with settings.json := true }
  | .supportModule => { r with settings.supportModule := value }
  | .noBanner => { r with settings.banner := false }

end Reading

/-- What to do: show the help, or expand sources. -/
inductive Request
  | help
  | expand (arguments : Arguments)
deriving DecidableEq, Repr

/-- How an option goes on: it is complete with a value, or it takes the next word.  The options
named by letters before it come first. -/
inductive Completion
  | complete (earlier : List Flag) (flag : Flag) (value : String)
  | takesNext (earlier : List Flag) (flag : Flag)
deriving DecidableEq, Repr

/-- Completes an option from the text attached to it.  Behind the letter of an option without a
value, another letter may follow. -/
def attach (earlier : List Flag) (flag : Flag) (isLetter : Bool) :
    List Char → Except UsageError Completion
  | [] =>
    if flag.takesValue then .ok (.complete earlier flag "") else .error (.unwantedValue flag "")
  | c :: cs =>
    if flag.takesValue then .ok (.complete earlier flag (String.ofList (c :: cs)))
    else if !isLetter then .error (.unwantedValue flag (String.ofList (c :: cs)))
    else match Flag.table.lookup (String.ofList ['-', c]) with
      | none => .error (.unwantedValue flag (String.ofList (c :: cs)))
      | some next =>
        if cs.isEmpty then
          if next.takesValue then .ok (.takesNext (earlier ++ [flag]) next)
          else .ok (.complete (earlier ++ [flag]) next "")
        else attach (earlier ++ [flag]) next true cs

def completion (flag : Flag) (name : String) : Option String → Except UsageError Completion
  | some value => attach [] flag ((name.toList[1]?).any (· ≠ '-')) value.toList
  | none => .ok (if flag.takesValue then .takesNext [] flag else .complete [] flag "")

/-- Takes the words in order; `run` holds those since the last option.  The result is nothing as
soon as help is asked for. -/
def takeWords (r : Reading) (run : List Word) : List Word → Except UsageError (Option Reading)
  | [] => .ok (some (r.takeRun run))
  | .unknown text :: rest =>
    let r := r.takeRun run
    takeWords { r with leftover := r.leftover ++ [text] } [] rest
  | .option flag name value :: rest =>
    let r := r.takeRun run
    match completion flag name value with
    | .error e => .error e
    | .ok (.complete earlier flag value) =>
      let flags := earlier ++ [flag]
      if flags.contains .help then .ok none
      else takeWords (flags.foldl (fun r f => r.takeFlag value f) r) [] rest
    | .ok (.takesNext earlier flag) =>
      match rest with
      | .plain value :: rest =>
        if earlier.contains .help then .ok none
        else takeWords (r.takeFlag value flag) [] rest
      | _ => .error (.missingValue flag)
  | word :: rest => takeWords r (run ++ [word]) rest

/-- The demands on options taken together. -/
def Arguments.verify (a : Arguments) : Except UsageError Arguments :=
  if a.output.isSome && a.outDir.isSome then .error .twoTargets
  else if a.output.isSome && a.sources.length ≠ 1 then .error .severalForOutput
  else if a.output.isNone && a.outDir.isNone && !a.check && a.sources.length ≠ 1 then
    .error .severalWithoutDirectory
  else .ok a

/-- **Reads the command line.** -/
def Request.ofArguments (args : List String) : Except UsageError Request := do
  match ← takeWords .start [] (← words args) with
  | none => return .help
  | some r =>
    if !r.found then throw .noSource
    else if r.leftover ≠ [] then throw (.leftover r.leftover)
    else return .expand (← r.settings.verify)

/-! ## Help -/

def usage : String :=
  "usage: iterator_item [-h] [-o OUTPUT] [--out-dir OUT_DIR] [--check] [--json]\n" ++
  "                     [--runtime-module RUNTIME_MODULE] [--no-header]\n" ++
  "                     source [source ...]\n"

def help : String :=
  usage ++
  "\nExpand fn* iterator items into Python\n" ++
  "\npositional arguments:\n" ++
  "  source                Path(s) to source file(s)\n" ++
  "\noptions:\n" ++
  "  -h, --help            show this help message and exit\n" ++
  "  -o OUTPUT, --output OUTPUT\n" ++
  "                        Write the generated module here (single source only)\n" ++
  "  --out-dir OUT_DIR     Write one <stem>.py per source into this directory\n" ++
  "  --check               Only parse and validate; write nothing\n" ++
  "  --json                Emit diagnostics as JSON to stdout\n" ++
  "  --runtime-module RUNTIME_MODULE\n" ++
  "                        Module the generated code imports as its runtime\n" ++
  "                        (default: " ++ Script.Options.standard.supportModule ++ ")\n" ++
  "  --no-header           Omit the generated-file banner\n"

end Yielding.CommandLine
