/-!
# File/Tree — files and directories

A tree is kept by its **spots**: the names that lead from the current directory to an entry, with
double dots in front where the way goes up first, or a slash in front where it starts at the root
of all directories.  Following a path gives a spot, or the **problem** met on the way.
-/

namespace Yielding

/-!
## Paths in normal form

A path is a list of **parts** below a **root**: the current directory, or one or two slashes.
Empty parts and single dots are dropped when a path is read; a double dot stays, because what it
leads to depends on the directories that are there.
-/

/-- A path, by its root and its parts. -/
structure Path where
  root : String
  parts : List String
deriving DecidableEq, Repr

namespace Path

/-- The root of a path: two slashes stand for themselves, more than two for one. -/
def rootOf : List Char → String
  | '/' :: '/' :: '/' :: _ => "/"
  | '/' :: '/' :: _ => "//"
  | '/' :: _ => "/"
  | _ => ""

/-- The runs of characters between slashes. -/
def between : List Char → List (List Char)
  | [] => [[]]
  | c :: cs =>
    if c = '/' then [] :: between cs
    else match between cs with
      | [] => [[c]]
      | run :: runs => (c :: run) :: runs

def ofString (s : String) : Path :=
  ⟨rootOf s.toList, ((between s.toList).map String.ofList).filter fun p => p ≠ "" ∧ p ≠ "."⟩

def text (p : Path) : String :=
  if p.root = "" ∧ p.parts = [] then "." else p.root ++ "/".intercalate p.parts

def name (p : Path) : String := p.parts.getLast?.getD ""

/-- A name without its last dot and what follows, if something stands on both sides of it. -/
def stemOf (name : List Char) : List Char :=
  let ending := name.reverse.takeWhile (· ≠ '.')
  let before := name.take (name.length - ending.length - 1)
  if ending.isEmpty || before.isEmpty then name else before

def stem (p : Path) : String := String.ofList (stemOf p.name.toList)

/-- The path of an entry of a directory. -/
def child (p : Path) (name : String) : Path := { p with parts := p.parts ++ [name] }

end Path

/-! ## Files and directories -/

/-- What stands at a spot of a file tree. -/
inductive Entry
  | file (bytes : List UInt8)
  | directory
deriving DecidableEq, Repr

/-- Why a file cannot be read or written. -/
inductive FileProblem
  | missing | isDirectory | notDirectory | occupied
deriving DecidableEq, Repr

def FileProblem.message : FileProblem → String
  | missing => "No such file or directory"
  | isDirectory => "Is a directory"
  | notDirectory => "Not a directory"
  | occupied => "File exists"

abbrev Spot := List String

namespace Spot

def isTop (s : Spot) : Bool := s.all (· = "..") || s = ["/"]

/-- The spot of the directory that holds this one. -/
def above (s : Spot) : Spot :=
  if s = ["/"] then s else if s.isTop then s ++ [".."] else s.dropLast

/-- Whether the way to the spot stays below the current directory. -/
def isBelow (s : Spot) : Bool := s.head? ≠ some ".." && s.head? ≠ some "/"

end Spot

def Path.start (p : Path) : Spot := if p.root = "" then [] else ["/"]

/-- The entries of a tree below its tops, which are directories. -/
structure FileTree where
  entries : List (Spot × Entry)
deriving DecidableEq, Repr

namespace FileTree

def empty : FileTree := ⟨[]⟩

def entry? (t : FileTree) (s : Spot) : Option Entry :=
  if s.isTop then some .directory else t.entries.lookup s

/-- The tree with an entry put at a spot, in place of the one that was there. -/
def insert (t : FileTree) (s : Spot) (e : Entry) : FileTree :=
  ⟨t.entries.filter (·.1 ≠ s) ++ [(s, e)]⟩

/-- **Follows parts from a spot.**  Only a directory leads on, and only to what is in it. -/
def follow (t : FileTree) : Spot → List String → Except FileProblem Spot
  | s, [] => .ok s
  | s, part :: parts =>
    match t.entry? s with
    | none => .error .missing
    | some (.file _) => .error .notDirectory
    | some .directory =>
      if part = ".." then t.follow s.above parts
      else match t.entry? (s ++ [part]) with
        | none => .error .missing
        | some _ => t.follow (s ++ [part]) parts

def locate (t : FileTree) (p : Path) : Except FileProblem Spot := t.follow p.start p.parts

def target (t : FileTree) (p : Path) : Except FileProblem Spot := do
  match p.parts.getLast? with
  | none | some ".." => t.locate p
  | some name =>
    let s ← t.follow p.start p.parts.dropLast
    match t.entry? s with
    | some .directory => return s ++ [name]
    | some (.file _) => throw .notDirectory
    | none => throw .missing

/-- The bytes of a file. -/
def read (t : FileTree) (p : Path) : Except FileProblem (List UInt8) := do
  match t.entry? (← t.locate p) with
  | some (.file bytes) => return bytes
  | some .directory => throw .isDirectory
  | none => throw .missing

def write (t : FileTree) (p : Path) (bytes : List UInt8) : Except FileProblem FileTree := do
  let s ← t.target p
  match t.entry? s with
  | some .directory => throw .isDirectory
  | _ => return t.insert s (.file bytes)

def isDirectory (t : FileTree) (p : Path) : Bool :=
  match t.locate p with
  | .ok s => t.entry? s == some .directory
  | .error _ => false

/-- Makes a directory within one that is there. -/
def makeDirectory (t : FileTree) (p : Path) : Except FileProblem FileTree := do
  let s ← t.target p
  match t.entry? s with
  | some _ => throw .occupied
  | none => return t.insert s .directory

/-- Makes a directory, or leaves the one that is there. -/
def ensureDirectory (t : FileTree) (p : Path) : Except FileProblem FileTree :=
  match t.makeDirectory p with
  | .error .missing => .error .missing
  | .error problem => if t.isDirectory p then .ok t else .error problem
  | .ok t => .ok t

/-- Makes a directory and those above it; the parts are given from the last to the first. -/
def ensureDirectories (t : FileTree) (root : String) : List String → Except FileProblem FileTree
  | [] => t.ensureDirectory ⟨root, []⟩
  | part :: parts => do
    let p : Path := ⟨root, (part :: parts).reverse⟩
    match t.ensureDirectory p with
    | .error .missing => (← t.ensureDirectories root parts).ensureDirectory p
    | result => result

/-- Makes a directory where none is, with all that lead to it. -/
def makeDirectories (t : FileTree) (p : Path) : Except FileProblem FileTree :=
  t.ensureDirectories p.root p.parts.reverse

/-- The tree with an entry at a path and directories above it. -/
def place (t : FileTree) (p : Path) (e : Entry) : FileTree :=
  let above := (List.range p.parts.length).map (p.parts.take ·)
  let t := above.foldl (fun t s => if (t.entry? s).isSome then t else t.insert s .directory) t
  if p.parts = [] then t else t.insert p.parts e

/-- The tree that has given entries and the directories above them. -/
def ofEntries (entries : List (Path × Entry)) : FileTree :=
  entries.foldl (fun t (p, e) => t.place p e) empty

/-- The files below the current directory that an earlier tree does not have, or not with this
content. -/
def newer (t earlier : FileTree) : List (Spot × List UInt8) :=
  t.entries.filterMap fun (s, e) =>
    match e with
    | .file bytes => if s.isBelow && earlier.entry? s ≠ some e then some (s, bytes) else none
    | .directory => none

end FileTree

end Yielding
