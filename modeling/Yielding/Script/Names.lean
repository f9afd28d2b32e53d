/-!
# Script/Names — names of the generated module

Every binding of an item gets a name of its own in the generated function, so that blocks which
share names in the item do not share variables in the function.  A binding keeps its name where it
can, and otherwise takes the first free one of `x_2`, `x_3`, ….  A **frame** holds the bindings of
one block; a frame at the top of a nested function is a **barrier**, through which only nested
functions are visible.
-/

namespace Yielding.Script

/-- The words of the generated language that cannot be names. -/
def keywords : List String :=
  ["False", "None", "True", "and", "as", "assert", "async", "await", "break", "class", "continue",
   "def", "del", "elif", "else", "except", "finally", "for", "from", "global", "if", "import", "in",
   "is", "lambda", "nonlocal", "not", "or", "pass", "raise", "return", "try", "while", "with",
   "yield"]

/-- The names that generated code itself relies on. -/
def builtins : List String :=
  ["_rt", "__body", "__size_hint", "abs", "enumerate", "isinstance", "iter", "len", "list", "max",
   "min", "print", "range", "reversed", "str", "sum", "zip"]

def isReserved (name : String) : Bool := keywords.contains name || builtins.contains name

/-- A name that is no keyword: a keyword gets an underscore. -/
def avoidKeyword (name : String) : String := if keywords.contains name then name ++ "_" else name

/-- The first of `base`, `base ++ sep ++ "2"`, `base ++ sep ++ "3"`, … that is not used.  One of the
first `used.length + 1` is not. -/
def firstUnused (used : List String) (base sep : String) : String :=
  if !used.contains base then base
  else
    let candidates := (List.range (used.length + 1)).map fun k => base ++ sep ++ toString (k + 2)
    (candidates.find? fun name => !used.contains name).getD base

/-- What a name of the source became. -/
structure Binding where
  /-- The name in the generated function. -/
  target : String
  /-- Whether it is a nested function. -/
  isFn : Bool
deriving DecidableEq, Repr

/-- The bindings of one block, in the order in which their names first occurred. -/
structure Frame where
  entries : List (String × Binding)
  isBarrier : Bool
deriving DecidableEq, Repr

/-- Binds a name; a name that is bound already keeps its place. -/
def Frame.put (f : Frame) (name : String) (b : Binding) : Frame :=
  if f.entries.any (·.1 == name) then
    { f with entries := f.entries.map fun e => if e.1 == name then (name, b) else e }
  else { f with entries := f.entries ++ [(name, b)] }

/-- The binding that a name refers to, innermost frame first. -/
def resolveIn (crossed : Bool) : List Frame → String → Option String
  | [], _ => none
  | f :: fs, name =>
    match f.entries.lookup name with
    | some b =>
      if !crossed || b.isFn then some b.target else resolveIn (crossed || f.isBarrier) fs name
    | none => resolveIn (crossed || f.isBarrier) fs name

/-- The names in use while a function is generated. -/
structure Names where
  /-- The names that no new binding may take. -/
  used : List String
  /-- The frames in scope, innermost first. -/
  frames : List Frame
  /-- The names that refer to no binding. -/
  free : List String
  /-- The number of subjects made so far. -/
  subjects : Nat
deriving DecidableEq, Repr

def subjectName (n : Nat) : String := "__subject" ++ toString n

namespace Names

/-- At the beginning there is one empty frame. -/
def start (used : List String) : Names := ⟨used, [⟨[], false⟩], [], 0⟩

def resolve (ns : Names) (name : String) : Option String := resolveIn false ns.frames name

def bind (ns : Names) (name : String) (isFn : Bool) : String × Names :=
  let base := if isReserved name then name ++ "_" else name
  let target := firstUnused ns.used base "_"
  let frames := match ns.frames with
    | [] => []
    | f :: fs => f.put name ⟨target, isFn⟩ :: fs
  (target, { ns with used := target :: ns.used, frames := frames })

def subject (ns : Names) : String × Names :=
  let n := ns.subjects + 1
  (subjectName n, { ns with used := subjectName n :: ns.used, subjects := n })

def noteFree (ns : Names) (name : String) : Names :=
  if ns.free.contains name then ns else { ns with free := name :: ns.free }

def push (ns : Names) (isBarrier : Bool) : Names :=
  { ns with frames := ⟨[], isBarrier⟩ :: ns.frames }

def pop (ns : Names) : Names := { ns with frames := ns.frames.tail }

/-- The names that the bindings of the outermost frame, nested functions apart, have in the
generated function. -/
def inputs (ns : Names) : List String :=
  match ns.frames.getLast? with
  | none => []
  | some f => (f.entries.filter fun e => !e.2.isFn).map fun e => e.2.target

end Names

end Yielding.Script
