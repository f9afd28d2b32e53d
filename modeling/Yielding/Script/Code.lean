import Yielding.Script.Term
import Yielding.Syntax.Stmt

/-!
# Script/Code — lines and nested code of the generated module

Code is a row of lines and of **blocks**, each a header with the code below it.  `Code.layout`
writes it by indentation: a block's code stands one level deeper than its header, and an empty block
holds `pass`.
-/

namespace Yielding.Script

/-- What `if` and `elif` decide by. -/
inductive Decision
  | holds (value : Term)
  | all (tests : List Test)
  | notAll (tests : List Test)
deriving Repr

def Decision.text : Decision → String
  | holds value => value.text
  | all tests => Test.rowText tests
  | notAll tests => "not (" ++ Test.rowText tests ++ ")"

/-- A line of code. -/
inductive Line
  | assign (target : Target) (value : Term)
  | store (target : Term) (op : AssignOp) (value : Term)
  | eval (value : Term)
  | yield (value : Option Term)
  | ret (value : Option Term)
  | breakLoop
  | continueLoop
  | pass
  | blank
  /-- A documentation string, which may stretch over more than one line of text. -/
  | doc (text : String)
  /-- A fixed line. -/
  | fixed (text : String)
deriving Repr

/-- A word with the term after it, if there is one. -/
def wordText (word : String) : Option Term → String
  | none => word
  | some value => word ++ " " ++ value.text

def Line.text : Line → String
  | assign target value => target.text ++ " = " ++ value.text
  | store target op value => target.text ++ " " ++ op.text ++ " " ++ value.text
  | eval value => value.text
  | yield value => wordText "yield" value
  | ret value => wordText "return" value
  | breakLoop => "break"
  | continueLoop => "continue"
  | pass => "pass"
  | blank => ""
  | doc text | fixed text => text

/-- A line that holds the code below it. -/
inductive Header
  | cls (name : String)
  | fn (isAsync : Bool) (name : String) (params : List String) (result : Option String)
  | ifDo (decision : Decision)
  | elifDo (decision : Decision)
  | elseDo
  | whileDo (value : Term)
  | forIn (target : Target) (iterable : Term)
  | matchOn (subject : Term)
  | caseOf (pattern : Case) (guard : Option Term)
deriving Repr

def Header.text : Header → String
  | cls name => "class " ++ name ++ ":"
  | fn isAsync name params result =>
    (if isAsync then "async def " else "def ") ++ name ++ "(" ++ ", ".intercalate params ++ ")" ++
      (result.elim "" (" -> " ++ ·)) ++ ":"
  | ifDo decision => "if " ++ decision.text ++ ":"
  | elifDo decision => "elif " ++ decision.text ++ ":"
  | elseDo => "else:"
  | whileDo value => "while " ++ value.text ++ ":"
  | forIn target iterable => "for " ++ target.text ++ " in " ++ iterable.text ++ ":"
  | matchOn subject => "match " ++ subject.text ++ ":"
  | caseOf pattern none => "case " ++ pattern.text ++ ":"
  | caseOf pattern (some guard) => "case " ++ pattern.text ++ " if " ++ guard.text ++ ":"

/-- Code, by lines and blocks. -/
inductive Code
  | line (line : Line)
  | block (header : Header) (body : List Code)
deriving Repr

namespace Code

/-- A text at a level of indentation; an empty one stays empty. -/
def indented (indent : String) (level : Nat) (text : String) : String :=
  if text.isEmpty then "" else String.join (List.replicate level indent) ++ text

mutual

def layout (indent : String) (level : Nat) : Code → List String
  | line l => [indented indent level l.text]
  | block header [] =>
    [indented indent level header.text, indented indent (level + 1) Line.pass.text]
  | block header (c :: cs) =>
    indented indent level header.text ::
      (layout indent (level + 1) c ++ rowLayout indent (level + 1) cs)

def rowLayout (indent : String) (level : Nat) : List Code → List String
  | [] => []
  | c :: cs => layout indent level c ++ rowLayout indent level cs

end

end Code

end Yielding.Script
