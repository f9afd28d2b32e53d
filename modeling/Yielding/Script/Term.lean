import Yielding.Decimal
import Yielding.Syntax.Expr
import Yielding.Text.Quoted

/-!
# Script/Term — expressions and patterns of the generated module

What the generated module evaluates, assigns to and matches against, as trees, and the text of
each.  Every **term** but `next` and `option`, which only occur as arguments, is one atom or
bracketed group followed by any number of trailers, so it keeps its grouping wherever it is put.
-/

namespace Yielding.Script

/-- The name by which the generated module refers to its support library. -/
def supportName : String := "_rt"

/-- The words between the operands of a bracketed pair. -/
inductive Connective
  | or | and | eq | ne | lt | le | gt | ge | add | sub | mul | power | member
deriving DecidableEq, Repr

def Connective.text : Connective → String
  | or => "or"
  | and => "and"
  | eq => "=="
  | ne => "!="
  | lt => "<"
  | le => "<="
  | gt => ">"
  | ge => ">="
  | add => "+"
  | sub => "-"
  | mul => "*"
  | power => "**"
  | member => "in"

/-- The words before the operand of a bracketed group. -/
inductive Lead
  | not | neg | await
deriving DecidableEq, Repr

def Lead.text : Lead → String
  | not => "not "
  | neg => "-"
  | await => "await "

/-- An expression of the code. -/
inductive Term
  /-- A name. -/
  | name (text : String)
  /-- Names joined by dots. -/
  | dotted (segments : List String)
  /-- A literal, by its text. -/
  | literal (text : String)
  | attr (value : Term) (name : String)
  | item (value index : Term)
  | call (func : Term) (args : List Term)
  | group (lead : Lead) (operand : Term)
  | pair (connective : Connective) (left right : Term)
  | tuple (elements : List Term)
  | list (elements : List Term)
  /-- The successor of a bound, as an argument. -/
  | next (bound : Term)
  /-- An argument by name. -/
  | option (name : String) (value : Term)
deriving Repr, Inhabited

namespace Term

def tupleText : List String → String
  | [s] => "(" ++ s ++ ",)"
  | parts => "(" ++ ", ".intercalate parts ++ ")"

mutual

/-- The text of a term. -/
def text : Term → String
  | name s | literal s => s
  | dotted segments => ".".intercalate segments
  | attr value field => text value ++ "." ++ field
  | item value index => text value ++ "[" ++ text index ++ "]"
  | call func args => text func ++ "(" ++ ", ".intercalate (rowText args) ++ ")"
  | group lead operand => "(" ++ lead.text ++ text operand ++ ")"
  | pair connective left right =>
    "(" ++ text left ++ " " ++ connective.text ++ " " ++ text right ++ ")"
  | tuple elements => tupleText (rowText elements)
  | list elements => "[" ++ ", ".intercalate (rowText elements) ++ "]"
  | next bound => text bound ++ " + 1"
  | option key value => key ++ "=" ++ text value

def rowText : List Term → List String
  | [] => []
  | t :: ts => text t :: rowText ts

end

/-- The term for a literal. -/
def ofLiteral : Literal → Term
  | .int value _ => literal (toString value)
  | .float value _ => literal (Decimal.floatText value)
  | .str value => literal (Text.quoted value)
  | .char value => literal (Text.quoted value.toString)
  | .bool true => literal "True"
  | .bool false => literal "False"
  | .unit => literal "None"

def component (value : Term) (index : Int) : Term := item value (literal (toString index))

def support (name : String) : Term := dotted [supportName, name]

def apply (func : String) (args : List Term) : Term := call (name func) args

def applySupport (func : String) (args : List Term) : Term := call (support func) args

end Term

/-! ## Targets and cases -/

/-- What a value is assigned to. -/
inductive Target
  | name (text : String)
  | tuple (items : List Target)
  | rest
  | skip
deriving Repr

mutual

def Target.text : Target → String
  | .name text => text
  | .tuple items => Term.tupleText (Target.rowText items)
  | .rest => "*_"
  | .skip => "_"

def Target.rowText : List Target → List String
  | [] => []
  | t :: ts => Target.text t :: Target.rowText ts

end

/-- What a value is matched against. -/
inductive Case
  | bind (name : String)
  | literal (value : Literal)
  | variant (variant : Variant) (inner : Case)
  | tuple (items : List Case)
  | none
  | rest
  | skip
deriving Repr

mutual

def Case.text : Case → String
  | .bind name => name
  | .literal value => (Term.ofLiteral value).text
  | .variant v inner => (Term.support v.name).text ++ "(" ++ Case.text inner ++ ")"
  | .tuple items => Term.tupleText (Case.rowText items)
  | .none => "None"
  | .rest => "*_"
  | .skip => "_"

def Case.rowText : List Case → List String
  | [] => []
  | c :: cs => Case.text c :: Case.rowText cs

end

/-! ## Tests -/

def payloadName : Variant → String
  | .some | .ok => "value"
  | .err => "error"

/-- A test of one part of a value. -/
inductive Test
  | equals (subject : Term) (value : Literal)
  | isNone (subject : Term)
  | isVariant (subject : Term) (variant : Variant)
deriving Repr

def Test.text : Test → String
  | equals subject value => subject.text ++ " == " ++ (Term.ofLiteral value).text
  | isNone subject => subject.text ++ " is None"
  | isVariant subject v => (Term.apply "isinstance" [subject, .support v.name]).text

def Test.rowText (tests : List Test) : String :=
  if tests.isEmpty then "True" else " and ".intercalate (tests.map Test.text)

mutual

/-- The tests that decide whether a value matches a pattern. -/
def patternTests : Pattern → Term → List Test
  | .literal _ value, subject => [.equals subject value]
  | .noneVariant _, subject => [.isNone subject]
  | .variant _ v inner, subject =>
    .isVariant subject v :: patternTests inner (.attr subject (payloadName v))
  | .tuple _ items, subject => rowTests items (Pattern.places items) subject
  | _, _ => []

def rowTests : List Pattern → List (Option Int) → Term → List Test
  | p :: ps, some i :: is, subject =>
    patternTests p (.component subject i) ++ rowTests ps is subject
  | _ :: ps, none :: is, subject => rowTests ps is subject
  | _, _, _ => []

end

/-!
## Known functions and methods

Some functions and methods of the items have a counterpart in the generated module.  A method is
known by its name and its number of arguments.
-/

/-- How a known method is called. -/
inductive MethodForm
  /-- `f(receiver, args)` -/
  | function (name : String)
  /-- The same for a function of the support library. -/
  | support (name : String)
  /-- `receiver.f(args)` -/
  | attr (name : String)
  /-- `(len(receiver) == 0)` -/
  | isEmpty
  /-- `(arg in receiver)` -/
  | member
  /-- `(receiver ** arg)` -/
  | power
deriving DecidableEq, Repr

/-- The known methods, with their numbers of arguments. -/
def knownMethods : List (String × Nat × MethodForm) :=
  [("len", 0, .function "len"), ("is_empty", 0, .isEmpty), ("push", 1, .attr "append"),
   ("push_back", 1, .attr "append"), ("pop", 0, .support "pop"), ("get", 1, .support "get"),
   ("clone", 0, .support "clone"), ("to_owned", 0, .support "clone"),
   ("to_vec", 0, .function "list"), ("to_string", 0, .support "to_string"),
   ("iter", 0, .function "iter"), ("iter_mut", 0, .function "iter"),
   ("into_iter", 0, .function "iter"), ("chars", 0, .function "iter"),
   ("next", 0, .support "next_item"), ("unwrap", 0, .support "unwrap"),
   ("expect", 1, .support "expect"), ("unwrap_or", 1, .support "unwrap_or"),
   ("is_some", 0, .support "is_some"), ("is_none", 0, .support "is_none"),
   ("is_ok", 0, .support "is_ok"), ("is_err", 0, .support "is_err"), ("contains", 1, .member),
   ("abs", 0, .function "abs"), ("min", 1, .function "min"), ("max", 1, .function "max"),
   ("pow", 1, .power), ("rev", 0, .support "rev"), ("enumerate", 0, .function "enumerate"),
   ("zip", 1, .function "zip"), ("take", 1, .support "take"), ("skip", 1, .support "skip"),
   ("count", 0, .support "count"), ("sum", 0, .function "sum"), ("collect", 0, .function "list"),
   ("trim", 0, .attr "strip"), ("to_uppercase", 0, .attr "upper"),
   ("to_lowercase", 0, .attr "lower"), ("starts_with", 1, .attr "startswith"),
   ("ends_with", 1, .attr "endswith")]

def knownMethod? (method : String) (arity : Nat) : Option MethodForm :=
  match knownMethods.lookup method with
  | some (n, form) => if n = arity then some form else none
  | none => none

def MethodForm.term (receiver : Term) (args : List Term) : MethodForm → Term
  | function name => .apply name (receiver :: args)
  | support name => .applySupport name (receiver :: args)
  | attr name => .call (.attr receiver name) args
  | isEmpty => .pair .eq (.apply "len" [receiver]) (.literal "0")
  | member => .pair .member (args.headD default) receiver
  | power => .pair .power receiver (args.headD default)

/-- What a call of a known function becomes. -/
inductive FunctionForm
  | emptyText | toText | emptyList | extremum (name : String)
deriving DecidableEq, Repr

/-- The known functions, by their paths. -/
def knownFunctions : List (String × FunctionForm) :=
  [("String::new", .emptyText), ("String::from", .toText), ("Vec::new", .emptyList),
   ("Vec::with_capacity", .emptyList), ("std::cmp::max", .extremum "max"),
   ("std::cmp::min", .extremum "min"), ("cmp::max", .extremum "max"),
   ("cmp::min", .extremum "min")]

/-- A call of a known function.  A text needs something to be made from. -/
def FunctionForm.term? (args : List Term) : FunctionForm → Option Term
  | emptyText => some (.literal "\"\"")
  | toText => args.head?.map fun arg => .apply "str" [arg]
  | emptyList => some (.list [])
  | extremum name => some (.apply name args)

end Yielding.Script
