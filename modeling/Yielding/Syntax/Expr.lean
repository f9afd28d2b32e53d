import Yielding.Source.Position

/-!
# Syntax/Expr — expressions

The expressions of bodies.  `helper` calls only arise when a body is lowered; all others can be
written.  The **operands** of an expression are its direct parts in the order in which they are
evaluated.
-/

namespace Yielding

/-!
## Literals and patterns

A pattern takes a value apart.  It is **refutable** when some value of the right shape does not
match it, that is, when a literal or an outcome occurs in it.
-/

/-- A literal.  A number may carry the name of its type as a suffix. -/
inductive Literal
  | int (value : Int) (suffix : Option String)
  | float (value : Float) (suffix : Option String)
  | str (value : String)
  | char (value : Char)
  | bool (value : Bool)
  | unit
deriving Repr, Inhabited

/-- The outcomes that carry a payload. -/
inductive Variant
  | some | ok | err
deriving DecidableEq, Repr

def Variant.name : Variant → String
  | some => "Some"
  | ok => "Ok"
  | err => "Err"

def Variant.ofName? (name : String) : Option Variant :=
  [Variant.some, .ok, .err].find? (·.name == name)

/-- Patterns.  `rest` stands for any number of items of a tuple pattern. -/
inductive Pattern
  | bind (region : Region) (name : String) (mutable : Bool)
  | wildcard (region : Region)
  | tuple (region : Region) (items : List Pattern)
  | noneVariant (region : Region)
  | variant (region : Region) (variant : Variant) (inner : Pattern)
  | literal (region : Region) (value : Literal)
  | rest (region : Region)
deriving Repr, Inhabited

namespace Pattern

def region : Pattern → Region
  | bind r .. | wildcard r | tuple r _ | noneVariant r | variant r .. | literal r _ | rest r => r

def isRest : Pattern → Bool
  | rest _ => true
  | _ => false

mutual

/-- The names that a pattern binds. -/
def bindings : Pattern → List (String × Region)
  | bind r name _ => [(name, r)]
  | tuple _ items => rowBindings items
  | variant _ _ inner => bindings inner
  | _ => []

def rowBindings : List Pattern → List (String × Region)
  | [] => []
  | p :: ps => bindings p ++ rowBindings ps

end

mutual

/-- The names that a pattern binds `mut`, in order. -/
def mutableNames : Pattern → List String
  | bind _ name mutable => if mutable then [name] else []
  | tuple _ items => rowMutableNames items
  | variant _ _ inner => mutableNames inner
  | _ => []

def rowMutableNames : List Pattern → List String
  | [] => []
  | p :: ps => mutableNames p ++ rowMutableNames ps

end

mutual

/-- Whether a literal or an outcome occurs in the pattern. -/
def isRefutable : Pattern → Bool
  | noneVariant _ | variant .. | literal .. => true
  | tuple _ items => anyRefutable items
  | _ => false

def anyRefutable : List Pattern → Bool
  | [] => false
  | p :: ps => isRefutable p || anyRefutable ps

end

/-- The index of the component that each item of a tuple pattern takes.  Items after the first `..`
count from the end, and that `..` takes none. -/
def places (items : List Pattern) : List (Option Int) :=
  let gap := items.findIdx isRest
  items.zipIdx.map fun (_, i) =>
    if i < gap then some (i : Int)
    else if i = gap then none
    else some ((i : Int) - items.length)

end Pattern

/-! ## Expressions -/

/-- The operators of one operand. -/
inductive UnaryOp
  | neg | not | deref
deriving DecidableEq, Repr

def UnaryOp.text : UnaryOp → String
  | neg => "-"
  | not => "!"
  | deref => "*"

/-- The operators of two operands. -/
inductive BinaryOp
  | or | and | eq | ne | lt | le | gt | ge | add | sub | mul | div | rem
deriving DecidableEq, Repr

namespace BinaryOp

def text : BinaryOp → String
  | or => "||"
  | and => "&&"
  | eq => "=="
  | ne => "!="
  | lt => "<"
  | le => "<="
  | gt => ">"
  | ge => ">="
  | add => "+"
  | sub => "-"
  | mul => "*"
  | div => "/"
  | rem => "%"

/-- The operators whose right operand is only evaluated when the left one does not decide. -/
def isLazy : BinaryOp → Bool
  | or | and => true
  | _ => false

/-- The operators whose result is a truth value. -/
def isTest : BinaryOp → Bool
  | add | sub | mul | div | rem => false
  | _ => true

end BinaryOp

/-- The macros that an item may call. -/
inductive MacroName
  | format | println | print | panic | assert
deriving DecidableEq, Repr

def MacroName.text : MacroName → String
  | format => "format"
  | println => "println"
  | print => "print"
  | panic => "panic"
  | assert => "assert"

/-- The operations on outcomes that lowered bodies use. -/
inductive Helper
  | isResidual | residual | output
deriving DecidableEq, Repr

def Helper.text : Helper → String
  | isResidual => "is_residual"
  | residual => "residual"
  | output => "output"

/-- Expressions, each with its region.  Lowering introduces `helper`, the call of a support
function. -/
inductive Expr
  | literal (region : Region) (value : Literal)
  | name (region : Region) (ident : String)
  | path (region : Region) (segments : List String)
  | call (region : Region) (func : Expr) (args : List Expr)
  | methodCall (region : Region) (receiver : Expr) (method : String) (args : List Expr)
  | field (region : Region) (value : Expr) (attr : String)
  | tupleField (region : Region) (value : Expr) (index : Nat)
  | index (region : Region) (value index : Expr)
  | unary (region : Region) (op : UnaryOp) (operand : Expr)
  | borrow (region : Region) (value : Expr) (mutable : Bool)
  | binary (region : Region) (op : BinaryOp) (left right : Expr)
  | range (region : Region) (start stop : Expr) (inclusive : Bool)
  | tuple (region : Region) (elements : List Expr)
  | array (region : Region) (elements : List Expr)
  | macroCall (region : Region) (name : MacroName) (args : List Expr)
  | yield (region : Region) (value : Option Expr)
  | attempt (region : Region) (operand : Expr)
  | await (region : Region) (value : Expr)
  | helper (region : Region) (name : Helper) (args : List Expr)
deriving Repr, Inhabited

namespace Expr

def region : Expr → Region
  | literal r _ | name r _ | path r _ | call r .. | methodCall r .. | field r .. | tupleField r ..
  | index r .. | unary r .. | borrow r .. | binary r .. | range r .. | tuple r _ | array r _
  | macroCall r .. | yield r _ | attempt r _ | await r _ | helper r .. => r

/-- The direct parts of an expression, in the order in which they are evaluated. -/
def operands : Expr → List Expr
  | literal .. | name .. | path .. => []
  | call _ func args => func :: args
  | methodCall _ receiver _ args => receiver :: args
  | field _ value _ | tupleField _ value _ | borrow _ value _ | await _ value => [value]
  | index _ left right | binary _ _ left right => [left, right]
  | unary _ _ operand | attempt _ operand => [operand]
  | range _ start stop _ => [start, stop]
  | tuple _ elements | array _ elements => elements
  | macroCall _ _ args | helper _ _ args => args
  | yield _ value => value.toList

mutual

/-- The expression and all expressions inside it, each before its parts. -/
def walk : Expr → List Expr
  | e@(literal ..) | e@(name ..) | e@(path ..) | e@(yield _ none) => [e]
  | e@(call _ func args) => e :: (walk func ++ walkRow args)
  | e@(methodCall _ receiver _ args) => e :: (walk receiver ++ walkRow args)
  | e@(field _ value _) | e@(tupleField _ value _) | e@(borrow _ value _) | e@(await _ value)
  | e@(unary _ _ value) | e@(attempt _ value) | e@(yield _ (some value)) => e :: walk value
  | e@(index _ left right) | e@(binary _ _ left right) | e@(range _ left right _) =>
    e :: (walk left ++ walk right)
  | e@(tuple _ row) | e@(array _ row) | e@(macroCall _ _ row) | e@(helper _ _ row) =>
    e :: walkRow row

def walkRow : List Expr → List Expr
  | [] => []
  | e :: es => walk e ++ walkRow es

end

def isYield : Expr → Bool
  | yield .. => true
  | _ => false

def isTry : Expr → Bool
  | attempt .. => true
  | _ => false

def isAwait : Expr → Bool
  | await .. => true
  | _ => false

def isUnit : Expr → Bool
  | literal _ .unit => true
  | _ => false

def yields (e : Expr) : Bool := e.walk.any isYield

end Expr

end Yielding
