import Yielding.Syntax.Expr
import Yielding.Syntax.Ty

/-!
# Syntax/Stmt — statements, blocks and items

Statements, the blocks they form, and the iterator items whose bodies they are.  `suspend` and
`terminate` only arise when a body is lowered; all other statements can be written.
-/

namespace Yielding

/-- How an item takes `self`. -/
inductive Receiver
  | value | shared | exclusive
deriving DecidableEq, Repr

def Receiver.text : Receiver → String
  | value => "self"
  | shared => "&self"
  | exclusive => "&mut self"

/-- What a parameter declares besides its name. -/
inductive ParamKind
  | receiver (kind : Receiver)
  | typed (type : Ty)
deriving DecidableEq, Repr

/-- A parameter; `self` is one too. -/
structure Param where
  name : String
  kind : ParamKind
  region : Region
  mutable : Bool
deriving DecidableEq, Repr

/-- The receiver kind of a parameter, if it is `self`. -/
def Param.receiver? (p : Param) : Option Receiver :=
  match p.kind with
  | .receiver kind => some kind
  | .typed _ => none

def Param.type? (p : Param) : Option Ty :=
  match p.kind with
  | .receiver _ => none
  | .typed type => some type

/-- Ways to assign: plainly, or together with an operation. -/
inductive AssignOp
  | set | add | sub | mul | div | rem
deriving DecidableEq, Repr

def AssignOp.text : AssignOp → String
  | set => "="
  | add => "+="
  | sub => "-="
  | mul => "*="
  | div => "/="
  | rem => "%="

/-- What `if` and `while` test: a truth value or a match. -/
inductive Condition
  | test (expr : Expr)
  | letMatch (region : Region) (pattern : Pattern) (value : Expr)
deriving Repr

def Condition.value : Condition → Expr
  | test expr => expr
  | letMatch _ _ value => value

mutual

/-- Statements, each with its region.  Lowering introduces `suspend` and `terminate`. -/
inductive Stmt
  | letIn (region : Region) (pattern : Pattern) (type : Option Ty) (value : Expr)
      (otherwise : Option Block)
  | assign (region : Region) (target value : Expr) (op : AssignOp)
  | expr (region : Region) (value : Expr)
  | ret (region : Region) (value : Option Expr)
  | breakLoop (region : Region)
  | continueLoop (region : Region)
  | ifElse (region : Region) (condition : Condition) (thenBlock : Block)
      (elseBlock : Option Block)
  | whileDo (region : Region) (condition : Condition) (body : Block)
  | loop (region : Region) (body : Block)
  | forIn (region : Region) (pattern : Pattern) (iterable : Expr) (body : Block)
  | block (region : Region) (body : Block)
  | fn (region : Region) (name : String) (params : List Param) (result : Option Ty) (body : Block)
  | matchOn (region : Region) (subject : Expr) (arms : List Arm)
  | suspend (region : Region) (value : Expr)
  | terminate (region : Region)

/-- Statements in braces, with the expression after the last one if there is any. -/
inductive Block
  | mk (stmts : List Stmt) (region : Region) (tail : Option Expr)

/-- An arm of a `match`: its body runs when the pattern matches and the guard holds. -/
inductive Arm
  | mk (region : Region) (pattern : Pattern) (guard : Option Expr) (body : Block)

end

namespace Block

def stmts : Block → List Stmt
  | mk stmts _ _ => stmts

def region : Block → Region
  | mk _ region _ => region

def tail : Block → Option Expr
  | mk _ _ tail => tail

instance : Inhabited Block := ⟨mk [] default none⟩

end Block

namespace Arm

def region : Arm → Region
  | mk region .. => region

def pattern : Arm → Pattern
  | mk _ pattern .. => pattern

def guard : Arm → Option Expr
  | mk _ _ guard _ => guard

def body : Arm → Block
  | mk _ _ _ body => body

end Arm

namespace Stmt

instance : Inhabited Stmt := ⟨terminate default⟩

def region : Stmt → Region
  | letIn r .. | assign r .. | expr r _ | ret r _ | breakLoop r | continueLoop r | ifElse r ..
  | whileDo r .. | loop r _ | forIn r .. | block r _ | fn r .. | matchOn r .. | suspend r _
  | terminate r => r

def isFn : Stmt → Bool
  | fn .. => true
  | _ => false

end Stmt

def fnNames (stmts : List Stmt) : List String :=
  stmts.filterMap fun
    | .fn _ name .. => some name
    | _ => none

/-! ## Items -/

/-- The three ways of writing an iterator item. -/
inductive ItemForm
  | star | gen | block
deriving DecidableEq, Repr, Inhabited

def ItemForm.text : ItemForm → String
  | star => "fn*"
  | gen => "gen fn"
  | block => "gen block"

/-- A type parameter with its bounds. -/
structure GenericParam where
  name : String
  bounds : List Ty
  region : Region
deriving DecidableEq, Repr

/-- An attribute with its arguments. -/
structure Attr where
  name : String
  args : List Expr
  region : Region
deriving Repr

/-- One iterator item.  In a function that ends in a `gen` block, the **prelude** is what stands
before that block and the body is the block itself. -/
structure Definition where
  name : String
  params : List Param
  yielded : Ty
  body : Block
  region : Region
  isAsync : Bool
  isPub : Bool
  docs : List String
  attrs : List Attr
  generics : List GenericParam
  form : ItemForm
  prelude : List Stmt
deriving Inhabited

namespace Definition

def receiver? (d : Definition) : Option Receiver := d.params.head?.bind Param.receiver?

def attr? (d : Definition) (name : String) : Option Attr := d.attrs.find? (·.name == name)

end Definition

end Yielding
