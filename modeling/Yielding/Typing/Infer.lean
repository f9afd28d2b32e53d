import Yielding.Syntax.Stmt
import Yielding.Typing.Unify

/-!
# Typing/Infer — the types of expressions, as far as they are plain

Inference is shallow: literals, parameters, bindings, the outcome constructors and a handful of
well-known methods have types, and everything else is `_`.
-/

namespace Yielding

/-! ## Scopes -/

/-- The types of names, the latest binding first. -/
abbrev Scope := List (String × Ty)

namespace Scope

def define (s : Scope) (name : String) (t : Ty) : Scope := (name, t) :: s

/-- The type of a name; nothing is known of free names. -/
def typeOf (s : Scope) (name : String) : Ty := (s.lookup name).getD .unknown

end Scope

/-- The types that the items of a tuple pattern match; `..` and items without a counterpart get
`_`. -/
def Pattern.itemTypes (items : List Pattern) (t : Ty) : List Ty :=
  let unknown := items.map fun _ => Ty.unknown
  if t.name ≠ "tuple" then unknown
  else
    match items.findIdx? Pattern.isRest with
    | none => if t.args.length = items.length then t.args else unknown
    | some before =>
      let after := items.length - before - 1
      if before + after > t.args.length then unknown
      else t.args.take before ++ [.unknown] ++ t.args.drop (t.args.length - after)

/-- The type of the payload of an outcome of type `t`. -/
def Variant.payload (v : Variant) (t : Ty) : Ty :=
  match v, Ty.canonicalName t.name, t.args with
  | .some, "Option", a :: _ => a
  | .ok, "Result", a :: _ => a
  | .err, "Result", _ :: b :: _ => b
  | _, _, _ => .unknown

mutual

/-- Binds the names of a pattern that is matched with a value of type `t`. -/
def Scope.bindPattern (s : Scope) : Pattern → Ty → Scope
  | .bind _ name _, t => s.define name t
  | .tuple _ items, t => s.bindRow items (Pattern.itemTypes items t)
  | .variant _ v inner, t => s.bindPattern inner (v.payload t)
  | _, _ => s

/-- Binds the names of patterns matched with values of the given types. -/
def Scope.bindRow (s : Scope) : List Pattern → List Ty → Scope
  | p :: ps, t :: ts => (s.bindPattern p t).bindRow ps ts
  | _, _ => s

end

/-! ## Expressions -/

namespace Literal

def type : Literal → Ty
  | int _ suffix => .ofName (suffix.getD Ty.intLiteral)
  | float _ suffix => .ofName (suffix.getD Ty.floatLiteral)
  | str _ => .ref false (.ofName "str")
  | char _ => .char
  | bool _ => .bool
  | unit => .unit

end Literal

/-- The result types of the nested functions of an item, the one that counts first. -/
abbrev FnTypes := List (String × Ty)

/-- The methods whose result type is known whatever they are called on. -/
def fixedMethods : List (String × Ty) :=
  [("len", .usize), ("count", .usize), ("is_empty", .bool), ("is_some", .bool),
   ("is_none", .bool), ("is_ok", .bool), ("is_err", .bool), ("contains", .bool),
   ("starts_with", .bool), ("ends_with", .bool), ("eq", .bool), ("ne", .bool),
   ("to_string", .string), ("to_uppercase", .string), ("to_lowercase", .string),
   ("chars", .iteratorOf .char)]

/-- A type made from `t`, unless nothing is known of `t`. -/
def Ty.ifKnown (t : Ty) (f : Ty → Ty) : Ty := if t.isUnknown then .unknown else f t

/-- Whether a type is one of the outcome types. -/
def Ty.isOutcome (t : Ty) : Bool :=
  let name := Ty.canonicalName t.name
  name == "Option" || name == "Result"

/-- The first argument, if there is one. -/
def Ty.firstArg (t : Ty) : Ty := t.args.head?.getD .unknown

/-- The result type of a method by the type of its receiver. -/
def methodType (method : String) (receiver : Ty) : Ty :=
  let base := receiver.stripRefs
  match fixedMethods.lookup method with
  | some t => t
  | none =>
    match method with
    | "clone" | "to_owned" => if base = .ofName "str" then .string else base
    | "iter" => base.elementType.ifKnown fun t => .iteratorOf (.ref false t)
    | "iter_mut" => base.elementType.ifKnown fun t => .iteratorOf (.ref true t)
    | "into_iter" => receiver.elementType.ifKnown .iteratorOf
    | "next" | "pop" => base.elementType.ifKnown .option
    | "first" | "last" => base.elementType.ifKnown fun t => .option (.ref false t)
    | "take" | "replace" => if Ty.canonicalName base.name = "Option" then base else .unknown
    | "unwrap" | "expect" => if base.isOutcome then base.firstArg else .unknown
    | _ => .unknown

/-- The type of a call of a path. -/
def pathCallType (segments : List String) : Ty :=
  match "::".intercalate segments with
  | "String::from" | "String::new" => .string
  | "Vec::new" | "Vec::with_capacity" => .vec .unknown
  | _ => .unknown

/-- The type of a call of a name. -/
def nameCallType (fns : FnTypes) (name : String) (args : List Ty) : Ty :=
  match name, args with
  | "Some", [t] => .option t
  | "Ok", [t] => .result t .unknown
  | "Err", [t] => .result .unknown t
  | _, _ => (fns.lookup name).getD .unknown

/-- The type of both of two operands, as far as they agree. -/
def Ty.common (a b : Ty) : Ty := (a.unify b).getD .unknown

mutual

/-- The type of an expression. -/
def Expr.type (fns : FnTypes) (s : Scope) : Expr → Ty
  | .literal _ l => l.type
  | .name _ ident => if ident = "None" then .option .unknown else s.typeOf ident
  | .call _ (.name _ ident) args => nameCallType fns ident (rowTypes fns s args)
  | .call _ (.path _ segments) _ => pathCallType segments
  | .methodCall _ receiver method _ => methodType method (receiver.type fns s)
  | .tuple _ elements => .tuple (rowTypes fns s elements)
  | .array _ elements => .vec ((rowTypes fns s elements).foldl Ty.common .unknown)
  | .borrow _ value mutable => (value.type fns s).ifKnown (.ref mutable)
  | .unary _ op operand =>
    let inner := operand.type fns s
    match op with
    | .deref => if inner.isRef then inner.firstArg else .unknown
    | .not => if inner = .bool then .bool else .unknown
    | .neg => inner
  | .binary _ op left right =>
    if op.isTest then .bool else (left.type fns s).common (right.type fns s)
  | .range _ start stop inclusive =>
    .app (if inclusive then "RangeInclusive" else "Range")
      [(start.type fns s).common (stop.type fns s)]
  | .index _ value _ =>
    let base := (value.type fns s).stripRefs
    if ["Vec", "[]", "VecDeque"].contains (Ty.canonicalName base.name) then base.firstArg
    else .unknown
  | .tupleField _ value index =>
    let base := (value.type fns s).stripRefs
    if base.name = "tuple" then (base.args[index]?).getD .unknown else .unknown
  | .attempt _ operand =>
    let inner := operand.type fns s
    if inner.isOutcome then inner.firstArg else .unknown
  | .yield .. => .unit
  | .macroCall _ .format _ => .string
  | .macroCall _ .panic _ => .unknown
  | .macroCall .. => .unit
  | _ => .unknown

/-- The types of a row of expressions. -/
def rowTypes (fns : FnTypes) (s : Scope) : List Expr → List Ty
  | [] => []
  | e :: es => e.type fns s :: rowTypes fns s es

end

/-! ## Items -/

mutual

/-- The nested functions of a statement with their result types, in order.  Functions inside
functions are not among them. -/
def Stmt.fnTypes : Stmt → FnTypes
  | .fn _ name _ result _ => [(name, result.getD .unit)]
  | .letIn _ _ _ _ (some b) => b.fnTypes
  | .ifElse _ _ a none => a.fnTypes
  | .ifElse _ _ a (some b) => a.fnTypes ++ b.fnTypes
  | .whileDo _ _ b | .loop _ b | .forIn _ _ _ b | .block _ b => b.fnTypes
  | .matchOn _ _ arms => armFnTypes arms
  | _ => []

/-- The nested functions of a row of statements. -/
def stmtFnTypes : List Stmt → FnTypes
  | [] => []
  | s :: ss => s.fnTypes ++ stmtFnTypes ss

/-- The nested functions of a block. -/
def Block.fnTypes : Block → FnTypes
  | .mk stmts _ _ => stmtFnTypes stmts

/-- The nested functions of the arms of a match. -/
def armFnTypes : List Arm → FnTypes
  | [] => []
  | .mk _ _ _ b :: arms => b.fnTypes ++ armFnTypes arms

end

namespace Definition

/-- The result types of the nested functions of an item; a later one hides an earlier one of the
same name. -/
def fnTypes (d : Definition) : FnTypes := (stmtFnTypes d.prelude ++ d.body.fnTypes).reverse

/-- Binds the names of the `let` statements of a row. -/
def bindLets (fns : FnTypes) (s : Scope) (stmts : List Stmt) : Scope :=
  stmts.foldl
    (fun s stmt =>
      match stmt with
      | .letIn _ p type value _ => s.bindPattern p (type.getD (value.type fns s))
      | _ => s)
    s

/-- The scope at the start of the body: the parameters, then what the prelude binds. -/
def scope (d : Definition) : Scope :=
  let params := d.params.foldl
    (fun s p =>
      match p.kind with
      | .typed t => Scope.define s p.name t
      | .receiver _ => s)
    []
  bindLets d.fnTypes params d.prelude

/-- Goes through a row of statements: the type of each value that is bound or left standing, and the
scope at the end. -/
def valueTypes (fns : FnTypes) (s : Scope) : List Stmt → List Ty × Scope
  | [] => ([], s)
  | .letIn _ p type value _ :: rest =>
    let t := value.type fns s
    let (types, last) := valueTypes fns (s.bindPattern p (type.getD t)) rest
    (t :: types, last)
  | .expr _ value :: rest =>
    let (types, last) := valueTypes fns s rest
    (value.type fns s :: types, last)
  | _ :: rest => valueTypes fns s rest

/-- The value types of the statements of the body, and the scope at its end. -/
def bodyTypes (d : Definition) : List Ty × Scope := valueTypes d.fnTypes d.scope d.body.stmts

/-- Whether `?` in the body yields the residual before it finishes.  In a `gen` block it never
does. -/
def residual? (d : Definition) : Option Ty.Residual :=
  match d.form with
  | .block => none
  | _ => d.yielded.residual?

end Definition

end Yielding
