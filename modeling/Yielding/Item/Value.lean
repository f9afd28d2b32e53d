import Yielding.Decimal
import Yielding.Grammar.Rule
import Yielding.Item.Problem
import Yielding.Syntax.Stmt

/-!
# Item/Value — what a phrase of each form stands for

Reading a derivation gives each phrase a **value**, computed from the values of its kept parts by
the form of its rule.  What a phrase stands for may be spoilt by a problem; the problem is then the
value, so that the first problem in reading order is the one an item ends up with.
-/

namespace Yielding

/-- A result that a problem may stand in for. -/
abbrev Build := Except Problem

/-- The values of phrases. -/
inductive Value
  | token (t : Token)
  | keyword (form : ItemForm)
  | yields (marker : Token) (type : Ty)
  | genBlock (attrs : Build (List Attr)) (isAsync : Bool) (body : Build Block)
  | genBody (prelude : Build (List Stmt)) (attrs : Build (List Attr)) (isAsync : Bool)
      (body : Build Block)
  | attr (a : Build Attr)
  | args (es : Build (List Expr))
  | generics (ps : List GenericParam)
  | genericParam (p : GenericParam)
  | lifetimeParam
  | params (ps : Build (List Param))
  | param (p : Param)
  | type (t : Ty)
  | typeArgs (args : List Ty) (bindings : List (String × Ty))
  | assoc (name : String) (type : Ty)
  | ascription (type : Ty)
  | resultType (type : Ty)
  | block (b : Build Block)
  | stmt (s : Build (Option Stmt))
  | letElse (b : Build Block)
  | elseClause (b : Build Block)
  | condition (c : Build Condition)
  | arm (a : Build Arm)
  | matchGuard (e : Build Expr)
  | pattern (p : Build Pattern)
  | restPattern (region : Region)
  | expr (e : Build Expr)
  | item (d : Build Definition)
  | incoherent (region : Region)

def incoherent {α : Type} (region : Region) : Build α :=
  .error ⟨.body, .incoherent, region.site⟩

namespace Value

open Grammar

/-! ## Parts of given kinds -/

def expr? (region : Region) : Value → Build Expr
  | .expr e => e
  | _ => Yielding.incoherent region

def block? (region : Region) : Value → Build Block
  | .block b => b
  | _ => Yielding.incoherent region

def condition? (region : Region) : Value → Build Condition
  | .condition c => c
  | .expr e => Condition.test <$> e
  | _ => Yielding.incoherent region

/-- A pattern outside of tuple patterns, where `..` cannot stand. -/
def pattern? (region : Region) : Value → Build Pattern
  | .pattern p => p
  | .restPattern r => .error ⟨.body, .restOutsideTuple, r.site⟩
  | _ => Yielding.incoherent region

def tupleItem? (region : Region) : Value → Build Pattern
  | .restPattern r => .ok (.rest r)
  | v => v.pattern? region

def isToken (kind : Terminal) : Value → Bool
  | .token t => t.kind = kind
  | _ => false

def token? : Value → Option Token
  | .token t => some t
  | _ => none

def type? : Value → Option Ty
  | .type t => some t
  | _ => none

/-! ## Words -/

/-- The digits of a number and the suffix that names its type, without underscores. -/
def splitSuffix (text : String) : List Char × Option String :=
  let cs := text.toList.filter (· ≠ '_')
  let isSuffix (c : Char) : Bool := c == 'i' || c == 'u' || c == 'f'
  let suffix := cs.dropWhile fun c => !isSuffix c
  (cs.takeWhile fun c => !isSuffix c, if suffix.isEmpty then none else some (String.ofList suffix))

/-- How many digits a number can have. -/
def maxDigits : Nat := 4300

/-- The number that digits stand for. -/
def numberOf (region : Region) (digits : List Char) : Build Nat :=
  if digits.length ≤ maxDigits then .ok (Text.digitsValue digits)
  else .error ⟨.body, .oversized, region.site⟩

/-- The characters between the quotes of a word. -/
def unquoted (region : Region) (t : Token) : Build (List Char) :=
  match Text.unescape ((t.text.toList.drop 1).dropLast) with
  | .ok cs => .ok cs
  | .error e => .error ⟨.body, .escape e, region.site⟩

/-- The literal that a word stands for. -/
def literalOf (region : Region) (t : Token) : Build Literal :=
  match t.kind with
  | .int => do
    let (digits, suffix) := splitSuffix t.text
    return .int (← numberOf region digits) suffix
  | .float =>
    let (digits, suffix) := splitSuffix t.text
    .ok (.float (Decimal.ofChars digits).toFloat suffix)
  | .string => do return .str (String.ofList (← unquoted region t))
  | .char => do
    match ← unquoted region t with
    | [c] => return .char c
    | _ => Yielding.incoherent region
  | .kwTrue => .ok (.bool true)
  | .kwFalse => .ok (.bool false)
  | _ => Yielding.incoherent region

def docText (t : Token) : String :=
  match t.text.toList.drop 3 with
  | ' ' :: cs => String.ofList cs
  | cs => String.ofList cs

def unaryOp? : Terminal → Option UnaryOp
  | .minus => some .neg
  | .bang => some .not
  | .star => some .deref
  | _ => none

def binaryOp? : Terminal → Option BinaryOp
  | .barBar => some .or
  | .ampAmp => some .and
  | .eqEq => some .eq
  | .notEq => some .ne
  | .lt => some .lt
  | .ltEq => some .le
  | .gt => some .gt
  | .gtEq => some .ge
  | .plus => some .add
  | .minus => some .sub
  | .star => some .mul
  | .slash => some .div
  | .percent => some .rem
  | _ => none

def assignOp? : Terminal → Option AssignOp
  | .equal => some .set
  | .plusEq => some .add
  | .minusEq => some .sub
  | .starEq => some .mul
  | .slashEq => some .div
  | .percentEq => some .rem
  | _ => none

/-- The macro of a name; `vec` is no macro here but a way to write an array. -/
def macroName? (called : String) : Option MacroName :=
  [MacroName.format, .println, .print, .panic, .assert].find? (·.text == called)

/-! ## Expressions -/

def args? (region : Region) : List Value → Build (List Expr)
  | [] => .ok []
  | [.args es] => es
  | _ => Yielding.incoherent region

def readMacro (region : Region) (called : String) (rest : List Value) : Build Expr :=
  match called == "vec", macroName? called with
  | false, none => .error ⟨.body, .unsupportedMacro called, region.site⟩
  | true, _ => do return .array region (← args? region rest)
  | false, some m => do return .macroCall region m (← args? region rest)

def readCall (region : Region) (func : Build Expr) (rest : List Value) : Build Expr := do
  let func ← func
  let es ← args? region rest
  match func with
  | .field _ receiver method => return .methodCall region receiver method es
  | func => return .call region func es

def readTupleField (region : Region) (value : Build Expr) (t : Token) : Build Expr :=
  match splitSuffix t.text with
  | (_, some _) => .error ⟨.body, .tupleIndex t.text, region.site⟩
  | (digits, none) => do return .tupleField region (← value) (← numberOf region digits)

def readExpr (form : Form) (region : Region) (vs : List Value) : Build Expr :=
  match form, vs with
  | .yieldExpr, [] => .ok (.yield region none)
  | .yieldExpr, [.expr e] => do return .yield region (some (← e))
  | .range, [.expr a, .token op, .expr b] => do
    return .range region (← a) (← b) (op.kind = .dotDotEq)
  | .binary, [.expr a, .token op, .expr b] => do
    let a ← a
    let b ← b
    let some op := binaryOp? op.kind | Yielding.incoherent region
    return .binary region op a b
  | .unary, [.token op, .expr e] => do
    let e ← e
    let some op := unaryOp? op.kind | Yielding.incoherent region
    return .unary region op e
  | .borrow, [.token _, .expr e] => do return .borrow region (← e) false
  | .borrow, [.token _, .token _, .expr e] => do return .borrow region (← e) true
  | .call, .expr func :: rest => readCall region func rest
  | .field, [.expr e, .token t] => do return .field region (← e) t.text
  | .tupleField, [.expr e, .token t] => readTupleField region e t
  | .index, [.expr a, .expr b] => do return .index region (← a) (← b)
  | .tryExpr, [.expr e] => do return .attempt region (← e)
  | .awaitExpr, [.expr e, .token _] => do return .await region (← e)
  | .name, [.token t] => .ok (.name region t.text)
  | .selfName, _ => .ok (.name region "self")
  | .path, vs => .ok (.path region (vs.filterMap fun v => v.token?.map Token.text))
  | .literal, [.token t] => do return .literal region (← literalOf region t)
  | .unitLiteral, _ => .ok (.literal region .unit)
  | .tuple, vs => do return .tuple region (← vs.mapM (expr? region))
  | .array, vs => do return .array region (← args? region vs)
  | .macroCall, .token called :: rest => readMacro region called.text rest
  | _, _ => Yielding.incoherent region

/-! ## Patterns -/

def readVariant (region : Region) (called : String) (inner : Value) : Build Pattern :=
  match Variant.ofName? called with
  | none => .error ⟨.body, .unsupportedPattern called, region.site⟩
  | some v =>
    match inner with
    | .restPattern r => .ok (.variant region v (.wildcard r))
    | inner => do return .variant region v (← inner.pattern? region)

def readTuplePattern (region : Region) (vs : List Value) : Build Pattern := do
  let items ← vs.mapM (tupleItem? region)
  if items.countP Pattern.isRest > 1 then .error ⟨.body, .repeatedRest, region.site⟩
  else return .tuple region items

def readLiteralPattern (region : Region) (negative : Bool) (t : Token) : Build Pattern := do
  match negative, ← literalOf region t with
  | true, .int n suffix => return .literal region (.int (-n) suffix)
  | _, value => return .literal region value

def readPattern (form : Form) (region : Region) (vs : List Value) : Value :=
  match form, vs with
  | .bindPattern, [.token t] =>
    .pattern (.ok (if t.text = "None" then .noneVariant region else .bind region t.text false))
  | .bindPattern, [.token _, .token t] => .pattern (.ok (.bind region t.text true))
  | .wildcardPattern, _ => .pattern (.ok (.wildcard region))
  | .variantPattern, [.token t, inner] => .pattern (readVariant region t.text inner)
  | .unitPattern, _ => .pattern (.ok (.tuple region []))
  | .parenPattern, [.restPattern r] => .pattern (.ok (.tuple region [.rest r]))
  | .parenPattern, [inner] => inner
  | .tuplePattern, vs => .pattern (readTuplePattern region vs)
  | .restPattern, _ => .restPattern region
  | .literalPattern, [.token t] => .pattern (readLiteralPattern region false t)
  | .literalPattern, [.token _, .token t] => .pattern (readLiteralPattern region true t)
  | _, _ => .incoherent region

/-! ## Types and parameters -/

def readTypePath (vs : List Value) : Ty :=
  let path := "::".intercalate (vs.filterMap fun v => v.token?.map Token.text)
  match vs.getLast? with
  | some (.typeArgs ts bindings) => .mk path ts bindings
  | _ => .ofName path

def readType (form : Form) (region : Region) (vs : List Value) : Value :=
  match form, vs with
  | .refType, vs =>
    match vs.getLast? with
    | some (.type t) => .type (.ref (vs.any (isToken .kwMut)) t)
    | _ => .incoherent region
  | .unitType, _ => .type .unit
  | .tupleType, vs => .type (.tuple (vs.filterMap type?))
  | .sliceType, [.type t] => .type (.app "[]" [t])
  | .implType, vs => .type (.app "impl" (vs.filterMap type?))
  | .inferType, _ => .type .unknown
  | .typePath, vs => .type (readTypePath vs)
  | .typeArgs, vs =>
    .typeArgs (vs.filterMap type?) (vs.filterMap fun
      | .assoc called t => some (called, t)
      | _ => none)
  | .assocType, [.token called, .type t] => .assoc called.text t
  | _, _ => .incoherent region

def readSelfParam (region : Region) (vs : List Value) : Value :=
  let isRef := vs.any (isToken .amp)
  let isMut := vs.any (isToken .kwMut)
  match vs.getLast? with
  | some (.token t) =>
    let kind := if isRef then (if isMut then .exclusive else .shared) else Receiver.value
    .param ⟨"self", .receiver kind, t.region, isMut && !isRef⟩
  | _ => .incoherent region

/-- Checks the parameters that follow the ones in `seen`. -/
def checkParams (isFirst : Bool) (seen : List String) : List Param → Build (List Param)
  | [] => .ok []
  | p :: ps =>
    if p.receiver?.isSome && !isFirst then .error ⟨.signature, .selfNotFirst, p.region.site⟩
    else if seen.contains p.name then .error ⟨.signature, .repeatedParam p.name, p.region.site⟩
    else do return p :: (← checkParams false (p.name :: seen) ps)

/-! ## Statements -/

/-- The statements of a row and the expression that may end it. -/
def readStmts (region : Region) : List Value → Build (List Stmt × Option Expr)
  | [] => .ok ([], none)
  | .stmt s :: vs => do
    let s ← s
    let (rest, tail) ← readStmts region vs
    return (s.toList ++ rest, tail)
  | .block b :: vs => do
    let b ← b
    let (rest, tail) ← readStmts region vs
    return (.block b.region b :: rest, tail)
  | [.expr e] => do return ([], some (← e))
  | _ => Yielding.incoherent region

def readBlock (region : Region) (vs : List Value) : Build Block := do
  let (stmts, tail) ← readStmts region vs
  return .mk stmts region tail

/-- The declared type of a `let`, and the values behind it. -/
def declared : List Value → Option Ty × List Value
  | .ascription t :: rest => (some t, rest)
  | rest => (none, rest)

def finishLet (region : Region) (p : Pattern) (t : Option Ty) : List Value → Build Stmt
  | [.expr value] => do return .letIn region p t (← value) none
  | [.expr value, .letElse b] => do return .letIn region p t (← value) (some (← b))
  | _ => Yielding.incoherent region

def readLet (region : Region) (bound : Value) (rest : List Value) : Build Stmt := do
  finishLet region (← bound.pattern? region) (declared rest).1 (declared rest).2

def readIf (region : Region) (head thenBlock : Value) (rest : List Value) : Build Stmt := do
  let head ← head.condition? region
  let thenBlock ← thenBlock.block? region
  match rest with
  | [] => return .ifElse region head thenBlock none
  | [.elseClause b] => return .ifElse region head thenBlock (some (← b))
  | _ => Yielding.incoherent region

def readElseIf (region : Region) (s : Build (Option Stmt)) : Build Block := do
  match ← s with
  | some nested => return .mk [nested] nested.region none
  | none => Yielding.incoherent region

/-- The body of an arm: an expression is a block with that one statement. -/
def armBody? (region : Region) : Value → Build Block
  | .block b => b
  | .expr e => do
    let e ← e
    return .mk [.expr e.region e] e.region none
  | _ => Yielding.incoherent region

def readArm (region : Region) (matched : Value) (rest : List Value) : Build Arm := do
  let matched ← matched.pattern? region
  match rest with
  | [body] => return .mk region matched none (← body.armBody? region)
  | [.matchGuard e, body] => return .mk region matched (some (← e)) (← body.armBody? region)
  | _ => Yielding.incoherent region

def arm? (region : Region) : Value → Build Arm
  | .arm a => a
  | _ => Yielding.incoherent region

/-- A problem in the parameters of a nested function spoils the body it stands in. -/
def inBody {α : Type} : Build α → Build α
  | .ok a => .ok a
  | .error p => .error { p with spoiled := .body }

/-- The parameters of a nested function, and the values behind them. -/
def nestedParams : List Value → Build (List Param × List Value)
  | .params ps :: rest => do return (← inBody ps, rest)
  | rest => .ok ([], rest)

/-- The declared type of a result, and the values behind it. -/
def resultOf : List Value → Option Ty × List Value
  | .resultType t :: rest => (some t, rest)
  | rest => (none, rest)

def finishFn (region : Region) (called : Token) (ps : List Param) (t : Option Ty) :
    List Value → Build Stmt
  | [.block b] => do
    let b ← b
    if ps.any (·.receiver?.isSome) then .error ⟨.body, .nestedSelf, called.site⟩
    else return .fn region called.text ps t b
  | _ => Yielding.incoherent region

def readFn (region : Region) (called : Token) (rest : List Value) : Build Stmt := do
  let (ps, rest) ← nestedParams rest
  finishFn region called ps (resultOf rest).1 (resultOf rest).2

def readStmt (form : Form) (region : Region) (vs : List Value) : Build (Option Stmt) :=
  match form, vs with
  | .emptyStmt, _ => .ok none
  | .letStmt, bound :: rest => some <$> readLet region bound rest
  | .assignStmt, [.expr target, .token op, .expr value] => do
    let target ← target
    let value ← value
    let some op := assignOp? op.kind | Yielding.incoherent region
    return some (.assign region target value op)
  | .exprStmt, [.expr e] => do return some (.expr region (← e))
  | .returnStmt, [] => .ok (some (.ret region none))
  | .returnStmt, [.expr e] => do return some (.ret region (some (← e)))
  | .breakStmt, _ => .ok (some (.breakLoop region))
  | .continueStmt, _ => .ok (some (.continueLoop region))
  | .ifStmt, head :: thenBlock :: rest => some <$> readIf region head thenBlock rest
  | .whileStmt, [head, .block body] => do
    return some (.whileDo region (← head.condition? region) (← body))
  | .loopStmt, [.block body] => do return some (.loop region (← body))
  | .forStmt, [bound, .expr iterable, .block body] => do
    return some (.forIn region (← bound.pattern? region) (← iterable) (← body))
  | .matchStmt, .expr subject :: arms => do
    return some (.matchOn region (← subject) (← arms.mapM (arm? region)))
  | .fnItem, .token called :: rest => some <$> readFn region called rest
  | _, _ => Yielding.incoherent region

/-! ## Items -/

def readAttr (region : Region) (called : Token) (rest : List Value) : Build Attr := do
  let es ← args? region rest
  if called.text = "size_hint" && es.length ≠ 1 then
    .error ⟨.signature, .hintArity es.length, region.site⟩
  else return ⟨called.text, es, region⟩

def isAttr : Value → Bool
  | .attr _ => true
  | _ => false

def attr? (region : Region) : Value → Build Attr
  | .attr a => a
  | _ => Yielding.incoherent region

def readYields (form : ItemForm) (marker : Token) (t : Ty) : Build Ty :=
  match form, marker.kind with
  | .star, .kwYields | .gen, .arrow | .block, _ => .ok t
  | .star, _ => .error ⟨.signature, .arrowForYields marker.text, marker.site⟩
  | .gen, _ => .error ⟨.signature, .yieldsForArrow, marker.site⟩

/-- The element type that the result type of a function with a `gen` block names. -/
def itemTypeOf (region : Region) : Option Ty → Build Ty
  | none => .ok .unknown
  | some t =>
    match (if t.name = "impl" then t.args else [t]).findSome? (·.binding? "Item") with
    | some element => .ok element
    | none => .error ⟨.signature, .resultWithoutItem, region.site⟩

/-- What is known of an item while its parts are read. -/
structure Draft where
  docs : List String := []
  attrs : List Attr := []
  isPub : Bool := false
  isAsync : Bool := false
  form : ItemForm := .star
  name : Option Token := none
  generics : List GenericParam := []
  params : List Param := []
  yielded : Option Ty := none
  result : Option Ty := none
  prelude : List Stmt := []
  body : Option Block := none

/-- Reads one more part of an item. -/
def Draft.add (region : Region) (d : Draft) : Value → Build Draft
  | .token t =>
    match t.kind with
    | .docComment => .ok { d with docs := d.docs ++ [docText t] }
    | .kwPub => .ok { d with isPub := true }
    | .kwAsync => .ok { d with isAsync := true }
    | .name => .ok { d with name := some t }
    | _ => .ok d
  | .attr a => do return { d with attrs := d.attrs ++ [← a] }
  | .keyword form => .ok { d with form := form }
  | .generics ps => .ok { d with generics := ps }
  | .params ps => do return { d with params := ← ps }
  | .yields marker t => do return { d with yielded := some (← readYields d.form marker t) }
  | .resultType t => .ok { d with result := some t }
  | .genBody prelude attrs isAsync body => do
    let prelude ← prelude
    let attrs ← attrs
    let body ← body
    return { d with
      form := .block
      prelude := prelude
      attrs := d.attrs ++ attrs
      isAsync := isAsync
      body := some body }
  | .block b => do return { d with body := some (← b) }
  | _ => Yielding.incoherent region

/-- The item of a draft all of whose parts have been read. -/
def Draft.finish (region : Region) (d : Draft) : Build Definition := do
  let some called := d.name | Yielding.incoherent region
  let some body := d.body | Yielding.incoherent region
  let yielded ← match d.form with
    | .block => itemTypeOf called.region d.result
    | _ => match d.yielded with
      | some t => pure t
      | none => Yielding.incoherent region
  return {
    name := called.text
    params := d.params
    yielded := yielded
    body := body
    region := called.region
    isAsync := d.isAsync
    isPub := d.isPub
    docs := d.docs
    attrs := d.attrs
    generics := d.generics
    form := d.form
    prelude := d.prelude }

def readItem (region : Region) (vs : List Value) : Build Definition := do
  let draft ← vs.foldlM (Draft.add region) {}
  draft.finish region

/-- The `gen` block of a function: its attributes, whether it is asynchronous, its body. -/
def readGenBlock (region : Region) (vs : List Value) : Value :=
  match vs.getLast? with
  | some (.block b) =>
    .genBlock ((vs.filter isAttr).mapM (attr? region)) (vs.any (isToken .kwAsync)) b
  | _ => .incoherent region

/-- The body of a function with a `gen` block: what stands before the block, and the block. -/
def readGenBody (region : Region) (vs : List Value) : Value :=
  match vs.getLast? with
  | some (.genBlock attrs isAsync body) =>
    .genBody (Prod.fst <$> readStmts region vs.dropLast) attrs isAsync body
  | _ => .incoherent region

/-- The values of a phrase with the given form, region and kept parts.  All forms but `row` and
`same` give one value. -/
def read (form : Form) (region : Region) (vs : List Value) : List Value :=
  match form, vs with
  | .row, vs | .same, vs => vs
  | .item, vs | .genItem, vs => [.item (readItem region vs)]
  | .starKeyword, _ => [.keyword .star]
  | .genKeyword, _ => [.keyword .gen]
  | .yieldsClause, [.token marker, .type t] => [.yields marker t]
  | .genBody, vs => [readGenBody region vs]
  | .genBlock, vs => [readGenBlock region vs]
  | .attr, .token _ :: .token called :: rest => [.attr (readAttr region called rest)]
  | .attrArgs, vs => [.args (args? region vs)]
  | .generics, vs => [.generics (vs.filterMap fun | .genericParam p => some p | _ => none)]
  | .genericParam, .token called :: bounds =>
    [.genericParam ⟨called.text, bounds.filterMap type?, called.region⟩]
  | .lifetimeParam, _ => [.lifetimeParam]
  | .params, vs =>
    [.params (checkParams true [] (vs.filterMap fun | .param p => some p | _ => none))]
  | .selfParam, vs => [readSelfParam region vs]
  | .typedParam, [.token t, .type ty] => [.param ⟨t.text, .typed ty, t.region, false⟩]
  | .typedParam, [.token _, .token t, .type ty] => [.param ⟨t.text, .typed ty, t.region, true⟩]
  | .block, vs => [.block (readBlock region vs)]
  | .ascription, [.type t] => [.ascription t]
  | .letElse, [.block b] => [.letElse b]
  | .elseIf, [.stmt s] => [.elseClause (readElseIf region s)]
  | .elseBlock, [.block b] => [.elseClause b]
  | .letCondition, [bound, .expr value] =>
    [.condition do return .letMatch region (← bound.pattern? region) (← value)]
  | .matchArm, matched :: rest => [.arm (readArm region matched rest)]
  | .matchGuard, [.expr e] => [.matchGuard e]
  | .resultType, [.type t] => [.resultType t]
  | .callArgs, vs => [.args (vs.mapM (expr? region))]
  | form, vs =>
    match form.kind with
    | .type => [readType form region vs]
    | .stmt => [.stmt (readStmt form region vs)]
    | .pattern => [readPattern form region vs]
    | .expr => [.expr (readExpr form region vs)]
    | .other => [.incoherent region]

end Value

end Yielding
