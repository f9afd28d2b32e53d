import Yielding.Token.Basic

/-!
# Grammar/Rule — categories, symbols and rules

A rule says that a **category** can consist of given parts in a row.  A part is a terminal or a
category; a terminal that carries no information is not **kept** when the phrase is read.  Each rule
has a **form**, which says how a phrase built by it is read.
-/

namespace Yielding.Grammar

/-- The kinds of phrases.  Those whose name begins with `more` or is a plural are rows that the
enclosing phrase takes over. -/
inductive Category
  | root
  | item | itemKeyword | yieldsClause | genBody | genBlock | attr | attrArgs
  | generics | genericParam | params | param
  | type | bound | typePath | typeArgs | typeArg
  | block | stmt | letStmt | ascription | letElse | assignStmt | assignOp | exprStmt | returnStmt
  | breakStmt | continueStmt | ifStmt | elseClause | condition | whileStmt | loopStmt | forStmt
  | matchStmt | matchArm | lastArm | matchGuard | fnItem | resultType
  | pattern
  | expr | yieldExpr | range | disjunction | conjunction | comparison | compareOp | sum | sumOp
  | product | productOp | unary | postfixed | callArgs | primary
  | docLines | attrs | stmts | moreGenericParams | moreTypePaths | moreParams | moreTypes
  | moreBounds | moreSegments | moreTypeArgs | arms | morePatterns | moreExprs
deriving DecidableEq, Repr, Inhabited

namespace Category

def all : List Category :=
  [root, item, itemKeyword, yieldsClause, genBody, genBlock, attr, attrArgs,
   generics, genericParam, params, param,
   type, bound, typePath, typeArgs, typeArg,
   block, stmt, letStmt, ascription, letElse, assignStmt, assignOp, exprStmt, returnStmt,
   breakStmt, continueStmt, ifStmt, elseClause, condition, whileStmt, loopStmt, forStmt,
   matchStmt, matchArm, lastArm, matchGuard, fnItem, resultType,
   pattern,
   expr, yieldExpr, range, disjunction, conjunction, comparison, compareOp, sum, sumOp,
   product, productOp, unary, postfixed, callArgs, primary,
   docLines, attrs, stmts, moreGenericParams, moreTypePaths, moreParams, moreTypes,
   moreBounds, moreSegments, moreTypeArgs, arms, morePatterns, moreExprs]

theorem mem_all (c : Category) : c ∈ all := by cases c <;> decide

def rank (c : Category) : Nat := c.ctorIdx

end Category

/-- How the phrases of a rule are read.  `same` stands for the one part that is kept, `row` for the
kept parts themselves; every other form names what the phrase is. -/
inductive Form
  | same | row
  | item | genItem | starKeyword | genKeyword | yieldsClause | genBody | genBlock
  | attr | attrArgs | generics | genericParam | lifetimeParam
  | params | selfParam | typedParam
  | refType | unitType | tupleType | sliceType | implType | inferType | typePath | typeArgs
  | assocType
  | block | emptyStmt | letStmt | ascription | letElse | assignStmt | exprStmt | returnStmt
  | breakStmt | continueStmt | ifStmt | elseIf | elseBlock | letCondition | whileStmt | loopStmt
  | forStmt | matchStmt | matchArm | matchGuard | fnItem | resultType
  | bindPattern | wildcardPattern | variantPattern | unitPattern | parenPattern | tuplePattern
  | restPattern | literalPattern
  | yieldExpr | range | binary | unary | borrow | call | field | tupleField | index | tryExpr
  | awaitExpr | callArgs | name | selfName | path | literal | unitLiteral | tuple | array
  | macroCall
deriving DecidableEq, Repr, Inhabited

/-- The kinds of phrases that many forms share. -/
inductive FormKind
  | type | stmt | pattern | expr | other
deriving DecidableEq, Repr

def Form.kind : Form → FormKind
  | refType | unitType | tupleType | sliceType | implType | inferType | typePath | typeArgs
  | assocType => .type
  | emptyStmt | letStmt | assignStmt | exprStmt | returnStmt | breakStmt | continueStmt | ifStmt
  | whileStmt | loopStmt | forStmt | matchStmt | fnItem => .stmt
  | bindPattern | wildcardPattern | variantPattern | unitPattern | parenPattern | tuplePattern
  | restPattern | literalPattern => .pattern
  | yieldExpr | range | binary | unary | borrow | call | field | tupleField | index | tryExpr
  | awaitExpr | name | selfName | path | literal | unitLiteral | tuple | array | macroCall => .expr
  | _ => .other

/-- What a part of a rule stands for. -/
inductive Symbol
  | terminal (t : Terminal)
  | category (c : Category)
deriving DecidableEq, Repr, Inhabited

/-- A symbol in a rule, and whether reading keeps it. -/
structure Part where
  symbol : Symbol
  kept : Bool
deriving DecidableEq, Repr, Inhabited

/-- A way to make up a category from parts. -/
structure Rule where
  result : Category
  parts : List Part
  form : Form
deriving DecidableEq, Repr, Inhabited

def Rule.symbols (r : Rule) : List Symbol := r.parts.map Part.symbol

/-! ## Schemes: rules with parts that may be left out -/

/-- A part that a scheme needs, or one that it may have. -/
inductive Slot
  | need (part : Part)
  | may (part : Part)
deriving DecidableEq, Repr

/-- All choices of the optional parts of a scheme. -/
def Slot.choices : List Slot → List (List Part)
  | [] => [[]]
  | .need p :: slots => (choices slots).map (p :: ·)
  | .may p :: slots => (choices slots).map (p :: ·) ++ choices slots

/-- The rules of a scheme: one for each choice of its optional parts. -/
def scheme (result : Category) (form : Form) (slots : List Slot) : List Rule :=
  (Slot.choices slots).map (⟨result, ·, form⟩)

def keep (t : Terminal) : Slot := .need ⟨.terminal t, true⟩

def skip (t : Terminal) : Slot := .need ⟨.terminal t, false⟩

def sub (c : Category) : Slot := .need ⟨.category c, true⟩

def may : Slot → Slot
  | .need p | .may p => .may p

/-!
## How a phrase is built

A derivation is a token or a rule with a derivation for each of its parts.  It **derives** the row
of tokens at its leaves from its symbol.
-/

/-- A tree of rules over tokens. -/
inductive Derivation
  | leaf (token : Token)
  | node (rule : Rule) (children : List Derivation)
deriving Repr, Inhabited

namespace Derivation

def symbol : Derivation → Symbol
  | leaf token => .terminal token.kind
  | node rule _ => .category rule.result

mutual

def tokens : Derivation → List Token
  | leaf token => [token]
  | node _ children => rowTokens children

def rowTokens : List Derivation → List Token
  | [] => []
  | d :: ds => tokens d ++ rowTokens ds

end

mutual

def Fits (rules : List Rule) : Derivation → Prop
  | leaf _ => True
  | node rule children =>
    rule ∈ rules ∧ children.map symbol = rule.symbols ∧ RowFits rules children

def RowFits (rules : List Rule) : List Derivation → Prop
  | [] => True
  | d :: ds => Fits rules d ∧ RowFits rules ds

end

/-- The derivation expands the category `c` by `rules` into the tokens `ts`. -/
def Derives (rules : List Rule) (c : Category) (ts : List Token) (d : Derivation) : Prop :=
  d.Fits rules ∧ d.symbol = .category c ∧ d.tokens = ts

end Derivation

end Yielding.Grammar
