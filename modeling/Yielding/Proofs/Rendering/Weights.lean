import Mathlib.Algebra.BigOperators.Group.List.Basic
import Yielding.Proofs.Every
import Yielding.Script.Item

/-!
# Proofs/Rendering/Weights — what is shown of an item

Code is **weighed** by what stands in it: names, attributes, paths, and what lines store to each
have a weight in a commutative monoid, and the weight of code is the sum.  The other side of the
scales is the lowered item: the expressions that it **uses** where code is written for them
(`Definition.uses`), of which code **shows** most parts once, the arguments that a known function
ignores not at all, and the target of `/=` and `%=` twice.
-/

namespace Yielding

open List Script

/-! ## Expressions that code shows -/

/-- The literal that an expression is, behind `*` and `&`. -/
def Expr.literal? : Expr → Option Literal
  | .literal _ value => some value
  | .unary _ .deref operand => operand.literal?
  | .borrow _ value _ => value.literal?
  | _ => none

mutual

/-- The parts of an expression that its term shows, each before its own parts. -/
def Expr.shown : Expr → List Expr
  | e@(.literal ..) | e@(.name ..) | e@(.path ..) | e@(.yield _ none) => [e]
  | e@(.call _ func args) =>
    e :: match knownFunction? func with
      | none => func.shown ++ Expr.shownRow args
      | some (.extremum _) => Expr.shownRow args
      | some .toText => Expr.shownHead args
      | some .emptyText | some .emptyList => []
  | e@(.methodCall _ receiver _ args) => e :: (receiver.shown ++ Expr.shownRow args)
  | e@(.field _ value _) | e@(.tupleField _ value _) | e@(.borrow _ value _) | e@(.await _ value)
  | e@(.unary _ _ value) | e@(.attempt _ value) | e@(.yield _ (some value)) => e :: value.shown
  | e@(.index _ left right) | e@(.binary _ _ left right) | e@(.range _ left right _) =>
    e :: (left.shown ++ right.shown)
  | e@(.tuple _ row) | e@(.array _ row) | e@(.macroCall _ _ row) | e@(.helper _ _ row) =>
    e :: Expr.shownRow row

def Expr.shownRow : List Expr → List Expr
  | [] => []
  | e :: es => e.shown ++ Expr.shownRow es

def Expr.shownHead : List Expr → List Expr
  | [] => []
  | e :: _ => e.shown

end

theorem Expr.shown_eq {e : Expr} (h : ∀ r func args, e ≠ .call r func args) :
    e.shown = e :: Expr.shownRow e.operands := by
  cases e with
  | call r func args => exact (h r func args rfl).elim
  | yield r value => cases value <;> simp [shown, operands, shownRow]
  | _ => simp [shown, operands, shownRow]

mutual

/-- How often a pattern looks at its subject: once for each test and for each name that it binds. -/
def Pattern.looks : Pattern → Nat
  | .bind .. | .literal .. | .noneVariant _ => 1
  | .variant _ _ inner => inner.looks + 1
  | .tuple _ items => Pattern.rowLooks items (Pattern.places items)
  | .wildcard _ | .rest _ => 0

def Pattern.rowLooks : List Pattern → List (Option Int) → Nat
  | p :: ps, some _ :: is => p.looks + Pattern.rowLooks ps is
  | _ :: ps, none :: is => Pattern.rowLooks ps is
  | _, _ => 0

end

/-- What is shown of a value that a pattern looks at `n` times.  A name is shown at each look; all
else is kept in a subject and shown once. -/
def Expr.shownAsSubject (n : Nat) : Expr → List Expr
  | e@(.name ..) => replicate n e
  | e => e.shown

/-- Whether the line of an assignment holds its target twice. -/
def AssignOp.repeatsTarget : AssignOp → Bool
  | .div | .rem => true
  | _ => false

/-! ## Expressions that an item uses -/

/-- How a statement uses an expression: for its value, to match it against a pattern, or to assign
to it. -/
inductive Use
  | value (e : Expr)
  | subject (pattern : Pattern) (e : Expr)
  | target (op : AssignOp) (e : Expr)

namespace Use

def shown : Use → List Expr
  | value e => e.shown
  | subject p e => e.shownAsSubject p.looks
  | target op e => e.shown ++ if op.repeatsTarget then e.shown else []

def target? : Use → Option Expr
  | target _ e => some e
  | _ => none

end Use

def usesOption : Option Expr → List Use
  | none => []
  | some e => [.value e]

def Condition.use : Condition → Use
  | .test e => .value e
  | .letMatch _ p e => .subject p e

mutual

/-- The expressions that a statement uses where code is written for them, nested functions
included. -/
def Stmt.uses : Stmt → List Use
  | .letIn _ _ _ value none | .expr _ value | .suspend _ value => [.value value]
  | .letIn _ _ _ value (some b) => .value value :: b.uses
  | .assign _ target value op => [.target op target, .value value]
  | .ret _ value => usesOption value
  | .ifElse _ condition a none => condition.use :: a.uses
  | .ifElse _ condition a (some b) => condition.use :: (a.uses ++ b.uses)
  | .whileDo _ condition b => condition.use :: b.uses
  | .loop _ b | .block _ b | .fn _ _ _ _ b => b.uses
  | .forIn _ _ iterable b => .value iterable :: b.uses
  | .matchOn _ subject arms => .value subject :: usesArms arms
  | .breakLoop _ | .continueLoop _ | .terminate _ => []

def usesRow : List Stmt → List Use
  | [] => []
  | s :: ss => s.uses ++ usesRow ss

def Block.uses : Block → List Use
  | .mk stmts _ tail => usesRow stmts ++ usesOption tail

/-- The same for the arms of a match, up to the first that always applies. -/
def usesArms : List Arm → List Use
  | [] => []
  | .mk _ p guard b :: arms =>
    usesOption guard ++ b.uses ++ if guard.isNone && catchesAll p then [] else usesArms arms

end

@[simp]
theorem usesRow_nil : usesRow [] = [] := by rw [usesRow]

@[simp]
theorem usesRow_cons (s : Stmt) (ss : List Stmt) : usesRow (s :: ss) = s.uses ++ usesRow ss := by
  rw [usesRow]

@[simp]
theorem usesRow_append (ss ss' : List Stmt) : usesRow (ss ++ ss') = usesRow ss ++ usesRow ss' := by
  induction ss with
  | nil => simp
  | cons s ss ih => simp [ih]

namespace Definition

def uses (d : Definition) : List Use := usesRow d.prelude ++ d.body.uses ++ usesOption d.sizeHint?

/-- The parts of expressions that the code of an item shows. -/
def shown (d : Definition) : List Expr := d.uses.flatMap Use.shown

/-- What the item assigns to. -/
def assigned (d : Definition) : List Expr := d.uses.filterMap Use.target?

end Definition

namespace Script

/-! ## Weights of code -/

/-- What the parts of code weigh. -/
structure Weights (M : Type) where
  /-- A name, where it is bound and where it is used. -/
  name : String → M
  attr : String → M
  /-- Names joined by dots. -/
  path : List String → M
  /-- A literal of which an attribute is taken, by its text. -/
  base : String → M
  /-- What a line stores to. -/
  store : Term → M

variable {M : Type} [AddCommMonoid M] (W : Weights M)

/-- What a term weighs in addition when an attribute is taken of it. -/
def Term.held : Term → M
  | .literal s => W.base s
  | _ => 0

mutual

def Term.weigh : Term → M
  | .name x => W.name x
  | .dotted segments => W.path segments
  | .literal _ => 0
  | .attr value x => value.held W + value.weigh + W.attr x
  | .item left right | .pair _ left right => left.weigh + right.weigh
  | .call func args => func.weigh + Term.weighRow args
  | .group _ value | .next value => value.weigh
  | .tuple elements | .list elements => Term.weighRow elements
  | .option key value => W.name key + value.weigh

def Term.weighRow : List Term → M
  | [] => 0
  | t :: ts => t.weigh + Term.weighRow ts

end

def Term.weighOption : Option Term → M
  | none => 0
  | some t => t.weigh W

mutual

def Target.weigh : Target → M
  | .name x => W.name x
  | .tuple items => Target.weighRow items
  | .rest | .skip => 0

def Target.weighRow : List Target → M
  | [] => 0
  | t :: ts => t.weigh + Target.weighRow ts

end

mutual

def Case.weigh : Case → M
  | .bind x => W.name x
  | .variant v inner => W.path [supportName, v.name] + inner.weigh
  | .tuple items => Case.weighRow items
  | .literal _ | .none | .rest | .skip => 0

def Case.weighRow : List Case → M
  | [] => 0
  | c :: cs => c.weigh + Case.weighRow cs

end

def Test.weigh : Test → M
  | .equals subject _ | .isNone subject => subject.weigh W
  | .isVariant subject v => subject.weigh W + W.path [supportName, v.name]

def Test.weighRow (tests : List Test) : M := (tests.map (Test.weigh W)).sum

def Decision.weigh : Decision → M
  | .holds value => value.weigh W
  | .all tests | .notAll tests => Test.weighRow W tests

def Line.weigh : Line → M
  | .assign target value => target.weigh W + value.weigh W
  | .store target _ value => W.store target + target.weigh W + value.weigh W
  | .eval value => value.weigh W
  | .yield value | .ret value => Term.weighOption W value
  | .breakLoop | .continueLoop | .pass | .blank | .doc _ | .fixed _ => 0

def Header.weigh : Header → M
  | .cls x => W.name x
  | .fn _ x params _ => W.name x + (params.map W.name).sum
  | .ifDo decision | .elifDo decision => decision.weigh W
  | .elseDo => 0
  | .whileDo value | .matchOn value => value.weigh W
  | .forIn target iterable => target.weigh W + iterable.weigh W
  | .caseOf pattern guard => pattern.weigh W + Term.weighOption W guard

mutual

def Code.weigh : Code → M
  | .line l => l.weigh W
  | .block header body => header.weigh W + Code.weighRow body

def Code.weighRow : List Code → M
  | [] => 0
  | c :: cs => c.weigh + Code.weighRow cs

end

/-! ## Weights of what is shown -/

namespace Weights

/-- What an expression weighs in addition when an attribute is taken of it. -/
def held (e : Expr) : M := e.literal?.elim 0 fun value => W.base (Term.ofLiteral value).text

def methodAttr? (method : String) (arity : Nat) : Option String :=
  match knownMethod? method arity with
  | none => some (avoidKeyword method)
  | some (.attr x) => some x
  | some _ => none

/-- The weight of an expression without its parts.  Names weigh nothing but for `None`, which is the
only one that can be a keyword. -/
def node : Expr → M
  | .name _ x => if x = "None" then W.name x else 0
  | .path _ segments => W.path segments
  | .field _ value attr => W.held value + W.attr (avoidKeyword attr)
  | .methodCall _ receiver method args =>
    (methodAttr? method args.length).elim 0 fun x => W.held receiver + W.attr x
  | _ => 0

def total (es : List Expr) : M := (es.map W.node).sum

@[simp]
theorem total_nil : W.total [] = 0 := rfl

@[simp]
theorem total_cons (e : Expr) (es : List Expr) : W.total (e :: es) = W.node e + W.total es :=
  sum_cons

@[simp]
theorem total_append (es es' : List Expr) : W.total (es ++ es') = W.total es + W.total es' := by
  rw [total, map_append, sum_append]
  rfl

@[simp]
theorem total_replicate (n : Nat) (e : Expr) : W.total (replicate n e) = n • W.node e := by
  rw [total, map_replicate, sum_replicate]

/-- The weight of an expression that is used: of what is shown of it, and of the store to it.  `T`
weighs what is stored to by its expression. -/
def use (T : Expr → M) (u : Use) : M := W.total u.shown + u.target?.elim 0 T

def load (T : Expr → M) (us : List Use) : M := (us.map (W.use T)).sum

@[simp]
theorem load_nil (T : Expr → M) : W.load T [] = 0 := rfl

@[simp]
theorem load_cons (T : Expr → M) (u : Use) (us : List Use) :
    W.load T (u :: us) = W.use T u + W.load T us :=
  sum_cons

@[simp]
theorem load_append (T : Expr → M) (us us' : List Use) :
    W.load T (us ++ us') = W.load T us + W.load T us' := by
  rw [load, map_append, sum_append]
  rfl

theorem load_eq (T : Expr → M) (us : List Use) :
    W.load T us = W.total (us.flatMap Use.shown) + ((us.filterMap Use.target?).map T).sum := by
  induction us with
  | nil => simp
  | cons u us ih =>
    rw [load_cons, ih, use, flatMap_cons, total_append, filterMap_cons]
    cases u.target? with
    | none => simp [add_assoc]
    | some e => simp [add_add_add_comm]

/-- What an item itself never makes heavy: a name that is no keyword, the payload of an outcome, a
name of the support library, and the empty text. -/
structure Light : Prop where
  name : ∀ {x}, x ∉ keywords → W.name x = 0
  payload : ∀ v, W.attr (payloadName v) = 0
  support : ∀ {x}, x ∉ keywords → W.path [supportName, x] = 0
  empty : W.base "\"\"" = 0

end Weights

@[simp]
theorem Code.weighRow_nil : Code.weighRow W [] = 0 := by rw [Code.weighRow]

@[simp]
theorem Code.weighRow_cons (c : Code) (cs : List Code) :
    Code.weighRow W (c :: cs) = c.weigh W + Code.weighRow W cs := by
  rw [Code.weighRow]

@[simp]
theorem Code.weighRow_append (cs cs' : List Code) :
    Code.weighRow W (cs ++ cs') = Code.weighRow W cs + Code.weighRow W cs' := by
  induction cs with
  | nil => simp
  | cons c cs ih => simp [ih, add_assoc]

@[simp]
theorem Code.weigh_line (l : Line) : (Code.line l).weigh W = l.weigh W := by rw [Code.weigh]

@[simp]
theorem Code.weigh_block (header : Header) (body : List Code) :
    (Code.block header body).weigh W = header.weigh W + Code.weighRow W body := by
  rw [Code.weigh]

@[simp]
theorem Term.weighRow_nil : Term.weighRow W [] = 0 := by rw [Term.weighRow]

@[simp]
theorem Term.weighRow_cons (t : Term) (ts : List Term) :
    Term.weighRow W (t :: ts) = t.weigh W + Term.weighRow W ts := by
  rw [Term.weighRow]

end Script

end Yielding
