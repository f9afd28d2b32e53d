import Yielding.Diagnostic
import Yielding.Item.Slice
import Yielding.Item.Value

/-!
# Proofs/Moving/Basic — moving things down in a text

Whatever has places in a text can be moved `n` lines further down.  What has no places stays the
same.
-/

namespace Yielding

/-- The values of the type stand in a text. -/
class Located (α : Type) where
  /-- The same thing `n` lines further down. -/
  down : Nat → α → α

open Located

/-! ## Places -/

instance : Located Pos where
  down n p := ⟨p.line + n, p.column⟩

instance : Located Region where
  down n r := ⟨down n r.start, down n r.stop⟩

section Containers

variable {α β : Type} [Located α] [Located β]

instance : Located (Option α) where
  down n := Option.map (down n)

instance : Located (List α) where
  down n := List.map (down n)

instance : Located (α × β) where
  down n := Prod.map (down n) (down n)

end Containers

instance : Located Site where
  down n s := ⟨down n s.start, down n s.stop⟩

def Token.shift (lines chars : Nat) (t : Token) : Token :=
  { t with region := down lines t.region, offset := t.offset + chars }

/-- The lines are empty. -/
instance : Located Token where
  down n := Token.shift n n

instance : Located Lexer.Failure where
  down n f := { f with pos := down n f.pos }

instance : Located Slice where
  down n s := { s with start := down n s.start, bodyOpen := down n s.bodyOpen }

instance : Located Problem where
  down n p := { p with site := down n p.site }

instance {α : Type} [Located α] : Located (Build α) where
  down n
    | .ok a => .ok (down n a)
    | .error p => .error (down n p)

instance : Located Span where
  down n s := { s with line := s.line.map (· + n), endLine := s.endLine.map (· + n) }

instance : Located Diagnostic where
  down n d := { d with span := down n d.span }

/-! ## What has no place -/

instance : Located Literal := ⟨fun _ l => l⟩

instance : Located Ty := ⟨fun _ t => t⟩

/-! ## Syntax -/

mutual

def Pattern.move (n : Nat) : Pattern → Pattern
  | .bind r name mutable => .bind (down n r) name mutable
  | .wildcard r => .wildcard (down n r)
  | .tuple r items => .tuple (down n r) (Pattern.moveRow n items)
  | .noneVariant r => .noneVariant (down n r)
  | .variant r v inner => .variant (down n r) v (Pattern.move n inner)
  | .literal r value => .literal (down n r) value
  | .rest r => .rest (down n r)

def Pattern.moveRow (n : Nat) : List Pattern → List Pattern
  | [] => []
  | p :: ps => Pattern.move n p :: Pattern.moveRow n ps

end

instance : Located Pattern := ⟨Pattern.move⟩

mutual

def Expr.move (n : Nat) : Expr → Expr
  | .literal r value => .literal (down n r) value
  | .name r ident => .name (down n r) ident
  | .path r segments => .path (down n r) segments
  | .call r func args => .call (down n r) (Expr.move n func) (Expr.moveRow n args)
  | .methodCall r receiver method args =>
    .methodCall (down n r) (Expr.move n receiver) method (Expr.moveRow n args)
  | .field r value attr => .field (down n r) (Expr.move n value) attr
  | .tupleField r value i => .tupleField (down n r) (Expr.move n value) i
  | .index r value i => .index (down n r) (Expr.move n value) (Expr.move n i)
  | .unary r op operand => .unary (down n r) op (Expr.move n operand)
  | .borrow r value mutable => .borrow (down n r) (Expr.move n value) mutable
  | .binary r op left right =>
    .binary (down n r) op (Expr.move n left) (Expr.move n right)
  | .range r start stop inclusive =>
    .range (down n r) (Expr.move n start) (Expr.move n stop) inclusive
  | .tuple r elements => .tuple (down n r) (Expr.moveRow n elements)
  | .array r elements => .array (down n r) (Expr.moveRow n elements)
  | .macroCall r called args => .macroCall (down n r) called (Expr.moveRow n args)
  | .yield r none => .yield (down n r) none
  | .yield r (some value) => .yield (down n r) (some (Expr.move n value))
  | .attempt r operand => .attempt (down n r) (Expr.move n operand)
  | .await r value => .await (down n r) (Expr.move n value)
  | .helper r called args => .helper (down n r) called (Expr.moveRow n args)

def Expr.moveRow (n : Nat) : List Expr → List Expr
  | [] => []
  | e :: es => Expr.move n e :: Expr.moveRow n es

end

instance : Located Expr := ⟨Expr.move⟩

instance : Located Condition where
  down n
    | .test e => .test (down n e)
    | .letMatch r p e => .letMatch (down n r) (down n p) (down n e)

instance : Located Param where
  down n p := { p with region := down n p.region }

mutual

def Stmt.move (n : Nat) : Stmt → Stmt
  | .letIn r p t value none =>
    .letIn (down n r) (down n p) t (down n value) none
  | .letIn r p t value (some b) =>
    .letIn (down n r) (down n p) t (down n value) (some (Block.move n b))
  | .assign r target value op =>
    .assign (down n r) (down n target) (down n value) op
  | .expr r value => .expr (down n r) (down n value)
  | .ret r value => .ret (down n r) (down n value)
  | .breakLoop r => .breakLoop (down n r)
  | .continueLoop r => .continueLoop (down n r)
  | .ifElse r c a none =>
    .ifElse (down n r) (down n c) (Block.move n a) none
  | .ifElse r c a (some b) =>
    .ifElse (down n r) (down n c) (Block.move n a) (some (Block.move n b))
  | .whileDo r c b => .whileDo (down n r) (down n c) (Block.move n b)
  | .loop r b => .loop (down n r) (Block.move n b)
  | .forIn r p iterable b =>
    .forIn (down n r) (down n p) (down n iterable) (Block.move n b)
  | .block r b => .block (down n r) (Block.move n b)
  | .fn r name params result b =>
    .fn (down n r) name (down n params) result (Block.move n b)
  | .matchOn r subject arms =>
    .matchOn (down n r) (down n subject) (Arm.moveRow n arms)
  | .suspend r value => .suspend (down n r) (down n value)
  | .terminate r => .terminate (down n r)

def Stmt.moveRow (n : Nat) : List Stmt → List Stmt
  | [] => []
  | s :: ss => Stmt.move n s :: Stmt.moveRow n ss

def Block.move (n : Nat) : Block → Block
  | .mk stmts r tail => .mk (Stmt.moveRow n stmts) (down n r) (down n tail)

def Arm.moveRow (n : Nat) : List Arm → List Arm
  | [] => []
  | .mk r p guard b :: arms =>
    .mk (down n r) (down n p) (down n guard) (Block.move n b) ::
      Arm.moveRow n arms

end

instance : Located Stmt := ⟨Stmt.move⟩

instance : Located Block := ⟨Block.move⟩

instance : Located Arm where
  down n
    | .mk r p guard b => .mk (down n r) (down n p) (down n guard) (down n b)

instance : Located GenericParam where
  down n p := { p with region := down n p.region }

instance : Located Attr where
  down n a := { a with args := down n a.args, region := down n a.region }

instance : Located Definition where
  down n d :=
    { d with
      params := down n d.params
      body := down n d.body
      region := down n d.region
      attrs := down n d.attrs
      generics := down n d.generics
      prelude := down n d.prelude }

instance : Located Value where
  down n
    | .token t => .token (down n t)
    | .keyword form => .keyword form
    | .yields marker type => .yields (down n marker) type
    | .genBlock attrs isAsync body => .genBlock (down n attrs) isAsync (down n body)
    | .genBody prelude attrs isAsync body =>
      .genBody (down n prelude) (down n attrs) isAsync (down n body)
    | .attr a => .attr (down n a)
    | .args es => .args (down n es)
    | .generics ps => .generics (down n ps)
    | .genericParam p => .genericParam (down n p)
    | .lifetimeParam => .lifetimeParam
    | .params ps => .params (down n ps)
    | .param p => .param (down n p)
    | .type t => .type t
    | .typeArgs args bindings => .typeArgs args bindings
    | .assoc name type => .assoc name type
    | .ascription type => .ascription type
    | .resultType type => .resultType type
    | .block b => .block (down n b)
    | .stmt s => .stmt (down n s)
    | .letElse b => .letElse (down n b)
    | .elseClause b => .elseClause (down n b)
    | .condition c => .condition (down n c)
    | .arm a => .arm (down n a)
    | .matchGuard e => .matchGuard (down n e)
    | .pattern p => .pattern (down n p)
    | .restPattern region => .restPattern (down n region)
    | .expr e => .expr (down n e)
    | .item d => .item (down n d)
    | .incoherent region => .incoherent (down n region)

end Yielding
