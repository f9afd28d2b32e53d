import Yielding.Proofs.Every
import Yielding.Script.Body

/-!
# Proofs/Rendering/Nodes — terms from the terms of operands

Names, calls of functions, and what is lowered apart, an expression is a **node**: its term is made
of the terms of its operands, in their order (`emitExpr_node`).
-/

namespace Yielding

/-- Whether the term of an expression is made of those of all its operands. -/
def Expr.isNode : Expr → Bool
  | .name .. | .call .. | .yield .. | .attempt .. => false
  | _ => true

namespace Script

/-- The term of a node, from the terms of its operands. -/
def nodeTerm (e : Expr) (ts : List Term) : Term :=
  let first := ts.headD default
  let second := ts.tail.headD default
  match e with
  | .literal _ value => .ofLiteral value
  | .path _ segments => .dotted segments
  | .methodCall _ _ method _ =>
    match knownMethod? method ts.tail.length with
    | some form => form.term first ts.tail
    | none => .call (.attr first (avoidKeyword method)) ts.tail
  | .field _ _ attr => .attr first (avoidKeyword attr)
  | .tupleField _ _ index => .component first index
  | .index .. => .item first second
  | .unary _ op _ =>
    match op with
    | .deref => first
    | .not => .group .not first
    | .neg => .group .neg first
  | .borrow .. => first
  | .binary _ op _ _ => binaryTerm op first second
  | .range _ _ _ inclusive => .apply "range" [first, if inclusive then .next second else second]
  | .tuple .. => .tuple ts
  | .array .. => .list ts
  | .macroCall _ name _ => macroTerm name ts
  | .await .. => .group .await first
  | .helper _ name _ => .applySupport name.text ts
  | .name .. | .call .. | .yield .. | .attempt .. => default

variable {σ : Type} {N : Naming σ}

/-- **The term of a node** is that of its operands. -/
theorem emitExpr_node {e : Expr} (h : e.isNode) :
    emitExpr N e = do return nodeTerm e (← emitRow N e.operands) := by
  cases e with
  | name | call | yield | attempt => cases h
  | methodCall r receiver method args =>
    simp only [emitExpr, Expr.operands, emitRow, nodeTerm, bind_assoc, pure_bind, List.tail_cons]
    refine bind_congr fun t => bind_congr fun ts => ?_
    cases knownMethod? method ts.length <;> rfl
  | unary r op value => cases op <;> simp [emitExpr, Expr.operands, emitRow, nodeTerm]
  | _ => simp [emitExpr, Expr.operands, emitRow, nodeTerm]

theorem emitExpr_withOperands {e : Expr} (h : e.isNode) {es : List Expr}
    (hes : es.length = e.operands.length) :
    emitExpr N (e.withOperands es) = do return nodeTerm e (← emitRow N es) := by
  have hnode : (e.withOperands es).isNode ∧ nodeTerm (e.withOperands es) = nodeTerm e := by
    fun_cases Expr.withOperands e es <;> exact ⟨h, rfl⟩
  rw [emitExpr_node hnode.1, hnode.2, Expr.operands_withOperands hes]

theorem eq_name_of_isBareName {value : Expr} {t : Term} (h : isBareName value t = true) :
    ∃ x, t = .name x := by
  fun_cases isBareName value t <;> simp_all [isBareName]

theorem ofLiteral_eq (value : Literal) :
    Term.ofLiteral value = .literal (Term.ofLiteral value).text := by
  cases value with
  | bool b => cases b <;> rfl
  | _ => rfl

end Script

end Yielding
