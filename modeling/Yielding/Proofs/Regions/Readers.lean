import Mathlib.Data.List.Flatten
import Yielding.Proofs.Moving.Values
import Yielding.Proofs.Regions.Nodes
import Yielding.Proofs.Scoping.Emission

/-!
# Proofs/Regions/Readers — where what is read stands

Every reader makes, of the nodes among the values of its parts, nodes that take their places or one
node over them in the region of its phrase, whatever the values are (`read_follows`).
-/

namespace Yielding.Value

open List Node Grammar
open Scoping (bind_eq_ok)

/-! ## The nodes of values -/

/-- The nodes of what is not spoilt. -/
def built {α : Type} (f : α → List Node) : Build α → List Node
  | .ok a => f a
  | .error _ => []

def attrNodes (as : List Attr) : List Node := as.flatMap fun a => a.args.map .expr

/-- The nodes of a value, in the order of the source. -/
def nodes : Value → List Node
  | .expr e | .matchGuard e => built (fun e => [.expr e]) e
  | .args es => built (·.map .expr) es
  | .attr a => built (fun a => attrNodes [a]) a
  | .block b | .letElse b | .elseClause b => built (fun b => [.block b]) b
  | .stmt s => built (·.toList.map .stmt) s
  | .condition c => built (fun c => [.condition c]) c
  | .arm a => built (fun a => [.arm a]) a
  | .pattern p => built (fun p => [.pattern p]) p
  | .restPattern r => [.pattern (.rest r)]
  | .genBlock attrs _ body => built attrNodes attrs ++ built (fun b => [.block b]) body
  | .genBody prelude attrs _ body =>
    built (·.map .stmt) prelude ++ (built attrNodes attrs ++ built (fun b => [.block b]) body)
  | _ => []

def rowNodes (vs : List Value) : List Node := vs.flatMap nodes

variable {r : Region} {v : Value} {vs : List Value}

@[simp] theorem rowNodes_nil : rowNodes [] = [] := rfl

@[simp] theorem rowNodes_cons (v : Value) (vs : List Value) :
    rowNodes (v :: vs) = v.nodes ++ rowNodes vs := flatMap_cons

@[simp] theorem rowNodes_singleton (v : Value) : rowNodes [v] = v.nodes := flatMap_singleton ..

@[simp] theorem nodes_token (t : Token) : (token t).nodes = [] := rfl

@[simp] theorem rowNodes_append (us vs : List Value) :
    rowNodes (us ++ vs) = rowNodes us ++ rowNodes vs := flatMap_append

/-! ## Parts of given kinds -/

theorem expr?_eq_ok {e : Expr} (h : v.expr? r = .ok e) : v.nodes = [.expr e] := by
  cases v <;> cases h
  rfl

theorem block?_eq_ok {b : Block} (h : v.block? r = .ok b) : v.nodes = [.block b] := by
  cases v <;> cases h
  rfl

theorem arm?_eq_ok {a : Arm} (h : v.arm? r = .ok a) : v.nodes = [.arm a] := by
  cases v <;> cases h
  rfl

theorem pattern?_eq_ok {p : Pattern} (h : v.pattern? r = .ok p) : v.nodes = [.pattern p] := by
  cases v <;> cases h
  rfl

theorem tupleItem?_eq_ok {p : Pattern} (h : v.tupleItem? r = .ok p) : v.nodes = [.pattern p] := by
  cases v <;> cases h
  · rfl
  · rfl

theorem condition?_eq_ok {c : Condition} (h : v.condition? r = .ok c) :
    Kept [.condition c] v.nodes := by
  cases v with
  | condition c => cases h; exact .refl _
  | expr e =>
    cases e with
    | error p => cases h
    | ok e => cases h; exact kept_singleton (refines_wrapped rfl rfl)
  | _ => cases h

theorem armBody?_eq_ok {b : Block} (h : v.armBody? r = .ok b) : Kept [.block b] v.nodes := by
  cases v with
  | block b => cases h; exact .refl _
  | expr e =>
    obtain ⟨e, rfl, ⟨⟩⟩ := bind_eq_ok.1 h
    exact kept_singleton (.trans (refines_wrapped rfl rfl) (refines_wrapped (n := .expr e) rfl rfl))
  | _ => cases h

/-- Parts that are read one by one keep their nodes. -/
theorem mapM_eq_ok {α : Type} {f : Value → Build α} {g : α → List Node}
    (hf : ∀ v a, f v = .ok a → v.nodes = g a) {as : List α} (h : vs.mapM f = .ok as) :
    rowNodes vs = as.flatMap g := by
  induction vs generalizing as with
  | nil => cases h; rfl
  | cons v vs ih =>
    rw [mapM_cons] at h
    obtain ⟨a, hv, h⟩ := bind_eq_ok.1 h
    obtain ⟨as, hvs, ⟨⟩⟩ := bind_eq_ok.1 h
    rw [rowNodes_cons, hf v a hv, ih hvs, flatMap_cons]

theorem exprs?_eq_ok {es : List Expr} (h : vs.mapM (expr? r) = .ok es) :
    rowNodes vs = es.map .expr := by
  rw [mapM_eq_ok (fun _ _ => expr?_eq_ok) h, map_eq_flatMap]

theorem args?_eq_ok {es : List Expr} (h : args? r vs = .ok es) : rowNodes vs = es.map .expr := by
  unfold args? at h
  split at h
  · cases h; rfl
  · cases h; simp [nodes, built]
  · cases h

/-! ## What follows from parts -/

section Build

variable {α β : Type} {ns : List Node} {f : α → List Node}

theorem follows_bind {x : Build β} {g : β → Build α}
    (h : ∀ b, x = .ok b → Follows r ns (built f (g b))) : Follows r ns (built f (x >>= g)) := by
  cases x with
  | error p => exact follows_nil r ns
  | ok b => exact h b rfl

end Build

theorem args_follows {es : Build (List Expr)}
    (h : ∀ as, es = .ok as → rowNodes vs = as.map .expr) :
    Follows r (rowNodes vs) (args es).nodes := by
  cases es with
  | error p => exact follows_nil r _
  | ok as => exact .inl (h as rfl ▸ .refl _)

/-! ## Expressions -/

theorem readCall_follows (r : Region) (func : Build Expr) (vs : List Value) :
    Follows r (rowNodes (.expr func :: vs)) (built (fun e => [.expr e]) (readCall r func vs)) := by
  refine follows_bind fun func hfunc => follows_bind fun es hes => ?_
  subst hfunc
  rw [rowNodes_cons, args?_eq_ok hes]
  split
  · next receiver method =>
    -- the receiver is the first part of the field that was called
    refine .inr ⟨_, rfl, rfl, (kept_singleton (refines_of_mem ?_)).append (.refl _)⟩
    exact mem_cons_self
  · exact follows_node rfl rfl

theorem readMacro_follows (r : Region) (called : String) (vs : List Value) :
    Follows r (rowNodes vs) (built (fun e => [.expr e]) (readMacro r called vs)) := by
  unfold readMacro
  split
  · exact follows_nil r _
  · exact follows_bind fun es hes => follows_node (args?_eq_ok hes).symm rfl
  · exact follows_bind fun es hes => follows_node (args?_eq_ok hes).symm rfl

theorem readExpr_follows (form : Form) (r : Region) (vs : List Value) :
    Follows r (rowNodes vs) (built (fun e => [.expr e]) (readExpr form r vs)) := by
  unfold readExpr
  split
  -- no operand, one operand, and two
  all_goals try exact follows_leaf rfl rfl
  all_goals try exact follows_bind fun e he => he ▸ follows_node rfl rfl
  all_goals try exact follows_bind fun a ha => follows_bind fun b hb =>
    ha ▸ hb ▸ follows_node rfl rfl
  -- an operator that may be none
  · next a op b =>
    refine follows_bind fun a ha => follows_bind fun b hb => ?_
    subst ha hb
    split
    · exact follows_node rfl rfl
    · exact follows_nil r _
  · next op e =>
    refine follows_bind fun e he => ?_
    subst he
    split
    · exact follows_node rfl rfl
    · exact follows_nil r _
  · next func rest => exact readCall_follows r func rest
  · next e t =>
    unfold readTupleField
    split
    · exact follows_nil r _
    · exact follows_bind fun e he => follows_bind fun i _ => he ▸ follows_node rfl rfl
  · next t => exact follows_bind fun l _ => follows_leaf rfl rfl
  -- rows of operands
  · exact follows_bind fun es hes => follows_node (exprs?_eq_ok hes).symm rfl
  · exact follows_bind fun es hes => follows_node (args?_eq_ok hes).symm rfl
  · next called rest => exact readMacro_follows r _ _
  · exact follows_nil r _

/-! ## Patterns -/

theorem readVariant_follows (r : Region) (called : String) (inner : Value) :
    Follows r inner.nodes (built (fun p => [.pattern p]) (readVariant r called inner)) := by
  unfold readVariant
  split
  · exact follows_nil r _
  split
  · next rest =>
    exact .inr ⟨_, rfl, rfl, kept_singleton (refines_leaf rfl rfl)⟩
  · exact follows_bind fun p hp => follows_node (pattern?_eq_ok hp).symm rfl

theorem readTuplePattern_follows (r : Region) (vs : List Value) :
    Follows r (rowNodes vs) (built (fun p => [.pattern p]) (readTuplePattern r vs)) := by
  refine follows_bind fun items hitems => ?_
  rw [mapM_eq_ok (fun _ _ => tupleItem?_eq_ok) hitems, ← map_eq_flatMap]
  split
  · exact follows_nil r _
  · exact follows_node rfl rfl

theorem readLiteralPattern_follows (r : Region) (negative : Bool) (t : Token) (ns : List Node) :
    Follows r ns (built (fun p => [.pattern p]) (readLiteralPattern r negative t)) := by
  refine follows_bind fun l _ => ?_
  split
  · exact follows_leaf rfl rfl
  · exact follows_leaf rfl rfl

theorem readPattern_follows (form : Form) (r : Region) (vs : List Value) :
    Follows r (rowNodes vs) (readPattern form r vs).nodes := by
  unfold readPattern
  split
  all_goals try exact follows_leaf rfl rfl
  all_goals try exact readLiteralPattern_follows r _ _ _
  · next t => split <;> exact follows_leaf rfl rfl
  · next t inner => simpa [nodes] using readVariant_follows r t.text inner
  · next rest => exact follows_node rfl rfl
  · next inner _ => exact .inl (by simpa using .refl inner.nodes)
  · exact readTuplePattern_follows r _
  · exact follows_nil r _

/-! ## Statements -/

/-- The nodes of a row of statements and of the expression that may end it. -/
def bodyNodes (body : List Stmt × Option Expr) : List Node :=
  body.1.map .stmt ++ body.2.toList.map .expr

theorem readStmts_eq_ok {body : List Stmt × Option Expr} (h : readStmts r vs = .ok body) :
    Kept (bodyNodes body) (rowNodes vs) := by
  fun_induction readStmts r vs generalizing body with
  | case1 => cases h; exact .nil
  | case2 s vs ih =>
    obtain ⟨s, rfl, hs⟩ := bind_eq_ok.1 h
    obtain ⟨rest, hvs, ⟨⟩⟩ := bind_eq_ok.1 hs
    have hrest := (Kept.refl (s.toList.map .stmt)).append (ih hvs)
    rwa [bodyNodes, ← append_assoc, ← map_append] at hrest
  | case3 b vs ih =>
    obtain ⟨b, rfl, hb⟩ := bind_eq_ok.1 h
    obtain ⟨rest, hvs, ⟨⟩⟩ := bind_eq_ok.1 hb
    -- a block among statements is a statement of the same region
    exact (kept_singleton (refines_wrapped (m := .stmt (.block b.region b)) rfl rfl)).append
      (ih hvs)
  | case4 e =>
    obtain ⟨e, rfl, ⟨⟩⟩ := bind_eq_ok.1 h
    exact .refl _
  | case5 => cases h

theorem readBlock_follows (r : Region) (vs : List Value) :
    Follows r (rowNodes vs) (built (fun b => [.block b]) (readBlock r vs)) :=
  follows_bind fun _ hbody => .inr ⟨_, rfl, rfl, readStmts_eq_ok hbody⟩

theorem readLet_follows (r : Region) (bound : Value) (vs : List Value) :
    Follows r (rowNodes (bound :: vs)) (built (fun s => [.stmt s]) (readLet r bound vs)) := by
  -- a declared type has no nodes
  have hdeclared : rowNodes vs = rowNodes (declared vs).2 := by
    unfold declared
    split <;> rfl
  rw [readLet, rowNodes_cons, hdeclared]
  refine follows_bind fun p hp => ?_
  rw [pattern?_eq_ok hp]
  generalize (declared vs).2 = rest
  unfold finishLet
  split
  · exact follows_bind fun e he => he ▸ follows_node rfl rfl
  · exact follows_bind fun e he => follows_bind fun b hb => he ▸ hb ▸ follows_node rfl rfl
  · exact follows_nil r _

theorem readIf_follows (r : Region) (head thenBlock : Value) (vs : List Value) :
    Follows r (rowNodes (head :: thenBlock :: vs))
      (built (fun s => [.stmt s]) (readIf r head thenBlock vs)) := by
  refine follows_bind fun c hc => follows_bind fun b hb => ?_
  rw [rowNodes_cons, rowNodes_cons, block?_eq_ok hb]
  have hkept := fun ns => (condition?_eq_ok hc).append (Kept.refl (.block b :: ns))
  split
  · exact .inr ⟨_, rfl, rfl, hkept []⟩
  · exact follows_bind fun b' hb' => hb' ▸ .inr ⟨_, rfl, rfl, hkept [.block b']⟩
  · exact follows_nil r _

theorem readElseIf_follows (r : Region) (s : Build (Option Stmt)) :
    Follows r (stmt s).nodes (built (fun b => [.block b]) (readElseIf r s)) := by
  refine follows_bind fun s hs => ?_
  subst hs
  split
  · exact .inl (kept_singleton (refines_wrapped rfl rfl))
  · exact follows_nil r _

theorem readArm_follows (r : Region) (matched : Value) (vs : List Value) :
    Follows r (rowNodes (matched :: vs)) (built (fun a => [.arm a]) (readArm r matched vs)) := by
  refine follows_bind fun p hp => ?_
  rw [rowNodes_cons, pattern?_eq_ok hp]
  split
  · next body =>
    refine follows_bind fun b hb => .inr ⟨_, rfl, rfl, (Kept.refl [.pattern p]).append ?_⟩
    simpa using armBody?_eq_ok hb
  · next e body =>
    refine follows_bind fun e he => follows_bind fun b hb => ?_
    subst he
    refine .inr ⟨_, rfl, rfl, (Kept.refl [.pattern p, .expr e]).append ?_⟩
    simpa using armBody?_eq_ok hb
  · exact follows_nil r _

theorem readFn_follows (r : Region) (called : Token) (vs : List Value) :
    Follows r (rowNodes vs) (built (fun s => [.stmt s]) (readFn r called vs)) := by
  rw [readFn]
  refine follows_bind fun p hrest => ?_
  obtain ⟨ps, rest⟩ := p
  -- parameters and the type of the result have no nodes
  have hparams : rowNodes vs = rowNodes rest := by
    unfold nestedParams at hrest
    split at hrest
    · next ps _ =>
      generalize inBody ps = ps at hrest
      cases ps <;> cases hrest
      rfl
    · cases hrest
      rfl
  have hresult : rowNodes rest = rowNodes (resultOf rest).2 := by
    unfold resultOf
    split <;> rfl
  rw [hparams, hresult]
  dsimp only
  generalize (resultOf rest).2 = rest
  unfold finishFn
  split
  · refine follows_bind fun b hb => ?_
    subst hb
    split
    · exact follows_nil r _
    · exact follows_node rfl rfl
  · exact follows_nil r _

/-- A statement that is there has the nodes of the statement. -/
theorem nodes_some (x : Build Stmt) : (stmt (some <$> x)).nodes = built (fun s => [.stmt s]) x := by
  cases x <;> rfl

theorem readStmt_follows (form : Form) (r : Region) (vs : List Value) :
    Follows r (rowNodes vs) (stmt (readStmt form r vs)).nodes := by
  unfold readStmt
  split
  all_goals try exact follows_leaf rfl rfl
  all_goals try exact follows_bind fun e he => he ▸ follows_node rfl rfl
  · exact follows_nil r _
  · next bound rest => exact nodes_some _ ▸ readLet_follows r bound rest
  · next target op value =>
    refine follows_bind fun a ha => follows_bind fun b hb => ?_
    subst ha hb
    split
    · exact follows_node rfl rfl
    · exact follows_nil r _
  · next head thenBlock rest => exact nodes_some _ ▸ readIf_follows r head thenBlock rest
  · next head body =>
    refine follows_bind fun c hc => follows_bind fun b hb => ?_
    subst hb
    exact .inr ⟨_, rfl, rfl, (condition?_eq_ok hc).append (.refl [.block b])⟩
  · next bound iterable body =>
    refine follows_bind fun p hp => follows_bind fun e he => follows_bind fun b hb => ?_
    subst he hb
    rw [rowNodes_cons, pattern?_eq_ok hp]
    exact follows_node rfl rfl
  · next subject arms =>
    refine follows_bind fun e he => follows_bind fun as has => ?_
    subst he
    rw [rowNodes_cons, mapM_eq_ok (fun _ _ => arm?_eq_ok) has, ← map_eq_flatMap]
    exact follows_node rfl rfl
  · next called rest => exact nodes_some _ ▸ readFn_follows r called rest
  · exact follows_nil r _

/-! ## Items -/

theorem attr?_eq_ok {a : Attr} (h : v.attr? r = .ok a) : v.nodes = a.args.map .expr := by
  cases v <;> cases h
  exact flatMap_singleton ..

theorem readAttr_follows (r : Region) (called : Token) (vs : List Value) :
    Follows r (rowNodes vs) (attr (readAttr r called vs)).nodes := by
  refine follows_bind fun es hes => ?_
  split
  · exact follows_nil r _
  · rw [args?_eq_ok hes]
    have hnodes : attrNodes [⟨called.text, es, r⟩] = es.map .expr := flatMap_singleton ..
    exact .inl (hnodes ▸ .refl _)

theorem built_attrs_sublist (r : Region) (vs : List Value) :
    built attrNodes ((vs.filter isAttr).mapM (attr? r)) <+ rowNodes vs := by
  cases h : (vs.filter isAttr).mapM (attr? r) with
  | error p => exact nil_sublist _
  | ok as =>
    rw [built, attrNodes, ← mapM_eq_ok (fun _ _ => attr?_eq_ok) h]
    exact filter_sublist.flatMap _

theorem readGenBlock_follows (r : Region) (vs : List Value) :
    Follows r (rowNodes vs) (readGenBlock r vs).nodes := by
  unfold readGenBlock
  split
  · next b hlast =>
    obtain ⟨us, rfl⟩ := getLast?_eq_some_iff.1 hlast
    rw [filter_append, rowNodes_append]
    refine .inl (.append ?_ (by simpa using .refl _))
    exact kept_of_sublist (by simpa [isAttr] using built_attrs_sublist r us)
  · exact follows_nil r _

theorem readGenBody_follows (r : Region) (vs : List Value) :
    Follows r (rowNodes vs) (readGenBody r vs).nodes := by
  unfold readGenBody
  split
  · next attrs isAsync body hlast =>
    obtain ⟨us, rfl⟩ := getLast?_eq_some_iff.1 hlast
    rw [dropLast_concat, rowNodes_append]
    refine .inl (.append ?_ (by simpa [nodes] using .refl _))
    cases hus : readStmts r us with
    | error p => exact .nil
    | ok body => exact Trans.trans (kept_of_sublist (sublist_append_left ..)) (readStmts_eq_ok hus)
  · exact follows_nil r _

theorem readType_nodes (form : Form) (r : Region) (vs : List Value) :
    (readType form r vs).nodes = [] := by
  unfold readType
  repeat split
  all_goals rfl

theorem readSelfParam_nodes (r : Region) (vs : List Value) : (readSelfParam r vs).nodes = [] := by
  unfold readSelfParam
  split <;> rfl

theorem follows_one (h : Follows r (rowNodes vs) v.nodes) :
    Follows r (rowNodes vs) (rowNodes [v]) := by
  rwa [rowNodes_singleton]

theorem read_follows (form : Form) (r : Region) (vs : List Value) :
    Follows r (rowNodes vs) (rowNodes (Value.read form r vs)) := by
  unfold Value.read
  split
  -- values without nodes, and values as they are
  all_goals try exact follows_nil r _
  all_goals try exact .inl (.refl _)
  · exact follows_one (readGenBody_follows r vs)
  · exact follows_one (readGenBlock_follows r vs)
  · exact follows_one (readAttr_follows r _ _)
  · exact follows_one (args_follows fun _ => args?_eq_ok)
  · rw [rowNodes_singleton, readSelfParam_nodes]; exact follows_nil r _
  · exact follows_one (readBlock_follows r vs)
  · rw [rowNodes_singleton, rowNodes_singleton]; exact readElseIf_follows r _
  · next bound value =>
    refine follows_one (follows_bind fun p hp => follows_bind fun e he => ?_)
    subst he
    rw [rowNodes_cons, pattern?_eq_ok hp]
    exact follows_node rfl rfl
  · exact follows_one (readArm_follows r _ _)
  · exact follows_one (args_follows fun _ => exprs?_eq_ok)
  -- the forms that are read by their kinds
  · split
    · rw [rowNodes_singleton, readType_nodes]; exact follows_nil r _
    · exact follows_one (readStmt_follows form r vs)
    · exact follows_one (readPattern_follows form r vs)
    · exact follows_one (readExpr_follows form r vs)
    · exact follows_nil r _

end Yielding.Value
