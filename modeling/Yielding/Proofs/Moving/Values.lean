import Yielding.Proofs.Moving.Basic

/-!
# Proofs/Moving/Values — what a phrase stands for moves with it

Reading never looks at places, it only passes them on.  So **the values of parts that are moved down
give the value of the phrase, moved down** (`down_read`), problems included.
-/

namespace Yielding

open List Located

variable {n : Nat}

/-! ## Results -/

section Results

variable {α β : Type} [Located α] [Located β]

theorem down_bind {x' x : Build α} {f g : α → Build β} (hx : x' = down n x)
    (h : ∀ a, g (down n a) = down n (f a)) : x' >>= g = down n (x >>= f) := by
  subst hx
  cases x with
  | error p => rfl
  | ok a => exact h a

theorem down_map {x' x : Build α} {f g : α → β} (hx : x' = down n x)
    (h : ∀ a, g (down n a) = down n (f a)) : g <$> x' = down n (f <$> x) := by
  subst hx
  cases x with
  | error p => rfl
  | ok a => exact congrArg Except.ok (h a)

theorem down_mapM {f g : α → Build β} (h : ∀ a, g (down n a) = down n (f a)) (as : List α) :
    (down n as).mapM g = down n (as.mapM f) := by
  induction as with
  | nil => rfl
  | cons a as ih =>
    rw [show down n (a :: as) = down n a :: down n as from rfl, mapM_cons, mapM_cons]
    exact down_bind (h a) fun b => down_bind ih fun bs => rfl

theorem down_foldlM {f g : β → α → Build β} (h : ∀ b a, g (down n b) (down n a) = down n (f b a))
    (as : List α) (b : β) : (down n as).foldlM g (down n b) = down n (as.foldlM f b) := by
  induction as generalizing b with
  | nil => rfl
  | cons a as ih =>
    rw [show down n (a :: as) = down n a :: down n as from rfl, foldlM_cons, foldlM_cons]
    exact down_bind (h b a) ih

/-! ## Rows -/

theorem down_append (as bs : List α) : down n (as ++ bs) = down n as ++ down n bs :=
  map_append

theorem down_eq_nil {as : List α} : down n as = [] ↔ as = [] := map_eq_nil_iff

theorem down_eq_cons {as : List α} {b : α} {bs : List α} :
    down n as = b :: bs ↔ ∃ a as', as = a :: as' ∧ down n a = b ∧ down n as' = bs :=
  map_eq_cons_iff

theorem getLast?_down (as : List α) : (down n as).getLast? = down n as.getLast? := getLast?_map

theorem filterMap_down {f : α → Option β} (h : ∀ a, f (down n a) = down n (f a)) (as : List α) :
    (down n as).filterMap f = down n (as.filterMap f) := by
  induction as with
  | nil => rfl
  | cons a as ih =>
    rw [show down n (a :: as) = down n a :: down n as from rfl, filterMap_cons,
      filterMap_cons, h]
    cases f a with
    | none => exact ih
    | some b => exact congrArg _ ih

omit [Located β] in
theorem filterMap_down_eq {f : α → Option β} (h : ∀ a, f (down n a) = f a) (as : List α) :
    (down n as).filterMap f = as.filterMap f := by
  rw [show down n as = as.map (down n) from rfl, filterMap_map]
  exact congrArg (filterMap · as) (funext h)

theorem any_down {p : α → Bool} (h : ∀ a, p (down n a) = p a) (as : List α) :
    (down n as).any p = as.any p := by
  rw [show down n as = as.map (down n) from rfl, any_map]
  exact congrArg (any as) (funext h)

end Results

/-! ## Syntax -/

theorem Pattern.moveRow_eq (ps : List Pattern) : Pattern.moveRow n ps = down n ps := by
  induction ps with
  | nil => rfl
  | cons p ps ih => exact congrArg _ ih

theorem Expr.moveRow_eq (es : List Expr) : Expr.moveRow n es = down n es := by
  induction es with
  | nil => rfl
  | cons e es ih => exact congrArg _ ih

theorem Stmt.moveRow_eq (ss : List Stmt) : Stmt.moveRow n ss = down n ss := by
  induction ss with
  | nil => rfl
  | cons s ss ih => exact congrArg _ ih

theorem Arm.moveRow_eq (arms : List Arm) : Arm.moveRow n arms = down n arms := by
  induction arms with
  | nil => rfl
  | cons a arms ih =>
    cases a
    exact congrArg _ ih

theorem Pattern.down_tuple (r : Region) (ps : List Pattern) :
    down n (Pattern.tuple r ps) = .tuple (down n r) (down n ps) := congrArg _ (moveRow_eq ps)

theorem Pattern.isRest_down (p : Pattern) : (down n p).isRest = p.isRest := by cases p <;> rfl

namespace Expr

theorem down_call (r : Region) (f : Expr) (es : List Expr) :
    down n (call r f es) = call (down n r) (down n f) (down n es) := congrArg _ (moveRow_eq es)

theorem down_methodCall (r : Region) (e : Expr) (method : String) (es : List Expr) :
    down n (methodCall r e method es) = methodCall (down n r) (down n e) method (down n es) :=
  congrArg _ (moveRow_eq es)

theorem down_tuple (r : Region) (es : List Expr) :
    down n (tuple r es) = tuple (down n r) (down n es) := congrArg _ (moveRow_eq es)

theorem down_array (r : Region) (es : List Expr) :
    down n (array r es) = array (down n r) (down n es) := congrArg _ (moveRow_eq es)

theorem down_macroCall (r : Region) (called : MacroName) (es : List Expr) :
    down n (macroCall r called es) = macroCall (down n r) called (down n es) :=
  congrArg _ (moveRow_eq es)

theorem region_down (e : Expr) : (down n e).region = down n e.region := by
  cases e with
  | yield r value => cases value <;> rfl
  | _ => rfl

end Expr

theorem Block.down_mk (ss : List Stmt) (r : Region) (tail : Option Expr) :
    down n (Block.mk ss r tail) = .mk (down n ss) (down n r) (down n tail) :=
  congrArg (Block.mk · _ _) (Stmt.moveRow_eq ss)

theorem Block.region_down (b : Block) : (down n b).region = down n b.region := by cases b; rfl

theorem Stmt.down_matchOn (r : Region) (e : Expr) (arms : List Arm) :
    down n (Stmt.matchOn r e arms) = .matchOn (down n r) (down n e) (down n arms) :=
  congrArg _ (Arm.moveRow_eq arms)

theorem Stmt.region_down (s : Stmt) : (down n s).region = down n s.region := by
  cases s with
  | letIn r p t value otherwise => cases otherwise <;> rfl
  | ifElse r c a b => cases b <;> rfl
  | _ => rfl

namespace Value

/-! ## Parts of given kinds -/

section Kinds

variable {v : Value}

theorem down_eq_token {t : Token} : down n v = .token t ↔ ∃ t', v = .token t' ∧ down n t' = t := by
  cases v <;> simp [down]

theorem down_eq_expr {e : Build Expr} : down n v = .expr e ↔ ∃ e', v = .expr e' ∧
    down n e' = e := by
  cases v <;> simp [down]

theorem down_eq_type {t : Ty} : down n v = .type t ↔ v = .type t := by
  cases v <;> simp [down]

theorem down_eq_stmt {s : Build (Option Stmt)} :
    down n v = .stmt s ↔ ∃ s', v = .stmt s' ∧ down n s' = s := by
  cases v <;> simp [down]

theorem down_eq_block {b : Build Block} :
    down n v = .block b ↔ ∃ b', v = .block b' ∧ down n b' = b := by
  cases v <;> simp [down]

end Kinds

variable (r : Region)

theorem down_expr? (v : Value) : expr? (down n r) (down n v) = down n (expr? r v) := by
  cases v <;> rfl

theorem down_block? (v : Value) : block? (down n r) (down n v) = down n (block? r v) := by
  cases v <;> rfl

theorem down_pattern? (v : Value) : pattern? (down n r) (down n v) = down n (pattern? r v) := by
  cases v <;> rfl

theorem down_condition? (v : Value) :
    condition? (down n r) (down n v) = down n (condition? r v) := by
  cases v with
  | expr e => exact down_map rfl fun _ => rfl
  | _ => rfl

theorem down_tupleItem? (v : Value) :
    tupleItem? (down n r) (down n v) = down n (tupleItem? r v) := by
  cases v <;> rfl

theorem down_arm? (v : Value) : arm? (down n r) (down n v) = down n (arm? r v) := by
  cases v <;> rfl

theorem down_attr? (v : Value) : attr? (down n r) (down n v) = down n (attr? r v) := by
  cases v <;> rfl

theorem down_armBody? (v : Value) : armBody? (down n r) (down n v) = down n (armBody? r v) := by
  cases v with
  | expr e =>
    refine down_bind rfl fun e => congrArg Except.ok ?_
    rw [Block.down_mk, Expr.region_down]
    rfl
  | _ => rfl

theorem type?_down (v : Value) : type? (down n v) = type? v := by cases v <;> rfl

theorem isToken_down (kind : Terminal) (v : Value) : isToken kind (down n v) = isToken kind v := by
  cases v <;> rfl

theorem isAttr_down (v : Value) : isAttr (down n v) = isAttr v := by cases v <;> rfl

theorem texts_down (vs : List Value) :
    (down n vs).filterMap (fun v => v.token?.map Token.text) =
      vs.filterMap fun v => v.token?.map Token.text :=
  filterMap_down_eq (fun v => by cases v <;> rfl) vs

theorem types_down (vs : List Value) : (down n vs).filterMap type? = vs.filterMap type? :=
  filterMap_down_eq type?_down vs

/-! ## Expressions -/

theorem down_literalOf (t : Token) : literalOf (down n r) (down n t) = down n (literalOf r t) := by
  rw [literalOf.eq_def, literalOf.eq_def, show (down n t).kind = t.kind from rfl]
  split
  all_goals try rfl
  · simp only [numberOf, show (down n t).text = t.text from rfl]
    split <;> rfl
  -- texts and characters
  all_goals
    simp only [unquoted, show (down n t).text = t.text from rfl]
    cases Text.unescape ((t.text.toList.drop 1).dropLast) with
    | error e => rfl
    | ok cs => rcases cs with _ | ⟨c, _ | _⟩ <;> rfl

theorem down_args? : ∀ vs : List Value, args? (down n r) (down n vs) = down n (args? r vs)
  | [] => rfl
  | [v] | v :: _ :: _ => by cases v <;> rfl

theorem down_readMacro (called : String) (vs : List Value) :
    readMacro (down n r) called (down n vs) = down n (readMacro r called vs) := by
  unfold readMacro
  split
  · rfl
  · exact down_bind (down_args? r vs) fun es => congrArg Except.ok (Expr.down_array r es).symm
  · exact down_bind (down_args? r vs) fun es => congrArg Except.ok (Expr.down_macroCall r _ es).symm

theorem down_readCall (func : Build Expr) (vs : List Value) :
    readCall (down n r) (down n func) (down n vs) = down n (readCall r func vs) := by
  refine down_bind rfl fun func => down_bind (down_args? r vs) fun es => ?_
  cases func with
  | field _ receiver method =>
    exact congrArg Except.ok (Expr.down_methodCall r receiver method es).symm
  | yield _ value => cases value <;> exact congrArg Except.ok (Expr.down_call r _ es).symm
  | _ => exact congrArg Except.ok (Expr.down_call r _ es).symm

theorem down_readTupleField (value : Build Expr) (t : Token) :
    readTupleField (down n r) (down n value) (down n t) = down n (readTupleField r value t) := by
  fun_cases readTupleField r value t with
  | case1 digits suffix h =>
    rw [readTupleField, show (down n t).text = t.text from rfl, h]
    rfl
  | case2 digits h =>
    rw [readTupleField, show (down n t).text = t.text from rfl, h]
    refine down_bind rfl fun _ => ?_
    unfold numberOf
    split <;> rfl

theorem down_readExpr (form : Grammar.Form) (vs : List Value) :
    readExpr form (down n r) (down n vs) = down n (readExpr form r vs) := by
  fun_cases readExpr form r vs
  all_goals try rfl
  all_goals try exact down_bind rfl fun _ => rfl
  all_goals try exact down_bind rfl fun _ => down_bind rfl fun _ => rfl
  · next a op b =>
    refine down_bind rfl fun a => down_bind rfl fun b => ?_
    rw [show (down n op).kind = op.kind from rfl]
    cases binaryOp? op.kind <;> rfl
  · next op e =>
    refine down_bind rfl fun e => ?_
    rw [show (down n op).kind = op.kind from rfl]
    cases unaryOp? op.kind <;> rfl
  · next func rest => exact down_readCall r func rest
  · next e t => exact down_readTupleField r e t
  · exact congrArg (fun ts => Except.ok (Expr.path (down n r) ts)) (texts_down vs)
  · next t => exact down_bind (down_literalOf r t) fun _ => rfl
  · exact down_bind (down_mapM (down_expr? r) vs) fun es =>
      congrArg Except.ok (Expr.down_tuple r es).symm
  · exact down_bind (down_args? r vs) fun es => congrArg Except.ok (Expr.down_array r es).symm
  · next called rest => exact down_readMacro r called.text rest
  -- parts that do not fit the form do not fit it further down either
  · rw [readExpr.eq_def]
    split
    all_goals
      first
      | rfl
      | simp only [down_eq_nil, down_eq_cons, down_eq_token, down_eq_expr] at *
        grind

/-! ## Patterns -/

theorem down_readVariant (called : String) (v : Value) :
    readVariant (down n r) called (down n v) = down n (readVariant r called v) := by
  unfold readVariant
  cases Variant.ofName? called with
  | none => rfl
  | some variant =>
    cases v with
    | restPattern => rfl
    | _ => exact down_bind (down_pattern? r _) fun _ => rfl

theorem down_readTuplePattern (vs : List Value) :
    readTuplePattern (down n r) (down n vs) = down n (readTuplePattern r vs) := by
  refine down_bind (down_mapM (down_tupleItem? r) vs) fun items => ?_
  have hcount : (down n items).countP Pattern.isRest = items.countP Pattern.isRest := by
    rw [show down n items = items.map (down n) from rfl, countP_map]
    exact congrArg (countP · items) (funext Pattern.isRest_down)
  rw [hcount]
  split
  · rfl
  · exact congrArg Except.ok (Pattern.down_tuple r items).symm

theorem down_readLiteralPattern (negative : Bool) (t : Token) :
    readLiteralPattern (down n r) negative (down n t) =
      down n (readLiteralPattern r negative t) := by
  refine down_bind (down_literalOf r t) fun l => ?_
  cases negative <;> cases l <;> rfl

theorem down_readPattern (form : Grammar.Form) (vs : List Value) :
    readPattern form (down n r) (down n vs) = down n (readPattern form r vs) := by
  fun_cases readPattern form r vs
  all_goals try rfl
  · next t =>
    show Value.pattern (.ok (if t.text = "None" then _ else _)) = _
    split <;> rfl
  · next t inner => exact congrArg Value.pattern (down_readVariant r t.text inner)
  · next inner h =>
    cases inner with
    | restPattern r' => exact absurd rfl (h r')
    | _ => rfl
  · exact congrArg Value.pattern (down_readTuplePattern r vs)
  · next t => exact congrArg Value.pattern (down_readLiteralPattern r false t)
  · next t => exact congrArg Value.pattern (down_readLiteralPattern r true t)
  · rw [readPattern.eq_def]
    split
    all_goals
      first
      | rfl
      | simp only [down_eq_nil, down_eq_cons, down_eq_token] at *
        grind

/-! ## Types and parameters -/

theorem readTypePath_down (vs : List Value) : readTypePath (down n vs) = readTypePath vs := by
  rw [readTypePath, readTypePath, texts_down, getLast?_down]
  cases vs.getLast? with
  | none => rfl
  | some v => cases v <;> rfl

theorem down_readType (form : Grammar.Form) (vs : List Value) :
    readType form (down n r) (down n vs) = down n (readType form r vs) := by
  fun_cases readType form r vs
  all_goals try rfl
  · next t h =>
    rw [readType, getLast?_down, any_down (isToken_down _), h]
    rfl
  · next h =>
    rw [readType, getLast?_down]
    cases hlast : vs.getLast? with
    | none => rfl
    | some v =>
      cases v with
      | type t => exact absurd hlast (h t)
      | _ => rfl
  · exact congrArg (fun ts => Value.type (.tuple ts)) (types_down vs)
  · exact congrArg (fun ts => Value.type (.app "impl" ts)) (types_down vs)
  · exact congrArg Value.type (readTypePath_down vs)
  · exact congr (congrArg Value.typeArgs (types_down vs))
      (filterMap_down_eq (fun v => by cases v <;> rfl) vs)
  · rw [readType.eq_def]
    split
    all_goals
      first
      | rfl
      | simp only [down_eq_nil, down_eq_cons, down_eq_token, down_eq_type] at *
        grind

theorem down_readSelfParam (vs : List Value) :
    readSelfParam (down n r) (down n vs) = down n (readSelfParam r vs) := by
  rw [readSelfParam, readSelfParam, getLast?_down, any_down (isToken_down _),
    any_down (isToken_down _)]
  cases vs.getLast? with
  | none => rfl
  | some v => cases v <;> rfl

theorem down_checkParams (isFirst : Bool) (seen : List String) (ps : List Param) :
    checkParams isFirst seen (down n ps) = down n (checkParams isFirst seen ps) := by
  induction ps generalizing isFirst seen with
  | nil => rfl
  | cons p ps ih =>
    rw [checkParams.eq_def, checkParams.eq_def]
    show (if p.receiver?.isSome && !isFirst then _ else if seen.contains p.name then _ else _) = _
    dsimp only
    split
    · rfl
    · split
      · rfl
      · exact down_bind (ih _ _) fun _ => rfl

/-! ## Statements -/

theorem down_readStmts (vs : List Value) :
    readStmts (down n r) (down n vs) = down n (readStmts r vs) := by
  fun_induction readStmts r vs with
  | case1 => rfl
  | case2 s vs ih =>
    refine down_bind rfl fun s => down_bind ih fun (rest, tail) => ?_
    refine congrArg Except.ok (congrArg (·, down n tail) ?_)
    cases s <;> rfl
  | case3 b vs ih =>
    refine down_bind rfl fun b => down_bind ih fun (rest, tail) => ?_
    refine congrArg Except.ok (congrArg (·, down n tail) ?_)
    show Stmt.block (down n b).region (down n b) :: _ = _
    rw [Block.region_down]
    rfl
  | case4 e => exact down_bind rfl fun _ => rfl
  | case5 vs hnil hstmt hblock htail =>
    match vs with
    | [] => exact absurd rfl hnil
    | [v] | v :: _ :: _ =>
      cases v with
      | stmt s => exact absurd rfl (hstmt s _)
      | block b => exact absurd rfl (hblock b _)
      | expr e => first | rfl | exact absurd rfl (htail e)
      | _ => rfl

theorem down_readBlock (vs : List Value) :
    readBlock (down n r) (down n vs) = down n (readBlock r vs) :=
  down_bind (down_readStmts r vs) fun (stmts, tail) =>
    congrArg Except.ok (Block.down_mk stmts r tail).symm

theorem down_readElseIf (s : Build (Option Stmt)) :
    readElseIf (down n r) (down n s) = down n (readElseIf r s) := by
  refine down_bind rfl fun s => ?_
  cases s with
  | none => rfl
  | some s =>
    refine congrArg Except.ok ?_
    show Block.mk [down n s] (down n s).region none = _
    rw [Stmt.region_down]
    rfl

theorem down_readIf (head thenBlock : Value) (vs : List Value) :
    readIf (down n r) (down n head) (down n thenBlock) (down n vs) =
      down n (readIf r head thenBlock vs) := by
  refine down_bind (down_condition? r head) fun c => down_bind (down_block? r thenBlock) fun b => ?_
  match vs with
  | [] => rfl
  | [v] =>
    cases v with
    | elseClause b => exact down_bind rfl fun _ => rfl
    | _ => rfl
  | v :: _ :: _ => cases v <;> rfl

theorem down_readArm (matched : Value) (vs : List Value) :
    readArm (down n r) (down n matched) (down n vs) = down n (readArm r matched vs) := by
  refine down_bind (down_pattern? r matched) fun p => ?_
  match vs with
  | [] => rfl
  | [body] => exact down_bind (down_armBody? r body) fun _ => rfl
  | [v, body] =>
    cases v with
    | matchGuard e => exact down_bind rfl fun _ => down_bind (down_armBody? r body) fun _ => rfl
    | _ => rfl
  | v :: _ :: _ :: _ => cases v <;> rfl

theorem down_inBody {α : Type} [Located α] (x : Build α) :
    inBody (down n x) = down n (inBody x) := by
  cases x <;> rfl

theorem declared_down (vs : List Value) :
    declared (down n vs) = ((declared vs).1, down n (declared vs).2) := by
  cases vs with
  | nil => rfl
  | cons v vs => cases v <;> rfl

theorem down_finishLet (p : Pattern) (t : Option Ty) : ∀ vs : List Value,
    finishLet (down n r) (down n p) t (down n vs) = down n (finishLet r p t vs)
  | [] => rfl
  | [v] => by
    cases v with
    | expr e => exact down_bind rfl fun _ => rfl
    | _ => rfl
  | [v, w] => by
    cases v with
    | expr e =>
      cases w with
      | letElse b => exact down_bind rfl fun _ => down_bind rfl fun _ => rfl
      | _ => rfl
    | _ => rfl
  | v :: w :: _ :: _ => by
    cases v with
    | expr e => cases w <;> rfl
    | _ => rfl

theorem down_readLet (bound : Value) (vs : List Value) :
    readLet (down n r) (down n bound) (down n vs) = down n (readLet r bound vs) := by
  rw [readLet, readLet, declared_down]
  exact down_bind (down_pattern? r bound) fun p => down_finishLet r p _ _

theorem down_nestedParams (vs : List Value) :
    nestedParams (down n vs) = down n (nestedParams vs) := by
  cases vs with
  | nil => rfl
  | cons v vs =>
    cases v with
    | params ps => exact down_bind (down_inBody ps) fun _ => rfl
    | _ => rfl

theorem resultOf_down (vs : List Value) :
    resultOf (down n vs) = ((resultOf vs).1, down n (resultOf vs).2) := by
  cases vs with
  | nil => rfl
  | cons v vs => cases v <;> rfl

theorem down_finishFn (called : Token) (ps : List Param) (t : Option Ty) : ∀ vs : List Value,
    finishFn (down n r) (down n called) (down n ps) t (down n vs) =
      down n (finishFn r called ps t vs)
  | [] => rfl
  | [v] => by
    cases v with
    | block b =>
      refine down_bind rfl fun b => ?_
      rw [any_down (fun _ => rfl) ps]
      split <;> rfl
    | _ => rfl
  | v :: _ :: _ => by cases v <;> rfl

theorem down_readFn (called : Token) (vs : List Value) :
    readFn (down n r) (down n called) (down n vs) = down n (readFn r called vs) := by
  rw [readFn, readFn]
  refine down_bind (down_nestedParams vs) fun (ps, rest) => ?_
  show finishFn _ _ (down n ps) (resultOf (down n rest)).1 (resultOf (down n rest)).2 = _
  rw [resultOf_down]
  exact down_finishFn r called ps _ _

theorem down_readStmt (form : Grammar.Form) (vs : List Value) :
    readStmt form (down n r) (down n vs) = down n (readStmt form r vs) := by
  fun_cases readStmt form r vs
  all_goals try rfl
  all_goals try exact down_bind rfl fun _ => rfl
  · next bound rest => exact down_map (down_readLet r bound rest) fun _ => rfl
  · next target op value =>
    refine down_bind rfl fun target => down_bind rfl fun value => ?_
    rw [show (down n op).kind = op.kind from rfl]
    cases assignOp? op.kind <;> rfl
  · next head thenBlock rest =>
    exact down_map (down_readIf r head thenBlock rest) fun _ => rfl
  · next head body =>
    exact down_bind (down_condition? r head) fun _ => down_bind rfl fun _ => rfl
  · next bound iterable body =>
    exact down_bind (down_pattern? r bound) fun _ => down_bind rfl fun _ =>
      down_bind rfl fun _ => rfl
  · next subject arms =>
    exact down_bind rfl fun subject => down_bind (down_mapM (down_arm? r) arms) fun arms =>
      congrArg (fun s => Except.ok (some s)) (Stmt.down_matchOn r subject arms).symm
  · next called rest => exact down_map (down_readFn r called rest) fun _ => rfl
  · rw [readStmt.eq_def]
    split
    all_goals
      first
      | rfl
      | simp only [down_eq_nil, down_eq_cons, down_eq_token, down_eq_expr, down_eq_block] at *
        grind

/-! ## Items -/

theorem down_readAttr (called : Token) (vs : List Value) :
    readAttr (down n r) (down n called) (down n vs) = down n (readAttr r called vs) := by
  refine down_bind (down_args? r vs) fun es => ?_
  rw [show (down n es).length = es.length from length_map _]
  show (if called.text = "size_hint" && es.length ≠ 1 then _ else _) = _
  split <;> rfl

theorem down_readYields (form : ItemForm) (marker : Token) (t : Ty) :
    readYields form (down n marker) t = down n (readYields form marker t) := by
  rw [readYields.eq_def, readYields.eq_def, show (down n marker).kind = marker.kind from rfl]
  split <;> rfl

theorem down_itemTypeOf (t : Option Ty) : itemTypeOf (down n r) t = down n (itemTypeOf r t) := by
  cases t with
  | none => rfl
  | some t =>
    rw [itemTypeOf.eq_def, itemTypeOf.eq_def]
    dsimp only
    split <;> rfl

instance : Located Draft where
  down n d :=
    { d with
      attrs := down n d.attrs
      name := down n d.name
      generics := down n d.generics
      params := down n d.params
      prelude := down n d.prelude
      body := down n d.body }

theorem Draft.down_add (d : Draft) (v : Value) :
    Draft.add (down n r) (down n d) (down n v) = down n (Draft.add r d v) := by
  cases v with
  | token t =>
    obtain ⟨kind, text, region, offset⟩ := t
    cases kind <;> rfl
  | attr a =>
    refine down_bind rfl fun a => ?_
    show Except.ok { down n d with attrs := down n d.attrs ++ down n [a] } = _
    rw [← down_append]
    rfl
  | params ps => exact down_bind rfl fun _ => rfl
  | yields marker t => exact down_bind (down_readYields d.form marker t) fun _ => rfl
  | genBody prelude attrs isAsync body =>
    refine down_bind rfl fun prelude => down_bind rfl fun attrs => down_bind rfl fun body => ?_
    show Except.ok
      { down n d with
        form := .block, prelude := down n prelude, attrs := down n d.attrs ++ down n attrs
        isAsync := isAsync, body := some (down n body) } = _
    rw [← down_append]
    rfl
  | block b => exact down_bind rfl fun _ => rfl
  | _ => rfl

theorem Draft.down_finish (d : Draft) :
    Draft.finish (down n r) (down n d) = down n (d.finish r) := by
  obtain ⟨docs, attrs, isPub, isAsync, form, called, generics, params, yielded, result, prelude,
    body⟩ := d
  cases called with
  | none => rfl
  | some called =>
    cases body with
    | none => rfl
    | some body =>
      cases form with
      | block => exact down_bind (down_itemTypeOf called.region result) fun _ => rfl
      | _ => cases yielded <;> rfl

theorem down_readItem (vs : List Value) :
    readItem (down n r) (down n vs) = down n (readItem r vs) :=
  down_bind (down_foldlM (Draft.down_add r) vs {}) fun d => d.down_finish r

theorem down_readGenBlock (vs : List Value) :
    readGenBlock (down n r) (down n vs) = down n (readGenBlock r vs) := by
  have hattrs : (down n vs).filter isAttr = down n (vs.filter isAttr) := by
    rw [show down n vs = vs.map (down n) from rfl, filter_map]
    exact congrArg (fun p => (vs.filter p).map (down n)) (funext isAttr_down)
  rw [readGenBlock, readGenBlock, getLast?_down, any_down (isToken_down _), hattrs,
    down_mapM (down_attr? r)]
  cases vs.getLast? with
  | none => rfl
  | some v => cases v <;> rfl

theorem down_readGenBody (vs : List Value) :
    readGenBody (down n r) (down n vs) = down n (readGenBody r vs) := by
  have hprelude : Prod.fst <$> readStmts (down n r) (down n vs).dropLast =
      down n (Prod.fst <$> readStmts r vs.dropLast) := by
    rw [show (down n vs).dropLast = down n vs.dropLast from map_dropLast.symm]
    exact down_map (down_readStmts r _) fun _ => rfl
  rw [readGenBody, readGenBody, getLast?_down, hprelude]
  cases vs.getLast? with
  | none => rfl
  | some v => cases v <;> rfl

section Kinds

variable {form : Grammar.Form} (vs : List Value)

theorem read_type (h : form.kind = .type) : read form r vs = [readType form r vs] := by
  cases form <;> first | rfl | cases h

theorem read_stmt (h : form.kind = .stmt) : read form r vs = [.stmt (readStmt form r vs)] := by
  cases form <;> first | rfl | cases h

theorem read_pattern (h : form.kind = .pattern) : read form r vs = [readPattern form r vs] := by
  cases form <;> first | rfl | cases h

theorem read_expr (h : form.kind = .expr) : read form r vs = [.expr (readExpr form r vs)] := by
  cases form <;> first | rfl | cases h

end Kinds

/-- **The value of a phrase moves with its parts.** -/
theorem down_read (form : Grammar.Form) (vs : List Value) :
    read form (down n r) (down n vs) = down n (read form r vs) := by
  fun_cases read form r vs
  all_goals try rfl
  all_goals try exact congrArg (fun d => [Value.item d]) (down_readItem r vs)
  · exact congrArg ([·]) (down_readGenBody r vs)
  · exact congrArg ([·]) (down_readGenBlock r vs)
  · next called rest => exact congrArg (fun a => [Value.attr a]) (down_readAttr r called rest)
  · exact congrArg (fun es => [Value.args es]) (down_args? r vs)
  · exact congrArg (fun ps => [Value.generics ps]) (filterMap_down (fun v => by cases v <;> rfl) vs)
  · next called bounds =>
    exact congrArg (fun ts => [Value.genericParam ⟨called.text, ts, down n called.region⟩])
      (types_down bounds)
  · refine congrArg (fun ps => [Value.params ps]) ?_
    rw [← down_checkParams]
    exact congrArg (checkParams true []) (filterMap_down (fun v => by cases v <;> rfl) vs)
  · exact congrArg ([·]) (down_readSelfParam r vs)
  · exact congrArg (fun b => [Value.block b]) (down_readBlock r vs)
  · next s => exact congrArg (fun b => [Value.elseClause b]) (down_readElseIf r s)
  · next bound value =>
    refine congrArg (fun c => [Value.condition c]) ?_
    exact down_bind (down_pattern? r bound) fun _ => down_bind rfl fun _ => rfl
  · next matched rest => exact congrArg (fun a => [Value.arm a]) (down_readArm r matched rest)
  · exact congrArg (fun es => [Value.args es]) (down_mapM (down_expr? r) vs)
  · rw [read_type _ _ (by assumption)]
    exact congrArg ([·]) (down_readType r form vs)
  · rw [read_stmt _ _ (by assumption)]
    exact congrArg (fun s => [Value.stmt s]) (down_readStmt r form vs)
  · rw [read_pattern _ _ (by assumption)]
    exact congrArg ([·]) (down_readPattern r form vs)
  · rw [read_expr _ _ (by assumption)]
    exact congrArg (fun e => [Value.expr e]) (down_readExpr r form vs)
  · have hkind : form.kind = .other := by assumption
    rw [read.eq_def]
    split
    all_goals
      first
      | rw [hkind]
        rfl
      | simp only [down_eq_nil, down_eq_cons, down_eq_token, down_eq_type, down_eq_stmt,
          down_eq_block, down_eq_expr] at *
        grind

end Value

end Yielding
