import Yielding.Syntax.Ty

/-!
# Typing/Unify — what two types have in common

Two types **unify** when one refines the other part by part: `_` is refined by everything, an
unsuffixed literal by the number types of its class, and a path by a path of the same canonical
name.  The result is the most specific of both.
-/

namespace Yielding.Ty

/-! ## Names -/

/-- What follows the last `::` of a text, if there is one. -/
def afterLastColons : List Char → Option (List Char)
  | [] => none
  | c :: cs =>
    match afterLastColons cs, c, cs with
    | some rest, _, _ => some rest
    | none, ':', ':' :: rest => some rest
    | none, _, _ => none

/-- The last segment of a path. -/
def lastSegment (name : String) : String :=
  match afterLastColons name.toList with
  | some rest => String.ofList rest
  | none => name

/-- The crates whose paths are known by their last segment. -/
def standardCrates : List String := ["std::", "core::", "alloc::"]

/-- A standard path by its last segment, any other name as it is. -/
def canonicalName (name : String) : String :=
  if standardCrates.any fun crate => crate.toList.isPrefixOf name.toList then lastSegment name
  else name

/-- The integer types. -/
def intTypes : List String :=
  ["i8", "i16", "i32", "i64", "i128", "isize", "u8", "u16", "u32", "u64", "u128", "usize"]

/-- The floating-point types. -/
def floatTypes : List String := ["f32", "f64"]

/-- The name of the type of an integer literal without suffix. -/
def intLiteral : String := "\x7binteger\x7d"

/-- The name of the type of a floating-point literal without suffix. -/
def floatLiteral : String := "\x7bfloat\x7d"

/-! ## Unification -/

/-- The common refinement of two types one of which is named by the literal class `literal`, whose
members are `family`; nothing when neither is. -/
def unifyLiteral (literal : String) (family : List String) (a b : Ty) : Option (Option Ty) :=
  if a.name = literal then
    some (if b.name = literal || family.contains b.name then some b else none)
  else if b.name = literal then some (if family.contains a.name then some a else none)
  else none

mutual

/-- The most specific common type, or nothing when the types conflict. -/
def unify : Ty → Ty → Option Ty
  | mk n as bs, b =>
    let a := mk n as bs
    if n = "_" then some b
    else if b.name = "_" then some a
    else
      match unifyLiteral intLiteral intTypes a b, unifyLiteral floatLiteral floatTypes a b with
      | some result, _ => result
      | none, some result => result
      | none, none =>
        if canonicalName n ≠ canonicalName b.name then none
        else do
          let args ← unifyArgs as b.args
          let merged := unifyBindings bs b
          let shared ← bs.mapM fun (name, _) => do return (name, ← (merged.lookup name).join)
          let added := b.bindings.filterMap fun (name, _) =>
            if (bs.lookup name).isSome then none else (b.binding? name).map (name, ·)
          return mk n args (shared ++ added)

/-- Unifies arguments one by one; there must be equally many. -/
def unifyArgs : List Ty → List Ty → Option (List Ty)
  | [], [] => some []
  | a :: as, b :: bs => do return (← unify a b) :: (← unifyArgs as bs)
  | _, _ => none

/-- Unifies each binding with the one of the same name in `b`, where there is one. -/
def unifyBindings : List (String × Ty) → Ty → List (String × Option Ty)
  | [], _ => []
  | (name, t) :: bs, b =>
    (name, match b.binding? name with
      | some u => unify t u
      | none => some t) :: unifyBindings bs b

end

/-! ## Taking types apart -/

/-- The type behind all references. -/
def stripRefs : Ty → Ty
  | mk name (t :: ts) bs =>
    if name = "&" || name = "&mut" then stripRefs t else mk name (t :: ts) bs
  | t => t

/-- The item type that the first bound with one names. -/
def boundItem? (bounds : List Ty) : Option Ty := bounds.findSome? (·.binding? "Item")

/-- The type of the items that a loop over the type goes through. -/
def elementType : Ty → Ty
  | mk name args _ =>
    if name = "&" || name = "&mut" then
      match args with
      | inner :: _ =>
        let element := elementType inner
        if (inner.name = "Vec" || inner.name = "[]") && !element.isUnknown then app name [element]
        else element
      | [] => unknown
    else
      let canonical := canonicalName name
      match args with
      | t :: _ =>
        if ["Range", "RangeInclusive", "Vec", "[]", "VecDeque", "Option"].contains canonical then t
        else if canonical = "impl" then (boundItem? args).getD unknown
        else unknown
      | [] => unknown

/-- The kinds of outcomes whose residuals an item yields. -/
inductive Residual
  | result | option
deriving DecidableEq, Repr

/-- The name of a kind of outcomes. -/
def Residual.name : Residual → String
  | result => "Result"
  | option => "Option"

/-- Whether `?` in an item with this element type yields the residual before it finishes.  Only the
plain spellings count. -/
def residual? (t : Ty) : Option Residual :=
  if t.name = "Result" then some .result
  else if t.name = "Option" then some .option
  else none

mutual

/-- Whether a value of the type may hold a borrow: it does unless the type is spelled out without
references, `impl` and `_`. -/
def mayBorrow : Ty → Bool
  | mk name args bs =>
    name = "&" || name = "&mut" || name = "impl" || name = "_" || anyBorrows args ||
      anyBindingBorrows bs

/-- Whether one of the types may hold a borrow. -/
def anyBorrows : List Ty → Bool
  | [] => false
  | t :: ts => mayBorrow t || anyBorrows ts

/-- Whether one of the bound types may hold a borrow. -/
def anyBindingBorrows : List (String × Ty) → Bool
  | [] => false
  | (_, t) :: bs => mayBorrow t || anyBindingBorrows bs

end

end Yielding.Ty
