/-!
# Syntax/Ty — types

A type is a name with arguments and associated bindings, as in `Vec<T>` and `Iterator<Item = T>`.
A path keeps its spelling (`Vec`, `std::vec::Vec`).  A few names stand for the types that are not
paths: `&` and `&mut` (one argument each), `()`, `tuple`, `[]` (one argument), `impl` (its arguments
are the bounds) and `_` (nothing is known).
-/

namespace Yielding

/-- A type: a name, its arguments, its associated bindings. -/
inductive Ty
  | mk (name : String) (args : List Ty) (bindings : List (String × Ty))
deriving Repr, Inhabited

namespace Ty

def name : Ty → String
  | mk name _ _ => name

def args : Ty → List Ty
  | mk _ args _ => args

def bindings : Ty → List (String × Ty)
  | mk _ _ bindings => bindings

def ofName (name : String) : Ty := mk name [] []

def app (name : String) (args : List Ty) : Ty := mk name args []

/-- The type bound to an associated name: the first such binding counts. -/
def binding? (t : Ty) (name : String) : Option Ty := t.bindings.lookup name

/-! ## Names of types that are not paths -/

def unit : Ty := ofName "()"

def unknown : Ty := ofName "_"

def bool : Ty := ofName "bool"

def char : Ty := ofName "char"

def string : Ty := ofName "String"

def usize : Ty := ofName "usize"

def refName (mutable : Bool) : String := if mutable then "&mut" else "&"

def ref (mutable : Bool) (t : Ty) : Ty := app (refName mutable) [t]

def tuple (ts : List Ty) : Ty := app "tuple" ts

def option (t : Ty) : Ty := app "Option" [t]

def result (ok err : Ty) : Ty := app "Result" [ok, err]

def vec (t : Ty) : Ty := app "Vec" [t]

/-- `impl Iterator<Item = t>`. -/
def iteratorOf (t : Ty) : Ty := app "impl" [mk "Iterator" [] [("Item", t)]]

def isUnknown (t : Ty) : Bool := t.name == "_"

/-- Whether the type is a reference by its name. -/
def isRef (t : Ty) : Bool := t.name == "&" || t.name == "&mut"

/-! ## Source text -/

mutual

/-- The type in source syntax.  A reference or slice that lacks its argument has none. -/
def format? : Ty → Option String
  | mk name args bindings =>
    if name = "&" || name = "&mut" then
      match args with
      | [] => none
      | t :: _ => (format? t).map fun s => name ++ (if name = "&mut" then " " else "") ++ s
    else if name = "()" then some "()"
    else if name = "tuple" then
      (formatArgs? args).map fun
        | [s] => "(" ++ s ++ ",)"
        | parts => "(" ++ ", ".intercalate parts ++ ")"
    else if name = "[]" then
      match args with
      | [] => none
      | t :: _ => (format? t).map fun s => "[" ++ s ++ "]"
    else if name = "impl" then
      (formatArgs? args).map fun parts => "impl " ++ " + ".intercalate parts
    else do
      let parts ← formatArgs? args
      let bound ← formatBindings? bindings
      match parts ++ bound with
      | [] => some name
      | all => some (name ++ "<" ++ ", ".intercalate all ++ ">")

def formatArgs? : List Ty → Option (List String)
  | [] => some []
  | t :: ts => do return (← format? t) :: (← formatArgs? ts)

def formatBindings? : List (String × Ty) → Option (List String)
  | [] => some []
  | (n, t) :: bs => do return (n ++ " = " ++ (← format? t)) :: (← formatBindings? bs)

end

/-- The type in source syntax, for messages. -/
def format (t : Ty) : String := t.format?.getD ""

/-! ## Equality -/

mutual

/-- Types are equal when their names, arguments and bindings are. -/
def decEq : (a b : Ty) → Decidable (a = b)
  | mk n as bs, mk m cs ds =>
    have := decEqArgs as cs
    have := decEqBindings bs ds
    decidable_of_decidable_of_iff (p := n = m ∧ as = cs ∧ bs = ds) (by simp)

/-- Equality of rows of types. -/
def decEqArgs : (as bs : List Ty) → Decidable (as = bs)
  | [], [] => .isTrue rfl
  | [], _ :: _ => .isFalse (by simp)
  | _ :: _, [] => .isFalse (by simp)
  | a :: as, b :: bs =>
    have := decEq a b
    have := decEqArgs as bs
    decidable_of_decidable_of_iff (p := a = b ∧ as = bs) (by simp)

/-- Equality of rows of bindings. -/
def decEqBindings : (as bs : List (String × Ty)) → Decidable (as = bs)
  | [], [] => .isTrue rfl
  | [], _ :: _ => .isFalse (by simp)
  | _ :: _, [] => .isFalse (by simp)
  | (n, a) :: as, (m, b) :: bs =>
    have := decEq a b
    have := decEqBindings as bs
    decidable_of_decidable_of_iff (p := (n = m ∧ a = b) ∧ as = bs) (by simp)

end

instance : DecidableEq Ty := decEq

end Ty

end Yielding
