import Yielding.Typing.Unify

/-!
# Script/Hint — types as hints of the generated module

Parameters and results of the generated functions carry a hint of their type.  Hints are never
evaluated: references disappear, integers of every width are one type, and what has no counterpart
keeps the last segment of its name.
-/

namespace Yielding

/-- The hint where nothing is known. -/
def Ty.anyHint : String := "Any"

/-- The hint of a path type, given the hints of its arguments. -/
def Ty.pathHint (generics : List String) (name : String) (args : List String) : String :=
  if intTypes.contains name then "int"
  else if floatTypes.contains name then "float"
  else if ["String", "str", "char"].contains name then "str"
  else if name = "bool" then "bool"
  else if generics.contains name then anyHint
  else match name, args with
    | "Vec", item :: _ | "VecDeque", item :: _ => "list[" ++ item ++ "]"
    | "HashSet", item :: _ => "set[" ++ item ++ "]"
    | "HashMap", [key, value] => "dict[" ++ key ++ ", " ++ value ++ "]"
    | "Option", item :: _ => "_rt.Option[" ++ item ++ "]"
    | "Result", [ok, err] => "_rt.Result[" ++ ok ++ ", " ++ err ++ "]"
    | "Range", _ | "RangeInclusive", _ => "range"
    | _, _ => lastSegment name

mutual

/-- The hint of a type.  A reference or slice that lacks its argument has none. -/
def Ty.hint? (generics : List String) : Ty → Option String
  | .mk name args _ =>
    if name = "_" then some anyHint
    else if name = "&" || name = "&mut" then
      match args with
      | [] => none
      | t :: _ => Ty.hint? generics t
    else if name = "()" then some "None"
    else if name = "tuple" then
      (Ty.hints? generics args).map fun parts => "tuple[" ++ ", ".intercalate parts ++ "]"
    else if name = "[]" then
      match args with
      | [] => none
      | t :: _ => (Ty.hint? generics t).map fun s => "list[" ++ s ++ "]"
    else if name = "impl" then Ty.boundsHint? generics args
    else (Ty.hints? generics args).map (Ty.pathHint generics (canonicalName name))

def Ty.hints? (generics : List String) : List Ty → Option (List String)
  | [] => some []
  | t :: ts => do return (← Ty.hint? generics t) :: (← Ty.hints? generics ts)

/-- The hint of a row of bounds: the first that binds `Item` counts. -/
def Ty.boundsHint? (generics : List String) : List Ty → Option String
  | [] => some anyHint
  | .mk _ _ bindings :: ts =>
    match Ty.itemHint? generics bindings with
    | some hint => hint.map fun s => "Iterator[" ++ s ++ "]"
    | none => Ty.boundsHint? generics ts

/-- The hint of the type bound to `Item`, if there is such a binding. -/
def Ty.itemHint? (generics : List String) : List (String × Ty) → Option (Option String)
  | [] => none
  | (name, t) :: rest =>
    if name = "Item" then some (Ty.hint? generics t) else Ty.itemHint? generics rest

end

def Ty.hint (generics : List String) (t : Ty) : String := (t.hint? generics).getD ""

end Yielding
