import Yielding.Script.Body
import Yielding.Script.Hint
import Yielding.Text.Upper

/-!
# Script/Item — code of one item

An item becomes two pieces of code.  The **wrapper** is a class that owns the suspended body and
shows nothing of it but the iterator protocol.  The **function** has the item's name and parameters:
it runs the prelude, defines the body as a generator, and hands it to a fresh wrapper.
-/

namespace Yielding.Script

/-! ## Names and texts -/

def nameParts (cs : List Char) : List (List Char) := cs.splitOn '_'

def capitalized : List Char → List Char
  | [] => []
  | c :: cs => Text.upperChar c ++ cs

/-- The name of the class for an item. -/
def wrapperName (itemName : String) : String :=
  let camel := (nameParts itemName.toList).flatMap capitalized
  "_" ++ (if camel.isEmpty then "Anonymous" else String.ofList camel) ++ "IteratorItem"

/-- A text between triple quotes: backslashes are doubled, and triple quotes get backslashes. -/
def docEscape : List Char → List Char
  | [] => []
  | '"' :: '"' :: '"' :: cs => '\\' :: '"' :: '\\' :: '"' :: '\\' :: '"' :: docEscape cs
  | c :: cs => if c = '\\' then '\\' :: '\\' :: docEscape cs else c :: docEscape cs

/-- The documentation string of the given lines.  More than one line stand apart from the quotes. -/
def docString (lines : List String) : String :=
  let text := docEscape ("\n".intercalate lines).toList
  let inner := if text.contains '\n' then '\n' :: text ++ ['\n'] else text
  "\"\"\"" ++ String.ofList inner ++ "\"\"\""

/-! ## Wrapper -/

def method (isAsync : Bool) (name : String) (params : List String) (result : Option String)
    (body : List Code) : Code :=
  .block (.fn isAsync name ("self" :: params) result) body

def fixed (text : String) : Code := .line (.fixed text)

/-- What the wrapper does to produce the next value. -/
def advance (resume stop : String) : List Code :=
  [fixed ("state = " ++ resume ++ "(self.__computation)"),
   .block (.ifDo (.holds (.apply "isinstance" [.name "state", .support "Yielded"])))
     [fixed "return state.value"],
   fixed ("raise " ++ stop)]

def protocol (isAsync : Bool) (itemHint : String) : List Code :=
  if isAsync then
    [method false "__aiter__" [] none [fixed "return self"], .line .blank,
     method true "__anext__" [] (some itemHint)
       (advance "await _rt.resume_async" "StopAsyncIteration")]
  else
    [method false "__iter__" [] none [fixed "return self"], .line .blank,
     method false "__next__" [] (some itemHint) (advance "_rt.resume" "StopIteration")]

/-- The class that wraps the suspended body. -/
def wrapper (d : Definition) (className itemHint : String) : Code :=
  let kind := if d.isAsync then "async iterator" else "iterator"
  .block (.cls className)
    ([.line (.doc ("\"\"\"Opaque " ++ kind ++ " returned by `" ++ d.name ++ "`.\"\"\"")),
      .line .blank,
      fixed "__slots__ = (\"__computation\", \"__size_hint\")",
      .line .blank,
      method false "__init__" ["computation", "size_hint"] none
        [fixed "self.__computation = computation", fixed "self.__size_hint = size_hint"],
      .line .blank] ++
     protocol d.isAsync itemHint ++
     [.line .blank,
      method false "size_hint" [] (some "tuple[int, Optional[int]]")
        [fixed "return self.__size_hint"],
      .line .blank,
      method false "__length_hint__" [] (some "int") [fixed "return self.__size_hint[0]"]])

/-! ## Function -/

mutual

def stmtSuspends : Stmt → Bool
  | .suspend .. => true
  | .letIn _ _ _ _ (some b) => blockSuspends b
  | .ifElse _ _ a none => blockSuspends a
  | .ifElse _ _ a (some b) => blockSuspends a || blockSuspends b
  | .whileDo _ _ b | .loop _ b | .forIn _ _ _ b | .block _ b => blockSuspends b
  | .matchOn _ _ arms => armsSuspend arms
  | _ => false

def rowSuspends : List Stmt → Bool
  | [] => false
  | s :: ss => stmtSuspends s || rowSuspends ss

def blockSuspends : Block → Bool
  | .mk stmts _ _ => rowSuspends stmts

def armsSuspend : List Arm → Bool
  | [] => false
  | .mk _ _ _ b :: arms => blockSuspends b || armsSuspend arms

end

section Naming

variable {σ : Type} (N : Naming σ)

/-- A parameter of the generated function, by its name. -/
def paramText (generics : List String) : ParamKind → String → String
  | .receiver _, x => x
  | .typed t, x => x ++ ": " ++ t.hint generics

def emitParams (generics : List String) : List Param → Emit σ (List String)
  | [] => return []
  | p :: ps => do
    let target ← bindName N p.name
    return paramText generics p.kind target :: (← emitParams generics ps)

def emitSizeHint (d : Definition) : Emit σ Term := do
  match (d.attr? "size_hint").bind (·.args.head?) with
  | some bounds => return .applySupport "size_hint" [← emitExpr N bounds]
  | none => return .tuple [.literal "0", .literal "None"]

/-- The generator that runs the body.  Where nothing suspends, an unreachable `yield` keeps it a
generator. -/
def emitGenerator (d : Definition) (inputs : List String) : Emit σ Code := do
  let body ← within N false (emitContents N false d.body)
  let ending := if blockSuspends d.body then [] else [.line (.ret none), .line (.yield none)]
  return .block (.fn d.isAsync "__body" inputs none) (body ++ ending)

/-- The function of an item. -/
def emitFunction (d : Definition) (className itemHint : String) : Emit σ Code := do
  modify (N.reserve [className, d.name])
  let params ← emitParams N (d.generics.map GenericParam.name) d.params
  let docs := if d.docs.isEmpty then [] else [Code.line (.doc (docString d.docs))]
  let prelude ← emitContents N false (.mk d.prelude d.region none)
  let inputs := N.inputs (← get)
  let body ← emitGenerator N d inputs
  let hint ← emitSizeHint N d
  let create := Term.applySupport (if d.isAsync then "create_async" else "create")
    (.name "__body" :: inputs.map Term.name)
  let result := (if d.isAsync then "AsyncIterator[" else "Iterator[") ++ itemHint ++ "]"
  return .block (.fn false d.name params (some result))
    (docs ++ prelude ++
      [body, .line (.assign (.name "__size_hint") hint),
       .line (.ret (some (.apply className [create, .name "__size_hint"])))])

end Naming

/-- The code of an item.  A first run finds the names that refer to no binding, so that in the
second no binding takes one of them. -/
def itemCode (d : Definition) (className : String) : Except Failure (List Code) := do
  let itemHint := d.yielded.hint (d.generics.map GenericParam.name)
  let (_, found) ← (emitFunction byScope d className itemHint).run (.start [])
  let (function, _) ← (emitFunction byScope d className itemHint).run (.start found.free)
  return [wrapper d className itemHint, .line .blank, .line .blank, function]

end Yielding.Script

namespace Yielding.Script

/-!
## The generated module

The module of a row of lowered items: an opening that names the public ones, then the code of each
item below two blank lines.
-/

/-- What can be chosen about the generated module. -/
structure Options where
  /-- The module of the support library. -/
  supportModule : String
  indent : String
  /-- Whether the module begins with a line that says it is generated. -/
  banner : Bool
  /-- Where the items come from, for that line. -/
  sourceName : Option String
deriving DecidableEq, Repr, Inhabited

def Options.standard : Options := ⟨"iterator_item.runtime", "    ", true, none⟩

def opening (o : Options) (publicNames : List String) : List Code :=
  let source := match o.sourceName with
    | none | some "" => ""
    | some name => " from " ++ name
  (if o.banner then [fixed ("# Generated by iterator_item" ++ source ++ ". Do not edit.")]
    else []) ++
    [fixed "from __future__ import annotations",
      .line .blank,
      fixed "from typing import Any, AsyncIterator, Iterator, Optional",
      .line .blank,
      fixed ("import " ++ o.supportModule ++ " as " ++ supportName),
      .line .blank,
      fixed ("__all__ = [" ++ ", ".intercalate (publicNames.map Text.quoted) ++ "]")]

def itemsCode (taken : List String) : List Definition → Except Failure (List Code)
  | [] => return []
  | d :: ds => do
    let className := firstUnused taken (wrapperName d.name) ""
    let code ← itemCode d className
    let rest ← itemsCode (className :: taken) ds
    return .line .blank :: .line .blank :: (code ++ rest)

def moduleCode (o : Options) (ds : List Definition) : Except Failure (List Code) := do
  let publicNames := (ds.filter (·.isPub)).map Definition.name
  return opening o publicNames ++ (← itemsCode [] ds)

def moduleText (o : Options) (ds : List Definition) : Except Failure String := do
  let code ← moduleCode o ds
  return "\n".intercalate (Code.rowLayout o.indent 0 code) ++ "\n"

end Yielding.Script
