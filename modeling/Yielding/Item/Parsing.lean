import Yielding.Diagnostic
import Yielding.Grammar.Items
import Yielding.Grammar.Automaton
import Yielding.Item.Slice
import Yielding.Item.Value

/-!
# Item/Parsing — from the text of an item to its definition

A slice is cut into tokens, the automaton of the item rules derives it, and the derivation is read.
-/

namespace Yielding

open Grammar

/-! ## Reading a derivation -/

/-- The values of a phrase, and the region of its tokens. -/
structure Reading where
  region : Option Region
  values : List Value

/-- The region from the start of one to the end of another. -/
def Region.join? : Option Region → Option Region → Option Region
  | some a, some b => some ⟨a.start, b.stop⟩
  | some a, none => some a
  | none, b => b

mutual

/-- Reads a derivation: a phrase takes the region of all its parts, also of those not kept. -/
def Grammar.Derivation.read : Derivation → Reading
  | .leaf token => ⟨some token.region, [.token token]⟩
  | .node rule children =>
    let row := readRow rule.parts children
    ⟨row.region, Value.read rule.form (row.region.getD default) row.values⟩

def Grammar.Derivation.readRow : List Part → List Derivation → Reading
  | part :: parts, d :: ds =>
    let first := d.read
    let rest := readRow parts ds
    ⟨Region.join? first.region rest.region, (if part.kept then first.values else []) ++ rest.values⟩
  | _, _ => ⟨none, []⟩

end

/-- The item that a derivation stands for. -/
def Grammar.Derivation.definition (d : Derivation) : Build Definition :=
  match d.read.values with
  | [.item definition] => definition
  | _ => incoherent (d.read.region.getD default)

/-! ## Items -/

/-- The automaton for items. -/
def itemAutomaton : Automaton := .ofRules itemRules

/-- The problem of a rejected item.  Past the brace of the body the body is spoilt, unless the `gen`
block is what is missing: then the item as a whole has the wrong shape. -/
def Slice.rejection (s : Slice) (tokens : List Token) : Rejection → Problem
  | .unexpected token expected =>
    let last := (token <|> tokens.getLast?).map fun t => t.region.start
    let pos := last.getD .first
    let spoiled :=
      if s.bodyOpen.before pos && !expected.contains .kwGen then .body else .signature
    let cause :=
      match token with
      | none => .unexpectedEnd
      | some t =>
        if expected.contains .kwYields then .expectedYields t.text
        else if expected.contains .kwGen && t.kind = .rbrace then .expectedGenBlock
        else .unexpected t.text expected
    ⟨spoiled, cause, pos.site⟩
  | _ => ⟨.body, .incoherent, s.start.site⟩

def Slice.parseBy (automaton : Automaton) (s : Slice) : Build Definition :=
  let lexed := Lexer.lex s.padded
  match automaton.parse lexed.tokens, lexed.failure with
  | .ok tree, none => tree.definition
  | .ok _, some f | .error (.unexpected none _), some f =>
    let spoiled := if s.bodyOpen.before f.pos then .body else .signature
    .error ⟨spoiled, .unexpectedChar f.char, f.pos.site⟩
  | .error r, _ => .error (s.rejection lexed.tokens r)

/-- The item of a slice. -/
def Slice.parse (s : Slice) : Build Definition := s.parseBy itemAutomaton

/-- The definitions in a text, and the problems: those between items first, then those of the
items. -/
structure Parsed where
  definitions : List Definition
  problems : List Problem

/-- Whether a number is too long to be read.  The text then has no report: every use of it ends in
an error. -/
def Parsed.breaksOff (p : Parsed) : Bool := p.problems.any (·.cause = .oversized)

/-- The items of a source, and what is wrong in it. -/
def parseItems (source : String) : Parsed :=
  let scanned := scan source.toList
  let results := scanned.slices.map Slice.parse
  { definitions := results.filterMap fun
      | .ok d => some d
      | .error _ => none
    problems := scanned.problems ++ results.filterMap fun
      | .ok _ => none
      | .error p => some p }

end Yielding

namespace Yielding

/-! ## Problems of items as diagnostics -/

def Spoiled.kind : Spoiled → ErrorKind
  | signature => .malformedSignature
  | body => .malformedBody

/-- Whether the rules of items reject the text at the site of the problem. -/
def Cause.isRejection : Cause → Bool
  | unexpectedEnd | unexpected .. | expectedYields _ | expectedGenBlock => true
  | _ => false

/-- A problem as a diagnostic.  A rejection names the file as it is given, also when it is empty;
for all other problems an empty name counts as none. -/
def Problem.diagnostic (file : Option String) (p : Problem) : Diagnostic :=
  let span := Span.ofSite file p.site
  { message := p.message
    code := some p.spoiled.kind.code
    phase := some "parser"
    span := if p.cause.isRejection then { span with file := file } else span
    notes := p.notes }

def parseReport (file : Option String) (source : String) : List Definition × List Diagnostic :=
  let parsed := parseItems source
  (parsed.definitions, parsed.problems.map (Problem.diagnostic file))

end Yielding
