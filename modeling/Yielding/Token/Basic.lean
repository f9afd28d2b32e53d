import Yielding.Source.Position

/-!
# Token/Basic — the words of the item language

A **terminal** is a kind of word; a **token** is a word of a source text with its place.
Messages that list terminals list them in the order of the constructors below.
-/

namespace Yielding

/-- The kinds of words, in the order in which messages list them. -/
inductive Terminal
  | finish
  | amp | ampAmp | arrow | kwAsync | kwAwait | bang | kwBreak | char | colon | comma | kwContinue
  | docComment | dot | dotDot | dotDotEq | kwElse | eqEq | equal | kwFalse | float | kwFn | kwFor
  | kwGen | gt | gtEq | hash | kwIf | kwImpl | kwIn | int | lbrace | kwLet | lifetime | kwLoop
  | lpar | lsqb | lt | ltEq | kwMatch | minus | kwMut | name | notEq | barBar | percent | plus
  | kwPub | question | rbrace | kwReturn | rpar | rsqb | kwSelf | semicolon | slash | star | string
  | kwTrue | underscore | kwWhile | kwYield | kwYields
  | colonColon | plusEq | minusEq | starEq | slashEq | percentEq | fatArrow
deriving DecidableEq, Repr, Inhabited

namespace Terminal

/-- Every terminal, in the order in which messages list them. -/
def all : List Terminal :=
  [finish,
   amp, ampAmp, arrow, kwAsync, kwAwait, bang, kwBreak, char, colon, comma, kwContinue,
   docComment, dot, dotDot, dotDotEq, kwElse, eqEq, equal, kwFalse, float, kwFn, kwFor,
   kwGen, gt, gtEq, hash, kwIf, kwImpl, kwIn, int, lbrace, kwLet, lifetime, kwLoop,
   lpar, lsqb, lt, ltEq, kwMatch, minus, kwMut, name, notEq, barBar, percent, plus,
   kwPub, question, rbrace, kwReturn, rpar, rsqb, kwSelf, semicolon, slash, star, string,
   kwTrue, underscore, kwWhile, kwYield, kwYields,
   colonColon, plusEq, minusEq, starEq, slashEq, percentEq, fatArrow]

theorem mem_all (t : Terminal) : t ∈ all := by cases t <;> decide

/-- The rank of a terminal in the order of messages. -/
def rank (t : Terminal) : Nat := t.ctorIdx

/-- The keywords with their terminals. -/
def keywords : List (String × Terminal) :=
  [("continue", kwContinue), ("return", kwReturn), ("yields", kwYields), ("async", kwAsync),
   ("await", kwAwait), ("break", kwBreak), ("false", kwFalse), ("match", kwMatch),
   ("while", kwWhile), ("yield", kwYield), ("else", kwElse), ("impl", kwImpl), ("loop", kwLoop),
   ("self", kwSelf), ("true", kwTrue), ("for", kwFor), ("gen", kwGen), ("let", kwLet),
   ("mut", kwMut), ("pub", kwPub), ("fn", kwFn), ("if", kwIf), ("in", kwIn), ("_", underscore)]

/-- The punctuation with its terminals; a text stands before every shorter one that begins it. -/
def punctuation : List (String × Terminal) :=
  [("..=", dotDotEq), ("&&", ampAmp), ("->", arrow), ("..", dotDot), ("==", eqEq), (">=", gtEq),
   ("<=", ltEq), ("!=", notEq), ("||", barBar), ("::", colonColon), ("+=", plusEq),
   ("-=", minusEq), ("*=", starEq), ("/=", slashEq), ("%=", percentEq), ("=>", fatArrow),
   ("&", amp), ("!", bang), (":", colon), (",", comma), (".", dot), ("=", equal), (">", gt),
   ("#", hash), ("\x7b", lbrace), ("(", lpar), ("[", lsqb), ("<", lt), ("-", minus),
   ("%", percent), ("+", plus), ("?", question), ("\x7d", rbrace), (")", rpar), ("]", rsqb),
   (";", semicolon), ("/", slash), ("*", star)]

/-- How a message names a terminal: a fixed text in back quotes, an open class by its name. -/
def shown (t : Terminal) : String :=
  match t with
  | finish => "$END"
  | char => "char"
  | docComment => "doc_comment"
  | float => "float"
  | int => "int"
  | lifetime => "lifetime"
  | name => "name"
  | string => "string"
  | _ =>
    match (keywords ++ punctuation).find? (·.2 == t) with
    | some (text, _) => "`" ++ text ++ "`"
    | none => ""

/-- The terminals that can open an item. -/
def opensItem : Terminal → Bool
  | docComment | hash | kwPub | kwAsync | kwFn | kwGen => true
  | _ => false

end Terminal

/-- A word of a source text: its kind, its characters, its region, and how many characters of the
text stand before it. -/
structure Token where
  kind : Terminal
  text : String
  region : Region
  offset : Nat
deriving DecidableEq, Repr, Inhabited

/-- The number of characters of the text up to the end of the token. -/
def Token.stopOffset (t : Token) : Nat := t.offset + t.text.length

/-- The site of a token. -/
def Token.site (t : Token) : Site := t.region.site

end Yielding
