import Yielding.Decimal

/-!
# Format/Number — numbers under a specification

A number is laid out as padding, sign, mark of its base, padding, digits, the rest after the digits,
padding, where at most one of the paddings is not empty.  Padding with zeros after the sign counts
as digits, so that groups go on through it.
-/

namespace Yielding.Format

/-!
## Numbers to a given precision

Three ways of writing a positive fraction: with a fixed number of **places** after the point, with a
fixed number of digits and an **exponent**, and in the **general** form, which takes the shorter of
both and drops zeros at the end.  Digits are rounded to nearest; a tie goes to the even digit.
-/

open Decimal (Ratio digitsOf padZeros)

/-- A point with the digits after it.  Without digits there is no point, unless it is kept. -/
def fractionText (keepPoint : Bool) (ds : List Char) : List Char :=
  if ds.isEmpty && !keepPoint then [] else '.' :: ds

def fixedText (r : Ratio) (places : Nat) (keepPoint : Bool) : List Char :=
  let ds := padZeros (places + 1) (digitsOf (r.scale places).round)
  let whole := ds.length - places
  ds.take whole ++ fractionText keepPoint (ds.drop whole)

/-- The first `n` digits of a fraction, rounded, and the power of ten of the first of them. -/
def significant (r : Ratio) (n : Nat) : List Char × Int :=
  if r.num = 0 then (List.replicate n '0', 0)
  else
    let size := r.size
    let d := (r.scale (n - size)).round
    if d = Nat.pow 10 n then (digitsOf (Nat.pow 10 (n - 1)), size) else (digitsOf d, size - 1)

def scientific (keepPoint : Bool) (ds : List Char) (power : Int) : List Char :=
  ds.take 1 ++ fractionText keepPoint (ds.drop 1) ++ Decimal.exponentText 2 power

def exponentText (r : Ratio) (places : Nat) (keepPoint : Bool) : List Char :=
  let (ds, power) := significant r (places + 1)
  scientific keepPoint ds power

/-- A fraction with `n` digits, zeros at the end dropped unless the point is kept.  It is written in
positions when its power of ten is from `-4` to below `n`.  In a form that has to show a point, one
less, and a zero follows the point when nothing else does. -/
def generalText (r : Ratio) (n : Nat) (keepPoint showPoint : Bool) : List Char :=
  let n := max n 1
  let (ds, power) := significant r n
  let ds := if keepPoint then ds else Decimal.trimZeros ds
  if power < -4 || (n : Int) - (if showPoint then 1 else 0) ≤ power then
    scientific keepPoint ds power
  else if power < 0 then ['0', '.'] ++ List.replicate (power.natAbs - 1) '0' ++ ds
  else
    let whole := ds.take (power.toNat + 1)
    let fraction := ds.drop (power.toNat + 1)
    whole ++ List.replicate (power.toNat + 1 - whole.length) '0' ++
      fractionText keepPoint (if fraction.isEmpty && showPoint then ['0'] else fraction)

/-- A number with the fewest digits that read back; in the form that keeps its point, also before an
exponent. -/
def shortestText (x : Float) (keepPoint : Bool) : List Char :=
  let cs := (Decimal.floatText x.abs).toList
  if keepPoint && !cs.contains '.' && cs.contains 'e' then
    cs.takeWhile (· ≠ 'e') ++ '.' :: cs.dropWhile (· ≠ 'e')
  else cs

end Yielding.Format

namespace Yielding.Format

/-!
## How a value is to be laid out

A format specification has the form

    [[fill]align][sign][z][#][0][width][grouping][.precision][type]

Its parts are read from left to right, each of them if it is there; what is left at the end must be
nothing or the one character of the type.
-/

/-- Where the padding goes; `=` puts it between the sign and the digits. -/
inductive Align
  | left | right | center | afterSign
deriving DecidableEq, Repr

def Align.ofChar? : Char → Option Align
  | '<' => some .left
  | '>' => some .right
  | '^' => some .center
  | '=' => some .afterSign
  | _ => none

/-- What stands for the sign of a number that is not negative. -/
inductive Sign
  | minus | plus | space
deriving DecidableEq, Repr

def Sign.ofChar? : Char → Option Sign
  | '-' => some .minus
  | '+' => some .plus
  | ' ' => some .space
  | _ => none

/-- What stands between groups of digits. -/
inductive Grouping
  | comma | underscore
deriving DecidableEq, Repr

def Grouping.char : Grouping → Char
  | comma => ','
  | underscore => '_'

/-- How a value is to be formatted. -/
structure Spec where
  fill : Char
  align : Option Align
  sign : Option Sign
  /-- Whether a zero never has a sign. -/
  plainZero : Bool
  /-- Whether the alternate form is asked for. -/
  alternate : Bool
  /-- Whether padding with zeros is asked for by a zero before the width. -/
  zeroPadded : Bool
  width : Option Nat
  grouping : Option Grouping
  precision : Option Nat
  type : Option Char
deriving DecidableEq, Repr

def mostSize : Nat := 0x7fffffffffffffff

/-- Reads an optional number; fails when it is too great. -/
def readSize (cs : List Char) : Option (Option Nat × List Char) :=
  match cs.takeWhile Text.isDecimalDigit with
  | [] => some (none, cs)
  | ds =>
    let n := Text.digitsValue ds
    if n ≤ mostSize then some (some n, cs.dropWhile Text.isDecimalDigit) else none

def readAlign : List Char → (Option Char × Option Align) × List Char
  | c :: d :: cs =>
    match Align.ofChar? d, Align.ofChar? c with
    | some a, _ => ((some c, some a), cs)
    | none, some a => ((none, some a), d :: cs)
    | none, none => ((none, none), c :: d :: cs)
  | [c] =>
    match Align.ofChar? c with
    | some a => ((none, some a), [])
    | none => ((none, none), [c])
  | [] => ((none, none), [])

def readSign : List Char → Option Sign × List Char
  | c :: cs =>
    match Sign.ofChar? c with
    | some s => (some s, cs)
    | none => (none, c :: cs)
  | [] => (none, [])

def readMark (mark : Char) : List Char → Bool × List Char
  | c :: cs => if c = mark then (true, cs) else (false, c :: cs)
  | [] => (false, [])

/-- Reads an optional group separator; fails when two of them meet. -/
def readGrouping : List Char → Option (Option Grouping × List Char)
  | ',' :: '_' :: _ => none
  | '_' :: ',' :: _ => none
  | ',' :: cs => some (some .comma, cs)
  | '_' :: cs => some (some .underscore, cs)
  | cs => some (none, cs)

/-- Reads an optional precision; fails when no number follows the point. -/
def readPrecision : List Char → Option (Option Nat × List Char)
  | '.' :: cs =>
    match readSize cs with
    | some (some n, rest) => some (some n, rest)
    | _ => none
  | cs => some (none, cs)

/-- Reads the type, which ends the specification. -/
def readType : List Char → Option (Option Char)
  | [] => some none
  | [c] => some (some c)
  | _ => none

def Spec.read? (cs : List Char) : Option Spec := do
  let ((fill, align), cs) := readAlign cs
  let (sign, cs) := readSign cs
  let (plainZero, cs) := readMark 'z' cs
  let (alternate, cs) := readMark '#' cs
  let (zeroPadded, cs) := if fill.isNone then readMark '0' cs else (false, cs)
  let (width, cs) ← readSize cs
  let (grouping, cs) ← readGrouping cs
  let (precision, cs) ← readPrecision cs
  let type ← readType cs
  return {
    fill := fill.getD (if zeroPadded then '0' else ' ')
    align, sign, plainZero, alternate, zeroPadded, width, grouping, precision, type }

/-! ## Layout -/

/-- Padding to the left and to the right of a text. -/
def padded (fill : Char) (width : Nat) (align : Align) (cs : List Char) : List Char :=
  let n := width - cs.length
  match align with
  | .left => cs ++ List.replicate n fill
  | .right | .afterSign => List.replicate n fill ++ cs
  | .center => List.replicate (n / 2) fill ++ cs ++ List.replicate (n - n / 2) fill

def Spec.text? (spec : Spec) (cs : List Char) : Option (List Char) :=
  let align := spec.align.getD .left
  if spec.sign.isSome || spec.plainZero || spec.alternate || spec.grouping.isSome ||
      align = .afterSign || !(spec.type.isNone || spec.type = some 's') then none
  else
    let cs := match spec.precision with
      | some n => cs.take n
      | none => cs
    some (padded spec.fill (spec.width.getD 0) align cs)

/-! ## Numbers under a specification -/

/-- Why a number cannot be written as asked. -/
inductive Misfit
  | spec | overflow
deriving DecidableEq, Repr

/-! ## Layout -/

/-- Digits, the last one first, in groups of `size` with a separator between them, and with as many
zeros as fill `width`. -/
def groupBackwards (size : Nat) (sep : Char) : (fuel : Nat) → (ds : List Char) → (width : Nat) →
    List Char
  | 0, ds, _ => ds
  | fuel + 1, ds, width =>
    let len := min size (max (max ds.length width) 1)
    let group := ds.take len ++ List.replicate (len - ds.length) '0'
    let ds := ds.drop len
    let width := width - len
    if ds.isEmpty && width = 0 then group
    else group ++ sep :: groupBackwards size sep fuel ds (width - 1)

/-- Digits filled up with zeros to a width, in groups if there is a separator. -/
def grouped (size : Nat) (sep : Option Char) (ds : List Char) (width : Nat) : List Char :=
  if ds.isEmpty then []
  else
    match sep with
    | none => Decimal.padZeros width ds
    | some sep => (groupBackwards size sep (ds.length + width) ds.reverse width).reverse

def signText (sign : Option Sign) (negative : Bool) : List Char :=
  if negative then ['-']
  else
    match sign with
    | some .plus => ['+']
    | some .space => [' ']
    | _ => []

def Spec.assemble (spec : Spec) (negative : Bool) (mark : List Char) (groupSize : Nat)
    (digits rest : List Char) : List Char :=
  let sign := signText spec.sign negative
  let align := spec.align.getD (if spec.zeroPadded then .afterSign else .right)
  let width := spec.width.getD 0
  let others := sign.length + mark.length + rest.length
  let least := if spec.fill = '0' && align = .afterSign then width - others else 0
  let ds := grouped groupSize (spec.grouping.map Grouping.char) digits least
  if align = .afterSign then
    sign ++ mark ++ List.replicate (width - (others + ds.length)) spec.fill ++ ds ++ rest
  else padded spec.fill width align (sign ++ mark ++ ds ++ rest)

/-! ## Floating-point numbers -/

def floatTypes : List Char := ['e', 'E', 'f', 'F', 'g', 'G', '%']

/-- Whether digits may be grouped under a type; binary digits only by underscores. -/
def groupsFit (grouping : Option Grouping) (type : Option Char) : Bool :=
  match grouping, type with
  | none, _ | _, none => true
  | some g, some t =>
    t = 'd' || floatTypes.contains t ||
      (['b', 'o', 'x', 'X'].contains t && g = .underscore)

/-- The places that are written when no precision is given. -/
def standardPlaces : Nat := 6

/-- The greatest precision of a floating-point number. -/
def mostPrecision : Nat := 0x7fffffff

/-- The size of a finite number under a type, without its sign. -/
def magnitude (spec : Spec) (x : Float) : List Char :=
  let r := floatRatio x
  let keep := spec.alternate
  let places := spec.precision.getD standardPlaces
  match spec.type with
  | some 'e' | some 'E' => exponentText r places keep
  | some 'f' | some 'F' | some '%' => fixedText r places keep
  | some 'g' | some 'G' | some 'n' => generalText r places keep false
  | _ =>
    match spec.precision with
    | some n => generalText r n keep true
    | none => shortestText x keep

/-- Whether every digit before an exponent is zero. -/
def isZeroText (cs : List Char) : Bool :=
  (cs.takeWhile fun c => c ≠ 'e' && c ≠ 'E').all fun c => c = '0' || c = '.' || c = '%'

def Spec.float (spec : Spec) (x : Float) : Except Misfit (List Char) := do
  let known := match spec.type with
    | none => true
    | some t => t = 'n' || floatTypes.contains t
  if !known || !groupsFit spec.grouping spec.type || mostPrecision < spec.precision.getD 0 then
    throw .spec
  let percent := spec.type = some '%'
  let x := if percent then x * 100.0 else x
  let body :=
    if x.isNaN then ['n', 'a', 'n']
    else if x.isInf then ['i', 'n', 'f']
    else magnitude spec x
  let body := if percent then body ++ ['%'] else body
  let upper := match spec.type with
    | some t => t = 'E' || t = 'F' || t = 'G'
    | none => false
  let body := if upper then body.map Char.toUpper else body
  let negative := isNegative x && !x.isNaN && !(spec.plainZero && isZeroText body)
  return spec.assemble negative [] 3 (body.takeWhile Char.isDigit) (body.dropWhile Char.isDigit)

/-! ## Integers -/

def baseOf : Char → Nat × List Char
  | 'b' => (2, ['0', 'b'])
  | 'o' => (8, ['0', 'o'])
  | 'x' => (16, ['0', 'x'])
  | 'X' => (16, ['0', 'X'])
  | _ => (10, [])

/-- The character with a code point, under a specification. -/
def Spec.character (spec : Spec) (n : Int) : Except Misfit (List Char) := do
  if spec.sign.isSome || spec.alternate then throw .spec
  if n < 0 || 0x10ffff < n then throw .overflow
  return spec.assemble false [] 3 [] [Char.ofNat n.toNat]

def Spec.integer (spec : Spec) (n : Int) : Except Misfit (List Char) := do
  let type := spec.type.getD 'd'
  if !groupsFit spec.grouping spec.type then throw .spec
  if floatTypes.contains type then
    let x := floatOfInt n
    if x.isInf then throw .overflow
    spec.float x
  else if !(['b', 'c', 'd', 'o', 'x', 'X', 'n'].contains type) then throw .spec
  else if spec.precision.isSome || spec.plainZero then throw .spec
  else if type = 'c' then spec.character n
  else
    let (base, mark) := baseOf type
    let ds := Nat.toDigits base n.natAbs
    let ds := if type = 'X' then ds.map Char.toUpper else ds
    let groupSize := if base = 10 then 3 else 4
    return spec.assemble (n < 0) (if spec.alternate then mark else []) groupSize ds []

end Yielding.Format
