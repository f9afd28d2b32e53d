import Yielding.Text.Digit

/-!
# Decimal — doubles and the texts of numbers
-/

namespace Yielding.Decimal

/-!
## Fractions of natural numbers

Exact arithmetic on positive fractions: scaling by powers of two and ten, and rounding to the
nearest integer.  Denominators are positive.
-/

/-- A ratio of two numbers. -/
structure Ratio where
  num : Nat
  den : Nat
deriving DecidableEq, Repr

namespace Ratio

def ofNat (n : Nat) : Ratio := ⟨n, 1⟩

def scaleBy (base : Nat) (r : Ratio) (power : Int) : Ratio :=
  if power < 0 then ⟨r.num, r.den * base.pow power.natAbs⟩
  else ⟨r.num * base.pow power.natAbs, r.den⟩

def scale (r : Ratio) (power : Int) : Ratio := r.scaleBy 10 power

def floor (r : Ratio) : Nat := r.num / r.den

/-- The nearest integer; a tie goes to the even neighbour. -/
def round (r : Ratio) : Nat :=
  let floor := r.floor
  let rest := r.num - floor * r.den
  if r.den < 2 * rest || (2 * rest == r.den && floor % 2 == 1) then floor + 1 else floor

/-- The number of powers of ten below one that are looked through for the size of a fraction. -/
def reach : Nat := 400

/-- The greatest power of ten, from `power` downwards, that the fraction is below and whose tenth it
is not. -/
def lowerPower (r : Ratio) : (fuel : Nat) → (power : Int) → Int
  | 0, power => power
  | fuel + 1, power =>
    let s := r.scale (1 - power)
    if s.num < s.den then lowerPower r fuel (power - 1) else power

/-- The power `k` of ten with `10 ^ (k - 1) ≤ r < 10 ^ k`. -/
def size (r : Ratio) : Int :=
  if r.num < r.den then r.lowerPower reach 0 else (Nat.toDigits 10 r.floor).length

end Ratio

end Yielding.Decimal

namespace Yielding

/-!
## Doubles and fractions

A positive finite double is `m · 2 ^ q`, with `m` below `2 ^ 53` and `q` from `-1074` to `971`.  The
**nearest** double to a fraction takes the least such `q` that leaves enough room, and rounds; a tie
goes to the even mantissa, and what lies beyond the greatest double is infinite.
-/

/-- A positive binary number `mantissa · 2 ^ exponent`, and whether its lower neighbour is only half
as far away as its upper one. -/
structure Binary where
  mantissa : Nat
  exponent : Int
  closeBelow : Bool
deriving DecidableEq, Repr

namespace Binary

def leastExponent : Int := -1074

def mostExponent : Int := 971

/-- The finite double with the given bits, without its sign. -/
def ofBits (bits : UInt64) : Binary :=
  let fraction : Nat := bits.toNat % (1 <<< 52)
  let power : Nat := bits.toNat / (1 <<< 52) % (1 <<< 11)
  if power = 0 then ⟨fraction, leastExponent, false⟩
  else ⟨(1 <<< 52) + fraction, (power : Int) - 1075, fraction = 0 && power ≠ 1⟩

def ratio (b : Binary) : Decimal.Ratio := (Decimal.Ratio.ofNat b.mantissa).scaleBy 2 b.exponent

/-- The bits of the double `mantissa · 2 ^ exponent`, where the mantissa is at most `2 ^ 53`, and at
least `2 ^ 52` unless the exponent is the least. -/
def bits (mantissa : Nat) (exponent : Int) : Nat :=
  let (m, q) := if mantissa = (1 <<< 53) then (1 <<< 52, exponent + 1) else (mantissa, exponent)
  if mostExponent < q then 2047 * (1 <<< 52)
  else if m < (1 <<< 52) then m
  else (q + 1075).toNat * (1 <<< 52) + (m - (1 <<< 52))

end Binary

def isNegative (x : Float) : Bool := x.toBits.toNat / (1 <<< 63) == 1

namespace Decimal.Ratio

def binaryExponent (r : Ratio) : Int :=
  let q : Int := (r.num.log2 : Int) - r.den.log2 - 52
  let q := if (r.scaleBy 2 (-q)).floor < (1 <<< 52) then q - 1 else q
  max q Binary.leastExponent

def toFloat (r : Ratio) : Float :=
  if r.num = 0 then 0.0
  else
    let q := r.binaryExponent
    Float.ofBits (Binary.bits (r.scaleBy 2 (-q)).round q).toUInt64

end Decimal.Ratio

def floatOfInt (n : Int) : Float :=
  let x := (Decimal.Ratio.ofNat n.natAbs).toFloat
  if n < 0 then -x else x

def floatRatio (x : Float) : Decimal.Ratio := (Binary.ofBits x.toBits).ratio

/-!
## Numbers in decimal notation

A decimal is an integer times a power of ten.  Its floating-point value is the double nearest to it.
-/

/-- The number `digits · 10 ^ exponent`. -/
structure Decimal where
  digits : Nat
  exponent : Int
deriving DecidableEq, Repr

namespace Decimal

/-- Digits beyond which a decimal is infinite or zero as a double, whatever they are. -/
def reach : Int := 400

/-- The nearest double; a tie goes to the even neighbour. -/
def toFloat (d : Decimal) : Float :=
  let size : Int := (Nat.toDigits 10 d.digits).length + d.exponent
  if d.digits = 0 || size < -reach then 0.0
  else if size > reach then 1.0 / 0.0
  else ((Ratio.ofNat d.digits).scale d.exponent).toFloat

/-- Reads digits with an optional fraction and an optional exponent.  The text has the form of a
decimal already; underscores are passed over. -/
def ofChars (cs : List Char) : Decimal :=
  let isExponent (c : Char) : Bool := c == 'e' || c == 'E'
  let mantissa := cs.takeWhile fun c => !isExponent c
  let power := (cs.dropWhile fun c => !isExponent c).drop 1
  let whole := mantissa.takeWhile (· ≠ '.')
  let fraction := (mantissa.dropWhile (· ≠ '.')).filter Text.isDecimalDigit
  let size : Int := Text.digitsValue power
  let exponent := if power.head? = some '-' then -size else size
  ⟨Text.digitsValue (whole ++ fraction), exponent - fraction.length⟩

/-- Reads a floating-point number: a decimal or one of `inf` and `nan`, with an optional sign. -/
def readFloat (s : String) : Float :=
  let magnitude (cs : List Char) : Float :=
    if cs = ['i', 'n', 'f'] then 1.0 / 0.0
    else if cs = ['n', 'a', 'n'] then 0.0 / 0.0
    else (ofChars cs).toFloat
  match s.toList with
  | '-' :: cs => -magnitude cs
  | '+' :: cs | cs => magnitude cs

end Decimal

/-!
## The fewest digits that read back

A positive double is `m · 2 ^ q`.  The reals that round to it form an interval around it, which
contains its ends exactly when `m` is even.  Among the decimals in that interval the ones with the
fewest digits are taken, and among those the nearest.
-/

namespace Decimal

/-- Whether `n` is at least the fraction, and more than it unless `closed`. -/
def Ratio.atMost (r : Ratio) (closed : Bool) (n : Nat) : Bool :=
  r.num < n * r.den || (closed && r.num == n * r.den)

/-- Whether `n` is at most the fraction, and less than it unless `closed`. -/
def Ratio.atLeast (r : Ratio) (closed : Bool) (n : Nat) : Bool :=
  n * r.den < r.num || (closed && r.num == n * r.den)

/-- The fraction `quarters · 2 ^ (exponent - 2)`. -/
def Ratio.ofQuarters (quarters : Nat) (exponent : Int) : Ratio :=
  if exponent < 2 then ⟨quarters, 1 <<< (2 - exponent).toNat⟩
  else ⟨quarters <<< (exponent - 2).toNat, 1⟩

/-- The decimal with `n` digits in the interval from `low` to `high` that is nearest to `value`, if
there is one. -/
def withDigits? (low value high : Ratio) (closed : Bool) (n : Nat) : Option Decimal :=
  let power : Int := n - value.size
  let v := value.scale power
  let floor := v.floor
  let inside (c : Nat) : Bool :=
    (low.scale power).atMost closed c && (high.scale power).atLeast closed c
  match inside floor, inside (floor + 1) with
  | true, true => some ⟨v.round, -power⟩
  | true, false => some ⟨floor, -power⟩
  | false, true => some ⟨floor + 1, -power⟩
  | false, false => none

/-- As many digits as tell any two doubles apart. -/
def mostDigits : Nat := 17

def shortest (b : Binary) : Decimal :=
  let value := Ratio.ofQuarters (4 * b.mantissa) b.exponent
  let low := Ratio.ofQuarters (4 * b.mantissa - (if b.closeBelow then 1 else 2)) b.exponent
  let high := Ratio.ofQuarters (4 * b.mantissa + 2) b.exponent
  let closed := b.mantissa % 2 == 0
  ((List.range mostDigits).findSome? fun n => withDigits? low value high closed (n + 1)).getD
    ⟨0, 0⟩

end Decimal

end Yielding

namespace Yielding.Decimal

/-!
## How numbers are written out

A finite double is written with the fewest digits that read back.  When its first digit stands for
a power of ten from `-4` to `15` it is written in positions, with at least one digit after the
point; otherwise with an exponent of a sign and at least two digits.
-/

def digitsOf (n : Nat) : List Char := Nat.toDigits 10 n

/-- Where a number is written in positions, and how its exponent is written otherwise. -/
structure Style where
  leastPower : Int
  mostPower : Int
  exponentWidth : Nat
deriving DecidableEq, Repr

def floatStyle : Style := ⟨-4, 15, 2⟩

def padZeros (width : Nat) (cs : List Char) : List Char :=
  List.replicate (width - cs.length) '0' ++ cs

def exponentText (width : Nat) (power : Int) : List Char :=
  ['e', if power < 0 then '-' else '+'] ++ padZeros width (digitsOf power.natAbs)

/-- Digits without the zeros at their end; at least one is left. -/
def trimZeros (cs : List Char) : List Char :=
  match (cs.reverse.dropWhile (· == '0')).reverse with
  | [] => ['0']
  | trimmed => trimmed

/-- Writes the digits `ds`, the first of which stands for the power `power` of ten. -/
def layout (n : Style) (ds : List Char) (power : Int) : List Char :=
  if n.leastPower ≤ power && power ≤ n.mostPower then
    if power < 0 then ['0', '.'] ++ List.replicate (power.natAbs - 1) '0' ++ ds
    else
      let whole := ds.take (power.toNat + 1)
      let fraction := ds.drop (power.toNat + 1)
      whole ++ List.replicate (power.toNat + 1 - whole.length) '0' ++ ['.'] ++
        (if fraction.isEmpty then ['0'] else fraction)
  else
    let fraction := ds.drop 1
    ds.take 1 ++ (if fraction.isEmpty then [] else '.' :: fraction) ++
      exponentText n.exponentWidth power

/-- The digits of a decimal without zeros at their end, and the power of ten of the first one. -/
def leading (d : Decimal) : List Char × Int :=
  let ds := digitsOf d.digits
  (trimZeros ds, d.exponent + ds.length - 1)

def floatText (x : Float) : String :=
  if x.isNaN then "nan"
  else
    let sign := if isNegative x then "-" else ""
    if x.isInf then sign ++ "inf"
    else
      let b := Binary.ofBits x.toBits
      if b.mantissa = 0 then sign ++ "0.0"
      else
        let (ds, power) := leading (shortest b)
        sign ++ String.ofList (layout floatStyle ds power)

end Yielding.Decimal
