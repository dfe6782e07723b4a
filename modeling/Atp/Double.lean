import Atp.Text
import Mathlib

/-!
The 64-bit floating point format and its text: what an `ostream` writes at its
default precision of six significant digits, and the nearest number to a ratio.
-/

namespace Atp

/-- A number is its bit pattern: a sign bit, eleven bits of exponent and 52 bits
of fraction. -/
structure Double where
  bits : UInt64
deriving DecidableEq

/-- `n / d` to the nearest integer, ties to even. -/
def roundQuot (n d : Nat) : Nat :=
  let q := n / d
  let r := n % d
  if 2 * r < d then q
  else if d < 2 * r then q + 1
  else if q % 2 = 0 then q else q + 1

namespace Double

def negative (x : Double) : Bool := 2 ^ 63 ≤ x.bits.toNat

def exponent (x : Double) : Nat := x.bits.toNat / 2 ^ 52 % 2 ^ 11

def fraction (x : Double) : Nat := x.bits.toNat % 2 ^ 52

def isFinite (x : Double) : Bool := x.exponent < 2047

/-- The absolute value of a finite number is `numerator / 2 ^ 1075`. -/
def numerator (x : Double) : Nat :=
  if x.exponent = 0 then x.fraction * 2 else (2 ^ 52 + x.fraction) * 2 ^ x.exponent

def denominator : Nat := 2 ^ 1075

/-- The number nearest to `n / d`, or nothing if that is out of range. -/
def ofRatio (negative : Bool) (n d : Nat) : Option Double :=
  let scale := Nat.max 1 (Nat.log2 (n * denominator / d) - 52)
  let bits := (scale - 1) * 2 ^ 52 + roundQuot (n * denominator) (d * 2 ^ scale)
  if bits < 2047 * 2 ^ 52 then
    some ⟨UInt64.ofNat (if negative then 2 ^ 63 + bits else bits)⟩
  else none

def infinity (negative : Bool) : Double :=
  ⟨UInt64.ofNat ((if negative then 2 ^ 63 else 0) + 2047 * 2 ^ 52)⟩

def nan (negative : Bool) : Double :=
  ⟨UInt64.ofNat ((if negative then 2 ^ 63 else 0) + 2047 * 2 ^ 52 + 2 ^ 51)⟩

/-! ### Output -/

def log10 (n d : Nat) : Int :=
  if d ≤ n then (decimal (n / d)).length - 1
  else -((decimal ((d + n - 1) / n - 1)).length : Int)

/-- `n / d` in units of the significant digit `p` from the one of exponent `x` on. -/
def scaledTo (p n d : Nat) (x : Int) : Nat :=
  if x ≤ (p : Int) - 1 then roundQuot (n * 10 ^ ((p : Int) - 1 - x).toNat) d
  else roundQuot n (d * 10 ^ (x - ((p : Int) - 1)).toNat)

def significantTo (p n d : Nat) : Nat × Int :=
  let x := log10 n d
  let digits := scaledTo p n d x
  if digits = 10 ^ p then (10 ^ (p - 1), x + 1) else (digits, x)

def stripZeros (digits : Text) : Text := digits.rdropWhile (· = '0')

def withPoint (whole frac : Text) : Text :=
  if frac = [] then whole else whole ++ '.' :: frac

def exponentText (x : Int) : Text :=
  'e' :: (if x < 0 then '-' else '+') ::
    (if x.natAbs < 10 then '0' :: decimal x.natAbs else decimal x.natAbs)

def generalTo (p n d : Nat) : Text :=
  let (digits, x) := significantTo p n d
  let ds := decimal digits
  if x < -4 ∨ (p : Int) ≤ x then
    withPoint (ds.take 1) (stripZeros (ds.drop 1)) ++ exponentText x
  else if 0 ≤ x then
    withPoint (ds.take (x.toNat + 1)) (stripZeros (ds.drop (x.toNat + 1)))
  else
    withPoint ['0'] (List.replicate (-x - 1).toNat '0' ++ stripZeros ds)

/-- `printf("%.*g", p, x)`. -/
def textTo (p : Nat) (x : Double) : Text :=
  (if x.negative then ['-'] else []) ++
    if !x.isFinite then (if x.fraction = 0 then ['i', 'n', 'f'] else ['n', 'a', 'n'])
    else if x.numerator = 0 then ['0']
    else generalTo p x.numerator denominator

/-- `ostream << double`, with six significant digits. -/
def text (x : Double) : Text := x.textTo 6

end Double

end Atp
