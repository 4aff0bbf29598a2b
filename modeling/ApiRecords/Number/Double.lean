/-!
Binary64 numbers as sign, significand and exponent. Every number has one form: the significand is
below 2^53, and it is at least 2^52 unless the exponent is the least one.
-/

namespace ApiRecords

/-- `finite neg m e` is ± m · 2^e. -/
inductive Double where
  | finite (neg : Bool) (m : Nat) (e : Int)
  | infinite (neg : Bool)
  | nan
  deriving DecidableEq

namespace Double

def minExponent : Int := -1074

def maxExponent : Int := 971

def precision : Nat := 53

def zero (neg : Bool) : Double := .finite neg 0 minExponent

/-- Numerator and denominator of `num / den` over 2^e. -/
def scale (num den : Nat) (e : Int) : Nat × Nat :=
  if 0 ≤ e then (num, den * .pow 2 e.toNat) else (num * .pow 2 (-e).toNat, den)

/-- The whole number nearest to `num / den`, a half going to the even neighbour. -/
def roundHalfEven (num den : Nat) : Nat :=
  let q := num / den
  let twice := 2 * (num % den)
  if twice < den ∨ (twice = den ∧ q % 2 = 0) then q else q + 1

/-- The exponent at which `num / den` has a significand of full precision, or the least exponent. -/
def exponentOf (num den : Nat) : Int :=
  let e : Int := num.log2 - den.log2 - (precision - 1 : Nat)
  let (n, d) := scale num den e
  max (if n < d * .pow 2 (precision - 1) then e - 1 else e) minExponent

/-- ± `m` · 2^`e`, unless it is out of the range. -/
def bounded (neg : Bool) (m : Nat) (e : Int) : Double :=
  if maxExponent < e then .infinite neg else .finite neg m e

/-- The double of a rounded significand, which may have come to the next power of two. -/
def carried (neg : Bool) (m : Nat) (e : Int) : Double :=
  if m = .pow 2 precision then bounded neg (.pow 2 (precision - 1)) (e + 1) else bounded neg m e

def ofRatio (neg : Bool) (num den : Nat) : Double :=
  if num = 0 then zero neg else
    let e := exponentOf num den
    let scaled := scale num den e
    carried neg (roundHalfEven scaled.1 scaled.2) e

/-- The double nearest to ± `digits` · 10^`exponent`. Far outside the range the answer is known from
the number of digits. -/
def ofDecimal (neg : Bool) (digits : Nat) (exponent : Int) : Double :=
  let size := (Nat.toDigits 10 digits).length + exponent
  if digits = 0 ∨ size < -400 then zero neg
  else if 400 < size then .infinite neg
  else if 0 ≤ exponent then ofRatio neg (digits * .pow 10 exponent.toNat) 1
  else ofRatio neg digits (.pow 10 (-exponent).toNat)

def ratio (m : Nat) (e : Int) : Nat × Nat :=
  if 0 ≤ e then (m * .pow 2 e.toNat, 1) else (m, .pow 2 (-e).toNat)

/-- Equal as numbers: zeros of both signs are equal, and no number is equal to a NaN. -/
def eq : Double → Double → Bool
  | .nan, _ => false
  | .finite _ 0 _, .finite _ 0 _ => true
  | x, y => x = y

def eqInt : Double → Int → Bool
  | .finite neg m e, n =>
    let (num, den) := ratio m e
    n * den = (if neg then -(num : Int) else num)
  | _, _ => false

def isZero : Double → Bool
  | .finite _ 0 _ => true
  | _ => false

end Double

end ApiRecords
