import ApiRecords.Number.Double

/-!
The shortest decimal that reads back as a given double, and its layout.
-/

namespace ApiRecords

structure Decimal where
  digits : Nat
  exponent : Int

namespace Double

/-- Quotient and remainder, with the divisor, of `num / den` over 10^u. -/
def gridPoint (num den : Nat) (u : Int) : Nat × Nat × Nat :=
  let (n, d) := if 0 ≤ u then (num, den * .pow 10 u.toNat) else (num * .pow 10 (-u).toNat, den)
  (n / d, n % d, d)

/-- The exponent of the leading decimal digit of `num / den`: an estimate from the binary exponent,
moved by one where it is off. -/
def leadingExponent (num den : Nat) : Int :=
  let guess := ((num.log2 : Int) - den.log2) * 30103 / 100000
  let atLeast := fun p : Int => (gridPoint num den p).1 ≠ 0
  if atLeast (guess + 1) then guess + 1
  else if atLeast guess then guess
  else guess - 1

/-- The decimal of `count` digits that is nearest to ± m · 2^e among those that read back as it, if
there is one. Only the two neighbours on the grid can be nearest. -/
def decimalOf? (m : Nat) (e : Int) (count : Nat) : Option Decimal :=
  let (num, den) := ratio m e
  let u := leadingExponent num den - count + 1
  let (low, rest, d) := gridPoint num den u
  let order := if 2 * rest < d ∨ (2 * rest = d ∧ low % 2 = 0) then [low, low + 1] else [low + 1, low]
  (order.find? fun k => ofDecimal false k u = .finite false m e).map fun k => ⟨k, u⟩

/-- The decimal with the fewest digits that reads back as m · 2^e, and of those the nearest. -/
def shortest (m : Nat) (e : Int) : Decimal :=
  ((List.range 17).findSome? fun k => decimalOf? m e (k + 1)).getD ⟨m, 0⟩

end Double

structure NumberLayout where
  /-- Leading exponents below this one are written in powers of ten. -/
  positionalFrom : Int
  /-- Leading exponents from this one on are written in powers of ten. -/
  positionalBelow : Int
  exponentDigits : Nat
  infinity : String
  nan : String

def significantDigits (n : Nat) : List Char :=
  ((Nat.toDigits 10 n).reverse.dropWhile (· = '0')).reverse

namespace NumberLayout

/-- Digits before and after the point, a zero where there are none. -/
def positional (digits : List Char) (leading : Int) : List Char :=
  if 0 ≤ leading then
    let whole := leading.toNat + 1
    let ahead := digits.take whole ++ List.replicate (whole - digits.length) '0'
    let behind := digits.drop whole
    ahead ++ '.' :: (if behind = [] then ['0'] else behind)
  else '0' :: '.' :: List.replicate ((-leading).toNat - 1) '0' ++ digits

def scientific (layout : NumberLayout) (digits : List Char) (leading : Int) : List Char :=
  let power := Nat.toDigits 10 leading.natAbs
  digits.take 1 ++ (if digits.length ≤ 1 then [] else '.' :: digits.drop 1) ++
    'e' :: (if leading < 0 then '-' else '+') ::
    List.replicate (layout.exponentDigits - power.length) '0' ++ power

def write (layout : NumberLayout) : Double → String
  | .nan => layout.nan
  | .infinite neg => (if neg then "-" else "") ++ layout.infinity
  | .finite neg m e =>
    let body :=
      if m = 0 then ['0', '.', '0'] else
        let d := Double.shortest m e
        let leading := d.exponent + ((Nat.toDigits 10 d.digits).length - 1 : Nat)
        let digits := significantDigits d.digits
        if layout.positionalFrom ≤ leading ∧ leading < layout.positionalBelow then
          positional digits leading
        else layout.scientific digits leading
    (if neg then "-" else "") ++ String.ofList body

end NumberLayout

end ApiRecords
