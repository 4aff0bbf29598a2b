import ApiRecords.Number.Double

/-!
Values without parts. Truth values count as the numbers zero and one wherever values are compared.
-/

namespace ApiRecords

inductive Scalar where
  | null
  | bool (b : Bool)
  | int (n : Int)
  | double (x : Double)
  | text (s : String)
  deriving DecidableEq

namespace Scalar

def truthy : Scalar → Bool
  | null => false
  | bool b => b
  | int n => n ≠ 0
  | double x => !x.isZero
  | text s => s ≠ ""

def whole? : Scalar → Option Int
  | bool b => some (if b then 1 else 0)
  | int n => some n
  | _ => none

/-- Equal as values. A NaN differs from every value. -/
def eq (a b : Scalar) : Bool :=
  match a.whole?, b.whole?, a, b with
  | some m, some n, _, _ => m = n
  | some m, none, _, double y => y.eqInt m
  | none, some n, double x, _ => x.eqInt n
  | none, none, double x, double y => x.eq y
  | none, none, null, null => true
  | none, none, text s, text t => s = t
  | _, _, _, _ => false

/-- Equal as items of a container and as keys of a mapping, where a NaN is the same as itself. -/
def same (a b : Scalar) : Bool := a.eq b || (a = double .nan && b = double .nan)

end Scalar

end ApiRecords
