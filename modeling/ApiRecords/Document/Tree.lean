import ApiRecords.Document.Scalar

/-!
Values with parts. A tree read out of a cyclic document ends in back edges, each naming an open
container by the number of levels above it.
-/

namespace ApiRecords

inductive Tree where
  | scalar (s : Scalar)
  | array (items : List Tree)
  | object (members : List (String × Tree))
  /-- The container `levels` above; 1 is the one directly around. -/
  | back (levels : Nat)

namespace Tree

abbrev null : Tree := .scalar .null

abbrev bool (b : Bool) : Tree := .scalar (.bool b)

abbrev int (n : Int) : Tree := .scalar (.int n)

abbrev text (s : String) : Tree := .scalar (.text s)

instance : Inhabited Tree := ⟨null⟩

def truthy : Tree → Bool
  | scalar s => s.truthy
  | array items => !items.isEmpty
  | object members => !members.isEmpty
  | back _ => true

def isNull : Tree → Bool
  | scalar .null => true
  | _ => false

def text? : Tree → Option String
  | scalar (.text s) => some s
  | _ => none

def member? (key : String) : Tree → Option Tree
  | object members => members.lookup key
  | _ => none

def get (t : Tree) (key : String) : Tree := (t.member? key).getD null

mutual

def cyclic : Tree → Bool
  | scalar _ => false
  | array items => cyclicItems items
  | object members => cyclicMembers members
  | back _ => true

def cyclicItems : List Tree → Bool
  | [] => false
  | t :: ts => t.cyclic || cyclicItems ts

def cyclicMembers : List (String × Tree) → Bool
  | [] => false
  | (_, t) :: ts => t.cyclic || cyclicMembers ts

end

mutual

/-- Equal as items of a container: arrays item by item, objects member by member in any order. -/
def same : Tree → Tree → Bool
  | scalar a, scalar b => a.same b
  | array as, array bs => sameItems as bs
  | object as, object bs => as.length = bs.length && sameMembers as bs
  | back m, back n => m = n
  | _, _ => false

def sameItems : List Tree → List Tree → Bool
  | [], [] => true
  | a :: as, b :: bs => a.same b && sameItems as bs
  | _, _ => false

/-- Whether each member stands, with the same value, among `bs`. -/
def sameMembers : List (String × Tree) → List (String × Tree) → Bool
  | [], _ => true
  | (key, a) :: as, bs =>
    (match bs.lookup key with
      | some b => a.same b
      | none => false) && sameMembers as bs

end

/-- Equal as values. -/
def eq : Tree → Tree → Bool
  | scalar a, scalar b => a.eq b
  | a, b => a.same b

end Tree

end ApiRecords
