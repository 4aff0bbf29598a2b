import ApiRecords.Document.Fault
import ApiRecords.Document.Members

/-!
The relations of a model to others: its property tree, with the schemas of other models and the names
of unions as leaves, and without branches that end in neither.
-/

namespace ApiRecords

inductive Dependency where
  /-- The schema of a model, or the name of a union. -/
  | leaf (name : String)
  | list (of : Dependency)
  | shape (members : List (String × Dependency))

namespace Dependency

mutual

def toTree : Dependency → Tree
  | leaf name => .text name
  | list d => .array [d.toTree]
  | shape members => .object (membersToTree members)

def membersToTree : List (String × Dependency) → List (String × Tree)
  | [] => []
  | (key, d) :: ds => (key, d.toTree) :: membersToTree ds

end

/-- The relation of one property. A relation that is not a mapping of properties has none to give. -/
def property? (d : Option Dependency) (key : String) : Except Fault (Option Dependency) :=
  match d with
  | none => .ok none
  | some (shape members) => .ok (members.lookup key)
  | some _ => .error .notMapping

mutual

def leaves : Dependency → List String
  | leaf name => [name]
  | list d => d.leaves
  | shape members => memberLeaves members

def memberLeaves : List (String × Dependency) → List String
  | [] => []
  | (_, d) :: ds => d.leaves ++ memberLeaves ds

end

end Dependency

end ApiRecords
