import ApiRecords.Schema.Dependency
import ApiRecords.Schema.Kind
import ApiRecords.Schema.Union

/-!
What a schema refers to. Models end the search, unions give their branches, and a container met again
below itself has nothing to add.
-/

namespace ApiRecords

/-- What is found below a schema: the relations, and the models and unions in the order in which they
are met. -/
structure Findings where
  dependency : Option Dependency
  models : List Value
  unions : List Union

namespace Findings

def none : Findings := ⟨.none, [], []⟩

structure Members where
  members : List (String × Dependency)
  models : List Value
  unions : List Union

def Members.cons (key : String) (first : Findings) (rest : Members) : Members where
  members := (first.dependency.map (key, ·)).toList ++ rest.members
  models := first.models ++ rest.models
  unions := first.unions ++ rest.unions

def ofMembers (found : Members) : Findings where
  dependency := if found.members.isEmpty then .none else some (.shape found.members)
  models := found.models
  unions := found.unions

def inList (found : Findings) : Findings := { found with dependency := found.dependency.map .list }

end Findings

namespace Node

/-- The values of a container under the texts of their keys. -/
def children : Node → List (String × Value)
  | array items => items.zipIdx.map fun (v, i) => (toString i, v)
  | object members => members

end Node

/-- Goes through the members in order. Each member knows how many unions were found before it. -/
def findMembers (find : Nat → Value → Except Fault Findings) :
    Nat → List (String × Value) → Except Fault Findings.Members
  | _, [] => .ok ⟨[], [], []⟩
  | offset, (key, v) :: rest => do
    let first ← find offset v
    return .cons key first (← findMembers find (offset + first.unions.length) rest)

namespace Graph

/-- The union at a schema as the one with the given number. -/
def unionFindings (g : Graph) (number : Nat) (v : Value) : Except Fault Findings := do
  let u ← g.union v
  let key := Union.keyOf number
  return ⟨some (.leaf key), u.branches.map (·.schema), [{ u with key := some key }]⟩

/-- One level of the search. `path` holds the containers above the value, and `inner` goes on below
it. -/
def findNode (g : Graph) (inner : List Nat → Nat → Value → Except Fault Findings) (path : List Nat)
    (offset : Nat) (v : Value) : Except Fault Findings := do
  match ← g.kind v, v with
  | .opaqueValue, _ | _, .scalar _ => return .none
  | .model, _ => return ⟨some (.leaf (entityName (g.modelName v))), [v], []⟩
  | .discriminatedUnion, _ => g.unionFindings (offset + 1) v
  | kind, .node id =>
    if id ∈ path then return .none
    match kind with
    | .object => inner (id :: path) offset (g.get v "properties")
    | .array => return (← inner (id :: path) offset (g.get v "items")).inList
    | _ =>
      return .ofMembers (← findMembers (inner (id :: path)) offset
        (((g.node? v).map Node.children).getD []))

/-- What is found below a value. A path through different containers is no longer than `depth`. -/
def findFrom (g : Graph) : Nat → List Nat → Nat → Value → Except Fault Findings
  | 0 => g.findNode fun _ _ _ => .ok .none
  | depth + 1 => g.findNode (g.findFrom depth)

/-- What a schema refers to, `offset` unions having been found before. -/
def findings (g : Graph) (offset : Nat) (v : Value) : Except Fault Findings :=
  g.findFrom g.size [] offset v

end Graph

end ApiRecords
