import ApiRecords.Document.Members
import ApiRecords.Document.Tree

/-!
Documents whose containers have an identity: a container may be reached in several ways, and lead
back to itself. Reading a value out as a tree cuts it where a container is met again below itself.
-/

namespace ApiRecords

/-- A value of a document: a scalar, or the container of the given number. -/
inductive Value where
  | scalar (s : Scalar)
  | node (id : Nat)
  deriving DecidableEq

inductive Node where
  | array (items : List Value)
  | object (members : List (String × Value))

inductive Slot where
  | index (i : Nat)
  | key (k : String)

structure Graph where
  nodes : Array Node

structure Document where
  graph : Graph
  root : Value

abbrev Value.null : Value := .scalar .null

namespace Node

def isEmpty : Node → Bool
  | array items => items.isEmpty
  | object members => members.isEmpty

def slots : Node → List (Slot × Value)
  | array items => items.zipIdx.map fun (v, i) => (.index i, v)
  | object members => members.map fun (k, v) => (.key k, v)

def set : Node → Slot → Value → Node
  | array items, .index i, v => array (items.set i v)
  | object members, .key k, v => object (putMember k v members)
  | n, _, _ => n

end Node

namespace Graph

def empty : Graph := ⟨#[]⟩

def size (g : Graph) : Nat := g.nodes.size

def node? (g : Graph) : Value → Option Node
  | .scalar _ => none
  | .node id => g.nodes[id]?

def object? (g : Graph) (v : Value) : Option (List (String × Value)) :=
  match g.node? v with
  | some (.object members) => some members
  | _ => none

def array? (g : Graph) (v : Value) : Option (List Value) :=
  match g.node? v with
  | some (.array items) => some items
  | _ => none

def member? (g : Graph) (v : Value) (key : String) : Option Value :=
  (g.object? v).bind (·.lookup key)

def get (g : Graph) (v : Value) (key : String) : Value := (g.member? v key).getD .null

def truthy (g : Graph) (v : Value) : Bool :=
  match v with
  | .scalar s => s.truthy
  | .node _ => !(g.node? v).all Node.isEmpty

def slots (g : Graph) (id : Nat) : List (Slot × Value) := ((g.nodes[id]?).map Node.slots).getD []

/-- A new container, different from all others. -/
def add (g : Graph) (n : Node) : Graph × Value := (⟨g.nodes.push n⟩, .node g.size)

def replace (g : Graph) (id : Nat) (n : Node) : Graph := ⟨g.nodes.setIfInBounds id n⟩

def setSlot (g : Graph) (id : Nat) (slot : Slot) (v : Value) : Graph :=
  match g.nodes[id]? with
  | some n => g.replace id (n.set slot v)
  | none => g

/-- The tree below a value, `above` holding the open containers from the inside out. A path through
different containers is no longer than `depth`, the number of those not yet open. -/
def treeFrom (g : Graph) : Nat → List Nat → Value → Tree
  | _, _, .scalar s => .scalar s
  | 0, above, .node id => if id ∈ above then .back (above.idxOf id + 1) else .null
  | depth + 1, above, .node id =>
    if id ∈ above then .back (above.idxOf id + 1) else
      match g.nodes[id]? with
      | some (.array items) => .array (items.map (g.treeFrom depth (id :: above)))
      | some (.object members) =>
        .object (members.map fun (k, v) => (k, g.treeFrom depth (id :: above) v))
      | none => .null

def tree (g : Graph) (v : Value) : Tree := g.treeFrom g.size [] v

@[simp] theorem tree_scalar (g : Graph) (s : Scalar) : g.tree (.scalar s) = .scalar s := by
  unfold tree; cases g.size <;> rfl

mutual

/-- Adds the containers of a tree. A back edge leads to the open container it names. -/
def load (above : List Nat) : Tree → Graph → Graph × Value
  | .scalar s, g => (g, .scalar s)
  | .array items, g =>
    let (g', vs) := loadItems (g.size :: above) items (g.add (.array [])).1
    (g'.replace g.size (.array vs), .node g.size)
  | .object members, g =>
    let (g', vs) := loadMembers (g.size :: above) members (g.add (.object [])).1
    (g'.replace g.size (.object vs), .node g.size)
  | .back levels, g => (g, ((above[levels - 1]?).map Value.node).getD .null)

def loadItems (above : List Nat) : List Tree → Graph → Graph × List Value
  | [], g => (g, [])
  | t :: ts, g =>
    let (g, v) := load above t g
    let (g, vs) := loadItems above ts g
    (g, v :: vs)

def loadMembers (above : List Nat) : List (String × Tree) → Graph → Graph × List (String × Value)
  | [], g => (g, [])
  | (key, t) :: ts, g =>
    let (g, v) := load above t g
    let (g, vs) := loadMembers above ts g
    (g, (key, v) :: vs)

end

end Graph

namespace Document

def ofTree (t : Tree) : Document :=
  let (g, v) := Graph.load [] t .empty
  ⟨g, v⟩

def tree (doc : Document) : Tree := doc.graph.tree doc.root

end Document

end ApiRecords
