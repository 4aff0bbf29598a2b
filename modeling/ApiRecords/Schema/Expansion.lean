import ApiRecords.Document.Json.Reader
import ApiRecords.Schema.Definitions

/-!
Documents with their references replaced. Each definition is marked with its name, and each reference
gives way to a copy of its target that keeps the entries beside the reference and the reference
itself. A copy shares its members with the target, so a document that refers to itself becomes
cyclic.
-/

namespace ApiRecords

namespace Graph

/-- The reference that a value consists of, if it is one. -/
def refText? (g : Graph) (v : Value) : Option String :=
  match g.member? v refKey with
  | some (.scalar (.text s)) => some s
  | _ => none

def members (g : Graph) (v : Value) : List (String × Value) := (g.object? v).getD []

def graft (g : Graph) (id : Nat) (slot : Slot) (n : Node) : Graph × Value :=
  let (g', v) := g.add n
  (g'.setSlot id slot v, v)

def slotCount (g : Graph) : Nat :=
  g.nodes.toList.foldl (fun n node => n + node.slots.length) 0

end Graph

namespace Document

/-- Follows references from `v` until a mapping is reached that is none. `seen` holds those followed
so far; a chain of more than `hops` different ones is longer than the document has. -/
def chase (doc : Document) (first : String) : Nat → List String → Value → Except Fault Value
  | hops, seen, v => do
    let some _ := doc.graph.object? v | throw .notMapping
    match doc.graph.refText? v with
    | none => return v
    | some next =>
      if next ∈ seen then throw (.spec (.circularChain first))
      match hops with
      | 0 => throw (.spec (.circularChain first))
      | hops + 1 => doc.chase first hops (next :: seen) (← (doc.resolve next).mapError .spec)

/-- The schema that a reference stands for in the end. -/
def target (doc : Document) (ref : String) : Except Fault Value := do
  let v ← (doc.resolve ref).mapError .spec
  let some _ := doc.graph.object? v | throw (.spec (.notSchema ref))
  doc.chase ref doc.graph.size [ref] v

/-- Marks each definition with its key, unless it bears a marker. -/
def stamp (doc : Document) (v2 : Bool) : Except Fault Document := do
  let graph := (← doc.definitions v2).foldl (fun g (name, v) =>
    match v, g.object? v with
    | .node id, some members =>
      if (members.lookup modelNameKey).isSome then g
      else g.setSlot id (.key modelNameKey) (.scalar (.text name))
    | _, _ => g) doc.graph
  return { doc with graph }

end Document

/-- A document whose references are being replaced: the containers entered so far, and the targets
of the references met so far. -/
structure Expansion where
  doc : Document
  entered : List Nat
  targets : List (String × Value)

namespace Expansion

def mark (x : Expansion) (id : Nat) : Expansion := { x with entered := id :: x.entered }

/-- The target of a reference, looked up in the document the first time it is met. -/
def targetOf (x : Expansion) (ref : String) : Except Fault (Value × Expansion) :=
  match x.targets.lookup ref with
  | some v => .ok (v, x)
  | none => do
    let v ← x.doc.target ref
    return (v, { x with targets := (ref, v) :: x.targets })

/-- The members that take the place of a reference: those of the target, over them those beside the
reference, and the reference itself. -/
def merged (ref : String) (target beside : List (String × Value)) : List (String × Value) :=
  putMember keptRefKey (.scalar (.text ref))
    (putMembers target (beside.filter fun (key, _) => key ≠ refKey))

/-- The members of the copy that takes the place of the reference `v`. -/
def copyMembers (x : Expansion) (ref : String) (target v : Value) : List (String × Value) :=
  merged ref (x.doc.graph.members target) (x.doc.graph.members v)

/-- Puts a copy of the target in the place of the reference `v` at a slot. -/
def replaceRef (x : Expansion) (id : Nat) (slot : Slot) (ref : String) (target v : Value) :
    Value × Expansion :=
  let (graph, copy) := x.doc.graph.graft id slot (.object (x.copyMembers ref target v))
  (copy, { x with doc := { x.doc with graph } })

/-- The value at a slot, a reference giving way to its copy. -/
def settle (x : Expansion) (id : Nat) (slot : Slot) (v : Value) : Except Fault (Value × Expansion) :=
  match x.doc.graph.refText? v with
  | none => .ok (v, x)
  | some ref => do
    let (target, x) ← x.targetOf ref
    return x.replaceRef id slot ref target v

/-- Settles one slot of a container and goes on below it. -/
def enterSlot (inner : Value → Expansion → Except Fault Expansion) (id : Nat) (x : Expansion)
    (place : Slot × Value) : Except Fault Expansion := do
  let (v, x) ← x.settle id place.1 place.2
  inner v x

/-- Enters a value and all below it, each container once. `depth` bounds the nesting of containers
entered. -/
def enter : Nat → Value → Expansion → Except Fault Expansion
  | _, .scalar _, x => .ok x
  | 0, .node id, x => if id ∈ x.entered then .ok x else .error .endlessExpansion
  | depth + 1, .node id, x =>
    if id ∈ x.entered then .ok x else
      (x.doc.graph.slots id).foldlM (enterSlot (enter depth) id) (x.mark id)

end Expansion

namespace Document

/-- A bound on the nesting of containers that end: between two first events (a container entered, a
target found, a slot of a target replaced) no reference is met twice on the way down. -/
def nestingBound (doc : Document) : Nat :=
  let n := doc.graph.size
  (n * (doc.graph.slotCount + 3) + 1) * (n + 1)

/-- The document without its references, nesting at most `depth` containers on the way. -/
def expand (depth : Nat) (doc : Document) : Except Fault Document := do
  return (← Expansion.enter depth doc.root ⟨doc, [], []⟩).doc

def prepare (doc : Document) (v2 : Bool) : Except Fault Document := do
  let doc ← doc.stamp v2
  doc.expand doc.nestingBound

end Document

def Document.load (bytes : ByteArray) (v2 : Bool) : Except Fault Document := do
  (Document.ofTree (← Tree.ofJsonBytes bytes)).prepare v2

end ApiRecords
