import ApiRecords.Document.Elements
import ApiRecords.Document.Keys
import ApiRecords.Document.Pointer

/-!
What a schema says about itself: the model it stands for, the reference it came from, the attribute
that identifies its records, and which of its properties are required.
-/

namespace ApiRecords

def modelNameKey : String := "x-model-name"

def refKey : String := "$ref"

/-- Where a client that resolved the document kept the reference. -/
def clientRefKey : String := "$$ref"

/-- Where the reference is kept after its target took its place. -/
def keptRefKey : String := "x-original-ref"

def identityKey : String := "x-id-attribute"

def defaultIdentity : String := "id"

/-- Whether a record is found by a name, and by which. -/
inductive Identity where
  | found (name : Tree)
  | noProperties
  /-- The attribute named is not among the properties. -/
  | absent (name : Tree)

namespace Identity

/-- The attribute, null where the schema identifies no records. -/
def name : Identity → Tree
  | found t => t
  | _ => .null

def isFound : Identity → Bool
  | found _ => true
  | _ => false

def warning? (definition : Tree) : Identity → Option String
  | found _ => none
  | noProperties => some (definition.display ++ " is not a model definition")
  | absent t =>
    some (definition.display ++ " is not generated without id attribute " ++ t.shown)

end Identity

/-- Name of the schema object that stands for a model in generated code. -/
def entityName (model : Tree) : String := model.display ++ "Schema"

/-- The model name at the end of a reference. -/
def referenceName (ref : Tree) : Except Fault String :=
  match ref.text? with
  | none => .error .notText
  | some s => .ok ((Text.parts '/' (Text.trimEnd '/' s)).getLastD "")

namespace Graph

def modelName (g : Graph) (v : Value) : Tree := g.tree (g.get v modelNameKey)

/-- The reference of a schema: the first that is given of the three places that may hold it. -/
def reference (g : Graph) (v : Value) : Except Fault Tree :=
  match g.object? v with
  | none => .error .notMapping
  | some _ =>
    let plain := g.get v refKey
    let client := g.get v clientRefKey
    .ok (g.tree (if g.truthy plain then plain else if g.truthy client then client
      else g.get v keptRefKey))

/-- How the records of a schema are identified. A path, recognised by its dots, need not be a
property. -/
def identity (g : Graph) (v : Value) : Except Fault Identity := do
  let some _ := g.object? v | throw .notMapping
  let some properties := g.object? (g.get v "properties") | return .noProperties
  let given := g.get v identityKey
  let name := if g.truthy given then g.tree given else .text defaultIdentity
  if ← name.holds '.' then return .found name
  match ← name.key? with
  | .text s => return if (properties.lookup s).isSome then .found name else .absent name
  | _ => return .absent name

def standsForModel (g : Graph) (v : Value) : Except Fault Bool :=
  if (g.modelName v).truthy then return (← g.identity v).isFound else return false

/-- A key and a value out of the two parts of a value. -/
def pair (g : Graph) (v : Value) : Except Fault (Scalar × Value) := do
  match ← g.elements v with
  | [key, value] => return (← (g.tree key).key?, value)
  | _ => throw .notPair

/-- The members of a new mapping made of `v`: its own, or the pairs it lists. -/
def pairs (g : Graph) (v : Value) : Except Fault (List (String × Value)) :=
  match g.object? v with
  | some members => .ok members
  | none => do
    let members ← (← g.elements v).foldlM (fun acc item => do
      let (key, value) ← g.pair item
      return putBy Scalar.same key value acc) []
    return members.map fun (key, value) => (key.jsonKey, value)

def withRequiredFlag (g : Graph) (v : Value) : Graph × Value :=
  match g.object? v with
  | some members => g.add (.object (putMember "required" (.scalar (.bool true)) members))
  | none => (g, v)

/-- The properties with the flag set on each that `names` lists. -/
def flagRequired (names : List Value) (g : Graph) :
    List (String × Value) → Graph × List (String × Value)
  | [] => (g, [])
  | (key, v) :: rest =>
    let (g, v) :=
      if names.contains (.scalar (.text key)) then g.withRequiredFlag v else (g, v)
    let (g, rest) := flagRequired names g rest
    (g, (key, v) :: rest)

/-- A new mapping of the properties, those flagged that the list `required` names. Nothing that was
there before is changed. -/
def markRequired (g : Graph) (properties required : Value) : Except Fault (Graph × Value) :=
  match g.array? required with
  | none => do return g.add (.object (← g.pairs properties))
  | some names =>
    match g.object? properties with
    | none => .error .notMapping
    | some members =>
      let (g, members) := flagRequired names g members
      .ok (g.add (.object members))

end Graph

end ApiRecords
