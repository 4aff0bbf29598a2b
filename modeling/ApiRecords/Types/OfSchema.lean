import ApiRecords.Document.Elements
import ApiRecords.Schema.Marker
import ApiRecords.Types.Primitive

/-!
The types of a property read off its schema and its relations.
-/

namespace ApiRecords.Graph

/-- The models named by alternatives, by reference before marker. What is no mapping, or has no name,
is left out. -/
def alternativeNames (g : Graph) : List Value → Except Fault (List Tree)
  | [] => .ok []
  | v :: vs => do
    match g.object? v with
    | none => g.alternativeNames vs
    | some _ =>
      let ref ← g.reference v
      let name ← if ref.truthy then (referenceName ref).map Tree.text else pure (g.modelName v)
      let names ← g.alternativeNames vs
      return if name.truthy then name :: names else names

def arrayType (g : Graph) (items : Value) : Except Fault TypePair := do
  let type := g.tree (g.get items "type")
  let listed ← g.listed (g.get items "enum")
  return {
    propType := "ImmutablePropTypes.listOf(" ++ (← declaredPropType type listed none none) ++ ")"
    flow := (← declaredFlow type listed none) ++ "[]" }

def objectType (g : Graph) (spell : String → String) (properties : List (String × Value)) :
    Except Fault TypePair := do
  let fields ← properties.mapM fun (key, v) => do
    let type := g.tree (g.get v "type")
    let listed ← g.listed (g.get v "enum")
    return (spell key, ← declaredPropType type listed none none, ← declaredFlow type listed none)
  let propTypes := fields.map fun (key, p, _) => (key, p)
  let flows := fields.map fun (key, _, f) => (key, f)
  return {
    propType := "ImmutablePropTypes.mapContains(" ++ compactObject (putMembers [] propTypes) ++ ")"
    flow := flowRecord (putMembers [] flows) }

def plainType (g : Graph) (spell : String → String) (v : Value) : Except Fault (Option TypePair) :=
  let type := g.get v "type"
  let items := g.get v "items"
  let properties := (g.object? (g.get v "properties")).getD []
  if type = .scalar (.text "array") ∧ (g.object? items).isSome ∧ g.truthy (g.get items "type") then
    (g.arrayType items).map some
  else if type = .scalar (.text "object") ∧ !properties.isEmpty then
    (g.objectType spell properties).map some
  else .ok none

/-- The models that a property refers to, as a type: by its alternatives, else by its relations. -/
def relatedExpr (g : Graph) (spell : String → String) (unions : List (String × List Tree)) (v : Value)
    (dependency : Tree) : Except Fault (Option TypeExpr) := do
  let alternativeNames ← g.alternativeNames ((g.array? (g.get v "oneOf")).getD [])
  if !alternativeNames.isEmpty then
    return some (← TypeExpr.ofNames alternativeNames)
  if dependency.truthy then
    return some (← TypeExpr.ofTree spell unions dependency)
  return none

/-- The type of a property: by the models it refers to, else by its declaration. -/
def relatedType (g : Graph) (spell : String → String) (unions : List (String × List Tree)) (v : Value)
    (dependency : Tree) : Except Fault (Option TypePair) := do
  match ← g.relatedExpr spell unions v dependency with
  | some e => return some e.pair
  | none => g.plainType spell v

end ApiRecords.Graph
