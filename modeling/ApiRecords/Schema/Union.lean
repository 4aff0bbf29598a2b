import ApiRecords.Document.Elements
import ApiRecords.Schema.Marker

/-!
Discriminated unions: named models, one of which each value of a property selects.
-/

namespace ApiRecords

structure Branch where
  name : Tree
  entityName : String
  /-- The reference that entries of an explicit mapping are matched against. -/
  ref : Tree
  schema : Value

structure Union where
  key : Option String
  propertyName : Tree
  /-- The schema that each value of the property selects. -/
  mapping : List (Scalar × String)
  branches : List Branch

namespace Union

def keyOf (number : Nat) : String := "oneOfSchema" ++ toString number

def modelNames (u : Union) : Except Fault (List Scalar) := do
  return distinctBy Scalar.same (← u.branches.mapM (·.name.key?))

end Union

namespace Graph

def branch (g : Graph) (property : Tree) (index : Nat) (v : Value) : Except Fault Branch := do
  let name := g.modelName v
  if !name.truthy then throw (.union (.unnamedBranch index property))
  if !(← g.identity v).isFound then throw (.union (.branchWithoutIdentity name property))
  return { name, entityName := ApiRecords.entityName name, ref := ← g.reference v, schema := v }

/-- The branches of the alternatives `vs`, the first of them having number `index`. -/
def branches (g : Graph) (property : Tree) (index : Nat) : List Value → Except Fault (List Branch)
  | [] => .ok []
  | v :: vs => do
    let b ← g.branch property index v
    return b :: (← g.branches property (index + 1) vs)

end Graph

/-- The schema that an entry of an explicit mapping selects: that of the one branch it refers to. -/
def entryTarget (branches : List Branch) (key : String) (ref : Tree) : Except Fault String :=
  match branches.filter fun b => b.ref.eq ref with
  | [b] => .ok b.entityName
  | found => .error (.union (.ambiguousEntry key ref found.length))

namespace Graph

/-- The mapping of a union: as its entries say, or each branch under its own name. -/
def unionMapping (g : Graph) (mapping : Value) (branches : List Branch) :
    Except Fault (List (Scalar × String)) :=
  if g.truthy mapping then
    match g.object? mapping with
    | none => .error .notMapping
    | some entries => entries.mapM fun (key, ref) => do
        return (.text key, ← entryTarget branches key (g.tree ref))
  else branches.foldlM (fun acc b => do return putBy Scalar.same (← b.name.key?) b.entityName acc) []

def require (g : Graph) (v : Value) (key : String) : Except Fault Value :=
  match g.object? v with
  | none => .error .notIndexable
  | some members =>
    match members.lookup key with
    | none => .error (.missingKey key)
    | some x => .ok x

def union (g : Graph) (v : Value) : Except Fault Union := do
  let discriminator ← g.require v "discriminator"
  let some _ := g.object? discriminator
    | throw (.union (.discriminatorNotMapping (g.tree discriminator)))
  let propertyName := ((g.member? discriminator "propertyName").map g.tree).getD (.text "")
  let alternatives ← g.elements (← g.require v "oneOf")
  let branches ← g.branches propertyName 0 alternatives
  let mapping ← g.unionMapping (g.get discriminator "mapping") branches
  return { key := none, propertyName, mapping, branches }

end Graph

end ApiRecords
