import ApiRecords.Model.Accessor
import ApiRecords.Model.Constant
import ApiRecords.Schema.Definitions
import ApiRecords.Schema.Findings
import ApiRecords.Types.OfSchema

/-!
Everything that the files of one model show, worked out from its schema.
-/

namespace ApiRecords

/-- What the blueprints of all models have in common. -/
structure Options where
  /-- How attribute names are written. -/
  attributeCase : String → String
  usePropTypes : Tree
  useFlow : Tree

structure Import where
  name : Tree
  entityName : String
  file : String

structure UnionEntry where
  key : String
  /-- Reads the property that tells the branches apart. -/
  accessor : String
  mapping : String

structure Property where
  name : String
  propertyName : String
  /-- A name under which it can also be read. -/
  otherName : Tree
  required : Bool
  type : Tree
  default : Tree
  defaultValue : String
  enum : Tree
  constants : Option (List Constant)
  propType : String
  flowType : String
  related : Option TypePair

namespace Property

def isEnum (p : Property) : Bool := p.enum.truthy

def isText (p : Property) : Bool := p.type.text? = some "string"

def enumType (p : Property) : Tree := valueTypeOf p.type

end Property

structure Blueprint where
  name : Tree
  fileName : String
  identity : String
  properties : List Property
  schema : Option String
  dependency : Option Dependency
  unionEntries : List UnionEntry
  unions : List Union
  imports : List Import
  options : Options

namespace Blueprint

/-- Names of all constants of the model, in the order of its properties. -/
def constantNames (d : Blueprint) : List String :=
  d.properties.flatMap fun p => (p.constants.getD []).map (·.name)

end Blueprint

def fileName (model : Tree) : String := Text.snakeCase model.display

/-- The imports with that of one more model, unless it is the own model or imported already. -/
def addImport (g : Graph) (own : Tree) (found : List (Scalar × Import)) (v : Value) :
    Except Fault (List (Scalar × Import)) := do
  let name := g.modelName v
  if name.eq own then return found
  let key ← name.key?
  if found.any fun (k, _) => Scalar.same k key then return found
  return found ++ [(key, ⟨name, entityName name, fileName name⟩)]

/-- The models that a file imports, each once, in the order in which they are met, its own model left
out. -/
def importsOf (g : Graph) (own : Tree) (models : List Value) : Except Fault (List Import) := do
  return (← models.foldlM (addImport g own) []).map (·.2)

namespace Graph

def property (g : Graph) (spell : String → String) (unions : List (String × List Tree))
    (key : String) (v : Value) (dependency : Option Dependency) : Except Fault Property := do
  let name := spell key
  let related ← g.relatedType spell unions v ((dependency.map Dependency.toTree).getD .null)
  let enum := g.get v "enum"
  let listed ← g.listed enum
  let constants ← Constant.ofListed g name (g.get v "x-enum-key-attributes") listed
  let type := g.tree (g.get v "type")
  let default := g.tree (g.get v "default")
  let propType ← declaredPropType type listed (constants.map (·.map (·.name))) related
  let flowType ← declaredFlow type listed related
  let defaultValue ← defaultExpr (constants.getD []) (type.text? = some "string") default
  return {
    name, propertyName := key, otherName := g.tree (g.get v "x-attribute-as")
    required := g.get v "required" = .scalar (.bool true)
    type, default, defaultValue, enum := g.tree enum, constants, propType, flowType, related }

end Graph

/-- A model as far as its relations: its properties with the required ones flagged, in a graph of
their own, and what they refer to. -/
structure Survey where
  graph : Graph
  identity : Tree
  properties : List (String × Value)
  findings : Findings

namespace Graph

def survey (g : Graph) (model : Value) (identity : Tree) : Except Fault Survey := do
  let (graph, properties) ← g.markRequired (g.get model "properties") (g.get model "required")
  let findings ← graph.findings 0 properties
  return { graph, identity, properties := (graph.object? properties).getD [], findings }

end Graph

namespace Survey

/-- The keys of the unions found, with the names of their branches. -/
def branchNames (s : Survey) : List (String × List Tree) :=
  s.findings.unions.map fun u => (u.key.getD "", u.branches.map (·.name))

def blueprint (s : Survey) (options : Options) (name : Tree) : Except Fault Blueprint := do
  let spell := options.attributeCase
  let dependency := s.findings.dependency
  let unions := s.findings.unions
  let identity ← accessor spell s.identity
  let properties ← s.properties.mapM fun (key, v) => do
    s.graph.property spell s.branchNames key v (← Dependency.property? dependency key)
  let schema ← (((dependency.map Dependency.toTree).getD .null).convertKeys spell).objectLiteral?
  let unionEntries ← unions.mapM fun u => do
    let accessor ← accessor spell u.propertyName
    let mapping := Tree.object (u.mapping.map fun (key, target) => (key.jsonKey, .text target))
    return { key := u.key.getD "", accessor, mapping := (← mapping.objectLiteral?).getD "" }
  let imports ← importsOf s.graph name s.findings.models
  return {
    name, fileName := fileName name, identity, properties, schema, dependency, unionEntries, unions,
    imports, options }

def summary (s : Survey) (name : Tree) : String :=
  name.display ++ ": " ++ toString s.findings.models.length ++ " model references, " ++
    toString s.findings.unions.length ++ " unions"

end Survey

namespace Graph

/-- The blueprint of a model, if its records are identified. -/
def blueprint (g : Graph) (options : Options) (name : Tree) (model : Value) :
    Except Fault (Option Blueprint) := do
  match ← g.identity model with
  | .found identity => return some (← (← g.survey model identity).blueprint options name)
  | _ => return none

end Graph

end ApiRecords
