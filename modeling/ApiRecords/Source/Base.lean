import ApiRecords.Model.Blueprint
import ApiRecords.Source.Head

/-!
The base file of a model: its entity schema, its types and constants, and a record class.
-/

namespace ApiRecords.Source

def propTypeName (model : Tree) : String := model.display ++ "PropType"

def className (model : Tree) : String := model.display ++ "Base"

section

variable (d : Blueprint)

def importItem (i : Import) : Item :=
  .importNames
    ([i.entityName] ++
      (if d.options.usePropTypes.truthy then [propTypeName i.name] else []) ++
      (if d.options.useFlow.truthy then ["type " ++ i.name.display] else []))
    ("./" ++ i.file)

def constantItems : List Item :=
  d.properties.flatMap fun p =>
    match p.constants with
    | some (c :: cs) => .blank :: (c :: cs).map fun c => .exportConst c.name c.literal
    | _ => []

def entityItem : Item :=
  .exportConst (entityName d.name)
    ("new schema.Entity('" ++ d.name.display ++ "', \x7b\x7d, \x7b idAttribute: " ++ d.identity ++
      " \x7d)")

def unionItems (templates : Templates) : List Item :=
  d.unionEntries.flatMap fun u =>
    templates.fill .unionEntry
      [.const u.key ("new schema.Union(" ++ u.mapping ++ ", " ++ u.accessor ++ ")")]

def dependencyItems (templates : Templates) : List Item :=
  templates.fill .dependency
    (d.schema.map fun s => .statement (entityName d.name ++ ".define(" ++ s ++ ")")).toList

def propTypeItems : List Item :=
  if d.options.usePropTypes.truthy then
    [.blank, .exportConst (propTypeName d.name)
      ("ImmutablePropTypes.recordOf(" ++
        fieldLines (d.properties.map fun p =>
          (p.name, p.propType ++ if p.required then ".isRequired" else "")) ++ ")")]
  else []

def flowItems : List Item :=
  if d.options.useFlow.truthy then
    [.blank, .exportType d.name.display
      (fieldLines (d.properties.map fun p =>
        (p.name ++ (if p.required then "" else "?"), p.flowType)))]
  else []

def getters : List Getter :=
  [⟨true, "schema", entityName d.name⟩] ++
    (if d.options.usePropTypes.truthy then [⟨true, "propTypes", propTypeName d.name⟩] else []) ++
    (d.properties.filter (·.otherName.truthy)).map fun p =>
      ⟨false, p.otherName.display, "this.get('" ++ p.name ++ "')"⟩

def base (templates : Templates) (date : Option String) : List Item :=
  templates.fill .model (
    (if d.options.useFlow.truthy then [.comment "// @flow"] else []) ++
    head templates date ++
    [.importNames ["schema"] "normalizr", .importNames ["Record"] "immutable"] ++
    (if d.options.usePropTypes.truthy then
      [.importDefault "PropTypes" "prop-types",
       .importDefault "ImmutablePropTypes" "react-immutable-proptypes"]
    else []) ++
    d.imports.map (importItem d) ++
    constantItems d ++
    [.blank, entityItem d] ++
    unionItems d templates ++
    dependencyItems d templates ++
    propTypeItems d ++
    flowItems d ++
    [.blank, .const "defaultValues" (fieldLines (d.properties.map fun p => (p.name, p.defaultValue))),
     .blank, .exportClass (className d.name) "Record(defaultValues)" (getters d)])

end

end ApiRecords.Source
