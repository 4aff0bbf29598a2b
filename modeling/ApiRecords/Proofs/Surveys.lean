import ApiRecords.Model.Blueprint
import ApiRecords.Proofs.Outcome

/-!
What properties, surveys and blueprints are made of, part by part. What is proved of the parts of a
generated file starts here.
-/

namespace ApiRecords

/-- The parts of a property, each with what of its schema it is made from. `listing` are the values that
the schema lists. -/
structure Graph.Projects (g : Graph) (spell : String → String) (unions : List (String × List Tree))
    (key : String) (v : Value) (dependency : Option Dependency) (listing : Option (List Tree))
    (p : Property) : Prop where
  name : p.name = spell key
  propertyName : p.propertyName = key
  otherName : p.otherName = g.tree (g.get v "x-attribute-as")
  required : p.required ↔ g.get v "required" = .scalar (.bool true)
  type : p.type = g.tree (g.get v "type")
  default : p.default = g.tree (g.get v "default")
  enum : p.enum = g.tree (g.get v "enum")
  related : g.relatedType spell unions v ((dependency.map Dependency.toTree).getD .null) = .ok p.related
  listed : g.listed (g.get v "enum") = .ok listing
  constants : Constant.ofListed g (spell key) (g.get v "x-enum-key-attributes") listing = .ok p.constants
  propType :
    declaredPropType p.type listing (p.constants.map (·.map (·.name))) p.related = .ok p.propType
  flowType : declaredFlow p.type listing p.related = .ok p.flowType
  defaultValue : defaultExpr (p.constants.getD []) p.isText p.default = .ok p.defaultValue

theorem Graph.projects {g : Graph} {spell : String → String} {unions : List (String × List Tree)}
    {key : String} {v : Value} {dependency : Option Dependency} {p : Property}
    (h : g.property spell unions key v dependency = .ok p) :
    ∃ listing, g.Projects spell unions key v dependency listing p := by
  simp only [property, bind_ok_iff, pure_ok_iff] at h
  obtain ⟨related, hrelated, listing, hlisting, constants, hconstants, propType, hprop, flow, hflow,
    value, hvalue, rfl⟩ := h
  exact ⟨listing, rfl, rfl, rfl, decide_eq_true_iff, rfl, rfl, rfl, hrelated, hlisting, hconstants,
    hprop, hflow, hvalue⟩

/-- The parts of a blueprint, each with what of the survey it is made from. -/
structure Survey.Describes (s : Survey) (settings : Options) (own : Tree) (d : Blueprint) : Prop where
  name : d.name = own
  fileName : d.fileName = ApiRecords.fileName own
  options : d.options = settings
  dependency : d.dependency = s.findings.dependency
  unions : d.unions = s.findings.unions
  identity : accessor settings.attributeCase s.identity = .ok d.identity
  properties : List.Forall₂ (fun property p => ∃ dependency,
    Dependency.property? s.findings.dependency property.1 = .ok dependency ∧
      s.graph.property settings.attributeCase s.branchNames property.1 property.2 dependency = .ok p)
    s.properties d.properties
  schema : (((d.dependency.map Dependency.toTree).getD .null).convertKeys
    settings.attributeCase).objectLiteral? = .ok d.schema
  unionEntries : List.Forall₂ (fun u e => e.key = u.key.getD "" ∧
    accessor settings.attributeCase u.propertyName = .ok e.accessor ∧
      ∃ text, (Tree.object (u.mapping.map fun (key, target) =>
        (key.jsonKey, .text target))).objectLiteral? = .ok text ∧ e.mapping = text.getD "")
    s.findings.unions d.unionEntries
  imports : importsOf s.graph own s.findings.models = .ok d.imports

theorem Survey.describes {s : Survey} {options : Options} {name : Tree} {d : Blueprint}
    (h : s.blueprint options name = .ok d) : s.Describes options name d := by
  simp only [blueprint, bind_ok_iff, pure_ok_iff, mapM_ok_iff] at h
  obtain ⟨identity, hidentity, properties, hproperties, schema, hschema, entries, hentries, imports,
    himports, rfl⟩ := h
  refine ⟨rfl, rfl, rfl, rfl, rfl, hidentity, hproperties, hschema, hentries.imp fun u e he => ?_,
    himports⟩
  obtain ⟨accessor, haccessor, text, htext, rfl⟩ := he
  exact ⟨rfl, haccessor, text, htext, rfl⟩

namespace Graph

variable {g : Graph} {model : Value}

/-- The steps of a survey. -/
theorem survey_ok {identity : Tree} {s : Survey} (h : g.survey model identity = .ok s) :
    ∃ graph properties found,
      g.markRequired (g.get model "properties") (g.get model "required") = .ok (graph, properties) ∧
        graph.findings 0 properties = .ok found ∧
        s = ⟨graph, identity, (graph.object? properties).getD [], found⟩ := by
  simp only [survey, bind_ok_iff, pure_ok_iff] at h
  obtain ⟨⟨graph, properties⟩, hmark, found, hfound, rfl⟩ := h
  exact ⟨graph, properties, found, hmark, hfound, rfl⟩

/-- What a blueprint is made from. -/
theorem survey_of_blueprint {options : Options} {name : Tree} {d : Blueprint}
    (h : g.blueprint options name model = .ok (some d)) :
    ∃ identity s, g.identity model = .ok (.found identity) ∧ g.survey model identity = .ok s ∧
      s.blueprint options name = .ok d := by
  simp only [blueprint, bind_ok_iff] at h
  obtain ⟨identity, hidentity, h⟩ := h
  cases identity with
  | found identity =>
    simp only [bind_ok_iff, pure_ok_iff, Option.some.injEq] at h
    obtain ⟨s, hs, _, hd, rfl⟩ := h
    exact ⟨identity, s, hidentity, hs, hd⟩
  | noProperties | absent _ => cases h

end Graph

end ApiRecords
