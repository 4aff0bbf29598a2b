import ApiRecords.Proofs.FindingsReading
import ApiRecords.Proofs.Members
import ApiRecords.Proofs.Surveys

/-!
The models that the types of a file mention, against those that the file binds: its own and those it
imports. A type made of relations mentions models that were found below the properties, which are
imported. Alternatives are named by their references, and whether those are found has to be asked.
-/

namespace ApiRecords

/-- Whether names that count as the same are shown alike. -/
def ShownAlike (names : List Tree) : Prop :=
  ∀ a ∈ names, ∀ b ∈ names, a.same b → a.display = b.display

theorem same_text {a : Tree} {s : String} (h : a.same (.text s)) : a = .text s := by
  cases a with
  | scalar a => cases a <;> simp_all [Tree.same, Scalar.same, Scalar.eq, Scalar.whole?]
  | _ => simp [Tree.same] at h

theorem shownAlike_texts {names : List Tree} (h : ∀ t ∈ names, ∃ s, t = .text s) :
    ShownAlike names := by
  intro a _ b hb hsame
  obtain ⟨s, rfl⟩ := h b hb
  rw [same_text hsame]

namespace TypeExpr

mutual

def names : TypeExpr → List String
  | model name => [name]
  | union names => names
  | list e => e.names
  | record fields => fieldNames fields

def fieldNames : List (String × TypeExpr) → List String
  | [] => []
  | (_, e) :: es => e.names ++ fieldNames es

end

theorem mem_fieldNames {fields : List (String × TypeExpr)} {name : String} :
    name ∈ fieldNames fields ↔ ∃ field ∈ fields, name ∈ field.2.names := by
  induction fields with
  | nil => simp [fieldNames]
  | cons field fields ih => simp [fieldNames, ih]

theorem forall₂_key {trees : List Tree} {keys : List Scalar}
    (h : List.Forall₂ (fun t key => t.key? = .ok key) trees keys) : trees = keys.map .scalar := by
  induction h with
  | nil => rfl
  | @cons t key _ _ hkey _ ih =>
    cases t with
    | scalar s => cases hkey; rw [ih, List.map_cons]
    | _ => cases hkey

theorem forall₂_joinable {keys : List Scalar} {texts : List String}
    (h : List.Forall₂ (fun key s => joinable key = .ok s) keys texts) : keys = texts.map .text := by
  induction h with
  | nil => rfl
  | @cons key s _ _ hkey _ ih =>
    cases key with
    | text t => cases hkey; rw [ih, List.map_cons]
    | _ => cases hkey

theorem ofNames_names {trees : List Tree} {e : TypeExpr} (h : ofNames trees = .ok e) (name : String) :
    name ∈ e.names ↔ .text name ∈ trees := by
  simp only [ofNames, bind_ok_iff, pure_ok_iff, mapM_ok_iff] at h
  obtain ⟨keys, hkeys, texts, htexts, rfl⟩ := h
  obtain rfl := forall₂_key hkeys
  have htexts := forall₂_joinable htexts
  have hmem : name ∈ texts ↔ .text name ∈ distinctBy Scalar.same keys := by simp [htexts]
  have hkeep : .text name ∈ distinctBy Scalar.same keys ↔ .text name ∈ keys := by
    refine ⟨mem_of_mem_distinctBy, fun h => ?_⟩
    have hrefl : Scalar.same (.text name) (.text name) := by
      simp [Scalar.same, Scalar.eq, Scalar.whole?]
    obtain ⟨key, hkey, hsame⟩ := exists_same_mem_distinctBy hrefl h
    obtain rfl : key = .text name := Tree.scalar.inj (same_text hsame)
    exact hkey
  simp [names, hmem, hkeep]

end TypeExpr

/-- Whether a leaf of the relations stands for a model of this name: a key for each branch of its
union, the name of a schema object for one model. -/
def StandsFor (unions : List (String × List Tree)) (leaf name : String) : Prop :=
  match unions.lookup leaf with
  | some names => .text name ∈ names
  | none => name = modelOfEntity leaf

namespace Dependency

theorem mem_memberLeaves {members : List (String × Dependency)} {leaf : String} :
    leaf ∈ memberLeaves members ↔ ∃ m ∈ members, leaf ∈ m.2.leaves := by
  induction members with
  | nil => simp [memberLeaves]
  | cons m members ih => simp [memberLeaves, ih]

variable {spell : String → String} {unions : List (String × List Tree)}

mutual

theorem names_ofTree {e : TypeExpr} {name : String} : (d : Dependency) →
    TypeExpr.ofTree spell unions d.toTree = .ok e → name ∈ e.names →
      ∃ leaf ∈ d.leaves, StandsFor unions leaf name
  | leaf l, h, hname => by
    refine ⟨l, by simp [leaves], ?_⟩
    simp only [toTree, Tree.text, TypeExpr.ofTree] at h
    unfold StandsFor
    cases hl : unions.lookup l with
    | none =>
      simp only [hl, Except.ok.injEq] at h
      subst h
      simpa [TypeExpr.names] using hname
    | some names =>
      simp only [hl] at h
      exact (TypeExpr.ofNames_names h name).mp hname
  | list d, h, hname => by
    simp only [toTree, TypeExpr.ofTree, bind_ok_iff, pure_ok_iff] at h
    obtain ⟨e', he', rfl⟩ := h
    exact names_ofTree d he' hname
  | shape members, h, hname => by
    simp only [toTree, TypeExpr.ofTree, bind_ok_iff, pure_ok_iff] at h
    obtain ⟨fields, hfields, rfl⟩ := h
    obtain ⟨field, hfield, hname⟩ := TypeExpr.mem_fieldNames.mp hname
    obtain ⟨field', hfield', heq⟩ := (mem_putMembers hfield).resolve_left List.not_mem_nil
    exact names_ofMembers members hfields field' hfield' (heq ▸ hname)

theorem names_ofMembers {fields : List (String × TypeExpr)} {name : String} :
    (members : List (String × Dependency)) →
    TypeExpr.ofMembers spell unions (membersToTree members) = .ok fields →
    ∀ field ∈ fields, name ∈ field.2.names →
      ∃ leaf ∈ memberLeaves members, StandsFor unions leaf name
  | [], h, field, hfield, _ => by
    obtain rfl : [] = fields := by simpa [membersToTree, TypeExpr.ofMembers] using h
    exact absurd hfield List.not_mem_nil
  | (key, d) :: rest, h, field, hfield, hname => by
    simp only [membersToTree, TypeExpr.ofMembers, bind_ok_iff, pure_ok_iff] at h
    obtain ⟨e, he, es, hes, rfl⟩ := h
    simp only [memberLeaves, List.mem_append]
    rcases List.mem_cons.mp hfield with rfl | hfield
    · obtain ⟨leaf, hleaf, hstands⟩ := names_ofTree d he hname
      exact ⟨leaf, .inl hleaf, hstands⟩
    · obtain ⟨leaf, hleaf, hstands⟩ := names_ofMembers rest hes field hfield hname
      exact ⟨leaf, .inr hleaf, hstands⟩

end

end Dependency

/-! ### Imports -/

theorem key?_eq_ok {t : Tree} {key : Scalar} (h : t.key? = .ok key) : t = .scalar key := by
  cases t with
  | scalar s => cases h; rfl
  | _ => cases h

theorem same_of_eq {a b : Tree} (h : a.eq b) : a.same b := by
  cases a with
  | scalar a =>
    cases b with
    | scalar b => simp_all [Tree.eq, Tree.same, Scalar.same]
    | _ => simp_all [Tree.eq]
  | _ => simpa [Tree.eq] using h

/-- The imports collected from `models`: each is of one of them, and each of them is the own model,
imported, or the same as one imported. -/
structure Collected (g : Graph) (own : Tree) (models : List Value) (found : List (Scalar × Import)) :
    Prop where
  imported : ∀ entry ∈ found, entry.2.name = .scalar entry.1 ∧
    ∃ m ∈ models, entry.2.name = g.modelName m
  covered : ∀ m ∈ models, (g.modelName m).same own ∨
    ∃ entry ∈ found, entry.2.name = g.modelName m ∨ entry.2.name.same (g.modelName m)

variable {g : Graph} {own : Tree}

theorem Collected.addImport {models : List Value} {found found' : List (Scalar × Import)} {m : Value}
    (h : Collected g own models found) (hadd : addImport g own found m = .ok found') :
    Collected g own (models ++ [m]) found' := by
  have himported : ∀ entry ∈ found, entry.2.name = .scalar entry.1 ∧
      ∃ m' ∈ models ++ [m], entry.2.name = g.modelName m' := by
    intro entry hentry
    obtain ⟨hscalar, m', hm', hname⟩ := h.imported entry hentry
    exact ⟨hscalar, m', List.mem_append_left _ hm', hname⟩
  simp only [ApiRecords.addImport] at hadd
  split at hadd
  · rename_i hown
    obtain rfl := (pure_ok_iff _ _).mp hadd
    refine ⟨himported, List.forall_mem_append.mpr ⟨h.covered, List.forall_mem_singleton.mpr ?_⟩⟩
    exact .inl (same_of_eq hown)
  · simp only [bind_ok_iff] at hadd
    obtain ⟨key, hkey, hadd⟩ := hadd
    have hkey := key?_eq_ok hkey
    split at hadd
    · rename_i hany
      obtain rfl := (pure_ok_iff _ _).mp hadd
      refine ⟨himported, List.forall_mem_append.mpr ⟨h.covered, List.forall_mem_singleton.mpr ?_⟩⟩
      obtain ⟨entry, hentry, hsame⟩ := List.any_eq_true.mp hany
      refine .inr ⟨entry, hentry, .inr ?_⟩
      rw [(h.imported entry hentry).1, hkey]
      simpa [Tree.same] using hsame
    · obtain rfl := (pure_ok_iff _ _).mp hadd
      refine ⟨List.forall_mem_append.mpr ⟨himported, List.forall_mem_singleton.mpr ?_⟩,
        List.forall_mem_append.mpr ⟨?_, List.forall_mem_singleton.mpr ?_⟩⟩
      · exact ⟨hkey, m, by simp, rfl⟩
      · intro m' hm'
        refine (h.covered m' hm').imp_right ?_
        rintro ⟨entry, hentry, hname⟩
        exact ⟨entry, List.mem_append_left _ hentry, hname⟩
      · exact .inr ⟨_, List.mem_append_right _ List.mem_cons_self, .inl rfl⟩

theorem importsOf_collected {models : List Value} {imports : List Import}
    (h : importsOf g own models = .ok imports) :
    ∃ found, Collected g own models found ∧ imports = found.map (·.2) := by
  simp only [importsOf, bind_ok_iff, pure_ok_iff] at h
  obtain ⟨found, hfound, rfl⟩ := h
  have hstart : Collected g own [] [] := ⟨by simp, by simp⟩
  exact ⟨found, foldlM_ok_invariant (fun _ _ _ _ => Collected.addImport) hstart hfound, rfl⟩

/-- A file binds the names of the models it imports from, and of its own. -/
theorem importsOf_binds {models : List Value} {imports : List Import}
    (h : importsOf g own models = .ok imports)
    (hshown : ShownAlike (own :: models.map g.modelName)) (name : String) :
    (name = own.display ∨ ∃ i ∈ imports, name = i.name.display) ↔
      (name = own.display ∨ ∃ m ∈ models, name = (g.modelName m).display) := by
  obtain ⟨found, hfound, rfl⟩ := importsOf_collected h
  have hmodel : ∀ m ∈ models, g.modelName m ∈ own :: models.map g.modelName :=
    fun m hm => List.mem_cons_of_mem _ (List.mem_map_of_mem hm)
  constructor
  · rintro (hname | ⟨i, hi, rfl⟩)
    · exact .inl hname
    · obtain ⟨entry, hentry, rfl⟩ := List.mem_map.mp hi
      obtain ⟨-, m, hm, hname⟩ := hfound.imported entry hentry
      exact .inr ⟨m, hm, congrArg Tree.display hname⟩
  · rintro (hname | ⟨m, hm, rfl⟩)
    · exact .inl hname
    · rcases hfound.covered m hm with hown | ⟨entry, hentry, hname | hsame⟩
      · exact .inl (hshown _ (hmodel m hm) _ List.mem_cons_self hown)
      · exact .inr ⟨entry.2, List.mem_map_of_mem hentry, congrArg Tree.display hname.symm⟩
      · obtain ⟨-, m', hm', hname⟩ := hfound.imported entry hentry
        refine .inr ⟨entry.2, List.mem_map_of_mem hentry, ?_⟩
        rw [hname] at hsame ⊢
        exact (hshown _ (hmodel m' hm') _ (hmodel m hm) hsame).symm

/-! ### The types of a model -/

@[simp] theorem modelOfEntity_entityName (model : Tree) :
    modelOfEntity (entityName model) = model.display :=
  Text.dropSuffix_append _ _

namespace Survey

variable {s : Survey}

/-- What a leaf of the relations stands for was found. -/
theorem standsFor_found {offset : Nat}
    (h : Reading s.graph offset s.findings.leaves s.findings.models s.findings.unions)
    {leaf name : String} (hleaf : leaf ∈ s.findings.leaves)
    (hstands : StandsFor s.branchNames leaf name) :
    ∃ m ∈ s.findings.models, name = (s.graph.modelName m).display := by
  unfold StandsFor at hstands
  cases hlookup : s.branchNames.lookup leaf with
  | some names =>
    rw [hlookup] at hstands
    obtain ⟨u, hu, heq⟩ := List.mem_map.mp (mem_of_lookup hlookup)
    obtain ⟨-, rfl⟩ := Prod.mk.inj heq
    obtain ⟨b, hb, hname⟩ := List.mem_map.mp hstands
    obtain ⟨hfound, hschema, -⟩ := h.branch_found hu hb
    exact ⟨b.schema, hfound, by rw [← hschema, hname, Tree.display_text]⟩
  | none =>
    rw [hlookup] at hstands
    rcases h.leaf_cases hleaf with ⟨m, hm, rfl⟩ | ⟨u, hu, hkey⟩
    · exact ⟨m, hm, by rw [hstands, modelOfEntity_entityName]⟩
    · have hmem : (leaf, u.branches.map (·.name)) ∈ s.branchNames :=
        List.mem_map.mpr ⟨u, hu, by rw [hkey, Option.getD_some]⟩
      have hne := List.lookup_eq_none_iff.mp hlookup _ hmem
      simp at hne

/-- The type by which a property refers to models, if it does. -/
def typeExpr (s : Survey) (spell : String → String) (property : String × Value) :
    Except Fault (Option TypeExpr) := do
  let dependency ← Dependency.property? s.findings.dependency property.1
  s.graph.relatedExpr spell s.branchNames property.2
    ((dependency.map Dependency.toTree).getD .null)

/-- The alternatives that a property gives, as they are named. -/
def alternativeNames (s : Survey) (property : String × Value) : Except Fault (List Tree) :=
  s.graph.alternativeNames ((s.graph.array? (s.graph.get property.2 "oneOf")).getD [])

theorem leaves_property {key : String} {dependency : Dependency}
    (h : Dependency.property? s.findings.dependency key = .ok (some dependency)) :
    ∀ leaf ∈ dependency.leaves, leaf ∈ s.findings.leaves := by
  unfold Findings.leaves
  cases hd : s.findings.dependency with
  | none => simp [hd, Dependency.property?] at h
  | some whole =>
    cases whole with
    | leaf _ => simp [hd, Dependency.property?] at h
    | list _ => simp [hd, Dependency.property?] at h
    | shape members =>
      have hlookup : members.lookup key = some dependency := by
        simpa [hd, Dependency.property?] using h
      intro leaf hleaf
      exact Dependency.mem_memberLeaves.mpr ⟨(key, dependency), mem_of_lookup hlookup, hleaf⟩

/-- A type is made of the alternatives, where there are any, or else of the relations. -/
theorem typeExpr_some {spell : String → String} {property : String × Value} {e : TypeExpr}
    (h : s.typeExpr spell property = .ok (some e)) :
    (∃ trees, s.alternativeNames property = .ok trees ∧ TypeExpr.ofNames trees = .ok e) ∨
      ∃ dependency, Dependency.property? s.findings.dependency property.1 = .ok (some dependency) ∧
        TypeExpr.ofTree spell s.branchNames dependency.toTree = .ok e := by
  simp only [typeExpr, Graph.relatedExpr, bind_ok_iff] at h
  obtain ⟨dependency, hdependency, trees, htrees, h⟩ := h
  split at h
  · simp only [bind_ok_iff, pure_ok_iff, Option.some.injEq] at h
    obtain ⟨e', he', rfl⟩ := h
    exact .inl ⟨trees, htrees, he'⟩
  · split at h
    · simp only [bind_ok_iff, pure_ok_iff, Option.some.injEq] at h
      obtain ⟨e', he', rfl⟩ := h
      cases dependency with
      | none => simp [Tree.truthy, Tree.null, Scalar.truthy] at *
      | some dependency => exact .inr ⟨dependency, hdependency, he'⟩
    · simp at h

/-- Where a property has alternatives, its type is made of them. -/
theorem typeExpr_of_alternatives {spell : String → String} {property : String × Value} {e? : Option TypeExpr}
    {trees : List Tree} (h : s.typeExpr spell property = .ok e?)
    (htrees : s.alternativeNames property = .ok trees) (hne : trees ≠ []) :
    ∃ e, e? = some e ∧ TypeExpr.ofNames trees = .ok e := by
  simp only [typeExpr, Graph.relatedExpr, bind_ok_iff] at h
  obtain ⟨dependency, -, trees', htrees', h⟩ := h
  obtain rfl : trees' = trees := by
    rw [alternativeNames, htrees'] at htrees
    exact Except.ok.inj htrees
  rw [if_pos (by simpa using hne)] at h
  simp only [bind_ok_iff, pure_ok_iff] at h
  obtain ⟨e, he, rfl⟩ := h
  exact ⟨e, rfl, he⟩

/-- The type of a property in a file: made of models, or else read off its declaration. -/
def TypedBy (s : Survey) (spell : String → String) (property : String × Value) (p : Property) :
    Prop :=
  p.propertyName = property.1 ∧
    ((∃ e, s.typeExpr spell property = .ok (some e) ∧ p.related = some e.pair) ∨
      s.typeExpr spell property = .ok none ∧ s.graph.plainType spell property.2 = .ok p.related)

theorem property_typedBy {spell : String → String} {key : String} {v : Value} {p : Property}
    {dependency : Option Dependency}
    (hdependency : Dependency.property? s.findings.dependency key = .ok dependency)
    (h : s.graph.property spell s.branchNames key v dependency = .ok p) :
    s.TypedBy spell (key, v) p := by
  obtain ⟨listing, hp⟩ := Graph.projects h
  obtain ⟨e?, he?, hrelated⟩ := (bind_ok_iff ..).mp hp.related
  have htype : s.typeExpr spell (key, v) = .ok e? := by
    simp only [typeExpr, bind_ok_iff]
    exact ⟨dependency, hdependency, he?⟩
  refine ⟨hp.propertyName, ?_⟩
  cases e? with
  | none => exact .inr ⟨htype, hrelated⟩
  | some e => exact .inl ⟨e, htype, by simpa using hrelated⟩

theorem Describes.typedBy {options : Options} {name : Tree} {d : Blueprint}
    (h : s.Describes options name d) :
    List.Forall₂ (s.TypedBy options.attributeCase) s.properties d.properties := by
  refine h.properties.imp ?_
  rintro ⟨key, v⟩ p ⟨dependency, hdependency, hp⟩
  exact property_typedBy hdependency hp

end Survey

theorem Graph.survey_reading {model : Value} {identity : Tree} {s : Survey}
    (h : g.survey model identity = .ok s) :
    Reading s.graph 0 s.findings.leaves s.findings.models s.findings.unions := by
  obtain ⟨graph, properties, found, -, hfound, rfl⟩ := survey_ok h
  exact (findFrom_sound hfound).reading

/-- Whether a file can use the name of a model: its own, or one that it imports. -/
def Blueprint.Binds (d : Blueprint) (name : String) : Prop :=
  name = d.name.display ∨ ∃ i ∈ d.imports, name = i.name.display

namespace Survey

/-- Every model that the type of a property mentions is bound in the file. -/
def NamesBound (s : Survey) (d : Blueprint) : Prop :=
  ∀ property ∈ s.properties, ∀ e, s.typeExpr d.options.attributeCase property = .ok (some e) →
    ∀ name ∈ e.names, d.Binds name

/-- Every model that an alternative of a property names is the own one or was found below the
properties. -/
def AlternativesFound (s : Survey) (own : Tree) : Prop :=
  ∀ property ∈ s.properties, ∀ trees, s.alternativeNames property = .ok trees →
    ∀ name, .text name ∈ trees →
      name = own.display ∨ ∃ m ∈ s.findings.models, name = (s.graph.modelName m).display

theorem namesBound_iff {s : Survey} {options : Options} {name : Tree} {d : Blueprint}
    (hreading : Reading s.graph 0 s.findings.leaves s.findings.models s.findings.unions)
    (hd : s.blueprint options name = .ok d)
    (hshown : ShownAlike (name :: s.findings.models.map s.graph.modelName)) :
    s.NamesBound d ↔ s.AlternativesFound name := by
  have hd := describes hd
  obtain rfl := hd.name
  obtain rfl := hd.options
  have hbinds : ∀ x, d.Binds x ↔ x = d.name.display ∨
      ∃ m ∈ s.findings.models, x = (s.graph.modelName m).display :=
    importsOf_binds hd.imports hshown
  constructor
  · intro hbound property hproperty trees htrees x hx
    obtain ⟨p, -, hp⟩ := exists_of_forall₂ hd.typedBy property hproperty
    obtain ⟨e?, he?⟩ : ∃ e?, s.typeExpr d.options.attributeCase property = .ok e? := by
      rcases hp with ⟨e, he, -⟩ | ⟨he, -⟩
      · exact ⟨some e, he⟩
      · exact ⟨none, he⟩
    obtain ⟨e, rfl, he⟩ := typeExpr_of_alternatives he? htrees (List.ne_nil_of_mem hx)
    exact (hbinds x).mp (hbound property hproperty e he? x ((TypeExpr.ofNames_names he x).mpr hx))
  · intro hfound property hproperty e he x hx
    rw [hbinds]
    rcases typeExpr_some he with ⟨trees, htrees, he⟩ | ⟨dependency, hdependency, he⟩
    · exact hfound property hproperty trees htrees x ((TypeExpr.ofNames_names he x).mp hx)
    · obtain ⟨leaf, hleaf, hstands⟩ := Dependency.names_ofTree dependency he hx
      exact .inr (standsFor_found hreading (leaves_property hdependency leaf hleaf) hstands)

end Survey

/-- The types of a model's properties mention bound models just when every alternative names one that
was found. Types made of relations always do. -/
theorem blueprint_names_bound_iff {options : Options} {name : Tree} {model : Value} {d : Blueprint}
    (h : g.blueprint options name model = .ok (some d)) :
    ∃ identity s, g.identity model = .ok (.found identity) ∧ g.survey model identity = .ok s ∧
      List.Forall₂ (s.TypedBy options.attributeCase) s.properties d.properties ∧
      (ShownAlike (name :: s.findings.models.map s.graph.modelName) →
        (s.NamesBound d ↔ s.AlternativesFound name)) := by
  obtain ⟨identity, s, hidentity, hs, hd⟩ := Graph.survey_of_blueprint h
  exact ⟨identity, s, hidentity, hs, (Survey.describes hd).typedBy,
    Survey.namesBound_iff (Graph.survey_reading hs) hd⟩

/-- A model with one alternative, which is a model named otherwise than its reference. -/
def petWithAlternative (name : String) : Document := .ofTree (.object [
  ("properties", .object [
    ("id", .object []),
    ("kind", .object [
      ("oneOf", .array [.object [
        ("x-model-name", .text name),
        ("properties", .object [("id", .object [])]),
        ("x-original-ref", .text "#/components/schemas/Animal")]])])])])

def plainOptions : Options := ⟨Case.plain, .bool true, .bool false⟩

theorem blueprint_names_bound_animal : ∃ d s,
    (petWithAlternative "Animal").graph.blueprint plainOptions (.text "Pet")
        (petWithAlternative "Animal").root = .ok (some d) ∧
      (petWithAlternative "Animal").graph.survey (petWithAlternative "Animal").root
        (.text "id") = .ok s ∧
      s.NamesBound d := by
  obtain ⟨d, hd⟩ : ∃ d, (petWithAlternative "Animal").graph.blueprint plainOptions (.text "Pet")
      (petWithAlternative "Animal").root = .ok (some d) := ⟨_, rfl⟩
  obtain ⟨identity, s, hidentity, hs, -, hiff⟩ := blueprint_names_bound_iff hd
  obtain rfl : .text "id" = identity := Identity.found.inj (Except.ok.inj hidentity)
  refine ⟨d, s, hd, hs, ?_⟩
  obtain rfl := Except.ok.inj hs
  refine (hiff (shownAlike_texts ?_)).mpr ?_
  · intro t ht
    rcases List.mem_cons.mp ht with rfl | ht
    · exact ⟨"Pet", rfl⟩
    · obtain ⟨m, hm, rfl⟩ := List.mem_map.mp ht
      obtain rfl := List.mem_singleton.mp hm
      exact ⟨"Animal", rfl⟩
  · intro property hproperty trees htrees name hname
    rcases List.mem_cons.mp hproperty with rfl | hproperty
    · obtain rfl := Except.ok.inj htrees
      exact absurd hname List.not_mem_nil
    · obtain rfl := List.mem_singleton.mp hproperty
      obtain rfl := Except.ok.inj htrees
      obtain rfl : name = "Animal" :=
        Scalar.text.inj (Tree.scalar.inj (List.mem_singleton.mp hname))
      exact .inr ⟨_, List.mem_singleton_self _, rfl⟩

/-- The type of the property names `Animal`, and the file imports `Creature`. -/
theorem alternative_unbound : ∃ d s,
    (petWithAlternative "Creature").graph.blueprint plainOptions (.text "Pet")
        (petWithAlternative "Creature").root = .ok (some d) ∧
      (petWithAlternative "Creature").graph.survey (petWithAlternative "Creature").root
        (.text "id") = .ok s ∧
      ¬ s.NamesBound d := by
  refine ⟨_, _, rfl, rfl, ?_⟩
  intro h
  have hbinds := h ("kind", .node 3) (List.mem_cons_of_mem _ List.mem_cons_self)
    (.union ["Animal"]) rfl "Animal" List.mem_cons_self
  rcases hbinds with hown | ⟨i, hi, himport⟩
  · exact absurd hown (by decide)
  · rw [List.mem_singleton.mp hi] at himport
    exact absurd himport (by decide)

end ApiRecords
