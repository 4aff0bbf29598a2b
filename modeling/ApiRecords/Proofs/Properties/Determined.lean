import ApiRecords.Proofs.BoundNames
import ApiRecords.Proofs.Loading
import ApiRecords.Proofs.Properties.Numbering
import ApiRecords.Proofs.Properties.Required
import ApiRecords.Proofs.Types.Relations

/-!
What a blueprint says of a property is determined by the schema of the property and by whether it is
required. The other properties, which come before it or after it, have no part in it, but that the keys
of the unions in its relations are numbered on from theirs.
-/

namespace ApiRecords

theorem Tree.truthy_of_pruned {t : Tree} (h : t.pruned) : t.truthy := by
  cases t with
  | scalar s =>
    cases s with
    | text s => simpa [Tree.pruned, Tree.truthy, Scalar.truthy] using h
    | _ => cases h
  | array items =>
    simp only [Tree.pruned, Bool.and_eq_true, decide_eq_true_eq] at h
    obtain ⟨t, rfl⟩ := List.length_eq_one_iff.mp h.1
    rfl
  | object members =>
    simp only [Tree.pruned, Bool.and_eq_true] at h
    exact h.1
  | back levels => rfl

/-! ### Types made of relations that are alike -/

namespace Dependency

variable {unions unions' : List Union} {spell : String → String} {table table' : List (String × List Tree)}

mutual

theorem Alike.ofTree {d d' : Dependency}
    (hleaf : ∀ name name', LeafAlike unions unions' name name' →
      TypeExpr.ofTree spell table' (.text name') = TypeExpr.ofTree spell table (.text name)) :
    Alike unions unions' d d' →
      TypeExpr.ofTree spell table' d'.toTree = TypeExpr.ofTree spell table d.toTree
  | .leaf h => hleaf _ _ h
  | .list h => by simp only [toTree, TypeExpr.ofTree, h.ofTree hleaf]
  | .shape h => by simp only [toTree, TypeExpr.ofTree, h.ofMembers hleaf]

theorem MembersAlike.ofMembers {members members' : List (String × Dependency)}
    (hleaf : ∀ name name', LeafAlike unions unions' name name' →
      TypeExpr.ofTree spell table' (.text name') = TypeExpr.ofTree spell table (.text name)) :
    MembersAlike unions unions' members members' →
      TypeExpr.ofMembers spell table' (membersToTree members') =
        TypeExpr.ofMembers spell table (membersToTree members)
  | .nil => rfl
  | .cons h hs => by
    simp only [membersToTree, TypeExpr.ofMembers, h.ofTree hleaf, hs.ofMembers hleaf]

end

end Dependency

/-- Each union being found under its own key, leaves that are alike describe one type. -/
theorem LeafAlike.ofTree {g g' : Graph} {offset offset' : Nat} {leaves leaves' : List String}
    {models models' : List Value} {unions unions' : List Union} {name name' : String}
    (hreading : Reading g offset leaves models unions)
    (hreading' : Reading g' offset' leaves' models' unions') (spell : String → String)
    (h : LeafAlike unions unions' name name') :
    TypeExpr.ofTree spell (branchTable unions') (.text name') =
      TypeExpr.ofTree spell (branchTable unions) (.text name) := by
  rw [TypeExpr.ofTree, TypeExpr.ofTree]
  cases h with
  | model m => rw [(hreading.lookup_entityName m).2, (hreading'.lookup_entityName m).2]
  | union hu hu' hkey hkey' halike =>
    rw [hreading.lookup_key hu hkey, hreading'.lookup_key hu' hkey', halike.names]

/-! ### One property among others -/

theorem findMembers_keys {find : Nat → Value → Except Fault Findings} {offset : Nat}
    {members : List (String × Value)} {found : Findings.Members}
    (h : findMembers find offset members = .ok found) :
    ∀ m ∈ found.members, m.1 ∈ members.map Prod.fst := by
  induction members generalizing offset found with
  | nil =>
    cases h
    simp
  | cons m rest ih =>
    simp only [findMembers, bind_ok_iff, pure_ok_iff] at h
    obtain ⟨first, -, others, hothers, rfl⟩ := h
    intro m' hm'
    rcases List.mem_append.mp hm' with hm' | hm'
    · obtain ⟨d, -, rfl⟩ : ∃ d, first.dependency = some d ∧ (m.1, d) = m' := by simpa using hm'
      exact List.mem_cons_self
    · exact List.mem_cons_of_mem _ (ih hothers m' hm')

theorem property?_ofMembers (found : Findings.Members) (key : String) :
    Dependency.property? (Findings.ofMembers found).dependency key = .ok (found.members.lookup key) := by
  cases hmembers : found.members with
  | nil => simp [Findings.ofMembers, hmembers, Dependency.property?]
  | cons m ms => simp [Findings.ofMembers, hmembers, Dependency.property?]

/-- What is found below one member is what is found below its schema, whatever the others are. -/
theorem findMembers_lookup {find : Nat → Value → Except Fault Findings} {offset : Nat}
    {members : List (String × Value)} {found : Findings.Members}
    (h : findMembers find offset members = .ok found) (hkeys : (members.map Prod.fst).Nodup)
    {key : String} {v : Value} (hv : members.lookup key = some v) :
    ∃ offset' first, find offset' v = .ok first ∧ found.members.lookup key = first.dependency ∧
      first.unions ⊆ found.unions := by
  induction members generalizing offset found with
  | nil => cases hv
  | cons m rest ih =>
    obtain ⟨k, w⟩ := m
    simp only [findMembers, bind_ok_iff, pure_ok_iff] at h
    obtain ⟨first, hfirst, others, hothers, rfl⟩ := h
    rw [List.map_cons, List.nodup_cons] at hkeys
    simp only [Findings.Members.cons, List.lookup_append]
    by_cases hk : key = k
    · subst hk
      obtain rfl : w = v := by simpa using hv
      have hnone : others.members.lookup key = none := by
        rw [← Option.not_isSome_iff_eq_none, ← mem_keys_iff]
        intro hmem
        obtain ⟨m, hm, rfl⟩ := List.mem_map.mp hmem
        exact hkeys.1 (findMembers_keys hothers m hm)
      refine ⟨offset, first, hfirst, ?_, List.subset_append_left _ _⟩
      rw [hnone, Option.or_none]
      cases first.dependency <;> simp
    · have hk' : (key == k) = false := by simpa using hk
      rw [List.lookup_cons, hk'] at hv
      obtain ⟨offset', first', hfirst', hlookup, hsub⟩ := ih hothers hkeys.2 hv
      refine ⟨offset', first', hfirst', ?_, fun u hu => List.mem_append_right _ (hsub hu)⟩
      rw [← hlookup]
      cases first.dependency <;> simp [List.lookup_cons, hk']

/-- Of records of keyed values, the one of a key. -/
theorem exists_filter_of_lookup {α β : Type} {R : String × α → β → Prop} (name : β → String)
    {members : List (String × α)} {records : List β} (h : List.Forall₂ R members records)
    (hname : ∀ m r, R m r → name r = m.1) (hkeys : (members.map Prod.fst).Nodup) {key : String} {a : α}
    (ha : members.lookup key = some a) :
    ∃ r, R (key, a) r ∧ records.filter (name · = key) = [r] := by
  induction h with
  | nil => cases ha
  | @cons m r members records hr hrest ih =>
    obtain ⟨k, b⟩ := m
    rw [List.map_cons, List.nodup_cons] at hkeys
    by_cases hk : key = k
    · subst hk
      obtain rfl : b = a := by simpa using ha
      have hnames : members.map Prod.fst = records.map name :=
        map_eq_map_iff_forall₂.mpr (hrest.imp fun m r hr => (hname m r hr).symm)
      have hothers : records.filter (name · = key) = [] := by
        rw [List.filter_eq_nil_iff]
        intro r' hr' heq
        refine hkeys.1 (hnames ▸ List.mem_map.mpr ⟨r', hr', ?_⟩)
        simpa using heq
      refine ⟨r, hr, ?_⟩
      rw [List.filter_cons_of_pos (by simpa using hname _ r hr), hothers]
    · have hk' : (key == k) = false := by simpa using hk
      rw [List.lookup_cons, hk'] at ha
      obtain ⟨r', hr', hfilter⟩ := ih hkeys.2 ha
      refine ⟨r', hr', ?_⟩
      have hne : name r ≠ key := fun heq => hk (heq.symm.trans (hname _ r hr))
      rw [List.filter_cons_of_neg (by simpa using hne), hfilter]

/-! ### Surveys -/

namespace Graph

variable {g g' : Graph} {id : Nat} {v w model : Value} {members : List (String × Value)} {key : String}

/-- Whether the schemas of all properties of a model are mappings. -/
def mapsProperties (g : Graph) (model : Value) : Bool :=
  ((g.object? (g.get model "properties")).getD []).all fun m => (g.object? m.2).isSome

theorem kind_of_mapped (hnode : g.node? v = some (.object members))
    (hmapped : ∀ m ∈ members, (g.object? m.2).isSome) {kind : Kind} (h : g.kind v = .ok kind) :
    kind = .model ∨ kind = .mapping := by
  have hobject : g.object? v = some members := object?_iff.mpr hnode
  have hget : ∀ key, g.get v key = .null ∨ (g.object? (g.get v key)).isSome := by
    intro key
    rw [Graph.get, Graph.member?, hobject, Option.bind_some]
    cases hlookup : members.lookup key with
    | none => exact .inl rfl
    | some w => exact .inr (hmapped _ (mem_of_lookup hlookup))
  have harray : ∀ key, g.array? (g.get v key) = none := by
    intro key
    rcases hget key with hnull | hsome
    · rw [hnull]
      rfl
    · obtain ⟨ms, hms⟩ := Option.isSome_iff_exists.mp hsome
      rw [Graph.array?, object?_iff.mp hms]
  have htype : ∀ s, g.get v "type" ≠ .scalar (.text s) := by
    intro s heq
    rcases hget "type" with hnull | hsome
    · cases heq.symm.trans hnull
    · rw [heq] at hsome
      cases hsome
  simp only [Graph.kind, hnode, bind_ok_iff, pure_ok_iff] at h
  obtain ⟨standsFor, -, rfl⟩ := h
  cases standsFor with
  | true => exact .inl rfl
  | false =>
    refine .inr ?_
    simp [shapeKind, harray, htype]

/-- Properties that are mappings are gone through one by one, unless they stand for a model as a
whole: then none of them has a relation of its own. -/
theorem findings_of_mapped (hnode : g.node? (.node id) = some (.object members))
    (hmapped : ∀ m ∈ members, (g.object? m.2).isSome) {offset : Nat} {found : Findings}
    (hfound : g.findings offset (.node id) = .ok found) {dependency : Option Dependency}
    (hproperty : Dependency.property? found.dependency key = .ok dependency) :
    ∃ below, findMembers (g.findFrom g.size [id]) offset members = .ok below ∧
      found = .ofMembers below := by
  rw [findings, findFrom_size] at hfound
  obtain ⟨f, hf, hlevel⟩ := findNode_level g [] offset (.node id)
  rw [hf] at hfound
  cases hlevel with
  | unclassified => cases hfound
  | seen hmem => exact absurd hmem List.not_mem_nil
  | model =>
    cases hfound
    cases hproperty
  | opaqueValue hkind | union hkind | object _ hkind | array _ hkind =>
    rcases kind_of_mapped hnode hmapped hkind with hnot | hnot <;> cases hnot
  | members _ _ hn =>
    cases hnode.symm.trans hn
    simp only [bind_ok_iff, pure_ok_iff] at hfound
    obtain ⟨below, hbelow, rfl⟩ := hfound
    exact ⟨below, hbelow, rfl⟩

theorem properties_of_identity {name : Tree} (h : g.identity model = .ok (.found name)) :
    ∃ members, g.object? (g.get model "properties") = some members := by
  unfold Graph.identity at h
  cases hproperties : g.object? (g.get model "properties") with
  | some members => exact ⟨members, rfl⟩
  | none =>
    rw [hproperties] at h
    generalize g.object? model = object at h
    cases object <;> cases h

/-- What a blueprint says of a property, from its schema `u` as it stands among the properties of the
survey. -/
structure Surveyed (g : Graph) (required : Prop) (spell : String → String) (key : String) (v : Value)
    (d : Blueprint) (s : Survey) (id : Nat) (u : Value) (found : Findings) (p : Property) : Prop where
  extended : g.Extends s.graph
  wellFormed : s.graph.WellFormed
  fresh : g.size ≤ id
  has : g.Has v
  flagged : Flagged g s.graph required v u
  apart : u ≠ .node id
  finds : ∃ offset, s.graph.findFrom s.graph.size [id] offset u = .ok found
  reading : Reading s.graph 0 s.findings.leaves s.findings.models s.findings.unions
  unions : found.unions ⊆ s.findings.unions
  property : s.graph.property spell (branchTable s.findings.unions) key u found.dependency = .ok p
  record : d.properties.filter (·.propertyName = key) = [p]
  table : d.unions = s.findings.unions
  relation : Dependency.property? d.dependency key = .ok found.dependency

theorem blueprint_surveyed (hg : g.WellFormed) (hmapped : g.mapsProperties model) {options : Options}
    {name : Tree} {d : Blueprint} (h : g.blueprint options name model = .ok (some d))
    (hv : g.member? (g.get model "properties") key = some v) :
    ∃ s id u found p, Surveyed g (g.requires (g.get model "required") key) options.attributeCase key v
      d s id u found p := by
  obtain ⟨identity, s, hidentity, hs, hd⟩ := survey_of_blueprint h
  obtain ⟨members, hmembers⟩ := properties_of_identity hidentity
  have hlookup : members.lookup key = some v := by simpa [Graph.member?, hmembers] using hv
  have hmapped : ∀ m ∈ members, (g.object? m.2).isSome := by
    simpa [mapsProperties, hmembers] using hmapped
  have hvalues : ∀ m ∈ members, g.Has m.2 := fun m hm =>
    hg.has_of_mem_values (object?_iff.mp hmembers) (List.mem_map_of_mem hm)
  obtain ⟨g₁, w, found, hmark, hfound, rfl⟩ := survey_ok hs
  obtain ⟨id, marked, rfl, hm⟩ := markRequired_marked hg hmembers hmark
  obtain ⟨u, hu, hflagged, hapart⟩ := hm.lookup hlookup
  have hparts := Survey.describes hd
  have hproperties := hparts.properties
  simp only [object?_iff.mpr hm.node, Option.getD_some] at hproperties
  obtain ⟨p, ⟨dependency, hrelation, hp⟩, hfilter⟩ :=
    exists_filter_of_lookup Property.propertyName hproperties
      (by
        rintro m p ⟨_, -, hp⟩
        obtain ⟨listing, hparts⟩ := projects hp
        exact hparts.propertyName) hm.nodup_keys hu
  obtain ⟨below, hbelow, rfl⟩ :=
    findings_of_mapped hm.node (hm.isSome_object? hvalues hmapped) hfound hrelation
  obtain ⟨offset, first, hfirst, hfirst', hsub⟩ := findMembers_lookup hbelow hm.nodup_keys hu
  obtain rfl : first.dependency = dependency := by
    rw [property?_ofMembers, hfirst'] at hrelation
    exact Except.ok.inj hrelation
  exact ⟨_, id, u, first, p, {
    extended := hm.extended
    wellFormed := hm.wellFormed
    fresh := hm.fresh
    has := hvalues _ (mem_of_lookup hlookup)
    flagged := hflagged
    apart := hapart
    finds := ⟨offset, hfirst⟩
    reading := (findFrom_sound hfound).reading
    unions := hsub
    property := hp
    record := hfilter
    table := hparts.unions
    relation := hparts.dependency ▸ hrelation }⟩

namespace Surveyed

variable {required required' : Prop} {spell : String → String} {v' u u' : Value} {d d' : Blueprint}
  {s s' : Survey} {id' : Nat} {found found' : Findings} {p p' : Property}
  (h : Surveyed g required spell key v d s id u found p)
  (h' : Surveyed g' required' spell key v' d' s' id' u' found' p')

include h h'

/-- Relations that are alike describe one type in the two blueprints, or none. -/
theorem relatedType (hsame : SameTree s.graph s'.graph [] [] u u')
    (halike : Option.Rel (Dependency.Alike s.findings.unions s'.findings.unions) found.dependency
      found'.dependency) :
    s'.graph.relatedType spell (branchTable s'.findings.unions) u'
        ((found'.dependency.map Dependency.toTree).getD .null) =
      s.graph.relatedType spell (branchTable s.findings.unions) u
        ((found.dependency.map Dependency.toTree).getD .null) := by
  have hmirrors := mirrors_sameTree h.wellFormed h'.wellFormed
  obtain ⟨offset, hfinds⟩ := h.finds
  obtain ⟨offset', hfinds'⟩ := h'.finds
  have hpruned := (findFrom_sound hfinds).pruned
  have hpruned' := (findFrom_sound hfinds').pruned
  generalize found.dependency = a, found'.dependency = b at halike hpruned hpruned'
  cases halike with
  | none => exact hmirrors.relatedType hsame rfl rfl
  | some hd =>
    refine hmirrors.relatedType hsame ?_ (hd.ofTree fun _ _ hleaf => ?_)
    · have htruthy := Tree.truthy_of_pruned (hpruned _ rfl)
      have htruthy' := Tree.truthy_of_pruned (hpruned' _ rfl)
      exact htruthy'.trans htruthy.symm
    · exact hleaf.ofTree h.reading h'.reading spell

theorem alike (hg : g.WellFormed) (hg' : g'.WellFormed) (hacyclic : (g.tree v).cyclic = false)
    (htree : g'.tree v' = g.tree v) (hrequired : required ↔ required') :
    p' = p ∧ Option.Rel (Dependency.Alike d.unions d'.unions) found.dependency found'.dependency := by
  have hclear' : g'.Clear [] v' := by rw [clear_nil_iff, htree, hacyclic]
  have hbase : SameTree g g' [] [] v v' := ⟨h.has, h'.has, hacyclic, hclear', htree⟩
  have hsame : SameTree s.graph s'.graph [id] [id'] u u' := by
    refine h.flagged.sameTree h'.flagged hg hg' h.extended h'.extended hbase hrequired ?_ ?_
    · exact List.forall_mem_singleton.mpr ⟨h.fresh, h.apart⟩
    · exact List.forall_mem_singleton.mpr ⟨h'.fresh, h'.apart⟩
  have halike : Option.Rel (Dependency.Alike s.findings.unions s'.findings.unions)
      found.dependency found'.dependency := by
    obtain ⟨offset, hfinds⟩ := h.finds
    obtain ⟨offset', hfinds'⟩ := h'.finds
    have halike := hsame.findFrom h.wellFormed h'.wellFormed offset offset'
    rw [hfinds, hfinds'] at halike
    exact halike.of_ok.mono h.unions h'.unions
  have hnil := hsame.nil h.wellFormed h'.wellFormed
  have hproperty : (.ok p' : Except Fault Property) = .ok p := by
    rw [← h.property, ← h'.property]
    exact (mirrors_sameTree h.wellFormed h'.wellFormed).property hnil (h.relatedType h' hnil halike)
  exact ⟨Except.ok.inj hproperty, by rwa [h.table, h'.table]⟩

end Surveyed

end Graph

/-- A property that has the same schema in two models, and is required in both or in neither, is the
same in their blueprints, whatever the other properties are; only the keys of the unions in its relations
may differ. The schema leads nowhere back, and the schemas of all properties are mappings. -/
theorem blueprint_property_determined {g g' : Graph} (hg : g.WellFormed) (hg' : g'.WellFormed)
    {model model' : Value} (hmapped : g.mapsProperties model) (hmapped' : g'.mapsProperties model')
    {options : Options} {name : Tree} {d d' : Blueprint}
    (h : g.blueprint options name model = .ok (some d))
    (h' : g'.blueprint options name model' = .ok (some d')) {key : String} {v v' : Value}
    (hv : g.member? (g.get model "properties") key = some v)
    (hv' : g'.member? (g'.get model' "properties") key = some v')
    (hacyclic : (g.tree v).cyclic = false) (htree : g'.tree v' = g.tree v)
    (hrequired : g.requires (g.get model "required") key =
      g'.requires (g'.get model' "required") key) :
    ∃ p, d.properties.filter (·.propertyName = key) = [p] ∧
      d'.properties.filter (·.propertyName = key) = [p] ∧
      ∃ relation relation', Dependency.property? d.dependency key = .ok relation ∧
        Dependency.property? d'.dependency key = .ok relation' ∧
        Option.Rel (Dependency.Alike d.unions d'.unions) relation relation' := by
  obtain ⟨s, id, u, found, p, hs⟩ := Graph.blueprint_surveyed hg hmapped h hv
  obtain ⟨s', id', u', found', p', hs'⟩ := Graph.blueprint_surveyed hg' hmapped' h' hv'
  obtain ⟨rfl, halike⟩ := hs.alike hs' hg hg' hacyclic htree (by rw [hrequired])
  exact ⟨_, hs.record, hs'.record, _, _, hs.relation, hs'.relation, halike⟩

/-- A schema of one alternative, told apart by its kind. -/
def catUnion : Tree := .object [
  ("oneOf", .array [.object [
    ("x-model-name", .text "Cat"), ("properties", .object [("id", .object [])])]]),
  ("discriminator", .object [("propertyName", .text "kind")])]

/-- A model that requires a pet, with further properties before it. -/
def ownerWith (before : List (String × Tree)) : Document := .ofTree (.object [
  ("properties", .object (before ++ [("pet", catUnion), ("id", .object [])])),
  ("required", .array [.text "pet"])])

theorem blueprint_property_determined_pet : ∃ d d' p,
    (ownerWith []).graph.blueprint plainOptions (.text "Owner") (ownerWith []).root = .ok (some d) ∧
      (ownerWith [("friend", catUnion)]).graph.blueprint plainOptions (.text "Owner")
        (ownerWith [("friend", catUnion)]).root = .ok (some d') ∧
      d.properties.filter (·.propertyName = "pet") = [p] ∧
      d'.properties.filter (·.propertyName = "pet") = [p] ∧
      d.dependency.map (·.leaves) = some ["oneOfSchema1"] ∧
      d'.dependency.map (·.leaves) = some ["oneOfSchema1", "oneOfSchema2"] := by
  obtain ⟨d, hd, hleaves⟩ := exists_ok_some (x := (ownerWith []).graph.blueprint plainOptions
    (.text "Owner") (ownerWith []).root) (f := fun d => d.dependency.map (·.leaves))
    (c := some ["oneOfSchema1"]) (by decide +kernel)
  obtain ⟨d', hd', hleaves'⟩ := exists_ok_some
    (x := (ownerWith [("friend", catUnion)]).graph.blueprint plainOptions (.text "Owner")
      (ownerWith [("friend", catUnion)]).root) (f := fun d => d.dependency.map (·.leaves))
    (c := some ["oneOfSchema1", "oneOfSchema2"]) (by decide +kernel)
  have hg : (ownerWith []).WellFormed := wellFormed_ofTree (by decide)
  have hg' : (ownerWith [("friend", catUnion)]).WellFormed := wellFormed_ofTree (by decide)
  have hv : (ownerWith []).graph.member? ((ownerWith []).graph.get (ownerWith []).root "properties")
      "pet" = some (.node 2) := rfl
  have hv' : (ownerWith [("friend", catUnion)]).graph.member?
      ((ownerWith [("friend", catUnion)]).graph.get (ownerWith [("friend", catUnion)]).root "properties")
      "pet" = some (.node 8) := rfl
  have htree : (ownerWith []).graph.tree (.node 2) = catUnion := rfl
  have htree' : (ownerWith [("friend", catUnion)]).graph.tree (.node 8) = catUnion := rfl
  have hacyclic : catUnion.cyclic = false := rfl
  obtain ⟨p, hp, hp', -⟩ := blueprint_property_determined hg.graph hg'.graph rfl rfl hd hd' hv hv'
    (htree ▸ hacyclic) (htree'.trans htree.symm) (by decide +kernel)
  exact ⟨d, d', p, hd, hd', hp, hp', hleaves, hleaves'⟩

end ApiRecords
