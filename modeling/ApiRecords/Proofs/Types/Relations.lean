import ApiRecords.Proofs.Entities
import ApiRecords.Proofs.Types.Expressions

/-!
The two notations of the type of a property that has relations, against the type that its relations
denote.
-/

namespace ApiRecords

open Token

/-- The fields with those of the same key as one: it stays where the key first came, with the value
that came last. -/
structure Merges {α : Type} (fields merged : List (String × α)) : Prop where
  keys : merged.map Prod.fst = (fields.map Prod.fst).eraseDups
  last : ∀ key, merged.lookup key = fields.reverse.lookup key

theorem merges_putMembers {α : Type} (fields : List (String × α)) :
    Merges fields (putMembers [] fields) := by
  induction fields using List.reverseRecOn with
  | nil => exact ⟨rfl, fun _ => rfl⟩
  | append_singleton fields field ih =>
    obtain ⟨key, value⟩ := field
    have hput : putMembers [] (fields ++ [(key, value)]) =
        putMember key value (putMembers [] fields) := by
      rw [putMembers, List.foldl_append]
      rfl
    refine ⟨?_, fun other => ?_⟩
    · rw [hput, keys_putMember, ih.keys, List.map_append, List.map_singleton, eraseDups_concat]
      simp only [List.mem_eraseDups]
    · rw [hput, List.reverse_append, List.reverse_singleton, List.singleton_append,
        List.lookup_cons]
      rcases Decidable.em (other = key) with rfl | hother
      · simp
      · rw [lookup_putMember_of_ne hother, ih.last, beq_eq_false_iff_ne.mpr hother]

/-- The names of the branches under the keys of their unions, as the properties of a model look them
up. -/
def branchTable (unions : List Union) : List (String × List Tree) :=
  unions.map fun u => (u.key.getD "", u.branches.map (·.name))

namespace Dependency

mutual

/-- The keys of all members, at every depth. -/
def keys : Dependency → List String
  | leaf _ => []
  | list d => d.keys
  | shape members => memberKeys members

def memberKeys : List (String × Dependency) → List String
  | [] => []
  | (key, d) :: ds => key :: d.keys ++ memberKeys ds

end

mutual

/-- The type that relations denote: a model by its name, a union by those of its branches, each
once. -/
inductive Denotes (spell : String → String) (unions : List Union) : Dependency → TypeTree → Prop
  | model {name} : (∀ u ∈ unions, u.key ≠ some (name ++ "Schema")) →
      Denotes spell unions (leaf (name ++ "Schema")) (.name name)
  | union {u : Union} {key : String} {names : List String} : u ∈ unions → u.key = some key →
      u.branches.map (·.name) = names.map .text →
      Denotes spell unions (leaf key) (.anyOf (names.eraseDups.map .name))
  | list {d t} : Denotes spell unions d t → Denotes spell unions (list d) (.array t)
  | shape {members fields merged} : DenotesMembers spell unions members fields →
      Merges fields merged → Denotes spell unions (shape members) (.record merged)

inductive DenotesMembers (spell : String → String) (unions : List Union) :
    List (String × Dependency) → List (String × TypeTree) → Prop
  | nil : DenotesMembers spell unions [] []
  | cons {key d t members fields} : Denotes spell unions d t →
      DenotesMembers spell unions members fields →
      DenotesMembers spell unions ((key, d) :: members) ((spell key, t) :: fields)

end

end Dependency

namespace TypeExpr

theorem treeFields_rel (fields : List (String × TypeExpr)) :
    MembersRel (fun e t => e.tree = t) fields (treeFields fields) := by
  induction fields with
  | nil => exact .nil
  | cons field fields ih => exact .cons ⟨rfl, rfl⟩ ih

theorem treeFields_eq_of_rel {fields : List (String × TypeExpr)} {types : List (String × TypeTree)}
    (h : MembersRel (fun e t => e.tree = t) fields types) : treeFields fields = types := by
  induction h with
  | nil => rfl
  | @cons field type _ _ hfield _ ih => rw [treeFields, ih, hfield.1, hfield.2]

theorem treeFields_putMembers (fields : List (String × TypeExpr)) :
    treeFields (putMembers [] fields) = putMembers [] (treeFields fields) :=
  treeFields_eq_of_rel (MembersRel.putMembers .nil (treeFields_rel fields))

theorem fieldsWorded_iff {fields : List (String × TypeExpr)} :
    FieldsWorded fields ↔ ∀ field ∈ fields, IsWord field.1 ∧ field.2.Worded := by
  induction fields with
  | nil => simp [FieldsWorded]
  | cons field fields ih => simp [FieldsWorded, ih, and_assoc]

theorem FieldsWorded.putMembers {fields : List (String × TypeExpr)} (h : FieldsWorded fields) :
    FieldsWorded (putMembers [] fields) := by
  rw [fieldsWorded_iff]
  intro field hfield
  have hkey : field.1 ∈ fields.map Prod.fst := by
    have hmem := List.mem_map_of_mem (f := Prod.fst) hfield
    rwa [(merges_putMembers fields).keys, List.mem_eraseDups] at hmem
  obtain ⟨field', hfield', hvalue⟩ := (mem_putMembers hfield).resolve_left List.not_mem_nil
  exact ⟨h.key _ hkey, hvalue ▸ (fieldsWorded_iff.mp h field' hfield').2⟩

theorem ofNames_texts (names : List String) :
    ofNames (names.map .text) = .ok (union names.eraseDups) := by
  have hkeys : (names.map Tree.text).mapM Tree.key? = .ok (names.map Scalar.text) := by
    rw [mapM_ok_iff, List.forall₂_map_left_iff, List.forall₂_map_right_iff]
    exact List.forall₂_same.mpr fun _ _ => rfl
  have htexts : (names.eraseDups.map Scalar.text).mapM joinable = .ok names.eraseDups := by
    rw [mapM_ok_iff, List.forall₂_map_left_iff]
    exact List.forall₂_same.mpr fun _ _ => rfl
  simp only [ofNames, bind, Except.bind, hkeys, distinctBy_texts, htexts]
  rfl

end TypeExpr

namespace Reading

variable {g : Graph} {offset : Nat} {leaves : List String} {models : List Value} {unions : List Union}

/-- No two unions share a key, so that each is found under its own. -/
theorem lookup_key (h : Reading g offset leaves models unions) {u : Union} (hu : u ∈ unions)
    {key : String} (hkey : u.key = some key) :
    (branchTable unions).lookup key =
      some (u.branches.map (·.name)) := by
  refine lookup_of_mem ?_ (List.mem_map.mpr ⟨u, hu, by rw [hkey]; rfl⟩)
  have hkeys := congrArg (List.map fun key => Option.getD key "") h.keys_eq
  rw [List.map_map, List.map_map, List.map_map] at hkeys
  rw [branchTable, List.map_map]
  exact hkeys ▸ List.Nodup.map keyOf_injective List.nodup_range'

theorem lookup_entityName (h : Reading g offset leaves models unions) (model : Tree) :
    (∀ u ∈ unions, u.key ≠ some (entityName model)) ∧
      (branchTable unions).lookup (entityName model) =
        none := by
  have hkey : ∀ u ∈ unions, ∃ n, u.key = some (Union.keyOf n) := fun u hu => by
    have hmem := List.mem_map_of_mem (f := (·.key)) hu
    rw [h.keys_eq, List.mem_map] at hmem
    obtain ⟨key, hkey, heq⟩ := hmem
    obtain ⟨n, -, rfl⟩ := List.mem_map.mp hkey
    exact ⟨n, heq.symm⟩
  constructor
  · intro u hu heq
    obtain ⟨n, hn⟩ := hkey u hu
    exact entityName_ne_key model n (Option.some.inj (heq.symm.trans hn))
  · rw [← Option.not_isSome_iff_eq_none, ← mem_keys_iff, branchTable, List.map_map]
    intro hmem
    obtain ⟨u, hu, heq⟩ := List.mem_map.mp hmem
    obtain ⟨n, hn⟩ := hkey u hu
    exact entityName_ne_key model n (by simpa [hn] using heq.symm)

theorem leaf_denotes (h : Reading g offset leaves models unions)
    (hnames : ∀ m ∈ models, ∃ name, g.modelName m = .text name ∧ IsWord name)
    (spell : String → String) {leaf : String} (hleaf : leaf ∈ leaves) :
    ∃ e, TypeExpr.ofTree spell (branchTable unions) (.text leaf) = .ok e ∧
      e.Worded ∧ Dependency.Denotes spell unions (.leaf leaf) e.tree := by
  rcases h.leaf_cases hleaf with ⟨m, hm, rfl⟩ | ⟨u, hu, hkey⟩
  · obtain ⟨name, hname, hword⟩ := hnames m hm
    obtain ⟨hnone, hlookup⟩ := h.lookup_entityName (g.modelName m)
    have hmodel : modelOfEntity (entityName (g.modelName m)) = name := by
      rw [modelOfEntity_entityName, hname, Tree.display_text]
    refine ⟨.model name, ?_, hword, ?_⟩
    · rw [TypeExpr.ofTree, hlookup]
      simp only [hmodel]
    · rw [hname] at hnone ⊢
      exact .model hnone
  · have hbranches : ∃ names : List String, u.branches.map (·.name) = names.map .text ∧
        ∀ name ∈ names, IsWord name := by
      have hbranch : ∀ b ∈ u.branches, ∃ name, b.name = .text name ∧ IsWord name := fun b hb => by
        obtain ⟨hmem, hname, -⟩ := h.branch_found hu hb
        exact hname ▸ hnames b.schema hmem
      choose! name hname hword using hbranch
      refine ⟨u.branches.map name, ?_, by simpa using hword⟩
      rw [List.map_map]
      exact List.map_congr_left hname
    obtain ⟨names, hbranches, hwords⟩ := hbranches
    refine ⟨.union names.eraseDups, ?_, fun name hname => hwords name (List.mem_eraseDups.mp hname),
      .union hu hkey hbranches⟩
    rw [TypeExpr.ofTree, h.lookup_key hu hkey]
    simp only [hbranches, TypeExpr.ofNames_texts]

end Reading

namespace Dependency

variable {spell : String → String} {unions : List Union}

mutual

theorem ofTree_denotes {g : Graph} {offset : Nat} {leaves : List String} {models : List Value}
    (hreading : Reading g offset leaves models unions)
    (hnames : ∀ m ∈ models, ∃ name, g.modelName m = .text name ∧ IsWord name) : (d : Dependency) →
    (∀ leaf ∈ d.leaves, leaf ∈ leaves) → (∀ key ∈ d.keys, IsWord (spell key)) →
    ∃ e, TypeExpr.ofTree spell (branchTable unions) d.toTree = .ok e ∧ e.Worded ∧
      d.Denotes spell unions e.tree
  | leaf l, hleaves, _ => hreading.leaf_denotes hnames spell (hleaves l (by simp [Dependency.leaves]))
  | list d, hleaves, hkeys => by
    obtain ⟨e, he, hworded, hdenotes⟩ := ofTree_denotes hreading hnames d hleaves hkeys
    refine ⟨.list e, ?_, hworded, hdenotes.list⟩
    rw [toTree, TypeExpr.ofTree, he]
    rfl
  | shape members, hleaves, hkeys => by
    obtain ⟨fields, hfields, hworded, hdenotes⟩ := ofMembers_denotes hreading hnames members hleaves hkeys
    refine ⟨.record (putMembers [] fields), ?_, hworded.putMembers, .shape hdenotes ?_⟩
    · rw [toTree, TypeExpr.ofTree, hfields]
      rfl
    · rw [TypeExpr.treeFields_putMembers]
      exact merges_putMembers _

theorem ofMembers_denotes {g : Graph} {offset : Nat} {leaves : List String} {models : List Value}
    (hreading : Reading g offset leaves models unions)
    (hnames : ∀ m ∈ models, ∃ name, g.modelName m = .text name ∧ IsWord name) :
    (members : List (String × Dependency)) →
    (∀ leaf ∈ memberLeaves members, leaf ∈ leaves) → (∀ key ∈ memberKeys members, IsWord (spell key)) →
    ∃ fields, TypeExpr.ofMembers spell (branchTable unions) (membersToTree members) = .ok fields ∧
      TypeExpr.FieldsWorded fields ∧
      DenotesMembers spell unions members (TypeExpr.treeFields fields)
  | [], _, _ => ⟨[], rfl, trivial, .nil⟩
  | (key, d) :: members, hleaves, hkeys => by
    simp only [memberLeaves, memberKeys, List.mem_append, List.mem_cons] at hleaves hkeys
    obtain ⟨e, he, hworded, hdenotes⟩ := ofTree_denotes hreading hnames d
      (fun leaf h => hleaves leaf (.inl h)) fun key h => hkeys key (by simp [h])
    obtain ⟨fields, hfields, hworded', hdenotes'⟩ := ofMembers_denotes hreading hnames members
      (fun leaf h => hleaves leaf (.inr h)) fun key h => hkeys key (by simp [h])
    refine ⟨(spell key, e) :: fields, ?_, ⟨hkeys key (by simp), hworded, hworded'⟩, .cons hdenotes hdenotes'⟩
    rw [membersToTree, TypeExpr.ofMembers, he, hfields]
    rfl

end

end Dependency

/-- The two notations of the type of a property that has relations describe one type, and it is the
one that the relations denote. The relations, or a part of them, are those found below a schema with its
unions; the models have words for names, and the keys turn into words. -/
theorem relatedType_denotes {g : Graph} {offset : Nat} {v : Value} {found : Findings}
    (h : g.findings offset v = .ok found)
    (hnames : ∀ m ∈ found.models, ∃ name, g.modelName m = .text name ∧ IsWord name)
    {d : Dependency} (hleaves : ∀ leaf ∈ d.leaves, leaf ∈ found.leaves) (hne : d.toTree.truthy)
    {spell : String → String} (hkeys : ∀ key ∈ d.keys, IsWord (spell key))
    {g' : Graph} {w : Value}
    (hnone : g'.alternativeNames ((g'.array? (g'.get w "oneOf")).getD []) = .ok []) :
    ∃ p t,
      g'.relatedType spell (branchTable found.unions) w d.toTree = .ok (some p) ∧
        d.Denotes spell found.unions t ∧
        TypeTree.ofPropType p.propType = some t ∧ TypeTree.ofFlow p.flow = some t.withAny := by
  obtain ⟨e, he, hworded, hdenotes⟩ :=
    Dependency.ofTree_denotes (findFrom_sound h).1 hnames d hleaves hkeys
  have hexpr : g'.relatedExpr spell (branchTable found.unions) w d.toTree = .ok (some e) := by
    simp only [Graph.relatedExpr, hnone, hne, bind, Except.bind, he]
    rfl
  refine ⟨e.pair, e.tree, ?_, hdenotes, TypeExpr.notations_read hworded⟩
  rw [Graph.relatedType, hexpr]
  rfl

def petRelations : Dependency :=
  .shape [("pet", .leaf "oneOfSchema3"), ("tags", .list (.leaf "TagSchema"))]

def petType : TypePair where
  propType := "ImmutablePropTypes.mapContains(\x7bpet:PropTypes.oneOfType([CatPropType])," ++
    "tags:ImmutablePropTypes.listOf(TagPropType)\x7d)"
  flow := "\x7b pet: Cat, tags: Tag[] \x7d"

theorem relatedType_denotes_pet :
    petProperties.graph.findings 2 petProperties.root = .ok petFindings ∧
      Graph.empty.relatedType id (branchTable petFindings.unions) .null petRelations.toTree =
        .ok (some petType) ∧
      ∃ t, petRelations.Denotes id petFindings.unions t ∧
        TypeTree.ofPropType petType.propType = some t ∧
        TypeTree.ofFlow petType.flow = some t.withAny := by
  have h : petProperties.graph.findings 2 petProperties.root = .ok petFindings := by rfl
  have hnames : ∀ m ∈ petFindings.models,
      ∃ name, petProperties.graph.modelName m = .text name ∧ IsWord name := by
    intro m hm
    simp only [petFindings, List.mem_cons, List.not_mem_nil, or_false] at hm
    rcases hm with rfl | rfl
    · exact ⟨"Cat", rfl, by decide⟩
    · exact ⟨"Tag", rfl, by decide⟩
  have hkeys : ∀ key ∈ petRelations.keys, IsWord (id key) := by
    intro key hkey
    simp only [petRelations, Dependency.keys, Dependency.memberKeys, List.append_nil,
      List.nil_append, List.mem_cons, List.cons_append, List.not_mem_nil, or_false] at hkey
    rcases hkey with rfl | rfl <;> decide
  have htype : Graph.empty.relatedType id (branchTable petFindings.unions) .null
      petRelations.toTree = .ok (some petType) := by rfl
  have hleaves : ∀ leaf ∈ petRelations.leaves, leaf ∈ petFindings.leaves := fun _ => id
  have hnone : Graph.empty.alternativeNames
      ((Graph.empty.array? (Graph.empty.get .null "oneOf")).getD []) = .ok [] := rfl
  obtain ⟨p, t, hp, hrest⟩ := relatedType_denotes h hnames hleaves rfl hkeys hnone
  obtain rfl : petType = p := by simpa [htype] using hp
  exact ⟨h, htype, t, hrest⟩

end ApiRecords
