import ApiRecords.Proofs.Objects.ReadBack
import ApiRecords.Proofs.Properties.Spelling

/-!
The object literals of a record class: its relations with their keys spelled, and the mappings of its
unions. Each reads back just when what it was written from has names and numbers alone.
-/

namespace ApiRecords

open ObjectNotation

namespace Tree

variable {leaf : String → Bool} {spell : String → String}

theorem everyMember_iff (members : List (String × Tree)) :
    everyMember (fun _ => true) leaf members ↔ ∀ m ∈ members, m.2.every (fun _ => true) leaf := by
  induction members with
  | nil => simp [everyMember]
  | cons m members ih => simp [everyMember, ih]

mutual

/-- The spelling of keys leaves the leaves as they are. -/
theorem every_convertKeys : (t : Tree) → t.every (fun _ => true) leaf →
    (t.convertKeys spell).every (fun _ => true) leaf
  | scalar _, h => h
  | array items, h => everyItem_convertItems items h
  | object members, h => by
    refine (everyMember_iff _).mpr fun m hm => ?_
    rcases mem_putMembers hm with hm | ⟨m', hm', heq⟩
    · cases hm
    · exact heq ▸ (everyMember_iff _).mp (everyMember_convertMembers members h) m' hm'
  | back _, h => h

theorem everyItem_convertItems : (ts : List Tree) → everyItem (fun _ => true) leaf ts →
    everyItem (fun _ => true) leaf (convertItems spell ts)
  | [], _ => rfl
  | t :: ts, h => by
    have h := Bool.and_eq_true_iff.mp h
    exact Bool.and_eq_true_iff.mpr ⟨every_convertKeys t h.1, everyItem_convertItems ts h.2⟩

theorem everyMember_convertMembers : (ts : List (String × Tree)) → everyMember (fun _ => true) leaf ts →
    everyMember (fun _ => true) leaf (convertMembers spell ts)
  | [], _ => rfl
  | (_, t) :: ts, h => by
    have h := Bool.and_eq_true_iff.mp h
    exact Bool.and_eq_true_iff.mpr ⟨every_convertKeys t h.1, everyMember_convertMembers ts h.2⟩

end

end Tree

theorem Graph.survey_targets {g : Graph} {model : Value} {identity : Tree} {s : Survey}
    (h : g.survey model identity = .ok s) {u : Union} (hu : u ∈ s.findings.unions) :
    (∃ key, u.key = some key) ∧ ∀ m ∈ u.mapping, m.2 ≠ "" := by
  have hselects := survey_select h u hu
  obtain ⟨graph, properties, found, -, hfound, rfl⟩ := survey_ok h
  have hreading := (findFrom_sound hfound).reading
  refine ⟨?_, fun m hm => ?_⟩
  · have hkey : u.key ∈ found.unions.map (·.key) := List.mem_map_of_mem hu
    rw [hreading.keys_eq] at hkey
    obtain ⟨key, -, hkey⟩ := List.mem_map.mp hkey
    exact ⟨key, hkey.symm⟩
  · obtain ⟨b, hb, hm⟩ := hselects m hm
    rw [hm, (hreading.branch_found hu hb).2.2]
    exact entityName_ne_empty _

/-- The schema of a record class reads back as its relations with their keys spelled just when these are
names and numbers, and each of its unions as its mapping just when the keys of this are. -/
theorem Graph.blueprint_literals (chars : NameChars) {g : Graph} {options : Options} {name : Tree}
    {model : Value} {d : Blueprint} (h : g.blueprint options name model = .ok (some d)) :
    (∀ s, d.schema = some s → ∃ relation, d.dependency = some relation ∧
      let written := relation.toTree.convertKeys options.attributeCase
      (read chars s = some written ↔ written.every (isKey chars) (isLeaf chars))) ∧
    List.Forall₂ (fun u e => u.key = some e.key ∧
      (read chars e.mapping = some u.mappingTree ↔
        ∀ m ∈ u.mapping, isKey chars m.1.jsonKey ∧ isLeaf chars m.2)) d.unions d.unionEntries := by
  obtain ⟨identity, s, -, hs, hd⟩ := survey_of_blueprint h
  have hparts := Survey.describes hd
  constructor
  · intro text htext
    have hdependency := hparts.dependency
    have hschema := hparts.schema
    cases hrelation : d.dependency with
    | none =>
      rw [hrelation, htext] at hschema
      cases hschema
    | some relation =>
      refine ⟨relation, rfl, ?_⟩
      rw [hrelation] at hdependency hschema
      have hn := relation.toTree.isNested_of_pruned (survey_pruned hs hdependency.symm)
      have hwritten : (relation.toTree.convertKeys options.attributeCase).isNested :=
        Tree.every_convertKeys _ hn
      rw [htext] at hschema
      rw [eq_text_of_objectLiteral? hwritten hschema]
      exact read_eq_iff hwritten
  · rw [hparts.unions]
    refine forall₂_imp_mem hparts.unionEntries fun u hu e _ ⟨hkey, _, text, htext, hmapping⟩ => ?_
    obtain ⟨⟨key, hsome⟩, htargets⟩ := survey_targets hs hu
    obtain ⟨s, hs, hread⟩ := Union.mapping_read_iff htargets
    cases htext.symm.trans hs
    rw [hkey, hsome, hmapping]
    exact ⟨rfl, hread⟩

end ApiRecords
