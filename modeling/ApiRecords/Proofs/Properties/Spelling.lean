import ApiRecords.Proofs.Properties.Origins
import ApiRecords.Proofs.Respelling
import Mathlib.Data.List.Sigma

/-!
Names of properties as they are spelled in a model, and its relations with their keys spelled in the same
way.
-/

namespace ApiRecords

/-! ### Keys that differ -/

theorem Node.nodup_children {n : Node} (h : n.KeysDistinct) : (n.children.map Prod.fst).Nodup := by
  cases n with
  | object members => exact h
  | array items =>
    have hinjective : Function.Injective (toString : Nat → String) := fun m n h =>
      keyOf_injective (congrArg ("oneOfSchema" ++ ·) h)
    have hkeys : (Node.array items).children.map Prod.fst =
        (items.zipIdx.map Prod.snd).map toString := by
      rw [children, List.map_map, List.map_map]
      rfl
    rw [hkeys]
    exact (List.nodup_zipIdx_map_snd items).map hinjective

/-- The relations below members have only keys of theirs, each once. -/
theorem findMembers_sublist {find : Nat → Value → Except Fault Findings} {offset : Nat}
    {members : List (String × Value)} {found : Findings.Members}
    (h : findMembers find offset members = .ok found) :
    (found.members.map Prod.fst).Sublist (members.map Prod.fst) := by
  induction members generalizing offset found with
  | nil =>
    cases h
    exact .slnil
  | cons m rest ih =>
    simp only [findMembers, bind_ok_iff, pure_ok_iff] at h
    obtain ⟨first, -, others, hothers, rfl⟩ := h
    cases hd : first.dependency with
    | none => simpa [Findings.Members.cons, hd] using (ih hothers).cons m.1
    | some d => simpa [Findings.Members.cons, hd] using ih hothers

/-- No two keys of one object of the relations are spelled alike. -/
def Findings.Apart (spell : String → String) (found : Findings) : Prop :=
  ∀ relation, found.dependency = some relation → relation.toTree.keysApart spell

section

variable {g : Graph} {spell : String → String}

theorem findMembers_membersApart {find : Nat → Value → Except Fault Findings}
    (hfind : ∀ offset v found, find offset v = .ok found → found.Apart spell) {offset : Nat}
    {members : List (String × Value)} {found : Findings.Members}
    (h : findMembers find offset members = .ok found) :
    Tree.membersApart spell (Dependency.membersToTree found.members) := by
  induction members generalizing offset found with
  | nil =>
    cases h
    rfl
  | cons m rest ih =>
    simp only [findMembers, bind_ok_iff, pure_ok_iff] at h
    obtain ⟨first, hfirst, others, hothers, rfl⟩ := h
    cases hd : first.dependency with
    | none => simpa [Findings.Members.cons, hd] using ih hothers
    | some d =>
      simpa [Findings.Members.cons, hd, Dependency.membersToTree, Tree.membersApart] using
        ⟨hfind _ _ _ hfirst d hd, ih hothers⟩

theorem keys_membersToTree (members : List (String × Dependency)) :
    (Dependency.membersToTree members).map (fun m => spell m.1) = members.map fun m => spell m.1 := by
  induction members with
  | nil => rfl
  | cons m members ih => simp [Dependency.membersToTree, ih]

theorem findMembers_apart (hspell : Function.Injective spell)
    {find : Nat → Value → Except Fault Findings}
    (hfind : ∀ offset v found, find offset v = .ok found → found.Apart spell) {offset : Nat}
    {members : List (String × Value)} {found : Findings.Members}
    (hkeys : (members.map Prod.fst).Nodup) (h : findMembers find offset members = .ok found) :
    (Findings.ofMembers found).Apart spell := by
  have hnodup : (found.members.map fun m => spell m.1).Nodup := by
    simpa [Function.comp_def] using ((findMembers_sublist h).nodup hkeys).map hspell
  intro relation hrelation
  simp only [Findings.ofMembers] at hrelation
  split at hrelation
  · cases hrelation
  · cases hrelation
    simp only [Dependency.toTree, Tree.keysApart, Bool.and_eq_true, decide_eq_true_eq,
      keys_membersToTree]
    exact ⟨hnodup, findMembers_membersApart hfind h⟩

theorem findNode_apart (hg : g.WellFormed) (hspell : Function.Injective spell)
    {inner : List Nat → Nat → Value → Except Fault Findings}
    (hinner : ∀ path offset v found, inner path offset v = .ok found → found.Apart spell)
    {path : List Nat} {offset : Nat} {v : Value} {found : Findings}
    (h : g.findNode inner path offset v = .ok found) : found.Apart spell := by
  cases findNode_finds h with
  | nothing => exact nofun
  | model =>
    rintro _ ⟨⟩
    rfl
  | union h =>
    simp only [Graph.unionFindings, bind_ok_iff, pure_ok_iff] at h
    obtain ⟨u, -, rfl⟩ := h
    rintro _ ⟨⟩
    rfl
  | object _ below => exact hinner _ _ _ _ below
  | array _ below =>
    intro relation hrelation
    obtain ⟨d, hd, rfl⟩ := Option.map_eq_some_iff.mp hrelation
    simpa [Dependency.toTree, Tree.keysApart, Tree.itemsApart] using hinner _ _ _ _ below d hd
  | @members id found _ below =>
    refine findMembers_apart hspell (hinner _) ?_ below
    cases hn : g.node? (.node id) with
    | none => exact List.nodup_nil
    | some n => exact Node.nodup_children (hg.keys _ n hn)

theorem findFrom_apart (hg : g.WellFormed) (hspell : Function.Injective spell) {depth : Nat}
    {path : List Nat} {offset : Nat} {v : Value} {found : Findings}
    (h : g.findFrom depth path offset v = .ok found) : found.Apart spell := by
  induction depth generalizing path offset v found with
  | zero =>
    refine findNode_apart hg hspell ?_ h
    rintro _ _ _ _ ⟨⟩
    exact nofun
  | succ depth ih => exact findNode_apart hg hspell (fun _ _ _ _ h => ih h) h

end

/-! ### The names and relations of a model -/

theorem Graph.survey_pruned {g : Graph} {model : Value} {identity : Tree} {s : Survey}
    (h : g.survey model identity = .ok s) {relation : Dependency}
    (hrelation : s.findings.dependency = some relation) : relation.toTree.pruned := by
  obtain ⟨graph, properties, found, -, hfound, rfl⟩ := survey_ok h
  exact (findFrom_sound hfound).pruned relation hrelation

/-- The names of a model are those of its properties as they are spelled, and are distinct just when no two
of these are spelled alike. Its relations are written with each key spelled and nothing else changed just
when no two keys of one object are spelled alike, and otherwise leaves are lost. -/
theorem blueprint_spelled {g : Graph} (hg : g.WellFormed) {options : Options} {name : Tree}
    {model : Value} {d : Blueprint} (h : g.blueprint options name model = .ok (some d)) :
    ∃ members, g.object? (g.get model "properties") = some members ∧
      d.properties.map (·.name) = members.map (fun m => options.attributeCase m.1) ∧
      ((d.properties.map (·.name)).Nodup ↔
        Set.InjOn options.attributeCase { key | key ∈ members.map Prod.fst }) ∧
      ∀ relation, d.dependency = some relation →
        let written := relation.toTree.convertKeys options.attributeCase
        written.objectLiteral? = .ok d.schema ∧
          (written = relation.toTree.renameKeys options.attributeCase ↔
            relation.toTree.keysApart options.attributeCase) ∧
          (written.leafCount = relation.leaves.length ↔
            relation.toTree.keysApart options.attributeCase) := by
  obtain ⟨members, s, hmembers, -, horigins⟩ := Graph.blueprint_origins hg h
  have hnames : d.properties.map (·.name) = members.map fun m => options.attributeCase m.1 := by
    refine map_eq_map_iff_forall₂.mpr (horigins.flip.imp ?_)
    rintro p m ⟨-, _, u, dependency, -, hproperty⟩
    obtain ⟨listing, hparts⟩ := Graph.projects hproperty
    exact hparts.name
  have hkeys : (members.map Prod.fst).Nodup := hg.keys _ _ (Graph.object?_iff.mp hmembers)
  refine ⟨members, hmembers, hnames, ?_, fun relation hrelation => ?_⟩
  · have hcomp : members.map (fun m => options.attributeCase m.1) =
        (members.map Prod.fst).map options.attributeCase := by simp
    rw [hnames, hcomp, List.nodup_map_iff_inj_on hkeys]
    rfl
  · obtain ⟨identity, s, -, hs, hd⟩ := Graph.survey_of_blueprint h
    have hdependency := (Survey.describes hd).dependency
    have hschema := (Survey.describes hd).schema
    rw [hrelation] at hdependency hschema
    have hpruned := Graph.survey_pruned hs hdependency.symm
    refine ⟨hschema, Tree.convertKeys_eq_iff _, ?_⟩
    rw [← Dependency.leafCount_toTree]
    exact (Tree.leafCount_convertKeys _ hpruned).2

/-- A spelling that keeps names apart, as the plain one does, merges nothing. -/
theorem blueprint_keysApart {g : Graph} (hg : g.WellFormed) {options : Options} {name : Tree}
    {model : Value} {d : Blueprint} (h : g.blueprint options name model = .ok (some d))
    (hspell : Function.Injective options.attributeCase) {relation : Dependency}
    (hrelation : d.dependency = some relation) : relation.toTree.keysApart options.attributeCase := by
  obtain ⟨identity, s, hidentity, hs, hd⟩ := Graph.survey_of_blueprint h
  obtain ⟨members, hmembers⟩ := Graph.properties_of_identity hidentity
  obtain ⟨g₁, w, found, hmark, hfound, rfl⟩ := Graph.survey_ok hs
  obtain ⟨id, marked, rfl, hmarked⟩ := Graph.markRequired_marked hg hmembers hmark
  exact findFrom_apart hmarked.wellFormed hspell hfound relation
    ((Survey.describes hd).dependency.symm.trans hrelation)

def petModel (name : String) : Tree := .object [
  ("x-model-name", .text name), ("properties", .object [("id", .object [])])]

/-- A model with a cat and a dog. -/
def ownerOf (cat dog : String) : Document := .ofTree (.object [
  ("properties", .object [("id", .object []), (cat, petModel "Cat"), (dog, petModel "Dog")])])

def snakeOptions : Options := ⟨Case.snake, .bool true, .bool false⟩

theorem blueprint_spelled_owner : ∃ d relation,
    (ownerOf "myCat" "myDog").graph.blueprint snakeOptions (.text "Owner") (ownerOf "myCat" "myDog").root =
      .ok (some d) ∧
      d.dependency = some relation ∧ d.properties.map (·.name) = ["id", "my_cat", "my_dog"] ∧
      (relation.toTree.convertKeys snakeOptions.attributeCase).leafCount = relation.leaves.length := by
  obtain ⟨d, relation, hd, hrelation, hapart⟩ : ∃ d relation,
      (ownerOf "myCat" "myDog").graph.blueprint snakeOptions (.text "Owner")
        (ownerOf "myCat" "myDog").root = .ok (some d) ∧
        d.dependency = some relation ∧ relation.toTree.keysApart snakeOptions.attributeCase :=
    ⟨_, _, rfl, rfl, rfl⟩
  have hg : (ownerOf "myCat" "myDog").WellFormed := wellFormed_ofTree (by decide)
  obtain ⟨members, hmembers, hnames, -, hrelations⟩ := blueprint_spelled hg.graph hd
  refine ⟨d, relation, hd, hrelation, ?_, (hrelations relation hrelation).2.2.mpr hapart⟩
  obtain rfl := Option.some.inj hmembers
  exact hnames.trans rfl

/-- Two names that are spelled alike: the records have one name twice, and the schema has lost the cat. -/
theorem merged_spelling : ∃ d relation,
    (ownerOf "petId" "pet_id").graph.blueprint snakeOptions (.text "Owner")
      (ownerOf "petId" "pet_id").root = .ok (some d) ∧
      d.dependency = some relation ∧ relation.leaves = ["CatSchema", "DogSchema"] ∧
      d.properties.map (·.name) = ["id", "pet_id", "pet_id"] ∧
      (relation.toTree.convertKeys snakeOptions.attributeCase).leafCount = 1 ∧
      d.schema = some "\x7b\n  pet_id: DogSchema\n\x7d" :=
  ⟨_, _, rfl, rfl, rfl, rfl, rfl, rfl⟩

end ApiRecords
