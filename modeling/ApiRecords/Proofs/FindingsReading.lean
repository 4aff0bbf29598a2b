import ApiRecords.Proofs.Outcome
import Mathlib.Data.List.Nodup
import ApiRecords.Schema.Findings

/-!
The relations of a schema against the models and unions found below it: read from left to right, the
leaves are the schemas of the models in the order in which they were met, each union giving its
branches in the place of its key.
-/

namespace ApiRecords

/-- Names read in order, with the models and unions that they stand for, `offset` unions having been
read before. -/
inductive Reading (g : Graph) : Nat → List String → List Value → List Union → Prop
  | nil {offset} : Reading g offset [] [] []
  | model {offset names models unions} (v : Value) :
      Reading g offset names models unions →
      Reading g offset (entityName (g.modelName v) :: names) (v :: models) unions
  | union {offset names models unions} (u : Union) :
      u.key = some (Union.keyOf (offset + 1)) →
      (∀ b ∈ u.branches,
        b.name = g.modelName b.schema ∧ b.entityName = entityName (g.modelName b.schema)) →
      Reading g (offset + 1) names models unions →
      Reading g offset (Union.keyOf (offset + 1) :: names)
        (u.branches.map (·.schema) ++ models) (u :: unions)

namespace Tree

mutual

/-- Whether a tree of relations has no empty part: it ends in names only, its arrays have one item
and its objects at least one member. -/
def pruned : Tree → Bool
  | scalar (.text s) => s ≠ ""
  | array items => items.length = 1 && prunedItems items
  | object members => !members.isEmpty && prunedMembers members
  | _ => false

def prunedItems : List Tree → Bool
  | [] => true
  | t :: ts => t.pruned && prunedItems ts

def prunedMembers : List (String × Tree) → Bool
  | [] => true
  | (_, t) :: ts => t.pruned && prunedMembers ts

end

end Tree

namespace Findings

/-- The names at the ends of the relations, in order. -/
def leaves (found : Findings) : List String := (found.dependency.map (·.leaves)).getD []

end Findings

/-- The names with each of `keys` among them replaced by the next of the lists `fills`. -/
def fillKeys (keys : List String) : List (List String) → List String → List String
  | _, [] => []
  | fills, name :: names =>
    if name ∈ keys then fills.headD [] ++ fillKeys keys fills.tail names
    else name :: fillKeys keys fills names

/-! ### Keys of unions and names of schemas -/

theorem toList_keyOf (n : Nat) :
    (Union.keyOf n).toList = "oneOfSchema".toList ++ Nat.toDigits 10 n := by
  rw [Union.keyOf, String.toList_append]
  exact congrArg _ Nat.toList_repr

theorem keyOf_injective : Function.Injective Union.keyOf := by
  intro m n h
  have h : Nat.toDigits 10 m = Nat.toDigits 10 n := by
    have := congrArg String.toList h
    rwa [toList_keyOf, toList_keyOf, List.append_cancel_left_eq] at this
  rw [← Nat.ofDigitChars_toDigits (n := m) (b := 10) (by decide) (by decide), h,
    Nat.ofDigitChars_toDigits (by decide) (by decide)]

theorem toList_entityName (model : Tree) :
    (entityName model).toList = model.display.toList ++ "Schema".toList :=
  String.toList_append

theorem entityName_ne_empty (model : Tree) : entityName model ≠ "" := by
  intro h
  have h := congrArg String.toList h
  rw [toList_entityName] at h
  simp at h

/-- A key ends in a digit, the name of a schema object in a letter. -/
theorem entityName_ne_key (model : Tree) (n : Nat) : entityName model ≠ Union.keyOf n := by
  intro h
  have h := congrArg (fun s => s.toList.getLast?) h
  simp only [toList_entityName, toList_keyOf] at h
  rw [List.getLast?_append_of_ne_nil _ (by simp),
    List.getLast?_append_of_ne_nil _ Nat.toDigits_ne_nil] at h
  have hmem : 'a' ∈ Nat.toDigits 10 n := List.mem_of_getLast? (h ▸ rfl)
  exact absurd (Nat.isDigit_of_mem_toDigits (by decide) (by decide) hmem) (by decide)

theorem entityName_notMem {keys : List String} (hkeys : ∀ key ∈ keys, ∃ n, key = Union.keyOf n)
    (model : Tree) : entityName model ∉ keys := by
  intro hmem
  obtain ⟨n, hn⟩ := hkeys _ hmem
  exact entityName_ne_key model n hn

theorem keyOf_ne_empty (n : Nat) : Union.keyOf n ≠ "" := by
  intro h
  have h := congrArg String.toList h
  rw [toList_keyOf] at h
  simp at h

/-! ### Reading in order -/

namespace Reading

variable {g : Graph} {offset : Nat} {names : List String} {models : List Value} {unions : List Union}

theorem append {names' : List String} {models' : List Value} {unions' : List Union}
    (h : Reading g offset names models unions)
    (h' : Reading g (offset + unions.length) names' models' unions') :
    Reading g offset (names ++ names') (models ++ models') (unions ++ unions') := by
  induction h with
  | nil => exact h'
  | model v _ ih => exact .model v (ih h')
  | union u hkey hbranches _ ih =>
    rw [List.append_assoc]
    refine .union u hkey hbranches (ih ?_)
    rwa [List.length_cons, Nat.add_comm _ 1, ← Nat.add_assoc] at h'

theorem keys_eq (h : Reading g offset names models unions) :
    unions.map (·.key) =
      ((List.range' (offset + 1) unions.length).map Union.keyOf).map some := by
  induction h with
  | nil => rfl
  | model v _ ih => exact ih
  | union u hkey _ _ ih => simp [hkey, ih, List.range'_succ]

/-- The keys are met in order; a model between them is taken for none of them. -/
theorem filter_key (h : Reading g offset names models unions) {keys : List String}
    (hkeys : ∀ key ∈ keys, ∃ n, key = Union.keyOf n)
    (hsub : ∀ key ∈ (List.range' (offset + 1) unions.length).map Union.keyOf, key ∈ keys) :
    names.filter (· ∈ keys) = (List.range' (offset + 1) unions.length).map Union.keyOf := by
  induction h with
  | nil => rfl
  | model v _ ih =>
    rw [List.filter_cons_of_neg (by simpa using entityName_notMem hkeys _), ih hsub]
  | union u _ _ _ ih =>
    simp only [List.length_cons, List.range'_succ, List.map_cons, List.mem_cons] at hsub ⊢
    rw [List.filter_cons_of_pos (by simpa using hsub _ (.inl rfl)),
      ih fun key hkey => hsub key (.inr hkey)]

/-- With the names of its branches in the place of each key, what is read are the models. -/
theorem fillKeys_eq (h : Reading g offset names models unions) {keys : List String}
    (hkeys : ∀ key ∈ keys, ∃ n, key = Union.keyOf n)
    (hsub : ∀ key ∈ (List.range' (offset + 1) unions.length).map Union.keyOf, key ∈ keys) :
    fillKeys keys (unions.map fun u => u.branches.map (·.entityName)) names =
      models.map fun v => entityName (g.modelName v) := by
  induction h with
  | nil => rfl
  | model v _ ih =>
    rw [fillKeys, if_neg (entityName_notMem hkeys _), ih hsub, List.map_cons]
  | union u _ hbranches _ ih =>
    simp only [List.length_cons, List.range'_succ, List.map_cons, List.mem_cons] at hsub ⊢
    have hnames : u.branches.map (·.entityName) =
        u.branches.map fun b => entityName (g.modelName b.schema) :=
      List.map_congr_left fun b hb => (hbranches b hb).2
    rw [fillKeys, if_pos (hsub _ (.inl rfl)), List.headD_cons, List.tail_cons,
      ih fun key hkey => hsub key (.inr hkey), hnames, List.map_append, List.map_map]
    rfl

theorem leaf_cases (h : Reading g offset names models unions) {name : String} (hname : name ∈ names) :
    (∃ v ∈ models, name = entityName (g.modelName v)) ∨ ∃ u ∈ unions, u.key = some name := by
  induction h with
  | nil => simp at hname
  | model v _ ih =>
    rcases List.mem_cons.mp hname with rfl | hname
    · exact .inl ⟨v, by simp, rfl⟩
    · rcases ih hname with ⟨w, hw, rfl⟩ | ⟨u, hu, hkey⟩
      · exact .inl ⟨w, by simp [hw], rfl⟩
      · exact .inr ⟨u, hu, hkey⟩
  | union u hkey _ _ ih =>
    rcases List.mem_cons.mp hname with rfl | hname
    · exact .inr ⟨u, by simp, hkey⟩
    · rcases ih hname with ⟨w, hw, rfl⟩ | ⟨u, hu, hkey⟩
      · exact .inl ⟨w, by simp [hw], rfl⟩
      · exact .inr ⟨u, by simp [hu], hkey⟩

theorem branch_found (h : Reading g offset names models unions) {u : Union} (hu : u ∈ unions)
    {b : Branch} (hb : b ∈ u.branches) : b.schema ∈ models ∧ b.name = g.modelName b.schema ∧
      b.entityName = entityName (g.modelName b.schema) := by
  induction h with
  | nil => simp at hu
  | model v _ ih => exact (ih hu).imp_left (List.mem_cons_of_mem v)
  | union u' _ hbranches _ ih =>
    rcases List.mem_cons.mp hu with rfl | hu
    · refine ⟨List.mem_append_left _ ?_, hbranches b hb⟩
      exact List.mem_map_of_mem hb
    · exact (ih hu).imp_left (List.mem_append_right _)

end Reading

/-! ### One level of the search -/

/-- What one level of the search finds at a value, one case for each kind of value. `inner` has found
what is below it. -/
inductive Finds (g : Graph) (inner : List Nat → Nat → Value → Except Fault Findings)
    (path : List Nat) (offset : Nat) : Value → Findings → Prop
  | nothing {v} : Finds g inner path offset v .none
  | model {v} : Finds g inner path offset v ⟨some (.leaf (entityName (g.modelName v))), [v], []⟩
  | union {v found} : g.unionFindings (offset + 1) v = .ok found → Finds g inner path offset v found
  | object {id found} : id ∉ path →
      inner (id :: path) offset (g.get (.node id) "properties") = .ok found →
      Finds g inner path offset (.node id) found
  | array {id found} : id ∉ path →
      inner (id :: path) offset (g.get (.node id) "items") = .ok found →
      Finds g inner path offset (.node id) found.inList
  | members {id found} : id ∉ path →
      findMembers (inner (id :: path)) offset
        (((g.node? (.node id)).map Node.children).getD []) = .ok found →
      Finds g inner path offset (.node id) (.ofMembers found)

variable {g : Graph}

theorem findNode_finds {inner : List Nat → Nat → Value → Except Fault Findings} {path : List Nat}
    {offset : Nat} {v : Value} {found : Findings} (h : g.findNode inner path offset v = .ok found) :
    Finds g inner path offset v found := by
  rw [Graph.findNode, bind_ok_iff] at h
  obtain ⟨kind, -, h⟩ := h
  cases v with
  | scalar s => cases kind <;> exact (pure_ok_iff _ _).mp h ▸ .nothing
  | node id =>
    cases kind with
    | opaqueValue => exact (pure_ok_iff _ _).mp h ▸ .nothing
    | model => exact (pure_ok_iff _ _).mp h ▸ .model
    | discriminatedUnion => exact .union h
    | object =>
      by_cases hid : id ∈ path
      · simp only [hid, if_true, pure_ok_iff] at h
        exact h ▸ .nothing
      · simp only [hid, if_false] at h
        exact .object hid h
    | array =>
      by_cases hid : id ∈ path
      · simp only [hid, if_true, pure_ok_iff] at h
        exact h ▸ .nothing
      · simp only [hid, if_false, bind_ok_iff, pure_ok_iff] at h
        obtain ⟨below, hbelow, rfl⟩ := h
        exact .array hid hbelow
    | alternatives | mapping =>
      by_cases hid : id ∈ path
      · simp only [hid, if_true, pure_ok_iff] at h
        exact h ▸ .nothing
      · simp only [hid, if_false, bind_ok_iff, pure_ok_iff] at h
        obtain ⟨below, hbelow, rfl⟩ := h
        exact .members hid hbelow

/-- What the search promises of its findings, `offset` unions having been found before. -/
structure Findings.Sound (g : Graph) (offset : Nat) (found : Findings) : Prop where
  reading : Reading g offset found.leaves found.models found.unions
  pruned : ∀ d, found.dependency = some d → d.toTree.pruned

namespace Findings.Sound

variable {offset : Nat} {found : Findings}

theorem nothing : Sound g offset .none where
  reading := .nil
  pruned := by simp [Findings.none]

theorem model (v : Value) :
    Sound g offset ⟨some (.leaf (entityName (g.modelName v))), [v], []⟩ where
  reading := .model v .nil
  pruned := by
    rintro d ⟨⟩
    simpa [Dependency.toTree, Tree.pruned] using entityName_ne_empty (g.modelName v)

theorem inList (h : Sound g offset found) : Sound g offset found.inList where
  reading := by
    have hleaves : found.inList.leaves = found.leaves := by
      cases hd : found.dependency <;> simp [leaves, Findings.inList, hd, Dependency.leaves]
    rw [hleaves]
    exact h.reading
  pruned := by
    intro d hd
    simp only [Findings.inList, Option.map_eq_some_iff] at hd
    obtain ⟨d, hd, rfl⟩ := hd
    simpa [Dependency.toTree, Tree.pruned, Tree.prunedItems] using h.pruned d hd

end Findings.Sound

theorem branch_eq {property : Tree} {index : Nat} {v : Value} {b : Branch}
    (h : g.branch property index v = .ok b) :
    b.name = g.modelName v ∧ b.entityName = entityName (g.modelName v) ∧ b.schema = v := by
  simp only [Graph.branch] at h
  split at h
  · simp at h
  · simp only [bind_ok_iff] at h
    obtain ⟨identity, -, h⟩ := h
    split at h
    · simp at h
    · simp only [bind_ok_iff, pure_ok_iff] at h
      obtain ⟨ref, -, rfl⟩ := h
      exact ⟨rfl, rfl, rfl⟩

theorem branches_named {property : Tree} {index : Nat} {vs : List Value} {bs : List Branch}
    (h : g.branches property index vs = .ok bs) :
    ∀ b ∈ bs, b.name = g.modelName b.schema ∧ b.entityName = entityName (g.modelName b.schema) := by
  induction vs generalizing index bs with
  | nil => cases h; simp
  | cons v vs ih =>
    simp only [Graph.branches, bind_ok_iff, pure_ok_iff] at h
    obtain ⟨b, hb, rest, hrest, rfl⟩ := h
    intro c hc
    rcases List.mem_cons.mp hc with rfl | hc
    · obtain ⟨hname, hentity, hschema⟩ := branch_eq hb
      exact ⟨hschema ▸ hname, hschema ▸ hentity⟩
    · exact ih hrest c hc

theorem Graph.require_eq {v w : Value} {key : String} (h : g.require v key = .ok w) :
    w = g.get v key := by
  unfold Graph.require at h
  split at h
  · cases h
  · rename_i members hobject
    split at h
    · cases h
    · rename_i x hlookup
      simpa [Graph.get, Graph.member?, hobject, hlookup] using (Except.ok.inj h).symm

/-- The steps by which a union is read. -/
theorem Graph.union_ok {v : Value} {u : Union} (h : g.union v = .ok u) :
    ∃ members items, g.object? (g.get v "discriminator") = some members ∧
      g.elements (g.get v "oneOf") = .ok items ∧
      g.branches u.propertyName 0 items = .ok u.branches ∧
      g.unionMapping (g.get (g.get v "discriminator") "mapping") u.branches = .ok u.mapping := by
  simp only [Graph.union, bind_ok_iff] at h
  obtain ⟨discriminator, hdiscriminator, h⟩ := h
  obtain rfl := require_eq hdiscriminator
  split at h
  · rename_i members hobject
    simp only [bind_ok_iff, pure_ok_iff] at h
    obtain ⟨oneOf, honeOf, items, hitems, branches, hbranches, mapping, hmapping, rfl⟩ := h
    obtain rfl := require_eq honeOf
    exact ⟨members, items, hobject, hitems, hbranches, hmapping⟩
  · simp at h

theorem Findings.Sound.union {v : Value} {offset : Nat} {found : Findings}
    (h : g.unionFindings (offset + 1) v = .ok found) : Sound g offset found := by
  simp only [Graph.unionFindings, bind_ok_iff, pure_ok_iff] at h
  obtain ⟨u, hu, rfl⟩ := h
  obtain ⟨_, _, -, -, hbranches, -⟩ := Graph.union_ok hu
  refine ⟨?_, ?_⟩
  · simpa [leaves, Dependency.leaves] using
      Reading.union (g := g) { u with key := some (Union.keyOf (offset + 1)) } rfl
        (branches_named hbranches) .nil
  · rintro d ⟨⟩
    simpa [Dependency.toTree, Tree.pruned] using keyOf_ne_empty (offset + 1)

/-- The findings below the members of a container, as `Findings.Sound` has them for one value. -/
structure Findings.Members.Sound (g : Graph) (offset : Nat) (found : Findings.Members) : Prop where
  reading : Reading g offset (Dependency.memberLeaves found.members) found.models found.unions
  pruned : Tree.prunedMembers (Dependency.membersToTree found.members)

theorem Findings.Members.Sound.cons {offset : Nat} {key : String} {first : Findings}
    {rest : Findings.Members} (hfirst : first.Sound g offset)
    (hrest : rest.Sound g (offset + first.unions.length)) :
    (Findings.Members.cons key first rest).Sound g offset := by
  have hreading := hfirst.reading.append hrest.reading
  cases hd : first.dependency with
  | none =>
    refine ⟨?_, ?_⟩
    · simpa [Members.cons, leaves, hd] using hreading
    · simpa [Members.cons, hd] using hrest.pruned
  | some d =>
    refine ⟨?_, ?_⟩
    · simpa [Members.cons, leaves, hd, Dependency.memberLeaves] using hreading
    · simpa [Members.cons, hd, Dependency.membersToTree, Tree.prunedMembers] using
        ⟨hfirst.pruned d hd, hrest.pruned⟩

theorem Findings.Members.Sound.findings {offset : Nat} {found : Findings.Members}
    (h : found.Sound g offset) : (Findings.ofMembers found).Sound g offset := by
  cases hm : found.members with
  | nil =>
    refine ⟨?_, ?_⟩
    · simpa [ofMembers, leaves, hm, Dependency.memberLeaves] using h.reading
    · simp [ofMembers, hm]
  | cons m ms =>
    refine ⟨?_, ?_⟩
    · simpa [ofMembers, leaves, hm, Dependency.leaves] using h.reading
    · rintro d hd
      obtain rfl : .shape (m :: ms) = d := by simpa [ofMembers, hm] using hd
      have hpruned := h.pruned
      rw [hm] at hpruned
      simpa [Dependency.toTree, Tree.pruned, Dependency.membersToTree] using hpruned

theorem findMembers_sound {find : Nat → Value → Except Fault Findings}
    (hfind : ∀ offset v found, find offset v = .ok found → found.Sound g offset)
    {offset : Nat} {members : List (String × Value)} {found : Findings.Members}
    (h : findMembers find offset members = .ok found) : found.Sound g offset := by
  induction members generalizing offset found with
  | nil => cases h; exact ⟨.nil, rfl⟩
  | cons m rest ih =>
    simp only [findMembers, bind_ok_iff, pure_ok_iff] at h
    obtain ⟨first, hfirst, others, hothers, rfl⟩ := h
    exact .cons (hfind offset m.2 first hfirst) (ih hothers)

theorem findNode_sound {inner : List Nat → Nat → Value → Except Fault Findings}
    (hinner : ∀ path offset v found, inner path offset v = .ok found → found.Sound g offset)
    {path : List Nat} {offset : Nat} {v : Value} {found : Findings}
    (h : g.findNode inner path offset v = .ok found) : found.Sound g offset := by
  cases findNode_finds h with
  | nothing => exact .nothing
  | model => exact .model v
  | union h => exact .union h
  | object _ below => exact hinner _ _ _ _ below
  | array _ below => exact (hinner _ _ _ _ below).inList
  | members _ below => exact (findMembers_sound (hinner _) below).findings

theorem findFrom_sound {depth : Nat} {path : List Nat} {offset : Nat} {v : Value} {found : Findings}
    (h : g.findFrom depth path offset v = .ok found) : found.Sound g offset := by
  induction depth generalizing path offset v found with
  | zero =>
    refine findNode_sound ?_ h
    rintro _ _ _ _ ⟨⟩
    exact .nothing
  | succ depth ih => exact findNode_sound (fun _ _ _ _ h => ih h) h

/-- The relations agree with the models and unions found: the keys of the unions are numbered on from
`offset` and stand once each among the leaves, in order; with the branches of each union in the place
of its key, the leaves are the schemas of the models; no part of the relations is empty; and no name
of a schema is a key. -/
theorem findings_agree {offset : Nat} {v : Value} {found : Findings}
    (h : g.findings offset v = .ok found) :
    let keys := (List.range' (offset + 1) found.unions.length).map Union.keyOf
    found.unions.map (·.key) = keys.map some ∧
      keys.Nodup ∧
      found.leaves.filter (· ∈ keys) = keys ∧
      fillKeys keys (found.unions.map fun u => u.branches.map (·.entityName)) found.leaves =
        found.models.map (fun m => entityName (g.modelName m)) ∧
      (∀ d, found.dependency = some d → d.toTree.pruned) ∧
      ∀ model n, entityName model ≠ Union.keyOf n := by
  intro keys
  obtain ⟨hreading, hpruned⟩ := findFrom_sound h
  have hkeys : ∀ key ∈ keys, ∃ n, key = Union.keyOf n := by
    intro key hkey
    obtain ⟨n, -, rfl⟩ := List.mem_map.mp hkey
    exact ⟨n, rfl⟩
  refine ⟨hreading.keys_eq, ?_, hreading.filter_key hkeys fun _ => id,
    hreading.fillKeys_eq hkeys fun _ => id, hpruned, entityName_ne_key⟩
  exact List.Nodup.map keyOf_injective List.nodup_range'

/-- Properties with a union, an array of models, and a member that leads back to them. -/
def petProperties : Document := .ofTree (.object [
  ("pet", .object [
    ("oneOf", .array [.object [
      ("x-model-name", .text "Cat"), ("properties", .object [("id", .object [])])]]),
    ("discriminator", .object [("propertyName", .text "kind")])]),
  ("tags", .object [
    ("type", .text "array"),
    ("items", .object [
      ("x-model-name", .text "Tag"), ("properties", .object [("id", .object [])])])]),
  ("self", .back 1)])

def petFindings : Findings where
  dependency := some (.shape [("pet", .leaf "oneOfSchema3"), ("tags", .list (.leaf "TagSchema"))])
  models := [.node 3, .node 8]
  unions := [{
    key := some "oneOfSchema3"
    propertyName := .text "kind"
    mapping := [(.text "Cat", "CatSchema")]
    branches := [⟨.text "Cat", "CatSchema", .null, .node 3⟩] }]

theorem findings_agree_pet :
    petProperties.graph.findings 2 petProperties.root = .ok petFindings ∧
      petFindings.leaves.filter (· ∈ ["oneOfSchema3"]) = ["oneOfSchema3"] ∧
      fillKeys ["oneOfSchema3"] [["CatSchema"]] petFindings.leaves = ["CatSchema", "TagSchema"] := by
  have h : petProperties.graph.findings 2 petProperties.root = .ok petFindings := by rfl
  obtain ⟨-, -, hfilter, hfill, -⟩ := findings_agree h
  exact ⟨h, hfilter, hfill⟩

end ApiRecords
