import ApiRecords.Proofs.Reordering.Alike

/-!
The marks of definitions. In a document that is a tree each definition is marked once, with its own
key, and documents that are read alike bear the same marks in the same places.
-/

namespace ApiRecords

/-! ### Values in the same place -/

namespace Document

variable {doc doc' : Document} {path : List Slot} {v w : Value}

/-- Whether two values are the same scalar, or stand in the same place of their documents. -/
def Together (doc doc' : Document) (v w : Value) : Prop :=
  (∃ s, v = .scalar s ∧ w = .scalar s) ∨ ∃ path, doc.find path = some v ∧ doc'.find path = some w

/-- Values in the same place are opened alike. -/
theorem Alike.matches_find (h : doc.Alike doc') (hv : doc.find path = some v)
    (hw : doc'.find path = some w) :
    MatchesAlike (doc.Together doc') doc.graph.plain doc'.graph.plain v w := by
  have hshape := h path
  rw [read_eq_find, read_eq_find, hv, hw, Option.bind_some, Option.bind_some] at hshape
  cases v with
  | scalar s =>
    cases w with
    | node j => exact absurd hshape (Node.not_rel_scalar s _).1
    | scalar s' =>
      cases hshape with
      | some hs => cases hs; exact .scalar
  | node i =>
    cases w with
    | scalar s => exact absurd hshape (Node.not_rel_scalar s _).2
    | node j =>
      rw [readPath, readPath] at hshape
      apply MatchesAlike.node
      cases hm : doc.graph.plain i <;> cases hn : doc'.graph.plain j <;> rw [hm, hn] at hshape
      case none.none => exact .none
      case none.some => cases hshape
      case some.none => cases hshape
      case some.some m n =>
        cases hshape with
        | some hshape =>
          refine .some (Node.alike_of_shape hshape fun slot a b ha hb => .inr ⟨path ++ [slot], ?_, ?_⟩)
          · exact find_snoc.mpr ⟨_, hv, by rw [Graph.at?, ← Graph.plain, hm, Option.bind_some, ha]⟩
          · exact find_snoc.mpr ⟨_, hw, by rw [Graph.at?, ← Graph.plain, hn, Option.bind_some, hb]⟩

theorem Alike.corresponds (h : doc.Alike doc') :
    doc.graph.Corresponds doc'.graph (doc.Together doc') where
  scalar s := .inl ⟨s, rfl, rfl⟩
  plain := by
    rintro v w (⟨s, rfl, rfl⟩ | ⟨path, hv, hw⟩)
    · exact .scalar
    · exact h.matches_find hv hw

theorem together_root (doc doc' : Document) : doc.Together doc' doc.root doc'.root :=
  .inr ⟨[], rfl, rfl⟩

theorem Alike.exists_find (h : doc.Alike doc') (hv : doc.find path = some v) :
    ∃ w, doc'.find path = some w := by
  have hfind := h.corresponds.walk (together_root doc doc') path
  rw [← find, ← find, hv] at hfind
  generalize doc'.find path = b at hfind ⊢
  cases hfind with
  | some _ => exact ⟨_, rfl⟩

end Document

/-! ### One mark -/

/-- A definition with its key for a mark, unless it bears one. -/
def Node.marked (name : String) : Node → Node
  | object members =>
    object (if (members.lookup modelNameKey).isSome then members
      else putMember modelNameKey (.scalar (.text name)) members)
  | n => n

namespace Node

variable {R : Value → Value → Prop} {m n : Node} {slot : Slot} {v : Value} {name : String}

theorem at?_marked (h : (n.marked name).at? slot = some v) :
    v = .scalar (.text name) ∨ n.at? slot = some v := by
  cases n with
  | array items => exact .inr h
  | object members =>
    cases slot with
    | index i => cases h
    | key key =>
      rw [marked, at?] at h
      split at h
      · exact .inr h
      · by_cases hkey : key = modelNameKey
        · rw [hkey, lookup_putMember_self] at h
          exact .inl (Option.some.inj h).symm
        · rw [lookup_putMember_of_ne hkey] at h
          exact .inr h

theorem at?_marked_of_ne {key : String} (h : key ≠ modelNameKey) (n : Node) (name : String) :
    (n.marked name).at? (.key key) = n.at? (.key key) := by
  cases n with
  | array items => rfl
  | object members =>
    rw [marked, at?]
    split
    · rfl
    · rw [lookup_putMember_of_ne h, at?]

theorem Alike.marked (h : Alike R m n) (hR : ∀ s, R (.scalar s) (.scalar s)) (name : String) :
    Alike R (m.marked name) (n.marked name) := by
  cases h with
  | array h => exact .array h
  | @object ms ns h =>
    have hmark : (ms.lookup modelNameKey).isSome = (ns.lookup modelNameKey).isSome := by
      have hkey := h.lookup modelNameKey
      generalize ms.lookup modelNameKey = a, ns.lookup modelNameKey = b at hkey
      cases hkey <;> rfl
    rw [Node.marked, Node.marked, hmark]
    split
    · exact .object h
    · exact .object (h.putMember modelNameKey (hR _))

end Node

/-! ### All marks -/

namespace Graph

def mark (g : Graph) (definition : String × Value) : Graph :=
  match definition.2, g.object? definition.2 with
  | .node id, some members =>
    if (members.lookup modelNameKey).isSome then g
    else g.setSlot id (.key modelNameKey) (.scalar (.text definition.1))
  | _, _ => g

variable {g : Graph} {v w : Value} {name : String} {definitions : List (String × Value)}

theorem node?_mark_self (g : Graph) (name : String) (v : Value) :
    (g.mark (name, v)).node? v = (g.node? v).map (Node.marked name) := by
  cases v with
  | scalar s => rfl
  | node id =>
    cases hn : g.node? (.node id) with
    | none => simp [mark, object?, hn]
    | some n =>
      cases n with
      | array items => simp [mark, object?, hn, Node.marked]
      | object members =>
        simp only [mark, object?, hn, Option.map_some, Node.marked]
        split
        · exact hn
        · rw [node?_setSlot_self hn]
          rfl

theorem node?_mark_of_ne (h : w ≠ v) (g : Graph) (name : String) :
    (g.mark (name, v)).node? w = g.node? w := by
  simp only [mark]
  split
  · split
    · rfl
    · exact node?_setSlot_of_ne h _ _
  · rfl

theorem node?_marks_of_notMem (h : ∀ d ∈ definitions, w ≠ d.2) (g : Graph) :
    (definitions.foldl mark g).node? w = g.node? w := by
  induction definitions generalizing g with
  | nil => rfl
  | cons d definitions ih =>
    rw [List.foldl_cons, ih (fun e he => h e (List.mem_cons_of_mem _ he)),
      node?_mark_of_ne (h d List.mem_cons_self)]

/-- Each of different definitions bears its own mark. -/
theorem node?_marks (hdistinct : definitions.Pairwise fun d e => ∀ k, d.2 = .node k → e.2 ≠ .node k)
    {k : Nat} (hmem : (name, .node k) ∈ definitions) (g : Graph) :
    (definitions.foldl mark g).node? (.node k) = (g.node? (.node k)).map (Node.marked name) := by
  obtain ⟨before, after, rfl⟩ := List.append_of_mem hmem
  rw [List.pairwise_append, List.pairwise_cons] at hdistinct
  obtain ⟨-, ⟨hafter, -⟩, hbefore⟩ := hdistinct
  have hne : ∀ d ∈ before, Value.node k ≠ d.2 :=
    fun d hd e => hbefore d hd _ List.mem_cons_self k e.symm rfl
  rw [List.foldl_append, List.foldl_cons, node?_marks_of_notMem, node?_mark_self,
    node?_marks_of_notMem hne]
  exact fun d hd e => hafter d hd k rfl e.symm

end Graph

namespace Document

variable {doc doc' marked marked' : Document} {v2 : Bool} {table : Value}

theorem stamp_ok_iff : doc.stamp v2 = .ok marked ↔ ∃ table, doc.schemaTable v2 = .ok table ∧
    marked = { doc with graph := (doc.graph.members table).foldl Graph.mark doc.graph } := by
  simp only [stamp, definitions, bind_ok_iff, pure_ok_iff]
  constructor
  · rintro ⟨_, ⟨table, htable, rfl⟩, rfl⟩
    exact ⟨table, htable, rfl⟩
  · rintro ⟨table, htable, rfl⟩
    exact ⟨_, ⟨table, htable, rfl⟩, rfl⟩

/-- Where the definitions of a document stand. -/
def tablePath (doc : Document) (v2 : Bool) : List Slot :=
  if v2 then
    if (doc.graph.at? doc.root (.key "definitions")).isSome then [.key "definitions"] else []
  else [.key "components", .key "schemas"]

theorem member?_eq_at? (g : Graph) (v : Value) (key : String) :
    g.member? v key = g.at? v (.key key) := by
  unfold Graph.member? Graph.object? Graph.at?
  cases g.node? v with
  | none => rfl
  | some n => cases n <;> rfl

/-- What gives a value just where it is a mapping. -/
theorem ok_iff_of_object? {v : Value} {r : Except Fault Value}
    (hsome : ∀ members, doc.graph.object? v = some members → r = .ok v)
    (hnone : doc.graph.object? v = none → r = .error (.spec .definitionsNotMapping)) :
    r = .ok table ↔ v = table ∧ (doc.graph.object? table).isSome := by
  cases hv : doc.graph.object? v with
  | none =>
    rw [hnone hv]
    refine iff_of_false nofun ?_
    rintro ⟨rfl, hobject⟩
    rw [hv] at hobject
    cases hobject
  | some members =>
    rw [hsome members hv, Except.ok.injEq]
    exact ⟨fun h => ⟨h, by rw [← h, hv]; rfl⟩, fun h => h.1⟩

theorem schemaTable_ok_iff : doc.schemaTable v2 = .ok table ↔
    doc.find (doc.tablePath v2) = some table ∧ (doc.graph.object? table).isSome := by
  unfold schemaTable tablePath find
  cases v2 with
  | false =>
    simp only [member?_eq_at?, Bool.false_eq_true, if_false, List.foldlM_cons, List.foldlM_nil]
    cases hschemas : (doc.graph.at? doc.root (.key "components")).bind
        (doc.graph.at? · (.key "schemas")) with
    | none => simp [hschemas]
    | some schemas =>
      simp only [Option.bind_eq_bind, hschemas, pure_bind, Option.pure_def, Option.bind_fun_some,
        Option.some.injEq]
      exact ok_iff_of_object? (fun _ h => by rw [h]; rfl) fun h => by rw [h]; rfl
  | true =>
    simp only [member?_eq_at?, if_true]
    cases hroot : doc.graph.object? doc.root with
    | none =>
      have hat : doc.graph.at? doc.root (.key "definitions") = none := by
        rw [← member?_eq_at?, Graph.member?, hroot, Option.bind_none]
      simp only [hat, bind_ok_iff, throw_ne_ok, false_and, exists_false, false_iff]
      rintro ⟨h, hobject⟩
      obtain rfl := Option.some.inj h
      rw [hroot] at hobject
      cases hobject
    | some members =>
      cases hat : doc.graph.at? doc.root (.key "definitions") with
      | none =>
        simp only [Option.isSome_none, Bool.false_eq_true, if_false, List.foldlM_nil, pure_bind,
          Option.pure_def, Option.getD_none, Option.some.injEq]
        exact ok_iff_of_object? (fun _ h => by rw [h]; rfl) fun h => by rw [h]; rfl
      | some definitions =>
        simp only [hat, Option.isSome_some, if_true, List.foldlM_cons, List.foldlM_nil,
          Option.bind_eq_bind, Option.bind_some, pure_bind, Option.pure_def, Option.getD_some,
          Option.some.injEq]
        exact ok_iff_of_object? (fun _ h => by rw [h]; rfl) fun h => by rw [h]; rfl

theorem Alike.tablePath (h : doc.Alike doc') (v2 : Bool) : doc'.tablePath v2 = doc.tablePath v2 := by
  have hat := h.corresponds.at? (together_root doc doc') (.key "definitions")
  unfold Document.tablePath
  generalize doc.graph.at? doc.root (.key "definitions") = a,
    doc'.graph.at? doc'.root (.key "definitions") = b at hat
  cases hat <;> rfl

/-- Documents that are read alike have their definitions in the same place. -/
theorem Alike.schemaTable (h : doc.Alike doc') (htable : doc.schemaTable v2 = .ok table) :
    ∃ table', doc'.schemaTable v2 = .ok table' ∧ doc.find (doc.tablePath v2) = some table ∧
      doc'.find (doc.tablePath v2) = some table' := by
  obtain ⟨hfind, hobject⟩ := schemaTable_ok_iff.mp htable
  obtain ⟨table', hfind'⟩ := h.exists_find hfind
  have hobject' := h.corresponds.isSome_object? (.inr ⟨_, hfind, hfind'⟩)
  refine ⟨table', schemaTable_ok_iff.mpr ⟨?_, hobject'.symm.trans hobject⟩, hfind, hfind'⟩
  rw [h.tablePath, hfind']

theorem Alike.stamp (h : doc.Alike doc') (hs : doc.stamp v2 = .ok marked) :
    ∃ marked', doc'.stamp v2 = .ok marked' := by
  obtain ⟨table, htable, -⟩ := stamp_ok_iff.mp hs
  obtain ⟨table', htable', -, -⟩ := h.schemaTable htable
  exact ⟨_, stamp_ok_iff.mpr ⟨table', htable', rfl⟩⟩

/-! ### Marks in trees -/

section

variable {i j : Nat} {path place : List Slot} {table' : Value} {name : String}

theorem Treelike.distinct_members (htree : doc.Treelike) (hdoc : doc.WellFormed) (v : Value) :
    (doc.graph.members v).Pairwise fun d e => ∀ k, d.2 = .node k → e.2 ≠ .node k := by
  have hkeys := List.pairwise_map.mp (Graph.nodup_members hdoc.graph v)
  refine hkeys.imp_of_mem fun {d e} hd he hne k hdk hek => hne ?_
  obtain ⟨i, rfl, hid⟩ := exists_holds (hdk ▸ Graph.at?_of_mem_members hdoc.graph hd)
  obtain ⟨-, hslot⟩ := htree.unique hid (hek ▸ Graph.at?_of_mem_members hdoc.graph he)
  exact Slot.key.inj hslot

theorem mem_members_of_at? {g : Graph} {v w : Value} {key : String} (h : g.at? v (.key key) = some w) :
    (key, w) ∈ g.members v := by
  rw [← member?_eq_at?, Graph.member?] at h
  obtain ⟨members, hmembers, hlookup⟩ := Option.bind_eq_some_iff.mp h
  rw [Graph.members, hmembers, Option.getD_some]
  exact mem_of_lookup hlookup

/-- Of a container that marking reaches, the definition's own mark is all that changes. -/
theorem Treelike.node?_stamp (htree : doc.Treelike) (hdoc : doc.WellFormed)
    (hs : doc.stamp v2 = .ok marked) (v : Value) :
    marked.graph.node? v = doc.graph.node? v ∨
      ∃ name, marked.graph.node? v = (doc.graph.node? v).map (Node.marked name) := by
  obtain ⟨table, -, rfl⟩ := stamp_ok_iff.mp hs
  cases v with
  | scalar s => exact .inl rfl
  | node k =>
    by_cases hdefinition : ∃ name, (name, .node k) ∈ doc.graph.members table
    · obtain ⟨name, hmem⟩ := hdefinition
      exact .inr ⟨name, Graph.node?_marks (htree.distinct_members hdoc table) hmem _⟩
    · have hnone : ∀ d ∈ doc.graph.members table, Value.node k ≠ d.2 :=
        fun d hd e => hdefinition ⟨d.1, e ▸ hd⟩
      exact .inl (Graph.node?_marks_of_notMem hnone _)

/-- What stands in the place of a definition is the definition of the same key. -/
theorem Treelike.definition (htree : doc.Treelike) (hdoc : doc.WellFormed)
    (htable : doc.find place = some table) (htable' : doc'.find place = some table')
    (hi : doc.find path = some (.node i)) (hj : doc'.find path = some (.node j))
    (hmem : (name, .node i) ∈ doc.graph.members table) :
    (name, .node j) ∈ doc'.graph.members table' := by
  have hat := Graph.at?_of_mem_members hdoc.graph hmem
  obtain rfl := htree.path_unique hi (find_snoc.mpr ⟨table, htable, hat⟩)
  obtain ⟨v, hv, hat'⟩ := find_snoc.mp hj
  obtain rfl := Option.some.inj (htable'.symm.trans hv)
  exact mem_members_of_at? hat'

/-- Trees that are read alike stay so when they are marked. -/
theorem Alike.corresponds_stamp (h : doc.Alike doc') (hdoc : doc.WellFormed)
    (hdoc' : doc'.WellFormed) (htree : doc.Treelike) (htree' : doc'.Treelike)
    (hs : doc.stamp v2 = .ok marked) (hs' : doc'.stamp v2 = .ok marked') :
    marked.graph.Corresponds marked'.graph (doc.Together doc') := by
  obtain ⟨table, htable, rfl⟩ := stamp_ok_iff.mp hs
  obtain ⟨table', htable', hplace, hplace'⟩ := h.schemaTable htable
  obtain ⟨_, hsame, rfl⟩ := stamp_ok_iff.mp hs'
  obtain rfl := Except.ok.inj (htable'.symm.trans hsame)
  refine ⟨h.corresponds.scalar, ?_⟩
  rintro v w (⟨s, rfl, rfl⟩ | ⟨path, hv, hw⟩)
  · exact .scalar
  cases h.matches_find hv hw with
  | scalar => exact .scalar
  | @node i j hij =>
    apply MatchesAlike.node
    unfold Graph.plain at hij ⊢
    by_cases hdefinition : ∃ name, (name, .node i) ∈ doc.graph.members table
    · obtain ⟨name, hmem⟩ := hdefinition
      have hmem' := htree.definition hdoc hplace hplace' hv hw hmem
      rw [Graph.node?_marks (htree.distinct_members hdoc table) hmem,
        Graph.node?_marks (htree'.distinct_members hdoc' table') hmem']
      generalize doc.graph.node? (.node i) = m, doc'.graph.node? (.node j) = n at hij ⊢
      cases hij with
      | none => exact .none
      | some hmn => exact .some (hmn.marked h.corresponds.scalar name)
    · have hnone : ∀ d ∈ doc.graph.members table, Value.node i ≠ d.2 :=
        fun d hd e => hdefinition ⟨d.1, e ▸ hd⟩
      have hnone' : ∀ d ∈ doc'.graph.members table', Value.node j ≠ d.2 :=
        fun d hd e => hdefinition ⟨d.1, htree'.definition hdoc' hplace' hplace hw hv (e ▸ hd)⟩
      rw [Graph.node?_marks_of_notMem hnone, Graph.node?_marks_of_notMem hnone']
      exact hij

end

end Document

end ApiRecords
