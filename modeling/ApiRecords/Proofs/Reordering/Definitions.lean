import ApiRecords.Proofs.Discovery
import ApiRecords.Proofs.Locality
import ApiRecords.Proofs.Reordering.Marks

/-!
Documents whose definitions are put in another order. Definitions that do not lead back to where they
stand are described as before, so that the models are the same, in the other order.
-/

namespace ApiRecords

theorem lookup_perm {α : Type} {ms ns : List (String × α)} (h : ms.Perm ns)
    (hkeys : (ms.map Prod.fst).Nodup) (key : String) : ms.lookup key = ns.lookup key := by
  have hkeys' : (ns.map Prod.fst).Nodup := (h.map Prod.fst).nodup_iff.mp hkeys
  exact Option.ext fun v => ⟨fun hv => lookup_of_mem hkeys' (h.mem_iff.mp (mem_of_lookup hv)),
    fun hv => lookup_of_mem hkeys (h.mem_iff.mpr (mem_of_lookup hv))⟩

theorem lastNamed_of_mem {named : List (String × Value)} (h : (named.map Prod.fst).Nodup)
    {d : String × Value} (hd : d ∈ named) : lastNamed named d.1 = d.2 := by
  have hreverse : (named.reverse.map Prod.fst).Nodup := by
    rw [List.map_reverse]
    exact List.nodup_reverse.mpr h
  rw [lastNamed, lookup_of_mem hreverse (List.mem_reverse.mpr hd)]
  rfl

namespace Document

variable {doc : Document} {v2 : Bool} {id : Nat} {definitions members : List (String × Value)}

/-- Where no two definitions have one name, each of those that are named is a model. -/
theorem models_of_nodup (hdefinitions : doc.definitions v2 = .ok definitions)
    (htexts : doc.graph.NamedByTexts definitions)
    (hnames : ((doc.graph.named definitions).map Prod.fst).Nodup) :
    doc.models v2 =
      .ok ((doc.graph.named definitions).map fun d => (.text d.1, d.2)) := by
  rw [models_eq hdefinitions htexts, eraseDups_of_nodup hnames, List.map_map]
  refine congrArg Except.ok (List.map_congr_left fun d hd => ?_)
  exact congrArg (Scalar.text d.1, ·) (lastNamed_of_mem hnames hd)

/-- Whether the definitions of a document are the members of a container. -/
structure DefinedAt (doc : Document) (v2 : Bool) (id : Nat) (definitions : List (String × Value)) :
    Prop where
  table : doc.schemaTable v2 = .ok (.node id)
  members : doc.graph.object? (.node id) = some definitions
  keys : (definitions.map Prod.fst).Nodup

/-- The document with other members in a container. -/
def withMembers (doc : Document) (id : Nat) (members : List (String × Value)) : Document :=
  { doc with graph := doc.graph.replace id (.object members) }

namespace DefinedAt

variable (h : doc.DefinedAt v2 id definitions)

include h

theorem node? : doc.graph.node? (.node id) = some (.object definitions) := by
  have hmembers := h.members
  unfold Graph.object? at hmembers
  split at hmembers
  · rename_i hnode
    obtain rfl := Option.some.inj hmembers
    exact hnode
  · cases hmembers

theorem lt_size : id < doc.graph.size := Graph.lt_size_of_node? h.node?

theorem definitions_eq : doc.definitions v2 = .ok definitions := by
  simp [Document.definitions, h.table, h.members]

/-- What does not lead back to the definitions is the same whatever these are. -/
theorem sameOn (members : List (String × Value)) :
    Graph.SameOn (fun v => ¬ doc.graph.Encloses v (.node id)) doc.graph
      (doc.withMembers id members).graph :=
  doc.graph.sameOn_replace h.lt_size _

section

variable (hperm : members.Perm definitions)

include hperm

theorem at?_key (v : Value) (key : String) :
    (doc.withMembers id members).graph.at? v (.key key) = doc.graph.at? v (.key key) := by
  by_cases hv : v = .node id
  · rw [hv, Graph.at?, withMembers, Graph.node?_replace_self h.lt_size, Graph.at?, h.node?]
    exact (lookup_perm hperm.symm h.keys key).symm
  · rw [Graph.at?, withMembers, Graph.node?_replace_of_ne hv, Graph.at?]

theorem schemaTable_withMembers :
    (doc.withMembers id members).schemaTable v2 = .ok (.node id) := by
  obtain ⟨hfind, -⟩ := schemaTable_ok_iff.mp h.table
  have hroot : (doc.withMembers id members).root = doc.root := rfl
  have hpath : (doc.withMembers id members).tablePath v2 = doc.tablePath v2 := by
    rw [tablePath, hroot, h.at?_key hperm, tablePath]
  refine schemaTable_ok_iff.mpr ⟨?_, ?_⟩
  · rw [hpath, ← hfind, find, find, hroot]
    unfold tablePath
    split
    · split <;> simp only [List.foldlM_cons, List.foldlM_nil, h.at?_key hperm]
    · simp only [List.foldlM_cons, List.foldlM_nil, h.at?_key hperm]
  · rw [Graph.object?, withMembers, Graph.node?_replace_self h.lt_size]
    rfl

theorem definitions_withMembers : (doc.withMembers id members).definitions v2 = .ok members := by
  have hmembers : (doc.withMembers id members).graph.object? (.node id) = some members := by
    rw [Graph.object?, withMembers, Graph.node?_replace_self h.lt_size]
  simp [Document.definitions, h.schemaTable_withMembers hperm, hmembers]

variable (hapart : ∀ d ∈ definitions, ¬ doc.graph.Encloses d.2 (.node id))

include hapart

/-- In another order the definitions have the same names. -/
theorem named_withMembers : ((doc.withMembers id members).graph.named members).Perm
    (doc.graph.named definitions) := by
  have hsame : (doc.withMembers id members).graph.named members = doc.graph.named members := by
    refine List.filterMap_congr fun d hd => ?_
    rw [Graph.nameOf?, (h.sameOn members).modelName (hapart d (hperm.mem_iff.mp hd)), Graph.nameOf?]
  rw [hsame]
  exact hperm.filterMap _

theorem namedByTexts_withMembers (htexts : doc.graph.NamedByTexts definitions) :
    (doc.withMembers id members).graph.NamedByTexts members := by
  intro d hd
  have hd := hperm.mem_iff.mp hd
  rw [(h.sameOn members).modelName (hapart d hd)]
  exact htexts d hd

/-- None of the models leads back to the definitions. -/
theorem apart_of_named : ∀ d ∈ (doc.withMembers id members).graph.named members,
    ¬ doc.graph.Encloses d.2 (.node id) := by
  intro d hd
  have hd := (h.named_withMembers hperm hapart).mem_iff.mp hd
  obtain ⟨definition, hdefinition, hd⟩ := List.mem_filterMap.mp hd
  obtain ⟨name, -, rfl⟩ := Option.map_eq_some_iff.mp hd
  exact hapart definition hdefinition

end

end DefinedAt

end Document

end ApiRecords
