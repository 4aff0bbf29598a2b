import ApiRecords.Proofs.Locality
import ApiRecords.Proofs.Properties.Origins

/-!
What is read off the values of a document where containers have been added to it. They lead to none of
these, so that all is as before, also for values that lead back to themselves.
-/

namespace ApiRecords.Graph

variable {g g' : Graph} {v w : Value}

theorem WellFormed.has_of_leads (hg : g.WellFormed) (h : g.Leads v w) : g.Has w := by
  cases h with
  | properties | items => exact hg.has_get v _
  | member _ hn hw => exact hg.has_of_mem_values hn (Node.mem_values_of_mem_children hw)

theorem treeFrom_above {id : Nat} {above : List Nat} (hid : id ∈ above) (g : Graph) (depth : Nat) :
    g.treeFrom depth above (.node id) = .back (above.idxOf id + 1) := by
  cases depth <;> exact if_pos hid

namespace Extends

variable (h : g.Extends g') (hg : g.WellFormed)

include h hg

theorem treeFrom_any {depth depth' : Nat} {above : List Nat} (hdepth : (g.closed above).card ≤ depth)
    (hdepth' : (g.closed above).card ≤ depth') (hv : g.Has v) :
    g'.treeFrom depth' above v = g.treeFrom depth above v := by
  induction depth generalizing depth' above v with
  | zero =>
    cases v with
    | scalar s => cases depth' <;> rfl
    | node id =>
      have hid : id ∈ above := by
        by_contra hid
        have hclosed : id ∈ g.closed above := Finset.mem_filter.mpr ⟨Finset.mem_range.mpr hv, hid⟩
        exact absurd (Finset.card_pos.mpr ⟨id, hclosed⟩) (Nat.not_lt_of_le hdepth)
      rw [treeFrom_above hid, treeFrom_above hid]
  | succ depth ih =>
    cases v with
    | scalar s => cases depth' <;> rfl
    | node id =>
      by_cases hid : id ∈ above
      · rw [treeFrom_above hid, treeFrom_above hid]
      · obtain ⟨n, hn⟩ := node?_of_has hv
        have hlt := closed_cons_card_lt hid hv
        obtain ⟨depth', rfl⟩ : ∃ k, depth' = k + 1 := Nat.exists_eq_succ_of_ne_zero (by omega)
        rw [treeFrom_node hn hid, treeFrom_node ((h.node _ hv).trans hn) hid]
        exact Node.toTree_congr fun w hw => ih (by omega) (by omega) (hg.has_of_mem_values hn hw)

theorem tree (hv : g.Has v) : g'.tree v = g.tree v :=
  h.treeFrom_any hg (closed_card_le g []) (Nat.le_trans (closed_card_le g []) h.size) hv

theorem mirrors : Mirrors (fun v w => g.Has v ∧ w = v) g g' :=
  .of_kept (fun _ => trivial) (h.tree hg) h.node fun _ _ _ hn _ => hg.has_of_mem_values hn

theorem modelName (hv : g.Has v) : g'.modelName v = g.modelName v := (h.mirrors hg).modelName ⟨hv, rfl⟩

theorem kind (hv : g.Has v) : g'.kind v = g.kind v := (h.mirrors hg).kind ⟨hv, rfl⟩

theorem get (hv : g.Has v) (key : String) : g'.get v key = g.get v key :=
  ((h.mirrors hg).get ⟨hv, rfl⟩ key).2

theorem union (hv : g.Has v) : g'.union v = g.union v :=
  ((h.mirrors hg).union (v := v) ⟨hv, rfl⟩).eq_of_forall fun _ _ hu => hu.eq_of_forall fun _ _ hvw => hvw.2

theorem property (hv : g.Has v) (spell : String → String) (unions : List (String × List Tree))
    (key : String) (dependency : Option Dependency) :
    g'.property spell unions key v dependency = g.property spell unions key v dependency :=
  (h.mirrors hg).property ⟨hv, rfl⟩ ((h.mirrors hg).relatedType ⟨hv, rfl⟩ rfl rfl)

/-- The search goes on as before. Of the containers above the value, those that have been added do not
count. -/
theorem findFrom {path path' : List Nat} (hv : g.Has v) (hpath : ∀ id < g.size, id ∈ path' ↔ id ∈ path)
    (offset : Nat) : g'.findFrom g'.size path' offset v = g.findFrom g.size path offset v := by
  induction path, v using calls_induction (g := g) generalizing path' offset with
  | h path v ih =>
    rw [findFrom_size g', findFrom_size g]
    cases v with
    | scalar s => rfl
    | node id =>
      have hid : id ∈ path' ↔ id ∈ path := hpath id hv
      have hinner : ∀ w, id ∉ path → g.Leads (.node id) w → ∀ offset,
          g'.findFrom g'.size (id :: path') offset w = g.findFrom g.size (id :: path) offset w := by
        intro w hnot hleads offset
        refine ih id w (.below hnot hleads) (hg.has_of_leads hleads) (fun k hk => ?_) offset
        rw [List.mem_cons, List.mem_cons, hpath k hk]
      rw [findNode, findNode, h.kind hg hv]
      refine bind_congr fun kind hkind => ?_
      cases kind with
      | opaqueValue => rfl
      | model => simp only [h.modelName hg hv]
      | discriminatedUnion => simp only [unionFindings, h.union hg hv]
      | object =>
        by_cases hmem : id ∈ path
        · simp only [hid, hmem, if_true]
        · simp only [hid, hmem, if_false, h.get hg hv]
          exact hinner _ hmem (.properties hkind) offset
      | array =>
        by_cases hmem : id ∈ path
        · simp only [hid, hmem, if_true]
        · simp only [hid, hmem, if_false, h.get hg hv, hinner _ hmem (.items hkind)]
      | alternatives | mapping =>
        by_cases hmem : id ∈ path
        · simp only [hid, hmem, if_true]
        · obtain ⟨n, hn⟩ := node?_of_kind hkind (by decide)
          simp only [hid, hmem, if_false, h.node _ hv, hn, Option.map_some, Option.getD_some]
          rw [findMembers_congr fun m hm => hinner _ hmem (.member (by simp [hkind]) hn hm)]

end Extends

/-- Models are found in the document. -/
theorem WellFormed.has_of_findFrom (hg : g.WellFormed) (hv : g.Has v) {path : List Nat} {offset : Nat}
    {found : Findings} (h : g.findFrom g.size path offset v = .ok found) : ∀ m ∈ found.models, g.Has m := by
  have hreaches : ∀ {w}, g.Reaches v w → g.Has w := by
    intro w hw
    induction hw with
    | refl => exact hv
    | tail _ hleads _ => exact hg.has_of_leads hleads
  intro m hm
  rcases findFrom_models h hm with ⟨hreach, -⟩ | ⟨u, -, hkind, x, hx, hm⟩
  · exact hreaches hreach
  · obtain ⟨_, items, -, hitems, -⟩ := kind_union hkind
    rw [union_schemas hx hitems] at hm
    unfold Graph.array? at hitems
    split at hitems
    · rename_i hn
      cases hitems
      exact hg.has_of_mem_values hn hm
    · cases hitems

end ApiRecords.Graph
