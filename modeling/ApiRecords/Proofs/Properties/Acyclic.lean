import ApiRecords.Proofs.Mirrors
import ApiRecords.Proofs.Reachability

/-!
Values that are read out as trees without back edges. Such a tree is made of those of the parts, and
stays the same where containers are added to the graph.
-/

namespace ApiRecords

theorem Tree.cyclicItems_eq_any (ts : List Tree) : cyclicItems ts = ts.any cyclic := by
  induction ts with
  | nil => rfl
  | cons t ts ih => rw [cyclicItems, ih, List.any_cons]

theorem Tree.cyclicMembers_eq_any (ts : List (String × Tree)) :
    cyclicMembers ts = ts.any (·.2.cyclic) := by
  induction ts with
  | nil => rfl
  | cons m ts ih => rw [cyclicMembers, ih, List.any_cons]

namespace Node

/-- The tree of a container, its parts being read out by `read`. -/
def toTree (read : Value → Tree) : Node → Tree
  | array items => .array (items.map read)
  | object members => .object (members.map fun (k, v) => (k, read v))

variable {read read' : Value → Tree} {n n' : Node}

theorem cyclic_toTree : (n.toTree read).cyclic = false ↔ ∀ w ∈ n.values, (read w).cyclic = false := by
  cases n with
  | array items => simp [toTree, values, Tree.cyclic, Tree.cyclicItems_eq_any]
  | object members =>
    rw [values, List.forall_mem_map]
    simp [toTree, Tree.cyclic, Tree.cyclicMembers_eq_any]

theorem toTree_congr (h : ∀ w ∈ n.values, read w = read' w) : n.toTree read = n.toTree read' := by
  cases n with
  | array items => exact congrArg Tree.array (List.map_congr_left h)
  | object members =>
    refine congrArg Tree.object (List.map_congr_left fun m hm => ?_)
    exact congrArg (m.1, ·) (h m.2 (List.mem_map_of_mem hm))

/-- Containers read out as one tree have the same slots, with values read out as one. -/
theorem toTree_eq_iff :
    n.toTree read = n'.toTree read' ↔ n.Rel (fun v w => read v = read' w) n' := by
  constructor
  · intro h
    cases n with
    | array items =>
      cases n' with
      | array items' =>
        exact .array (map_eq_map_iff_forall₂.mp (Tree.array.inj h))
      | object members' => cases h
    | object members =>
      cases n' with
      | array items' => cases h
      | object members' =>
        have h := map_eq_map_iff_forall₂.mp (Tree.object.inj h)
        exact .object (h.imp fun _ _ => Prod.mk.inj)
  · intro h
    cases h with
    | array h => exact congrArg Tree.array (map_eq_map_iff_forall₂.mpr h)
    | object h =>
      refine congrArg Tree.object (map_eq_map_iff_forall₂.mpr ?_)
      exact h.imp fun _ _ hmn => Prod.ext hmn.1 hmn.2

end Node

namespace Graph

variable {g g' : Graph} {v w : Value} {n : Node} {id depth depth' : Nat} {above above' path : List Nat}

/-- Whether a graph holds all that another one does. -/
structure Extends (g g' : Graph) : Prop where
  size : g.size ≤ g'.size
  node : ∀ v, g.Has v → g'.node? v = g.node? v

theorem Extends.refl (g : Graph) : g.Extends g := ⟨Nat.le_refl _, fun _ _ => rfl⟩

theorem Extends.trans {g'' : Graph} (h : g.Extends g') (h' : g'.Extends g'') : g.Extends g'' where
  size := Nat.le_trans h.size h'.size
  node v hv := by rw [h'.node v (has_of_size hv h.size), h.node v hv]

theorem extends_add (g : Graph) (n : Node) : g.Extends (g.add n).1 where
  size := by simp
  node v hv := node?_add_of_ne (fun heq => Nat.lt_irrefl _ (heq ▸ hv)) n

theorem treeFrom_open (h : id ∈ above) (g : Graph) (depth : Nat) :
    (g.treeFrom depth above (.node id)).cyclic = true := by
  cases depth <;> rw [treeFrom, if_pos h, Tree.cyclic]

theorem treeFrom_node (hn : g.node? (.node id) = some n) (hid : id ∉ above) (depth : Nat) :
    g.treeFrom (depth + 1) above (.node id) = n.toTree (g.treeFrom depth (id :: above)) := by
  have hn : g.nodes[id]? = some n := hn
  rw [treeFrom, if_neg hid, hn]
  cases n <;> rfl

/-- A tree without back edges is read out the same by whoever has met fewer containers, as far as those
count that were there before others were added. -/
theorem treeFrom_extends (hg : g.WellFormed) (h : g.Extends g') (hdepth : (g.closed above).card ≤ depth)
    (hle : depth ≤ depth') (hsub : ∀ id ∈ above', id < g.size → id ∈ above) (hv : g.Has v)
    (hacyclic : (g.treeFrom depth above v).cyclic = false) :
    g'.treeFrom depth' above' v = g.treeFrom depth above v := by
  induction depth generalizing depth' above above' v with
  | zero =>
    cases v with
    | scalar s => cases depth' <;> rfl
    | node id =>
      have hid : id ∉ above := fun hmem => by simp [treeFrom_open hmem] at hacyclic
      have hclosed : id ∈ g.closed above :=
        Finset.mem_filter.mpr ⟨Finset.mem_range.mpr hv, hid⟩
      exact absurd (Finset.card_pos.mpr ⟨id, hclosed⟩) (Nat.not_lt_of_le hdepth)
  | succ depth ih =>
    cases v with
    | scalar s => cases depth' <;> rfl
    | node id =>
      obtain ⟨depth', rfl⟩ : ∃ k, depth' = k + 1 := Nat.exists_eq_succ_of_ne_zero (by omega)
      obtain ⟨n, hn⟩ := node?_of_has hv
      have hid : id ∉ above := fun hmem => by simp [treeFrom_open hmem] at hacyclic
      have hid' : id ∉ above' := fun hmem => hid (hsub id hmem hv)
      have hn' : g'.node? (.node id) = some n := by rw [h.node _ hv, hn]
      rw [treeFrom_node hn hid] at hacyclic ⊢
      rw [treeFrom_node hn' hid']
      refine Node.toTree_congr fun w hw => ih ?_ (Nat.le_of_succ_le_succ hle) ?_
        (hg.has_of_mem_values hn hw) (Node.cyclic_toTree.mp hacyclic w hw)
      · have hlt := closed_cons_card_lt hid hv
        omega
      · intro k hk hlt
        rcases List.mem_cons.mp hk with rfl | hk
        · exact List.mem_cons_self
        · exact List.mem_cons_of_mem _ (hsub k hk hlt)

/-- Whether a value is read out, below the containers `path`, without meeting a container again. -/
def Clear (g : Graph) (path : List Nat) (v : Value) : Prop :=
  (g.treeFrom g.size path v).cyclic = false

theorem clear_nil_iff : g.Clear [] v ↔ (g.tree v).cyclic = false := Iff.rfl

namespace Clear

theorem notMem (h : g.Clear path (.node id)) : id ∉ path := by
  intro hmem
  rw [Clear, treeFrom_open hmem] at h
  cases h

variable (hg : g.WellFormed)

include hg

theorem tree_eq (hv : g.Has v) (h : g.Clear path v) : g.treeFrom g.size path v = g.tree v :=
  (treeFrom_extends hg (.refl g) (closed_card_le g path) (Nat.le_refl _)
    (fun _ hmem => absurd hmem List.not_mem_nil) hv h).symm

theorem nil (hv : g.Has v) (h : g.Clear path v) : g.Clear [] v := by
  rw [clear_nil_iff, ← tree_eq hg hv h]
  exact h

/-- A part is read out the same below any of the containers that are open around it. -/
theorem treeFrom_part (h : g.Clear path (.node id)) (hn : g.node? (.node id) = some n)
    (hw : w ∈ n.values) : ∃ depth, g.size = depth + 1 ∧
      (g.treeFrom depth (id :: path) w).cyclic = false ∧
      ∀ above ⊆ id :: path, g.treeFrom g.size above w = g.treeFrom depth (id :: path) w := by
  have hid : id < g.size := has_of_node? hn
  obtain ⟨depth, hsize⟩ : ∃ depth, g.size = depth + 1 :=
    Nat.exists_eq_succ_of_ne_zero (Nat.ne_zero_of_lt hid)
  have hcard : (g.closed (id :: path)).card ≤ depth := by
    have hlt := closed_cons_card_lt h.notMem hid
    have hle := g.closed_card_le path
    omega
  have hpart : (g.treeFrom depth (id :: path) w).cyclic = false := by
    have hnot := h.notMem
    rw [Clear, hsize, treeFrom_node hn hnot] at h
    exact Node.cyclic_toTree.mp h w hw
  exact ⟨depth, hsize, hpart, fun above habove => treeFrom_extends hg (.refl g) hcard (by omega)
    (fun k hk _ => habove hk) (hg.has_of_mem_values hn hw) hpart⟩

theorem part (h : g.Clear path (.node id)) (hn : g.node? (.node id) = some n) (hw : w ∈ n.values) :
    g.Clear (id :: path) w := by
  obtain ⟨depth, -, hacyclic, heq⟩ := treeFrom_part hg h hn hw
  rw [Clear, heq _ (List.Subset.refl _)]
  exact hacyclic

theorem tree_node (h : g.Clear [] (.node id)) (hn : g.node? (.node id) = some n) :
    g.tree (.node id) = n.toTree g.tree := by
  have hid : id < g.size := has_of_node? hn
  obtain ⟨depth, hsize⟩ : ∃ depth, g.size = depth + 1 :=
    Nat.exists_eq_succ_of_ne_zero (Nat.ne_zero_of_lt hid)
  rw [Graph.tree, hsize, treeFrom_node hn h.notMem]
  refine Node.toTree_congr fun w hw => ?_
  obtain ⟨depth', hsize', -, heq⟩ := treeFrom_part hg h hn hw
  obtain rfl : depth = depth' := by omega
  exact (heq [] (List.nil_subset _)).symm

end Clear

/-- What is added to a graph leaves a tree without back edges as it was, also below added containers. -/
theorem Extends.treeFrom (h : g.Extends g') (hg : g.WellFormed) (hv : g.Has v)
    (hacyclic : (g.tree v).cyclic = false) (hdepth : g.size ≤ depth)
    (habove : ∀ id ∈ above, g.size ≤ id) : g'.treeFrom depth above v = g.tree v :=
  treeFrom_extends hg h (closed_card_le g []) hdepth
    (fun id hid hlt => absurd hlt (Nat.not_lt_of_le (habove id hid))) hv hacyclic

theorem Extends.treeFrom_new (h : g.Extends g') (hg : g.WellFormed)
    (hn : g'.node? (.node id) = some n) (hnew : g.size ≤ id)
    (hparts : ∀ w ∈ n.values, g.Has w ∧ (g.tree w).cyclic = false) (hid : id ∉ path)
    (hpath : ∀ k ∈ path, g.size ≤ k) : g'.treeFrom g'.size path (.node id) = n.toTree g.tree := by
  have hlt : id < g'.size := has_of_node? hn
  obtain ⟨depth, hsize⟩ : ∃ depth, g'.size = depth + 1 :=
    Nat.exists_eq_succ_of_ne_zero (Nat.ne_zero_of_lt hlt)
  rw [hsize, treeFrom_node hn hid]
  refine Node.toTree_congr fun w hw => ?_
  exact h.treeFrom hg (hparts w hw).1 (hparts w hw).2 (by omega)
    (List.forall_mem_cons.mpr ⟨hnew, hpath⟩)

/-- Values of two graphs that are read out as one tree, without meeting a container again below those
of the two paths. -/
structure SameTree (g g' : Graph) (path path' : List Nat) (v w : Value) : Prop where
  has : g.Has v
  has' : g'.Has w
  clear : g.Clear path v
  clear' : g'.Clear path' w
  tree : g'.tree w = g.tree v

namespace SameTree

variable {path' : List Nat} (hg : g.WellFormed) (hg' : g'.WellFormed)

theorem scalar (s : Scalar) : SameTree g g' path path' (.scalar s) (.scalar s) := by
  have hclear : ∀ (g : Graph) path, g.Clear path (.scalar s) := by
    intro g path
    unfold Clear
    cases g.size <;> rfl
  exact ⟨trivial, trivial, hclear g path, hclear g' path', by simp⟩

include hg hg'

theorem nil (h : SameTree g g' path path' v w) : SameTree g g' [] [] v w :=
  ⟨h.has, h.has', h.clear.nil hg h.has, h.clear'.nil hg' h.has', h.tree⟩

/-- Values read out as one tree are one scalar, or containers of such values. -/
theorem cases (h : SameTree g g' path path' v w) :
    (∃ s, v = .scalar s ∧ w = .scalar s) ∨ ∃ id id' n n', v = .node id ∧ w = .node id' ∧
      g.node? v = some n ∧ g'.node? w = some n' ∧
      n.Rel (SameTree g g' (id :: path) (id' :: path')) n' := by
  have htree := h.tree
  have hopen : ∀ (n : Node) read s, n.toTree read ≠ .scalar s := by
    intro n read s
    cases n <;> simp [Node.toTree]
  cases v with
  | scalar s =>
    cases w with
    | scalar t =>
      rw [tree_scalar, tree_scalar, Tree.scalar.injEq] at htree
      exact .inl ⟨s, rfl, congrArg Value.scalar htree⟩
    | node id' =>
      obtain ⟨n', hn'⟩ := node?_of_has h.has'
      rw [tree_scalar, (h.clear'.nil hg' h.has').tree_node hg' hn'] at htree
      exact absurd htree (hopen _ _ _)
  | node id =>
    obtain ⟨n, hn⟩ := node?_of_has h.has
    rw [(h.clear.nil hg h.has).tree_node hg hn] at htree
    cases w with
    | scalar t =>
      rw [tree_scalar] at htree
      exact absurd htree.symm (hopen _ _ _)
    | node id' =>
      obtain ⟨n', hn'⟩ := node?_of_has h.has'
      rw [(h.clear'.nil hg' h.has').tree_node hg' hn'] at htree
      refine .inr ⟨id, id', n, n', rfl, rfl, hn, hn', ?_⟩
      refine (Node.toTree_eq_iff.mp htree.symm).imp fun a ha b hb hab => ?_
      exact ⟨hg.has_of_mem_values hn ha, hg'.has_of_mem_values hn' hb, h.clear.part hg hn ha,
        h.clear'.part hg' hn' hb, hab.symm⟩

/-- Values added to two graphs are read out as one tree where their parts are. -/
theorem added {g₁ g₁' : Graph} {n n' : Node} {id id' : Nat} (hext : g.Extends g₁)
    (hext' : g'.Extends g₁') (hn : g₁.node? (.node id) = some n) (hn' : g₁'.node? (.node id') = some n')
    (hnew : g.size ≤ id) (hnew' : g'.size ≤ id') (hrel : n.Rel (SameTree g g' [] []) n')
    (hid : id ∉ path) (hid' : id' ∉ path') (hpath : ∀ k ∈ path, g.size ≤ k)
    (hpath' : ∀ k ∈ path', g'.size ≤ k) :
    SameTree g₁ g₁' path path' (.node id) (.node id') := by
  have hparts : ∀ w ∈ n.values, g.Has w ∧ (g.tree w).cyclic = false := fun w hw => by
    obtain ⟨_, hsame⟩ := exists_of_forall₂ hrel.values w hw
    exact ⟨hsame.has, hsame.clear⟩
  have hparts' : ∀ w ∈ n'.values, g'.Has w ∧ (g'.tree w).cyclic = false := fun w hw => by
    obtain ⟨_, hsame⟩ := exists_of_forall₂ hrel.values.flip w hw
    exact ⟨hsame.has', hsame.clear'⟩
  have hread : ∀ {path : List Nat}, id ∉ path → (∀ k ∈ path, g.size ≤ k) →
      g₁.treeFrom g₁.size path (.node id) = n.toTree g.tree := hext.treeFrom_new hg hn hnew hparts
  have hread' : ∀ {path : List Nat}, id' ∉ path → (∀ k ∈ path, g'.size ≤ k) →
      g₁'.treeFrom g₁'.size path (.node id') = n'.toTree g'.tree :=
    hext'.treeFrom_new hg' hn' hnew' hparts'
  have htree : n.toTree g.tree = n'.toTree g'.tree :=
    Node.toTree_eq_iff.mpr (hrel.imp fun _ _ _ _ hab => hab.tree.symm)
  refine ⟨has_of_node? hn, has_of_node? hn', ?_, ?_, ?_⟩
  · rw [Clear, hread hid hpath, Node.cyclic_toTree]
    exact fun w hw => (hparts w hw).2
  · rw [Clear, hread' hid' hpath', Node.cyclic_toTree]
    exact fun w hw => (hparts' w hw).2
  · rw [Graph.tree, Graph.tree, hread' List.not_mem_nil (by simp), hread List.not_mem_nil (by simp),
      htree]

theorem extend {g₁ g₁' : Graph} (h : SameTree g g' [] [] v w) (hext : g.Extends g₁)
    (hext' : g'.Extends g₁') (hpath : ∀ k ∈ path, g.size ≤ k) (hpath' : ∀ k ∈ path', g'.size ≤ k) :
    SameTree g₁ g₁' path path' v w := by
  have hread : ∀ {path : List Nat}, (∀ k ∈ path, g.size ≤ k) →
      g₁.treeFrom g₁.size path v = g.tree v := hext.treeFrom hg h.has h.clear hext.size
  have hread' : ∀ {path : List Nat}, (∀ k ∈ path, g'.size ≤ k) →
      g₁'.treeFrom g₁'.size path w = g'.tree w := hext'.treeFrom hg' h.has' h.clear' hext'.size
  refine ⟨has_of_size h.has hext.size, has_of_size h.has' hext'.size, ?_, ?_, ?_⟩
  · rw [Clear, hread hpath]
    exact h.clear
  · rw [Clear, hread' hpath']
    exact h.clear'
  · rw [Graph.tree, Graph.tree, hread (by simp), hread' (by simp), h.tree]

end SameTree

theorem mirrors_sameTree (hg : g.WellFormed) (hg' : g'.WellFormed) :
    Mirrors (SameTree g g' [] []) g g' where
  literal := .scalar
  tree h := h.tree
  scalar_iff h s := by
    rcases h.cases hg hg' with ⟨t, rfl, rfl⟩ | ⟨_, _, _, _, rfl, rfl, -⟩
    · exact Iff.rfl
    · simp
  node h := by
    rcases h.cases hg hg' with ⟨t, rfl, rfl⟩ | ⟨_, _, n, n', rfl, rfl, hn, hn', hrel⟩
    · exact .none
    · rw [hn, hn']
      exact .some (hrel.imp fun _ _ _ _ hab => hab.nil hg hg')

end Graph

end ApiRecords
