import ApiRecords.Proofs.Loading
import Mathlib.Data.List.Induction

/-!
Where the containers of a tree come to stand in its document: each in one place, below a container
that was added before it.
-/

namespace ApiRecords

namespace Graph

/-- Whether the container `k` is at a slot of the container `i`. -/
def Holds (g : Graph) (i : Nat) (slot : Slot) (k : Nat) : Prop :=
  g.at? (.node i) slot = some (.node k)

/-- The containers added to `g` on the way to `g'` hang below `roots`, each in one place. -/
structure Hangs (g g' : Graph) (roots : List Value) : Prop where
  size : g.size ≤ g'.size
  kept : ∀ i < g.size, g'.node? (.node i) = g.node? (.node i)
  down : ∀ {i slot k}, g.size ≤ i → g'.Holds i slot k → i < k ∧ k < g'.size
  unique : ∀ {i j slot slot' k}, g.size ≤ i → g.size ≤ j → g'.Holds i slot k →
    g'.Holds j slot' k → i = j ∧ slot = slot'
  added : ∀ {k}, .node k ∈ roots → g.size ≤ k ∧ k < g'.size
  top : ∀ {k}, .node k ∈ roots → ∀ {i slot}, g.size ≤ i → ¬ g'.Holds i slot k
  distinct : roots.Pairwise fun v w => ∀ k, v = .node k → w ≠ .node k
  cover : ∀ {k}, g.size ≤ k → k < g'.size →
    .node k ∈ roots ∨ ∃ i slot, g.size ≤ i ∧ g'.Holds i slot k

theorem lt_size_of_holds {g : Graph} {i k : Nat} {slot : Slot} (h : g.Holds i slot k) : i < g.size :=
  has_of_at? h

namespace Hangs

variable {g g' g'' : Graph} {v : Value} {vs ws : List Value} {n : Node} {i k : Nat} {slot : Slot}

theorem nil (g : Graph) : Hangs g g [] where
  size := Nat.le_refl _
  kept _ _ := rfl
  down hi h := absurd (lt_size_of_holds h) (Nat.not_lt_of_le hi)
  unique hi _ h _ := absurd (lt_size_of_holds h) (Nat.not_lt_of_le hi)
  added hk := absurd hk List.not_mem_nil
  top hk := absurd hk List.not_mem_nil
  distinct := .nil
  cover hk hlt := absurd hlt (Nat.not_lt_of_le hk)

theorem holds_iff (h : Hangs g g' vs) (hi : i < g.size) : g'.Holds i slot k ↔ g.Holds i slot k := by
  unfold Holds at?
  rw [h.kept i hi]

theorem holds_cases (h : Hangs g g' vs) (hik : g'.Holds i slot k) : g.Holds i slot k ∨ g.size ≤ i :=
  (Nat.lt_or_ge i g.size).imp_left fun hi => (h.holds_iff hi).mp hik

theorem append (h : Hangs g g' vs) (h' : Hangs g' g'' ws) : Hangs g g'' (vs ++ ws) where
  size := Nat.le_trans h.size h'.size
  kept i hi := by rw [h'.kept i (Nat.lt_of_lt_of_le hi h.size), h.kept i hi]
  down := by
    intro i slot k hi hik
    rcases h'.holds_cases hik with hik' | hge
    · exact (h.down hi hik').imp_right fun hk => Nat.lt_of_lt_of_le hk h'.size
    · exact h'.down hge hik
  unique := by
    intro i j slot slot' k hi hj hik hjk
    rcases h'.holds_cases hik with hik' | hge <;> rcases h'.holds_cases hjk with hjk' | hge'
    · exact h.unique hi hj hik' hjk'
    · have hk := (h.down hi hik').2
      have hk' := (h'.down hge' hjk).1
      omega
    · have hk := (h.down hj hjk').2
      have hk' := (h'.down hge hik).1
      omega
    · exact h'.unique hge hge' hik hjk
  added := by
    intro k hk
    rcases List.mem_append.mp hk with hk | hk
    · exact (h.added hk).imp_right fun hlt => Nat.lt_of_lt_of_le hlt h'.size
    · exact (h'.added hk).imp_left fun hge => Nat.le_trans h.size hge
  top := by
    intro k hk i slot hi hik
    rcases List.mem_append.mp hk with hk | hk <;> rcases h'.holds_cases hik with hik' | hge
    · exact h.top hk hi hik'
    · have hlt := (h.added hk).2
      have hdown := (h'.down hge hik).1
      omega
    · have hge := (h'.added hk).1
      have hdown := (h.down hi hik').2
      omega
    · exact h'.top hk hge hik
  distinct := by
    refine List.pairwise_append.mpr ⟨h.distinct, h'.distinct, ?_⟩
    rintro v hv w hw k rfl rfl
    have hlt := (h.added hv).2
    have hge := (h'.added hw).1
    omega
  cover := by
    intro k hk hlt
    by_cases hk' : k < g'.size
    · rcases h.cover hk hk' with hroot | ⟨i, slot, hi, hik⟩
      · exact .inl (List.mem_append_left _ hroot)
      · exact .inr ⟨i, slot, hi, (h'.holds_iff (lt_size_of_holds hik)).mpr hik⟩
    · rcases h'.cover (Nat.le_of_not_lt hk') hlt with hroot | ⟨i, slot, hi, hik⟩
      · exact .inl (List.mem_append_right _ hroot)
      · exact .inr ⟨i, slot, Nat.le_trans h.size hi, hik⟩

/-- What is held after a container was given its parts. -/
theorem holds_replace {n₀ : Node} (h : Hangs (g.add n₀).1 g' vs) (hi : g.size ≤ i) :
    (g'.replace g.size n).Holds i slot k ↔
      (i = g.size ∧ n.at? slot = some (.node k)) ∨ ((g.add n₀).1.size ≤ i ∧ g'.Holds i slot k) := by
  have hsize := h.size
  rw [size_add] at hsize ⊢
  unfold Holds at?
  by_cases hself : i = g.size
  · subst hself
    rw [node?_replace_self hsize, Option.bind_some]
    exact ⟨fun hat => .inl ⟨rfl, hat⟩, fun held => held.elim And.right fun held => by omega⟩
  · have hlt : g.size + 1 ≤ i := by omega
    rw [node?_replace_of_ne (by simpa using hself)]
    simp [hself, hlt]

/-- A container given its parts: each of them at one slot. -/
theorem container {n₀ : Node} (h : Hangs (g.add n₀).1 g' vs)
    (hparts : ∀ slot k, n.at? slot = some (.node k) → .node k ∈ vs)
    (hslots : ∀ k, .node k ∈ vs → ∃ slot, n.at? slot = some (.node k))
    (honce : ∀ slot slot' k, n.at? slot = some (.node k) → n.at? slot' = some (.node k) →
      slot = slot') : Hangs g (g'.replace g.size n) [.node g.size] := by
  have hsize := h.size
  rw [size_add] at hsize
  have hpart : ∀ {slot k}, n.at? slot = some (.node k) → g.size < k ∧ k < g'.size := by
    intro slot k hat
    have hk := h.added (hparts slot k hat)
    rwa [size_add] at hk
  have hroot : ∀ {k}, Value.node k ∈ [Value.node g.size] → k = g.size :=
    fun hk => Value.node.inj (List.mem_singleton.mp hk)
  exact {
    size := by
      rw [size_replace]
      omega
    kept := by
      intro i hi
      have hne : Value.node i ≠ .node g.size := by simpa using Nat.ne_of_lt hi
      rw [node?_replace_of_ne hne, h.kept i (by rw [size_add]; omega), node?_add_of_ne hne]
    down := by
      intro i slot k hi hik
      rw [size_replace]
      rcases (h.holds_replace hi).mp hik with ⟨rfl, hat⟩ | ⟨hi, hik⟩
      · exact hpart hat
      · exact h.down hi hik
    unique := by
      intro i j slot slot' k hi hj hik hjk
      rcases (h.holds_replace hi).mp hik with ⟨rfl, hat⟩ | ⟨hi, hik⟩ <;>
        rcases (h.holds_replace hj).mp hjk with ⟨rfl, hat'⟩ | ⟨hj, hjk⟩
      · exact ⟨rfl, honce slot slot' k hat hat'⟩
      · exact absurd hjk (h.top (hparts slot k hat) hj)
      · exact absurd hik (h.top (hparts slot' k hat') hi)
      · exact h.unique hi hj hik hjk
    added := by
      intro k hk
      obtain rfl := hroot hk
      rw [size_replace]
      omega
    top := by
      intro k hk i slot hi hik
      obtain rfl := hroot hk
      rcases (h.holds_replace hi).mp hik with ⟨rfl, hat⟩ | ⟨hi', hik⟩
      · exact absurd (hpart hat).1 (Nat.lt_irrefl _)
      · exact absurd (h.down hi' hik).1 (Nat.not_lt_of_le hi)
    distinct := List.pairwise_singleton _ _
    cover := by
      intro k hk hlt
      by_cases hself : k = g.size
      · exact .inl (hself ▸ List.mem_cons_self)
      · rw [size_replace] at hlt
        rcases h.cover (by rw [size_add]; omega) hlt with hpart | ⟨i, slot, hi, hik⟩
        · obtain ⟨slot, hat⟩ := hslots k hpart
          exact .inr ⟨g.size, slot, Nat.le_refl _,
            (h.holds_replace (Nat.le_refl _)).mpr (.inl ⟨rfl, hat⟩)⟩
        · have hi' : g.size ≤ i := Nat.le_trans (by rw [size_add]; omega) hi
          exact .inr ⟨i, slot, hi', (h.holds_replace hi').mpr (.inr ⟨hi, hik⟩)⟩ }

theorem scalar (g : Graph) (a : Scalar) : Hangs g g [.scalar a] := by
  have h := nil g
  exact {
    size := h.size
    kept := h.kept
    down := h.down
    unique := h.unique
    added := fun hk => nomatch List.mem_singleton.mp hk
    top := fun hk => nomatch List.mem_singleton.mp hk
    distinct := List.pairwise_singleton _ _
    cover := fun hk hlt => absurd hlt (Nat.not_lt_of_le hk) }

theorem index_unique {R : Value → Value → Prop} (h : vs.Pairwise R) (hR : ¬ R v v) {i j : Nat}
    (hi : vs[i]? = some v) (hj : vs[j]? = some v) : i = j := by
  obtain ⟨hlt, hi⟩ := List.getElem?_eq_some_iff.mp hi
  obtain ⟨hlt', hj⟩ := List.getElem?_eq_some_iff.mp hj
  rw [List.pairwise_iff_getElem] at h
  rcases Nat.lt_trichotomy i j with hij | rfl | hji
  · have hRij := h i j hlt hlt' hij
    rw [hi, hj] at hRij
    exact absurd hRij hR
  · rfl
  · have hRji := h j i hlt' hlt hji
    rw [hi, hj] at hRji
    exact absurd hRji hR

theorem array (h : Hangs (g.add (.array [])).1 g' vs) :
    Hangs g (g'.replace g.size (.array vs)) [.node g.size] := by
  apply h.container
  · intro slot k hat
    cases slot with
    | key key => cases hat
    | index i => exact List.mem_of_getElem? hat
  · intro k hk
    obtain ⟨i, hi⟩ := List.mem_iff_getElem?.mp hk
    exact ⟨.index i, hi⟩
  · intro slot slot' k hat hat'
    cases slot with
    | key key => cases hat
    | index i =>
      cases slot' with
      | key key => cases hat'
      | index j => exact congrArg Slot.index (index_unique h.distinct (by simp) hat hat')

theorem object {members : List (String × Value)} (hkeys : (members.map Prod.fst).Nodup)
    (h : Hangs (g.add (.object [])).1 g' (members.map Prod.snd)) :
    Hangs g (g'.replace g.size (.object members)) [.node g.size] := by
  apply h.container
  · intro slot k hat
    cases slot with
    | index i => cases hat
    | key key => exact List.mem_map_of_mem (mem_of_lookup hat)
  · intro k hk
    obtain ⟨⟨key, v⟩, hm, rfl⟩ := List.mem_map.mp hk
    exact ⟨.key key, lookup_of_mem hkeys hm⟩
  · intro slot slot' k hat hat'
    cases slot with
    | index i => cases hat
    | key key =>
      cases slot' with
      | index i => cases hat'
      | key key' =>
        obtain ⟨i, hi⟩ := List.mem_iff_getElem?.mp (mem_of_lookup hat)
        obtain ⟨j, hj⟩ := List.mem_iff_getElem?.mp (mem_of_lookup hat')
        have hij : i = j := index_unique (v := .node k) h.distinct (by simp) (by simp [hi])
          (by simp [hj])
        subst hij
        rw [hi] at hj
        cases hj
        rfl

end Hangs

mutual

theorem hangs_load (above : List Nat) (g : Graph) : (t : Tree) → t.cyclic = false →
    t.distinctKeys → Hangs g (load above t g).1 [(load above t g).2]
  | .scalar s, _, _ => .scalar g s
  | .array items, hback, hkeys => by
    simp only [load]
    exact (hangs_loadItems _ _ items hback hkeys).array
  | .object members, hback, hkeys => by
    simp only [Tree.distinctKeys, Bool.and_eq_true, decide_eq_true_eq] at hkeys
    simp only [load]
    refine .object ?_ (hangs_loadMembers _ _ members hback hkeys.2)
    rw [keys_loadMembers]
    exact hkeys.1
  | .back _, hback, _ => by cases hback

theorem hangs_loadItems (above : List Nat) (g : Graph) : (ts : List Tree) →
    Tree.cyclicItems ts = false → Tree.distinctItems ts →
    Hangs g (loadItems above ts g).1 (loadItems above ts g).2
  | [], _, _ => .nil g
  | t :: ts, hback, hkeys => by
    simp only [Tree.cyclicItems, Bool.or_eq_false_iff] at hback
    simp only [Tree.distinctItems, Bool.and_eq_true] at hkeys
    exact (hangs_load above g t hback.1 hkeys.1).append
      (hangs_loadItems above _ ts hback.2 hkeys.2)

theorem hangs_loadMembers (above : List Nat) (g : Graph) : (ts : List (String × Tree)) →
    Tree.cyclicMembers ts = false → Tree.distinctMembers ts →
    Hangs g (loadMembers above ts g).1 ((loadMembers above ts g).2.map Prod.snd)
  | [], _, _ => .nil g
  | (_, t) :: ts, hback, hkeys => by
    simp only [Tree.cyclicMembers, Bool.or_eq_false_iff] at hback
    simp only [Tree.distinctMembers, Bool.and_eq_true] at hkeys
    exact (hangs_load above g t hback.1 hkeys.1).append
      (hangs_loadMembers above _ ts hback.2 hkeys.2)

end

/-! ### Trees that values show -/

/-- Whether a value of a graph is the one that a tree spells out. -/
inductive Shows (g : Graph) : Value → Tree → Prop
  | scalar {s} : Shows g (.scalar s) (.scalar s)
  | array {id vs ts} : g.node? (.node id) = some (.array vs) → List.Forall₂ (Shows g) vs ts →
      Shows g (.node id) (.array ts)
  | object {id ms ts} : g.node? (.node id) = some (.object ms) →
      ms.map Prod.fst = ts.map Prod.fst → (∀ key, Option.Rel (Shows g) (ms.lookup key) (ts.lookup key)) →
      Shows g (.node id) (.object ts)

/-- Whether a graph has the containers of another from a given one on. -/
def KeepsFrom (g g' : Graph) (start : Nat) : Prop :=
  ∀ i, start ≤ i → i < g.size → g'.node? (.node i) = g.node? (.node i)

/-- A container given its parts stays with the parts. -/
theorem KeepsFrom.container {g₀ g g' : Graph} {n₀ n : Node} {vs : List Value}
    (h : Hangs (g₀.add n₀).1 g vs) (hkeep : (g.replace g₀.size n).KeepsFrom g' g₀.size) :
    g'.node? (.node g₀.size) = some n ∧ g.KeepsFrom g' (g₀.add n₀).1.size := by
  have hsize := h.size
  rw [size_add] at hsize
  constructor
  · rw [hkeep g₀.size (Nat.le_refl _) (by rw [size_replace]; omega), node?_replace_self (by omega)]
  · intro i hi hlt
    rw [size_add] at hi
    have hne : Value.node i ≠ .node g₀.size := by simpa using Nat.ne_of_gt hi
    rw [hkeep i (by omega) (by rwa [size_replace]), node?_replace_of_ne hne]

theorem KeepsFrom.before {g₀ g g' g'' : Graph} {vs : List Value} (h : Hangs g g' vs)
    (hkeep : g'.KeepsFrom g'' g₀.size) : g.KeepsFrom g'' g₀.size := by
  intro i hi hlt
  rw [hkeep i hi (Nat.lt_of_lt_of_le hlt h.size), h.kept i hlt]

theorem KeepsFrom.after {g₀ g g' g'' : Graph} {vs : List Value} (h : Hangs g₀ g vs)
    (hkeep : g'.KeepsFrom g'' g₀.size) : g'.KeepsFrom g'' g.size :=
  fun i hi hlt => hkeep i (Nat.le_trans h.size hi) hlt

mutual

theorem shows_load {g g' : Graph} {above : List Nat} : (t : Tree) → t.cyclic = false →
    t.distinctKeys → (load above t g).1.KeepsFrom g' g.size → g'.Shows (load above t g).2 t
  | .scalar s, _, _, _ => .scalar
  | .array items, hback, hkeys, hkeep => by
    simp only [load] at hkeep ⊢
    obtain ⟨hnode, hrest⟩ := KeepsFrom.container (hangs_loadItems _ _ items hback hkeys) hkeep
    exact .array hnode (shows_loadItems items hback hkeys hrest)
  | .object members, hback, hkeys, hkeep => by
    simp only [Tree.distinctKeys, Bool.and_eq_true, decide_eq_true_eq] at hkeys
    simp only [load] at hkeep ⊢
    obtain ⟨hnode, hrest⟩ := KeepsFrom.container (hangs_loadMembers _ _ members hback hkeys.2) hkeep
    have hshows := shows_loadMembers members hback hkeys.2 hrest
    exact .object hnode hshows.keys hshows.lookup
  | .back _, hback, _, _ => by cases hback

theorem shows_loadItems {g g' : Graph} {above : List Nat} : (ts : List Tree) →
    Tree.cyclicItems ts = false → Tree.distinctItems ts →
    (loadItems above ts g).1.KeepsFrom g' g.size →
    List.Forall₂ g'.Shows (loadItems above ts g).2 ts
  | [], _, _, _ => .nil
  | t :: ts, hback, hkeys, hkeep => by
    simp only [Tree.cyclicItems, Bool.or_eq_false_iff] at hback
    simp only [Tree.distinctItems, Bool.and_eq_true] at hkeys
    have ht := hangs_load above g t hback.1 hkeys.1
    have hts := hangs_loadItems above (load above t g).1 ts hback.2 hkeys.2
    exact .cons (shows_load t hback.1 hkeys.1 (hkeep.before hts))
      (shows_loadItems ts hback.2 hkeys.2 (hkeep.after ht))

theorem shows_loadMembers {g g' : Graph} {above : List Nat} : (ts : List (String × Tree)) →
    Tree.cyclicMembers ts = false → Tree.distinctMembers ts →
    (loadMembers above ts g).1.KeepsFrom g' g.size →
    MembersRel g'.Shows (loadMembers above ts g).2 ts
  | [], _, _, _ => .nil
  | (_, t) :: ts, hback, hkeys, hkeep => by
    simp only [Tree.cyclicMembers, Bool.or_eq_false_iff] at hback
    simp only [Tree.distinctMembers, Bool.and_eq_true] at hkeys
    have ht := hangs_load above g t hback.1 hkeys.1
    have hts := hangs_loadMembers above (load above t g).1 ts hback.2 hkeys.2
    exact .cons ⟨rfl, shows_load t hback.1 hkeys.1 (hkeep.before hts)⟩
      (shows_loadMembers ts hback.2 hkeys.2 (hkeep.after ht))

end

end Graph

/-! ### Places in a document -/

namespace Document

/-- The value at a place: the one that slots lead to from the root. -/
def find (doc : Document) (path : List Slot) : Option Value := path.foldlM doc.graph.at? doc.root

/-- Whether each container of a document stands in one place. -/
structure Treelike (doc : Document) : Prop where
  down : ∀ {i slot k}, doc.graph.Holds i slot k → i < k
  unique : ∀ {i j slot slot' k}, doc.graph.Holds i slot k → doc.graph.Holds j slot' k →
    i = j ∧ slot = slot'
  root : ∀ {k}, doc.root = .node k → ∀ {i slot}, ¬ doc.graph.Holds i slot k
  cover : ∀ {k}, k < doc.graph.size → doc.root = .node k ∨ ∃ i slot, doc.graph.Holds i slot k

theorem shows_ofTree {t : Tree} (hback : t.cyclic = false) (hkeys : t.distinctKeys) :
    (Document.ofTree t).graph.Shows (Document.ofTree t).root t :=
  Graph.shows_load t hback hkeys fun _ _ _ => rfl

theorem treelike_ofTree {t : Tree} (hback : t.cyclic = false) (hkeys : t.distinctKeys) :
    (Document.ofTree t).Treelike := by
  have h := Graph.hangs_load [] .empty t hback hkeys
  exact {
    down := fun hik => (h.down (Nat.zero_le _) hik).1
    unique := fun hik hjk => h.unique (Nat.zero_le _) (Nat.zero_le _) hik hjk
    root := fun hroot => h.top (List.mem_singleton.mpr hroot.symm) (Nat.zero_le _)
    cover := fun hk => by
      rcases h.cover (Nat.zero_le _) hk with hroot | ⟨i, slot, -, hik⟩
      · exact .inl (List.mem_singleton.mp hroot).symm
      · exact .inr ⟨i, slot, hik⟩ }

variable {doc : Document} {path path' : List Slot} {slot : Slot} {v w : Value} {k : Nat}

@[simp] theorem find_nil (doc : Document) : doc.find [] = some doc.root := rfl

theorem find_snoc : doc.find (path ++ [slot]) = some w ↔
    ∃ v, doc.find path = some v ∧ doc.graph.at? v slot = some w := by
  simp [find, List.foldlM_append, Option.bind_eq_some_iff]

theorem exists_holds (h : doc.graph.at? v slot = some (.node k)) :
    ∃ i, v = .node i ∧ doc.graph.Holds i slot k := by
  cases v with
  | scalar s => cases h
  | node i => exact ⟨i, rfl, h⟩

namespace Treelike

theorem exists_path (h : doc.Treelike) (hk : k < doc.graph.size) :
    ∃ path, doc.find path = some (.node k) := by
  induction k using Nat.strongRecOn with
  | ind k ih =>
    rcases h.cover hk with hroot | ⟨i, slot, hik⟩
    · exact ⟨[], by rw [find_nil, hroot]⟩
    · obtain ⟨path, hpath⟩ := ih i (h.down hik) (Graph.lt_size_of_holds hik)
      exact ⟨path ++ [slot], find_snoc.mpr ⟨_, hpath, hik⟩⟩

theorem path_unique (h : doc.Treelike) (hpath : doc.find path = some (.node k))
    (hpath' : doc.find path' = some (.node k)) : path = path' := by
  induction path using List.reverseRecOn generalizing k path' with
  | nil =>
    have hroot := Option.some.inj hpath
    cases path' using List.reverseRecOn with
    | nil => rfl
    | append_singleton path' slot =>
      obtain ⟨v, -, hat⟩ := find_snoc.mp hpath'
      obtain ⟨i, rfl, hik⟩ := exists_holds hat
      exact absurd hik (h.root hroot)
  | append_singleton path slot ih =>
    obtain ⟨v, hv, hat⟩ := find_snoc.mp hpath
    obtain ⟨i, rfl, hik⟩ := exists_holds hat
    cases path' using List.reverseRecOn with
    | nil => exact absurd hik (h.root (Option.some.inj hpath'))
    | append_singleton path' slot' =>
      obtain ⟨w, hw, hat'⟩ := find_snoc.mp hpath'
      obtain ⟨j, rfl, hjk⟩ := exists_holds hat'
      obtain ⟨rfl, rfl⟩ := h.unique hik hjk
      rw [ih hv hw]

end Treelike

end Document

end ApiRecords
