import ApiRecords.Proofs.Containers

/-!
The document of a tree: no mapping in it has a key twice where none has in the tree, and no value
leads out of it.
-/

namespace ApiRecords

/-- Whether a document has a root and no two members of one key. -/
structure Document.WellFormed (doc : Document) : Prop where
  graph : doc.graph.WellFormed
  root : doc.graph.Has doc.root

namespace Tree

mutual

/-- Whether no object has a key twice. -/
def distinctKeys : Tree → Bool
  | scalar _ => true
  | array items => distinctItems items
  | object members => decide (members.map Prod.fst).Nodup && distinctMembers members
  | back _ => true

def distinctItems : List Tree → Bool
  | [] => true
  | t :: ts => t.distinctKeys && distinctItems ts

def distinctMembers : List (String × Tree) → Bool
  | [] => true
  | (_, t) :: ts => t.distinctKeys && distinctMembers ts

end

end Tree

namespace Graph

/-- What loading leaves behind: more containers, and values that lead to them. -/
structure Loaded (g g' : Graph) (values : List Value) : Prop where
  wellFormed : g'.WellFormed
  size : g.size ≤ g'.size
  values : ∀ v ∈ values, g'.Has v

theorem Loaded.trans {g₁ g₂ g₃ : Graph} {vs ws : List Value} (h : Loaded g₁ g₂ vs)
    (h' : Loaded g₂ g₃ ws) : Loaded g₁ g₃ (vs ++ ws) where
  wellFormed := h'.wellFormed
  size := Nat.le_trans h.size h'.size
  values v hv := (List.mem_append.mp hv).elim (fun hv => has_of_size (h.values v hv) h'.size)
    (h'.values v)

/-- A container is added before what is below it, and given its parts after. -/
theorem Loaded.container {n n' : Node} {g g' : Graph} {vs : List Value}
    (h : Loaded (g.add n).1 g' vs) (hkeys : n'.KeysDistinct)
    (hvalues : ∀ slot w, n'.at? slot = some w → w ∈ vs) :
    Loaded g (g'.replace g.size n') [.node g.size] := by
  have hsize : g.size < g'.size := Nat.lt_of_lt_of_le (by simp) h.size
  refine ⟨h.wellFormed.replace hsize hkeys fun slot w hw => h.values w (hvalues slot w hw), ?_, ?_⟩
  · rw [size_replace]
    exact Nat.le_of_lt hsize
  · intro v hv
    obtain rfl := List.mem_singleton.mp hv
    rw [Has, size_replace]
    exact hsize

theorem keys_loadMembers (above : List Nat) (ts : List (String × Tree)) (g : Graph) :
    (loadMembers above ts g).2.map Prod.fst = ts.map Prod.fst := by
  induction ts generalizing g with
  | nil => rfl
  | cons t ts ih => simp [loadMembers, ih]

theorem lt_size_add {g : Graph} {above : List Nat} (habove : ∀ id ∈ above, id < g.size) (n : Node) :
    ∀ id ∈ g.size :: above, id < (g.add n).1.size := by
  intro id hid
  rw [size_add]
  cases List.mem_cons.mp hid with
  | inl h => exact h ▸ Nat.lt_succ_self _
  | inr h => exact Nat.lt_succ_of_lt (habove id h)

mutual

theorem loaded {g : Graph} {above : List Nat} (hg : g.WellFormed)
    (habove : ∀ id ∈ above, id < g.size) : (t : Tree) →
    t.distinctKeys → Loaded g (load above t g).1 [(load above t g).2]
  | .scalar s, _ => ⟨hg, Nat.le_refl _, by simp [load, Has]⟩
  | .array items, h => by
    have hadd : (g.add (.array [])).1.WellFormed := hg.add trivial (by rintro (i | k) w ⟨⟩)
    have ih := loadedItems hadd (lt_size_add habove _) items h
    simp only [load]
    apply ih.container
    · trivial
    · intro slot w hw
      cases slot with
      | key k => cases hw
      | index i => exact List.mem_of_getElem? hw
  | .object members, h => by
    have hadd : (g.add (.object [])).1.WellFormed :=
      hg.add (by simp [Node.KeysDistinct]) (by rintro (i | k) w ⟨⟩)
    simp only [Tree.distinctKeys, Bool.and_eq_true, decide_eq_true_eq] at h
    have ih := loadedMembers hadd (lt_size_add habove _) members h.2
    simp only [load]
    apply ih.container
    · rw [Node.KeysDistinct, keys_loadMembers]
      exact h.1
    · intro slot w hw
      cases slot with
      | index i => cases hw
      | key k =>
        exact List.mem_map_of_mem (mem_of_lookup hw)
  | .back levels, _ => by
    refine ⟨hg, Nat.le_refl _, fun v hv => ?_⟩
    obtain rfl := List.mem_singleton.mp hv
    simp only [load]
    cases hid : above[levels - 1]? with
    | none => trivial
    | some id => exact habove id (List.mem_of_getElem? hid)

theorem loadedItems {g : Graph} {above : List Nat} (hg : g.WellFormed)
    (habove : ∀ id ∈ above, id < g.size) : (ts : List Tree) →
    Tree.distinctItems ts → Loaded g (loadItems above ts g).1 (loadItems above ts g).2
  | [], _ => ⟨hg, Nat.le_refl _, nofun⟩
  | t :: ts, h => by
    simp only [Tree.distinctItems, Bool.and_eq_true] at h
    have ht := loaded hg habove t h.1
    have hts := loadedItems ht.wellFormed
      (fun id hid => Nat.lt_of_lt_of_le (habove id hid) ht.size) ts h.2
    exact ht.trans hts

theorem loadedMembers {g : Graph} {above : List Nat} (hg : g.WellFormed)
    (habove : ∀ id ∈ above, id < g.size) :
    (ts : List (String × Tree)) → Tree.distinctMembers ts →
    Loaded g (loadMembers above ts g).1 ((loadMembers above ts g).2.map Prod.snd)
  | [], _ => ⟨hg, Nat.le_refl _, nofun⟩
  | (key, t) :: ts, h => by
    simp only [Tree.distinctMembers, Bool.and_eq_true] at h
    have ht := loaded hg habove t h.1
    have hts := loadedMembers ht.wellFormed
      (fun id hid => Nat.lt_of_lt_of_le (habove id hid) ht.size) ts h.2
    exact ht.trans hts

end

end Graph

theorem wellFormed_ofTree {t : Tree} (h : t.distinctKeys) : (Document.ofTree t).WellFormed := by
  have hempty : Graph.empty.WellFormed := ⟨by rintro (s | id) n ⟨⟩, by rintro (s | id) slot w ⟨⟩⟩
  have habove : ∀ id ∈ ([] : List Nat), id < Graph.empty.size := nofun
  have hload := Graph.loaded hempty habove t h
  exact ⟨hload.wellFormed, hload.values _ (List.mem_singleton_self _)⟩

end ApiRecords
