import ApiRecords.Proofs.FindingsReading
import ApiRecords.Proofs.Members

/-!
Relations with their keys spelled anew. Keys that come to be spelled alike are merged, and what stood under
all but the last of them is gone.
-/

namespace ApiRecords

namespace Tree

mutual

/-- The tree with each key spelled, and nothing else changed. -/
def renameKeys (spell : String → String) : Tree → Tree
  | scalar s => scalar s
  | array items => array (renameItems spell items)
  | object members => object (renameMembers spell members)
  | back levels => back levels

def renameItems (spell : String → String) : List Tree → List Tree
  | [] => []
  | t :: ts => t.renameKeys spell :: renameItems spell ts

def renameMembers (spell : String → String) : List (String × Tree) → List (String × Tree)
  | [] => []
  | (key, t) :: ts => (spell key, t.renameKeys spell) :: renameMembers spell ts

end

mutual

/-- Whether no two keys of one object are spelled alike. -/
def keysApart (spell : String → String) : Tree → Bool
  | scalar _ => true
  | array items => itemsApart spell items
  | object members =>
    decide (members.map fun m => spell m.1).Nodup && membersApart spell members
  | back _ => true

def itemsApart (spell : String → String) : List Tree → Bool
  | [] => true
  | t :: ts => t.keysApart spell && itemsApart spell ts

def membersApart (spell : String → String) : List (String × Tree) → Bool
  | [] => true
  | (_, t) :: ts => t.keysApart spell && membersApart spell ts

end

mutual

def leafCount : Tree → Nat
  | scalar _ => 1
  | array items => itemsLeafCount items
  | object members => membersLeafCount members
  | back _ => 1

def itemsLeafCount : List Tree → Nat
  | [] => 0
  | t :: ts => t.leafCount + itemsLeafCount ts

def membersLeafCount : List (String × Tree) → Nat
  | [] => 0
  | (_, t) :: ts => t.leafCount + membersLeafCount ts

end

variable {spell : String → String}

theorem keys_convertMembers (members : List (String × Tree)) :
    (convertMembers spell members).map Prod.fst = members.map fun m => spell m.1 := by
  induction members with
  | nil => rfl
  | cons m members ih => simp [convertMembers, ih]

theorem keys_renameMembers (members : List (String × Tree)) :
    (renameMembers spell members).map Prod.fst = members.map fun m => spell m.1 := by
  induction members with
  | nil => rfl
  | cons m members ih => simp [renameMembers, ih]

theorem membersLeafCount_eq (members : List (String × Tree)) :
    membersLeafCount members = totalWeight leafCount members := by
  induction members with
  | nil => rfl
  | cons m members ih => simpa [membersLeafCount, totalWeight] using ih

/-- Keys that are all distinct once they are spelled are not merged. -/
theorem putMembers_convertMembers {members : List (String × Tree)}
    (h : (members.map fun m => spell m.1).Nodup) :
    putMembers [] (convertMembers spell members) = convertMembers spell members := by
  rw [putMembers_of_nodup (by simpa [keys_convertMembers] using h), List.nil_append]

mutual

/-- Conversion spells each key and changes nothing else just when no two keys of one object come to be
spelled alike. -/
theorem convertKeys_eq_iff : (t : Tree) → (t.convertKeys spell = t.renameKeys spell ↔ t.keysApart spell)
  | scalar s => by simp [convertKeys, renameKeys, keysApart]
  | array items => by
    simp only [convertKeys, renameKeys, keysApart, array.injEq]
    exact convertItems_eq_iff items
  | object members => by
    simp only [convertKeys, renameKeys, keysApart, object.injEq, Bool.and_eq_true, decide_eq_true_eq]
    rw [← convertMembers_eq_iff members]
    constructor
    · intro h
      have hnodup : (members.map fun m => spell m.1).Nodup := by
        rw [← keys_renameMembers, ← h]
        exact nodup_putMembers List.nodup_nil
      exact ⟨hnodup, (putMembers_convertMembers hnodup).symm.trans h⟩
    · rintro ⟨hnodup, h⟩
      exact (putMembers_convertMembers hnodup).trans h
  | back levels => by simp [convertKeys, renameKeys, keysApart]

theorem convertItems_eq_iff : (items : List Tree) →
    (convertItems spell items = renameItems spell items ↔ itemsApart spell items)
  | [] => by simp [convertItems, renameItems, itemsApart]
  | t :: ts => by
    simp only [convertItems, renameItems, itemsApart, List.cons.injEq, Bool.and_eq_true]
    exact and_congr (convertKeys_eq_iff t) (convertItems_eq_iff ts)

theorem convertMembers_eq_iff : (members : List (String × Tree)) →
    (convertMembers spell members = renameMembers spell members ↔ membersApart spell members)
  | [] => by simp [convertMembers, renameMembers, membersApart]
  | (key, t) :: ts => by
    simp only [convertMembers, renameMembers, membersApart, List.cons.injEq, Prod.mk.injEq, true_and,
      Bool.and_eq_true]
    exact and_congr (convertKeys_eq_iff t) (convertMembers_eq_iff ts)

end

/-! ### Leaves -/

theorem membersLeafCount_pos {members : List (String × Tree)} (hne : members ≠ [])
    (h : ∀ m ∈ members, 0 < m.2.leafCount) : 0 < membersLeafCount members := by
  obtain ⟨m, rest, rfl⟩ := List.exists_cons_of_ne_nil hne
  exact Nat.lt_of_lt_of_le (h m List.mem_cons_self) (Nat.le_add_right _ _)

mutual

theorem leafCount_convertKeys_pos : (t : Tree) → t.pruned → 0 < (t.convertKeys spell).leafCount
  | scalar s, _ => Nat.one_pos
  | array [], h => by simp [pruned] at h
  | array (t :: ts), h => by
    simp only [pruned, prunedItems, Bool.and_eq_true] at h
    exact Nat.lt_of_lt_of_le (leafCount_convertKeys_pos t h.2.1) (Nat.le_add_right _ _)
  | object members, h => by
    simp only [pruned, Bool.and_eq_true, Bool.not_eq_true', List.isEmpty_eq_false_iff] at h
    have hpos := convertMembers_leafCount_pos members h.2
    refine membersLeafCount_pos (putMembers_ne_nil (.inr ?_)) fun m hm => ?_
    · cases members with
      | nil => exact absurd rfl h.1
      | cons m ms => exact List.cons_ne_nil _ _
    · obtain ⟨m', hm', heq⟩ := (mem_putMembers hm).resolve_left List.not_mem_nil
      exact heq ▸ hpos m' hm'
  | back _, _ => Nat.one_pos

theorem convertMembers_leafCount_pos : (members : List (String × Tree)) → prunedMembers members →
    ∀ m ∈ convertMembers spell members, 0 < m.2.leafCount
  | [], _ => by simp [convertMembers]
  | (key, t) :: ts, h => by
    simp only [prunedMembers, Bool.and_eq_true] at h
    simp only [convertMembers, List.forall_mem_cons]
    exact ⟨leafCount_convertKeys_pos t h.1, convertMembers_leafCount_pos ts h.2⟩

end

mutual

/-- Conversion loses leaves just when two keys of one object come to be spelled alike: each part of the
relations has a leaf. -/
theorem leafCount_convertKeys : (t : Tree) → t.pruned →
    (t.convertKeys spell).leafCount ≤ t.leafCount ∧
      ((t.convertKeys spell).leafCount = t.leafCount ↔ t.keysApart spell)
  | scalar s, _ => by simp [convertKeys, leafCount, keysApart]
  | array items, h => by
    simp only [pruned, Bool.and_eq_true] at h
    simpa only [convertKeys, leafCount, keysApart] using itemsLeafCount_convertItems items h.2
  | object members, h => by
    simp only [pruned, Bool.and_eq_true] at h
    obtain ⟨hle, heq⟩ := membersLeafCount_convertMembers members h.2
    have hpos : ∀ m ∈ convertMembers spell members, 0 < m.2.leafCount :=
      convertMembers_leafCount_pos members h.2
    obtain ⟨hput, hput'⟩ := totalWeight_putMembers (List.forall_mem_nil _) hpos List.nodup_nil
    simp only [← membersLeafCount_eq, membersLeafCount, Nat.zero_add, List.map_nil, List.nil_append,
      keys_convertMembers] at hput hput'
    simp only [convertKeys, leafCount, keysApart, Bool.and_eq_true, decide_eq_true_eq]
    rw [← hput', ← heq]
    omega
  | back _, _ => by simp [convertKeys, leafCount, keysApart]

theorem itemsLeafCount_convertItems : (items : List Tree) → prunedItems items →
    itemsLeafCount (convertItems spell items) ≤ itemsLeafCount items ∧
      (itemsLeafCount (convertItems spell items) = itemsLeafCount items ↔ itemsApart spell items)
  | [], _ => by simp [convertItems, itemsApart]
  | t :: ts, h => by
    simp only [prunedItems, Bool.and_eq_true] at h
    obtain ⟨hle, heq⟩ := leafCount_convertKeys t h.1
    obtain ⟨hle', heq'⟩ := itemsLeafCount_convertItems ts h.2
    simp only [convertItems, itemsLeafCount, itemsApart, Bool.and_eq_true]
    rw [← heq, ← heq']
    omega

theorem membersLeafCount_convertMembers : (members : List (String × Tree)) → prunedMembers members →
    membersLeafCount (convertMembers spell members) ≤ membersLeafCount members ∧
      (membersLeafCount (convertMembers spell members) = membersLeafCount members ↔
        membersApart spell members)
  | [], _ => by simp [convertMembers, membersApart]
  | (_, t) :: ts, h => by
    simp only [prunedMembers, Bool.and_eq_true] at h
    obtain ⟨hle, heq⟩ := leafCount_convertKeys t h.1
    obtain ⟨hle', heq'⟩ := membersLeafCount_convertMembers ts h.2
    simp only [convertMembers, membersLeafCount, membersApart, Bool.and_eq_true]
    rw [← heq, ← heq']
    omega

end

end Tree

mutual

theorem Dependency.leafCount_toTree : (d : Dependency) → d.toTree.leafCount = d.leaves.length
  | leaf name => rfl
  | list d => by simp [toTree, Tree.leafCount, Tree.itemsLeafCount, leaves, leafCount_toTree d]
  | shape members => by simp [toTree, Tree.leafCount, leaves, membersLeafCount_membersToTree members]

theorem Dependency.membersLeafCount_membersToTree : (members : List (String × Dependency)) →
    Tree.membersLeafCount (membersToTree members) = (memberLeaves members).length
  | [] => rfl
  | (key, d) :: ds => by
    simp [membersToTree, Tree.membersLeafCount, memberLeaves, leafCount_toTree d,
      membersLeafCount_membersToTree ds]

end

end ApiRecords
