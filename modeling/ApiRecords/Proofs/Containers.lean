import ApiRecords.Proofs.Members
import ApiRecords.Schema.Expansion

/-!
Containers slot by slot: what a replaced slot leaves as it was, and the graphs in which every value
leads to a container. A graph grows by grafting new containers onto the slots of others.
-/

namespace ApiRecords

theorem forall₂_getElem? {α β : Type} {R : α → β → Prop} {as : List α} {bs : List β}
    (h : List.Forall₂ R as bs) (i : Nat) : Option.Rel R as[i]? bs[i]? := by
  induction h generalizing i with
  | nil => exact .none
  | cons hab _ ih =>
    cases i with
    | zero => exact .some hab
    | succ i => exact ih i

namespace Node

/-- The value at a slot. -/
def at? : Node → Slot → Option Value
  | array items, .index i => items[i]?
  | object members, .key k => members.lookup k
  | _, _ => none

/-- The values that a container holds. -/
def values : Node → List Value
  | array items => items
  | object members => members.map Prod.snd

/-- Whether no key of the container comes twice. -/
def KeysDistinct : Node → Prop
  | array _ => True
  | object members => (members.map Prod.fst).Nodup

/-- The same slots in the same order, with values that `R` relates. -/
inductive Rel (R : Value → Value → Prop) : Node → Node → Prop
  | array {as bs} : List.Forall₂ R as bs → Rel R (.array as) (.array bs)
  | object {ms ns} : MembersRel R ms ns → Rel R (.object ms) (.object ns)

variable {R : Value → Value → Prop} {m n : Node} {slot : Slot} {v w : Value}

theorem Rel.at? (h : Rel R m n) (slot : Slot) : Option.Rel R (m.at? slot) (n.at? slot) := by
  cases h with
  | @array as bs h =>
    cases slot with
    | key k => exact .none
    | index i => exact forall₂_getElem? h i
  | object h =>
    cases slot with
    | index i => exact .none
    | key k => exact h.lookup k

theorem Rel.refl (hrefl : ∀ v, R v v) (n : Node) : Rel R n n := by
  cases n with
  | array items => exact .array (List.forall₂_same.mpr fun v _ => hrefl v)
  | object members => exact .object (List.forall₂_same.mpr fun m _ => ⟨rfl, hrefl m.2⟩)

theorem Rel.imp {S : Value → Value → Prop} (h : Rel R m n)
    (hRS : ∀ v ∈ m.values, ∀ w ∈ n.values, R v w → S v w) : Rel S m n := by
  cases h with
  | array h => exact .array (forall₂_imp_mem h hRS)
  | object h =>
    refine .object (forall₂_imp_mem h fun m hm n hn hmn => ⟨hmn.1, ?_⟩)
    exact hRS _ (List.mem_map_of_mem hm) _ (List.mem_map_of_mem hn) hmn.2

theorem Rel.values (h : Rel R m n) : List.Forall₂ R m.values n.values := by
  cases h with
  | array h => exact h
  | object h =>
    rw [Node.values, Node.values, List.forall₂_map_left_iff, List.forall₂_map_right_iff]
    exact h.imp fun _ _ hmn => hmn.2

/-- Values that correspond, of which the first have a property. -/
theorem Rel.and_left {P : Value → Prop} (h : Rel R m n) (hkeys : m.KeysDistinct)
    (hP : ∀ slot v, m.at? slot = some v → P v) : Rel (fun v w => P v ∧ R v w) m n := by
  cases h with
  | @array as bs h =>
    have has : ∀ v ∈ as, P v := by
      intro v hv
      obtain ⟨i, hi⟩ := List.mem_iff_getElem?.mp hv
      exact hP (.index i) v hi
    exact .array ((List.forall₂_and_left as bs).mpr ⟨has, h⟩)
  | @object ms ns h =>
    have hms : ∀ m ∈ ms, P m.2 := fun m hm => hP (.key m.1) m.2 (lookup_of_mem hkeys hm)
    have hboth : List.Forall₂ (fun m n => P m.2 ∧ m.1 = n.1 ∧ R m.2 n.2) ms ns :=
      (List.forall₂_and_left ms ns).mpr ⟨hms, h⟩
    exact .object (hboth.imp fun m n hmn => ⟨hmn.2.1, hmn.1, hmn.2.2⟩)

theorem Rel.trans {S T : Value → Value → Prop} {k m n : Node}
    (hcomp : ∀ u v w, R u v → S v w → T u w) (h : Rel R k m) (h' : Rel S m n) : Rel T k n := by
  cases h with
  | @array as bs h =>
    cases h' with
    | @array _ cs h' =>
      apply Rel.array
      induction h generalizing cs with
      | nil => cases h'; exact .nil
      | cons hab _ ih =>
        cases h' with
        | cons hbc h' => exact .cons (hcomp _ _ _ hab hbc) (ih h')
  | @object ms ns h =>
    cases h' with
    | @object _ os h' =>
      apply Rel.object
      induction h generalizing os with
      | nil => cases h'; exact .nil
      | cons hab _ ih =>
        cases h' with
        | cons hbc h' => exact .cons ⟨hab.1.trans hbc.1, hcomp _ _ _ hab.2 hbc.2⟩ (ih h')

/-- A replaced slot leaves the order of the slots and all their other values. -/
theorem rel_set (hrefl : ∀ v, R v v) (hat : n.at? slot = some v) (hvw : R v w) :
    Rel R n (n.set slot w) := by
  cases n with
  | array items =>
    cases slot with
    | key k => simp [at?] at hat
    | index i =>
      apply Rel.array
      simp only [at?] at hat
      induction items generalizing i with
      | nil => simp at hat
      | cons a items ih =>
        cases i with
        | zero =>
          obtain rfl : a = v := by simpa using hat
          exact .cons hvw (List.forall₂_same.mpr fun b _ => hrefl b)
        | succ i => exact .cons (hrefl a) (ih i (by simpa using hat))
  | object members =>
    cases slot with
    | index i => simp [at?] at hat
    | key k => exact .object (membersRel_putMember hrefl hat hvw)

theorem at?_set_self (hat : n.at? slot = some v) (w : Value) : (n.set slot w).at? slot = some w := by
  cases n with
  | array items =>
    cases slot with
    | key k => simp [at?] at hat
    | index i =>
      have hi : i < items.length := (List.getElem?_eq_some_iff.mp hat).1
      simp [set, at?, hi]
  | object members =>
    cases slot with
    | index i => simp [at?] at hat
    | key k => simp [set, at?]

theorem at?_set {other : Slot} (h : (n.set slot v).at? other = some w) :
    w = v ∨ n.at? other = some w := by
  cases n with
  | array items =>
    cases slot <;> cases other <;> simp only [set, at?] at h ⊢
    · rename_i i j
      rw [List.getElem?_set] at h
      split at h
      · split at h
        · exact .inl (Option.some.inj h).symm
        · cases h
      · exact .inr h
    all_goals simp_all
  | object members =>
    cases slot <;> cases other <;> simp only [set, at?] at h ⊢
    case key.key k l =>
      by_cases hl : l = k
      · subst hl
        rw [lookup_putMember_self] at h
        exact .inl (Option.some.inj h).symm
      · rw [lookup_putMember_of_ne hl] at h
        exact .inr h
    all_goals simp_all

theorem at?_set_of_ne {other : Slot} (h : other ≠ slot) (n : Node) (w : Value) :
    (n.set slot w).at? other = n.at? other := by
  cases n with
  | array items =>
    cases slot <;> cases other <;> simp only [set, at?]
    rename_i i j
    have hij : i ≠ j := fun e => h (by rw [e])
    simp [hij]
  | object members =>
    cases slot <;> cases other <;> simp only [set, at?]
    rename_i k l
    have hkl : l ≠ k := fun e => h (by rw [e])
    exact lookup_putMember_of_ne hkl w members

theorem KeysDistinct.set (h : n.KeysDistinct) (slot : Slot) (w : Value) :
    (n.set slot w).KeysDistinct := by
  cases n with
  | array items => cases slot <;> trivial
  | object members =>
    cases slot with
    | index i => exact h
    | key k => exact nodup_putMember h k w

/-! ### The slots in order -/

theorem mem_slots_of_at? (h : n.at? slot = some v) : (slot, v) ∈ n.slots := by
  cases n with
  | array items =>
    cases slot with
    | key k => simp [at?] at h
    | index i => simpa [slots, List.mem_zipIdx_iff_getElem?, at?] using h
  | object members =>
    cases slot with
    | index i => simp [at?] at h
    | key k =>
      exact List.mem_map.mpr ⟨(k, v), mem_of_lookup h, rfl⟩

theorem at?_of_mem_slots (hkeys : n.KeysDistinct) (h : (slot, v) ∈ n.slots) :
    n.at? slot = some v := by
  cases n with
  | array items =>
    obtain ⟨i, hi, rfl⟩ : ∃ i, items[i]? = some v ∧ .index i = slot := by
      simpa [slots, List.mem_zipIdx_iff_getElem?] using h
    exact hi
  | object members =>
    obtain ⟨k, hk, rfl⟩ : ∃ k, (k, v) ∈ members ∧ .key k = slot := by simpa [slots] using h
    exact lookup_of_mem hkeys hk

theorem exists_slot_of_mem_values (hkeys : n.KeysDistinct) (h : v ∈ n.values) :
    ∃ slot, n.at? slot = some v := by
  cases n with
  | array items =>
    obtain ⟨i, hi⟩ := List.mem_iff_getElem?.mp h
    exact ⟨.index i, hi⟩
  | object members =>
    obtain ⟨m, hm, rfl⟩ := List.mem_map.mp h
    exact ⟨.key m.1, lookup_of_mem hkeys hm⟩

theorem nodup_slots (hkeys : n.KeysDistinct) : (n.slots.map Prod.fst).Nodup := by
  cases n with
  | array items =>
    have hslots : (array items).slots.map Prod.fst = (List.range' 0 items.length).map .index := by
      rw [← List.zipIdx_map_snd 0 items]
      simp only [slots, List.map_map]
      rfl
    rw [hslots]
    exact List.Nodup.map (fun i j h => by simpa using h) List.nodup_range'
  | object members =>
    have hslots : (object members).slots.map Prod.fst = (members.map Prod.fst).map .key := by
      simp [slots]
    rw [hslots]
    exact hkeys.map fun k l h => by simpa using h

end Node

namespace Graph

variable {g : Graph} {id j : Nat} {slot : Slot} {v w : Value} {n : Node}

/-- The value at a slot of a container. -/
def at? (g : Graph) (v : Value) (slot : Slot) : Option Value := (g.node? v).bind (·.at? slot)

/-- Whether a value does not lead out of the graph. -/
def Has (g : Graph) : Value → Prop
  | .scalar _ => True
  | .node id => id < g.size

/-- Whether no mapping has a key twice, and no slot leads out of the graph. -/
structure WellFormed (g : Graph) : Prop where
  keys : ∀ v n, g.node? v = some n → n.KeysDistinct
  values : ∀ v slot w, g.at? v slot = some w → g.Has w

theorem object?_iff {members : List (String × Value)} :
    g.object? v = some members ↔ g.node? v = some (.object members) := by
  unfold Graph.object?
  cases g.node? v with
  | none => simp
  | some n => cases n <;> simp

theorem has_of_node? (h : g.node? v = some n) : g.Has v := by
  cases v with
  | scalar s => trivial
  | node id => exact (Array.getElem?_eq_some_iff.mp h).1

theorem has_of_size {g' : Graph} (h : g.Has v) (hsize : g.size ≤ g'.size) : g'.Has v := by
  cases v with
  | scalar s => trivial
  | node id => exact Nat.lt_of_lt_of_le h hsize

theorem node?_of_has (h : g.Has (.node id)) : ∃ n, g.node? (.node id) = some n :=
  ⟨_, Array.getElem?_eq_getElem h⟩

theorem has_of_at? (h : g.at? v slot = some w) : g.Has v := by
  obtain ⟨n, hn, -⟩ := Option.bind_eq_some_iff.mp h
  exact has_of_node? hn

theorem slots_of_node? (h : g.node? (.node id) = some n) : g.slots id = n.slots := by
  simp only [node?] at h
  simp [slots, h]

theorem mem_slots_iff (hg : g.WellFormed) :
    (slot, v) ∈ g.slots id ↔ g.at? (.node id) slot = some v := by
  cases hn : g.node? (.node id) with
  | none =>
    simp only [node?] at hn
    simp [slots, at?, node?, hn]
  | some n =>
    rw [slots_of_node? hn, at?, hn, Option.bind_some]
    exact ⟨Node.at?_of_mem_slots (hg.keys _ _ hn), Node.mem_slots_of_at?⟩

theorem nodup_slots (hg : g.WellFormed) (id : Nat) : ((g.slots id).map Prod.fst).Nodup := by
  cases hn : g.node? (.node id) with
  | none =>
    simp only [node?] at hn
    simp [slots, hn]
  | some n =>
    rw [slots_of_node? hn]
    exact Node.nodup_slots (hg.keys _ _ hn)

theorem WellFormed.has_of_mem_values (hg : g.WellFormed) (hn : g.node? v = some n)
    (hw : w ∈ n.values) : g.Has w := by
  obtain ⟨slot, hat⟩ := Node.exists_slot_of_mem_values (hg.keys v n hn) hw
  exact hg.values v slot w (by rw [at?, hn, Option.bind_some, hat])

/-! ### Replaced and added containers -/

@[simp] theorem size_replace (g : Graph) (id : Nat) (n : Node) : (g.replace id n).size = g.size := by
  simp [replace, size]

@[simp] theorem size_add (g : Graph) (n : Node) : (g.add n).1.size = g.size + 1 := by
  simp [add, size]

theorem node?_replace_self (h : id < g.size) (n : Node) :
    (g.replace id n).node? (.node id) = some n := by
  have hid : id < g.nodes.size := h
  simp [replace, node?, hid]

theorem node?_replace_of_ne (h : w ≠ .node id) (n : Node) : (g.replace id n).node? w = g.node? w := by
  cases w with
  | scalar s => rfl
  | node j =>
    have hj : id ≠ j := fun e => h (by rw [e])
    simp [replace, node?, hj]

@[simp] theorem node?_add_new (g : Graph) (n : Node) : (g.add n).1.node? (.node g.size) = some n := by
  simp [add, node?, size]

theorem node?_add_of_ne (h : w ≠ .node g.size) (n : Node) : (g.add n).1.node? w = g.node? w := by
  cases w with
  | scalar s => rfl
  | node j =>
    have hj : j ≠ g.nodes.size := fun e => h (by rw [e, size])
    simp [add, node?, Array.getElem?_push, hj]

theorem setSlot_eq_replace (h : g.node? (.node id) = some n) (slot : Slot) (v : Value) :
    g.setSlot id slot v = g.replace id (n.set slot v) := by
  simp only [node?] at h
  simp only [setSlot, h]

theorem setSlot_eq_self (h : g.node? (.node id) = none) (slot : Slot) (v : Value) :
    g.setSlot id slot v = g := by
  simp only [node?] at h
  simp only [setSlot, h]

@[simp] theorem size_setSlot (g : Graph) (id : Nat) (slot : Slot) (v : Value) :
    (g.setSlot id slot v).size = g.size := by
  cases h : g.node? (.node id) with
  | none => rw [setSlot_eq_self h]
  | some n => rw [setSlot_eq_replace h, size_replace]

theorem node?_setSlot_self (h : g.node? (.node id) = some n) (slot : Slot) (v : Value) :
    (g.setSlot id slot v).node? (.node id) = some (n.set slot v) := by
  rw [setSlot_eq_replace h, node?_replace_self (has_of_node? h)]

theorem node?_setSlot_of_ne (h : w ≠ .node id) (slot : Slot) (v : Value) :
    (g.setSlot id slot v).node? w = g.node? w := by
  cases hn : g.node? (.node id) with
  | none => rw [setSlot_eq_self hn]
  | some n => rw [setSlot_eq_replace hn, node?_replace_of_ne h]

namespace WellFormed

theorem replace (hg : g.WellFormed) (hid : id < g.size) (hkeys : n.KeysDistinct)
    (hvalues : ∀ slot w, n.at? slot = some w → g.Has w) : (g.replace id n).WellFormed := by
  constructor
  · intro w m hm
    by_cases hw : w = .node id
    · obtain rfl : n = m := by simpa [hw, node?_replace_self hid] using hm
      exact hkeys
    · rw [node?_replace_of_ne hw] at hm
      exact hg.keys w m hm
  · intro w s a ha
    refine has_of_size ?_ (Nat.le_of_eq (size_replace g id n).symm)
    by_cases hw : w = .node id
    · rw [hw, at?, node?_replace_self hid, Option.bind_some] at ha
      exact hvalues s a ha
    · rw [at?, node?_replace_of_ne hw] at ha
      exact hg.values w s a ha

theorem add (hg : g.WellFormed) (hkeys : n.KeysDistinct)
    (hvalues : ∀ slot w, n.at? slot = some w → g.Has w) : (g.add n).1.WellFormed := by
  constructor
  · intro w m hm
    by_cases hw : w = .node g.size
    · obtain rfl : n = m := by simpa [hw] using hm
      exact hkeys
    · rw [node?_add_of_ne hw] at hm
      exact hg.keys w m hm
  · intro w s a ha
    have hle : g.size ≤ (g.add n).1.size := by simp
    refine has_of_size ?_ hle
    by_cases hw : w = .node g.size
    · rw [hw, at?, node?_add_new, Option.bind_some] at ha
      exact hvalues s a ha
    · rw [at?, node?_add_of_ne hw] at ha
      exact hg.values w s a ha

theorem setSlot (hg : g.WellFormed) (id : Nat) (slot : Slot) (hv : g.Has v) :
    (g.setSlot id slot v).WellFormed := by
  cases hn : g.node? (.node id) with
  | none => rwa [setSlot_eq_self hn]
  | some n =>
    rw [setSlot_eq_replace hn]
    apply hg.replace (has_of_node? hn) ((hg.keys _ n hn).set slot v)
    intro s w hw
    cases Node.at?_set hw with
    | inl h => exact h ▸ hv
    | inr h => exact hg.values (.node id) s w (by rw [at?, hn, Option.bind_some, h])

end WellFormed

/-! ### Grafts -/

@[simp] theorem size_graft (g : Graph) (id : Nat) (slot : Slot) (n : Node) :
    (g.graft id slot n).1.size = g.size + 1 := by
  rw [graft, size_setSlot, size_add]

theorem node?_graft_new (h : id < g.size) (slot : Slot) (n : Node) :
    (g.graft id slot n).1.node? (.node g.size) = some n := by
  have hne : Value.node g.size ≠ .node id := by simpa using Nat.ne_of_gt h
  rw [graft, node?_setSlot_of_ne hne, node?_add_new]

theorem node?_graft_self {m : Node} (h : g.node? (.node id) = some m) (slot : Slot) (n : Node) :
    (g.graft id slot n).1.node? (.node id) = some (m.set slot (.node g.size)) := by
  have hid : id < g.size := has_of_node? h
  have hne : Value.node id ≠ .node g.size := by simpa using Nat.ne_of_lt hid
  have hadd : (g.add n).1.node? (.node id) = some m := by rw [node?_add_of_ne hne, h]
  exact node?_setSlot_self hadd slot _

theorem node?_graft_of_ne (h : w ≠ .node id) (h' : w ≠ .node g.size) (slot : Slot) (n : Node) :
    (g.graft id slot n).1.node? w = g.node? w := by
  rw [graft, node?_setSlot_of_ne h, node?_add_of_ne h']

theorem has_graft (h : g.Has v) (id : Nat) (slot : Slot) (n : Node) :
    (g.graft id slot n).1.Has v :=
  has_of_size h (by simp)

theorem WellFormed.graft (hg : g.WellFormed) (id : Nat) (slot : Slot) (hkeys : n.KeysDistinct)
    (hvalues : ∀ slot w, n.at? slot = some w → g.Has w) : (g.graft id slot n).1.WellFormed := by
  have hnew : (g.add n).1.Has (.node g.size) := by simp [Has]
  exact (hg.add hkeys hvalues).setSlot id slot hnew

/-- All that a graft changes is the value at its slot. -/
theorem rel_graft {R : Value → Value → Prop} (hrefl : ∀ v, R v v)
    (hat : g.at? (.node id) slot = some v) (hv : R v (.node g.size)) (n : Node) {m : Node}
    (hm : g.node? w = some m) : ∃ m', (g.graft id slot n).1.node? w = some m' ∧ m.Rel R m' := by
  by_cases hself : w = .node id
  · subst hself
    rw [at?, hm, Option.bind_some] at hat
    exact ⟨_, node?_graft_self hm slot n, Node.rel_set hrefl hat hv⟩
  · have hnew : w ≠ .node g.size := by
      intro e
      rw [e] at hm
      exact absurd (has_of_node? hm) (Nat.lt_irrefl _)
    exact ⟨m, by rw [node?_graft_of_ne hself hnew, hm], .refl hrefl m⟩

end Graph

end ApiRecords
