import ApiRecords.Proofs.Expansion.Run

/-!
Parts of a run that meet nothing new: no target is found on the way, and no container of the document
is entered that had not been. They only add copies, and what is a copy of what stays the same.
-/

namespace ApiRecords.Expansion

variable {origin : Document} {x y z : Expansion} {id : Nat} {slot : Slot} {u v w target : Value}
  {ref : String}

theorem Steps.lookup (h : Steps x y) (ht : x.targets.lookup ref = some target) :
    y.targets.lookup ref = some target := by
  induction h with
  | refl => exact ht
  | tail _ hstep ih =>
    cases hstep with
    | mark hid => exact ih
    | replace hat href hlookup => exact ih
    | @find v r t href hnone htarget =>
      have hne : (ref == r) = false := by
        rw [beq_eq_false_iff_ne]
        rintro rfl
        rw [hnone] at ih
        cases ih
      simp only [List.lookup_cons, hne]
      exact ih

theorem Steps.entered (h : Steps x y) (hid : id ∈ x.entered) : id ∈ y.entered := by
  induction h with
  | refl => exact hid
  | tail _ hstep ih =>
    cases hstep with
    | mark _ => exact List.mem_cons_of_mem _ ih
    | replace hat href hlookup => exact ih
    | find href hnone htarget => exact ih

/-- Whether nothing new is met from `x` to `y`. -/
structure Quietly (origin : Document) (x y : Expansion) : Prop where
  targets : ∀ ref, y.targets.lookup ref = x.targets.lookup ref
  entered : ∀ id, id < origin.graph.size → id ∈ y.entered → id ∈ x.entered

theorem Quietly.refl (origin : Document) (x : Expansion) : Quietly origin x x :=
  ⟨fun _ => rfl, fun _ _ h => h⟩

theorem Quietly.trans (h : Quietly origin x y) (h' : Quietly origin y z) : Quietly origin x z where
  targets ref := (h'.targets ref).trans (h.targets ref)
  entered id hid hz := h.entered id hid (h'.entered id hid hz)

/-- Where nothing new is met, nothing new is met in any part. -/
theorem Quietly.parts (h : Steps x y) (h' : Steps y z) (hq : Quietly origin x z) :
    Quietly origin x y ∧ Quietly origin y z := by
  have htargets : ∀ ref, y.targets.lookup ref = x.targets.lookup ref := by
    intro ref
    cases hy : y.targets.lookup ref with
    | some t => rw [← hq.targets, Steps.lookup h' hy]
    | none =>
      cases hx : x.targets.lookup ref with
      | none => rfl
      | some t => rw [Steps.lookup h hx] at hy; cases hy
  exact ⟨⟨htargets, fun id hid hy => hq.entered id hid (Steps.entered h' hy)⟩,
    ⟨fun ref => (hq.targets ref).trans (htargets ref).symm,
      fun id hid hz => Steps.entered h (hq.entered id hid hz)⟩⟩

/-- Whether `y` has entered what `x` has, and makes the same copies. -/
structure Alike (origin : Document) (x y : Expansion) : Prop where
  targets : ∀ ref, y.targets.lookup ref = x.targets.lookup ref
  entered : ∀ id ∈ x.entered, id ∈ y.entered
  members : ∀ v, (origin.graph.Has v ∨ ∃ ref, x.targets.lookup ref = some v) →
    y.doc.graph.members v = x.doc.graph.members v

theorem Alike.trans (h : Alike origin x y) (h' : Alike origin y z) : Alike origin x z where
  targets ref := (h'.targets ref).trans (h.targets ref)
  entered id hid := h'.entered id (h.entered id hid)
  members v hv := by
    rw [h'.members v (hv.imp_right fun ⟨ref, hr⟩ => ⟨ref, (h.targets ref).trans hr⟩), h.members v hv]

theorem Alike.copyMembers (h : Alike origin x y) (href : origin.graph.refText? v = some ref)
    (hlookup : x.targets.lookup ref = some target) :
    y.copyMembers ref target v = x.copyMembers ref target v := by
  rw [Expansion.copyMembers, Expansion.copyMembers, h.members target (.inr ⟨ref, hlookup⟩),
    h.members v (.inl (Graph.has_of_refText? href))]

/-! ### Work inside a copy -/

/-- A state in which the slots of the copy `id` are gone through, all other copies being done. -/
structure Inside (origin : Document) (id : Nat) (x : Expansion) : Prop where
  valid : Valid origin x
  entered : id ∈ x.entered
  copy : origin.graph.size ≤ id
  untargeted : ∀ ref, x.targets.lookup ref ≠ some (.node id)
  full : ∀ j, origin.graph.size ≤ j → j < x.doc.graph.size → j ∈ x.entered

theorem members_congr {g g' : Graph} (h : g'.node? v = g.node? v) : g'.members v = g.members v := by
  simp only [Graph.members, Graph.object?, h]

/-- Quiet work inside a copy touches no container that copies are made of. -/
theorem Inside.alike (h : Inside origin id x) (hran : Ran (some id) x y)
    (hq : Quietly origin x y) : Alike origin x y where
  targets := hq.targets
  entered := hran.entered
  members := by
    intro v hv
    apply members_congr
    cases v with
    | scalar s => rfl
    | node j =>
      have hlt : j < x.doc.graph.size := by
        cases hv with
        | inl hv => exact Nat.lt_of_lt_of_le hv h.valid.size
        | inr hv =>
          obtain ⟨ref, hr⟩ := hv
          exact (h.valid.target ref _ hr).1
      have hne : id ≠ j := by
        rintro rfl
        cases hv with
        | inl hv => exact absurd hv (Nat.not_lt_of_le h.copy)
        | inr hv =>
          obtain ⟨ref, hr⟩ := hv
          exact h.untargeted ref hr
      apply hran.frame j hlt (by simpa using hne)
      by_cases hj : j < origin.graph.size
      · by_cases hx : j ∈ x.entered
        · exact .inl hx
        · exact .inr fun hy => hx (hq.entered j hj hy)
      · exact .inl (h.full j (Nat.le_of_not_lt hj) hlt)

theorem Inside.ran (h : Inside origin id x) (hran : Ran (some id) x y) (hq : Quietly origin x y) :
    Inside origin id y where
  valid := h.valid.steps hran.steps
  entered := hran.entered id h.entered
  copy := h.copy
  untargeted ref := by
    rw [hq.targets]
    exact h.untargeted ref
  full j hj hlt := by
    by_cases hx : j < x.doc.graph.size
    · exact hran.entered j (h.full j hj hx)
    · exact hran.fresh j (Nat.le_of_not_lt hx) hlt

/-- The state in which the copy that has taken the place of `v` is entered. -/
def copied (x : Expansion) (id : Nat) (slot : Slot) (ref : String) (target v : Value) : Expansion :=
  (x.replaceRef id slot ref target v).2.mark x.doc.graph.size

def slotsOf (members : List (String × Value)) : List (Slot × Value) :=
  members.map fun m => (.key m.1, m.2)

theorem settle_cached (h : Valid origin x) (href : origin.graph.refText? v = some ref)
    (hlookup : x.targets.lookup ref = some target) (id : Nat) (slot : Slot) :
    x.settle id slot v = .ok (x.replaceRef id slot ref target v) := by
  have href' : x.doc.graph.refText? v = some ref := (h.refText? v).trans href
  have htarget : x.targetOf ref = .ok (target, x) := by simp [targetOf, hlookup]
  rw [settle_ref href', htarget]
  rfl

theorem enterSlot_cached (h : Valid origin x) (href : origin.graph.refText? v = some ref)
    (hlookup : x.targets.lookup ref = some target) (id : Nat) (slot : Slot)
    (inner : Value → Expansion → Except Fault Expansion) :
    enterSlot inner id x (slot, v) =
      inner (.node x.doc.graph.size) (x.replaceRef id slot ref target v).2 := by
  rw [enterSlot, settle_cached h href hlookup]
  rfl

theorem slots_copy (hid : id < x.doc.graph.size) (slot : Slot) (ref : String) (target v : Value) :
    (x.replaceRef id slot ref target v).2.doc.graph.slots x.doc.graph.size =
      slotsOf (x.copyMembers ref target v) := by
  rw [graph_replaceRef, Graph.slots_of_node? (Graph.node?_graft_new hid slot _)]
  rfl

namespace Inside

theorem size_notMem (h : Inside origin id x) (slot : Slot) (ref : String) (target v : Value) :
    x.doc.graph.size ∉ (x.replaceRef id slot ref target v).2.entered :=
  fun hmem => Nat.lt_irrefl _ (h.valid.entered _ hmem)

/-- Work on a reference whose target is known goes through the slots of its copy. -/
theorem enterSlot_copy (h : Inside origin id x) (href : origin.graph.refText? v = some ref)
    (hlookup : x.targets.lookup ref = some target) (slot : Slot) (depth : Nat) :
    enterSlot (enter (depth + 1)) id x (slot, v) =
      (slotsOf (x.copyMembers ref target v)).foldlM (enterSlot (enter depth) x.doc.graph.size)
        (x.copied id slot ref target v) := by
  rw [enterSlot_cached h.valid href hlookup, enter_succ (h.size_notMem slot ref target v),
    slots_copy (h.valid.entered id h.entered)]
  rfl

theorem steps_copied (h : Inside origin id x) (hat : x.doc.graph.at? (.node id) slot = some v)
    (href : origin.graph.refText? v = some ref) (hlookup : x.targets.lookup ref = some target) :
    Steps x (x.copied id slot ref target v) := by
  have hreplace : Step x (x.replaceRef id slot ref target v).2 :=
    .replace hat ((h.valid.refText? v).trans href) hlookup
  exact .tail (.single hreplace) (.mark (x.has_replaceRef id slot ref target v))

theorem quietly_copied (h : Inside origin id x) (slot : Slot) (ref : String) (target v : Value) :
    Quietly origin x (x.copied id slot ref target v) where
  targets _ := rfl
  entered j hj hmem := by
    cases List.mem_cons.mp hmem with
    | inl hself => exact absurd (hself ▸ hj) (Nat.not_lt_of_le h.valid.size)
    | inr hmem => exact hmem

theorem copied (h : Inside origin id x) (hat : x.doc.graph.at? (.node id) slot = some v)
    (href : origin.graph.refText? v = some ref) (hlookup : x.targets.lookup ref = some target) :
    Inside origin x.doc.graph.size (x.copied id slot ref target v) where
  valid := h.valid.steps (h.steps_copied hat href hlookup)
  entered := List.mem_cons_self
  copy := h.valid.size
  untargeted r hr := Nat.lt_irrefl _ (h.valid.target r _ hr).1
  full j hj hlt := by
    have hlt' : j < x.doc.graph.size + 1 := by
      rwa [Expansion.copied, mark, size_replaceRef] at hlt
    cases Nat.lt_succ_iff_lt_or_eq.mp hlt' with
    | inl hlt => exact List.mem_cons_of_mem _ (h.full j hj hlt)
    | inr hself => exact hself ▸ List.mem_cons_self

theorem places_copied (h : Inside origin id x) (hat : x.doc.graph.at? (.node id) slot = some v)
    (href : origin.graph.refText? v = some ref) (hlookup : x.targets.lookup ref = some target) :
    ((slotsOf (x.copyMembers ref target v)).map Prod.fst).Nodup ∧
      ∀ p ∈ slotsOf (x.copyMembers ref target v),
        (x.copied id slot ref target v).doc.graph.at? (.node x.doc.graph.size) p.1 = some p.2 := by
  have hreplace : Valid origin (x.replaceRef id slot ref target v).2 :=
    h.valid.step (.replace hat ((h.valid.refText? v).trans href) hlookup)
  have hplaces := slots_mark hreplace x.doc.graph.size
  rwa [slots_copy (h.valid.entered id h.entered)] at hplaces

theorem alike_copied (h : Inside origin id x) (slot : Slot) (ref : String) (target v : Value) :
    Alike origin x (x.copied id slot ref target v) where
  targets _ := rfl
  entered _ hj := List.mem_cons_of_mem _ hj
  members := by
    intro w hw
    apply members_congr
    apply Graph.node?_graft_of_ne
    · rintro rfl
      cases hw with
      | inl hw => exact absurd hw (Nat.not_lt_of_le h.copy)
      | inr hw =>
        obtain ⟨r, hr⟩ := hw
        exact h.untargeted r hr
    · rintro rfl
      cases hw with
      | inl hw => exact absurd hw (Nat.not_lt_of_le h.valid.size)
      | inr hw =>
        obtain ⟨r, hr⟩ := hw
        exact Nat.lt_irrefl _ (h.valid.target r _ hr).1

end Inside

/-! ### Quiet values -/

/-- Values that are worked on without anything new being met. -/
inductive Quiet (x : Expansion) : Value → Prop
  | scalar {s : Scalar} : Quiet x (.scalar s)
  | entered {id : Nat} : x.doc.graph.refText? (.node id) = none → id ∈ x.entered → Quiet x (.node id)
  | copied {v : Value} {ref : String} {target : Value} : x.doc.graph.refText? v = some ref → x.targets.lookup ref = some target →
      (∀ m ∈ x.copyMembers ref target v, Quiet x m.2) → Quiet x v

/-- Whether work on the reference `v` comes to the reference `w`, nothing new being met before. -/
def Leads (x : Expansion) (v w : Value) : Prop :=
  ∃ ref target before key after, x.doc.graph.refText? v = some ref ∧
    x.targets.lookup ref = some target ∧
    x.copyMembers ref target v = before ++ (key, w) :: after ∧
    (∀ m ∈ before, Quiet x m.2) ∧ (x.doc.graph.refText? w).isSome

section

variable (hx : Valid origin x) (hy : Valid origin y) (h : Alike origin x y)

include hx hy h

theorem Quiet.mono (hv : Quiet x v) : Quiet y v := by
  induction hv with
  | scalar => exact .scalar
  | @entered id hplain hid =>
    refine .entered ?_ (h.entered id hid)
    rw [hy.refText?, ← hx.refText?, hplain]
  | @copied v ref target href hlookup _ ih =>
    have hsame := h.copyMembers ((hx.refText? v).symm.trans href) hlookup
    refine .copied ?_ ((h.targets ref).trans hlookup) (hsame ▸ ih)
    rw [hy.refText?, ← hx.refText?, href]

theorem Leads.mono (hvw : Leads x v w) : Leads y v w := by
  obtain ⟨ref, target, before, key, after, href, hlookup, heq, hquiet, hw⟩ := hvw
  refine ⟨ref, target, before, key, after, ?_, (h.targets ref).trans hlookup, ?_,
    fun m hm => (hquiet m hm).mono hx hy h, ?_⟩
  · rw [hy.refText?, ← hx.refText?, href]
  · rw [h.copyMembers ((hx.refText? v).symm.trans href) hlookup, heq]
  · rw [hy.refText?, ← hx.refText?]
    exact hw

end

end ApiRecords.Expansion
