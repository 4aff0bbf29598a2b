import ApiRecords.Proofs.Expansion.Steps

/-!
What entering a value does as a whole, when it ends: steps that leave every container entered before
as it was, and that leave behind no reference in the containers entered on the way.
-/

namespace ApiRecords.Expansion

variable {origin : Document} {x y z : Expansion} {id : Nat} {slot : Slot} {u v w : Value}
  {ref : String} {depth : Nat} {own : Option Nat}

/-! ### One call -/

@[simp] theorem enter_scalar (depth : Nat) (s : Scalar) (x : Expansion) :
    enter depth (.scalar s) x = .ok x := by
  cases depth <;> rfl

theorem enter_of_mem (h : id ∈ x.entered) (depth : Nat) : enter depth (.node id) x = .ok x := by
  cases depth <;> simp [enter, h]

theorem enter_zero (h : id ∉ x.entered) : enter 0 (.node id) x = .error .endlessExpansion := by
  simp [enter, h]

theorem enter_succ (h : id ∉ x.entered) (depth : Nat) :
    enter (depth + 1) (.node id) x =
      (x.doc.graph.slots id).foldlM (enterSlot (enter depth) id) (x.mark id) := by
  simp [enter, h]

theorem settle_plain (h : x.doc.graph.refText? v = none) (id : Nat) (slot : Slot) :
    x.settle id slot v = .ok (v, x) := by
  simp [settle, h]

/-- Nothing is left to do for a value that is settled. -/
theorem enterSlot_settled (hplain : x.doc.graph.refText? v = none)
    (hv : ∀ id, v = .node id → id ∈ x.entered) (depth id : Nat) (slot : Slot) :
    enterSlot (enter depth) id x (slot, v) = .ok x := by
  rw [enterSlot, settle_plain hplain]
  cases v with
  | scalar s => exact enter_scalar depth s x
  | node j => exact enter_of_mem (hv j rfl) depth

theorem settle_ref (href : x.doc.graph.refText? v = some ref) (id : Nat) (slot : Slot) :
    x.settle id slot v =
      x.targetOf ref >>= fun (target, x) => .ok (x.replaceRef id slot ref target v) := by
  simp only [settle, href]
  rfl

/-- What it takes to know the target of a reference: at most that it is looked up. -/
structure Found (ref : String) (target : Value) (x y : Expansion) : Prop where
  steps : Steps x y
  doc : y.doc = x.doc
  entered : y.entered = x.entered
  lookup : y.targets.lookup ref = some target

theorem targetOf_ok {target : Value} (href : x.doc.graph.refText? v = some ref)
    (h : x.targetOf ref = .ok (target, y)) : Found ref target x y := by
  unfold targetOf at h
  cases hlookup : x.targets.lookup ref with
  | some t =>
    obtain ⟨rfl, rfl⟩ : t = target ∧ x = y := by simpa [hlookup] using h
    exact ⟨.refl, rfl, rfl, hlookup⟩
  | none =>
    simp only [hlookup, bind_ok_iff, pure_ok_iff, Prod.mk.injEq] at h
    obtain ⟨t, ht, rfl, rfl⟩ := h
    exact ⟨.single (.find href hlookup ht), rfl, rfl, by simp⟩

/-- A settled slot holds the value that was there, or a copy made once the target is known. -/
theorem settle_ok (h : x.settle id slot v = .ok (w, z)) :
    (x.doc.graph.refText? v = none ∧ w = v ∧ z = x) ∨
      ∃ ref target y, x.doc.graph.refText? v = some ref ∧ Found ref target x y ∧
        w = .node x.doc.graph.size ∧ z = (y.replaceRef id slot ref target v).2 := by
  cases href : x.doc.graph.refText? v with
  | none =>
    rw [settle_plain href] at h
    obtain ⟨rfl, rfl⟩ : v = w ∧ x = z := by simpa using h
    exact .inl ⟨rfl, rfl, rfl⟩
  | some ref =>
    simp only [settle_ref href, bind_ok_iff, Except.ok.injEq] at h
    obtain ⟨⟨target, y⟩, htarget, heq⟩ := h
    have hfound := targetOf_ok href htarget
    refine .inr ⟨ref, target, y, rfl, hfound, ?_, (congrArg Prod.snd heq).symm⟩
    rw [← hfound.doc]
    exact (congrArg Prod.fst heq).symm

/-! ### What a run leaves -/

/-- Whether a value needs no more work. -/
structure Settled (x : Expansion) (v : Value) : Prop where
  plain : x.doc.graph.refText? v = none
  entered : ∀ id, v = .node id → id ∈ x.entered

/-- A run from `x` to `y` that may also put values into the container `own`. -/
structure Ran (own : Option Nat) (x y : Expansion) : Prop where
  steps : Steps x y
  entered : ∀ id ∈ x.entered, id ∈ y.entered
  frame : ∀ id, id < x.doc.graph.size → own ≠ some id → (id ∈ x.entered ∨ id ∉ y.entered) →
    y.doc.graph.node? (.node id) = x.doc.graph.node? (.node id)
  fresh : ∀ id, x.doc.graph.size ≤ id → id < y.doc.graph.size → id ∈ y.entered
  settled : ∀ id ∈ y.entered, id ∉ x.entered → ∀ slot v,
    y.doc.graph.at? (.node id) slot = some v → y.Settled v

theorem Step.size (h : Step x y) : x.doc.graph.size ≤ y.doc.graph.size := by
  cases h with
  | mark h => exact Nat.le_refl _
  | find href hnone htarget => exact Nat.le_refl _
  | replace hat href hlookup =>
    rw [size_replaceRef]
    exact Nat.le_succ _

theorem Steps.size (h : Steps x y) : x.doc.graph.size ≤ y.doc.graph.size := by
  induction h with
  | refl => exact Nat.le_refl _
  | tail _ hstep ih => exact Nat.le_trans ih hstep.size

theorem Settled.mono (hx : Valid origin x) (h : Ran own x y) (hv : x.Settled v) : y.Settled v where
  plain := by
    rw [(hx.steps h.steps).refText?, ← hx.refText?]
    exact hv.plain
  entered id hid := h.entered id (hv.entered id hid)

theorem Ran.refl (own : Option Nat) (x : Expansion) : Ran own x x where
  steps := .refl
  entered _ h := h
  frame _ _ _ _ := rfl
  fresh _ h h' := absurd h' (Nat.not_lt_of_le h)
  settled _ h h' := absurd h h'

theorem Ran.trans (hx : Valid origin x) (hown : ∀ id, own = some id → id ∈ x.entered)
    (h : Ran own x y) (h' : Ran own y z) : Ran own x z where
  steps := h.steps.trans h'.steps
  entered id hid := h'.entered id (h.entered id hid)
  frame := by
    intro id hid hne hwhen
    rw [h'.frame id (Nat.lt_of_lt_of_le hid (Steps.size h.steps)) hne, h.frame id hid hne]
    · exact hwhen.imp_right fun hz hy => hz (h'.entered id hy)
    · exact hwhen.imp_left (h.entered id)
  fresh := by
    intro id hid hlt
    by_cases hy : id < y.doc.graph.size
    · exact h'.entered id (h.fresh id hid hy)
    · exact h'.fresh id (Nat.le_of_not_lt hy) hlt
  settled := by
    intro id hid hnot slot v hat
    by_cases hy : id ∈ y.entered
    · have hne : own ≠ some id := fun e => hnot (hown id e)
      have hsame := h'.frame id ((hx.steps h.steps).entered id hy) hne (.inl hy)
      rw [Graph.at?, hsame] at hat
      exact (h.settled id hy hnot slot v hat).mono (hx.steps h.steps) h'
    · exact h'.settled id hid hy slot v hat

theorem Ran.of_none (h : Ran none x y) (own : Option Nat) : Ran own x y where
  steps := h.steps
  entered := h.entered
  frame id hid _ hwhen := h.frame id hid nofun hwhen
  fresh := h.fresh
  settled := h.settled

/-! ### Slots and containers -/

/-- Whether a way of entering values enters them, and runs as it should. -/
def Enters (origin : Document) (inner : Value → Expansion → Except Fault Expansion) : Prop :=
  ∀ v x y, Valid origin x → x.doc.graph.Has v → inner v x = .ok y →
    Ran none x y ∧ ∀ id, v = .node id → id ∈ y.entered

variable {inner : Value → Expansion → Except Fault Expansion}

theorem Found.ran {target : Value} (h : Found ref target x y) : Ran own x y where
  steps := h.steps
  entered id hid := h.entered ▸ hid
  frame id _ _ _ := by rw [h.doc]
  fresh id hid hlt := absurd hlt (by rw [h.doc]; exact Nat.not_lt_of_le hid)
  settled id hid hnot := absurd (h.entered ▸ hid) hnot

theorem Ran.of_replace {target : Value} (hat : x.doc.graph.at? (.node id) slot = some v)
    (href : x.doc.graph.refText? v = some ref) (hlookup : x.targets.lookup ref = some target)
    (h : Ran none (x.replaceRef id slot ref target v).2 y)
    (hcopy : x.doc.graph.size ∈ y.entered) : Ran (some id) x y := by
  have hsize := x.size_replaceRef id slot ref target v
  constructor
  · exact .head (.replace hat href hlookup) h.steps
  · exact h.entered
  · intro j hj hne hwhen
    have hj' : j < (x.replaceRef id slot ref target v).2.doc.graph.size := by omega
    have hself : Value.node j ≠ .node id := fun e => hne (by rw [Value.node.inj e])
    have hnew : Value.node j ≠ .node x.doc.graph.size := by simpa using Nat.ne_of_lt hj
    rw [h.frame j hj' nofun hwhen, graph_replaceRef, Graph.node?_graft_of_ne hself hnew]
  · intro j hj hlt
    by_cases hcopy' : j = x.doc.graph.size
    · rw [hcopy']
      exact hcopy
    · exact h.fresh j (by omega) hlt
  · exact h.settled

/-- What work on one slot of a container leaves: the slot settled, the others as they were. -/
structure SlotDone (id : Nat) (slot : Slot) (x y : Expansion) : Prop where
  ran : Ran (some id) x y
  others : ∀ s, s ≠ slot → y.doc.graph.at? (.node id) s = x.doc.graph.at? (.node id) s
  done : ∃ w, y.doc.graph.at? (.node id) slot = some w ∧ y.Settled w

theorem slotDone_plain (hinner : Enters origin inner) (hx : Valid origin x) (hid : id ∈ x.entered)
    (hat : x.doc.graph.at? (.node id) slot = some v) (hplain : x.doc.graph.refText? v = none)
    (h : inner v x = .ok y) : SlotDone id slot x y := by
  obtain ⟨hran, hv⟩ := hinner v x y hx (hx.wellFormed.values _ _ _ hat) h
  have hsame : ∀ s, y.doc.graph.at? (.node id) s = x.doc.graph.at? (.node id) s := by
    intro s
    rw [Graph.at?, Graph.at?, hran.frame id (hx.entered id hid) (by simp) (.inl hid)]
  refine ⟨hran.of_none _, fun s _ => hsame s, v, (hsame slot).trans hat, ?_, hv⟩
  rw [(hx.steps hran.steps).refText?, ← hx.refText?, hplain]

theorem slotDone_copy (hinner : Enters origin inner) (hx : Valid origin x) (hid : id ∈ x.entered)
    (hat : x.doc.graph.at? (.node id) slot = some v) (href : x.doc.graph.refText? v = some ref)
    {target : Value} (hlookup : x.targets.lookup ref = some target)
    (h : inner (.node x.doc.graph.size) (x.replaceRef id slot ref target v).2 = .ok y) :
    SlotDone id slot x y := by
  have hx' : Valid origin (x.replaceRef id slot ref target v).2 :=
    hx.step (.replace hat href hlookup)
  obtain ⟨hran, hcopy⟩ := hinner _ _ _ hx' (x.has_replaceRef id slot ref target v) h
  obtain ⟨m, hm, hslot⟩ := Option.bind_eq_some_iff.mp hat
  have hsame : ∀ s, y.doc.graph.at? (.node id) s = (m.set slot (.node x.doc.graph.size)).at? s := by
    intro s
    rw [Graph.at?, hran.frame id (hx'.entered id hid) (by simp) (.inl hid), graph_replaceRef,
      Graph.node?_graft_self hm, Option.bind_some]
  refine ⟨.of_replace hat href hlookup hran (hcopy _ rfl), ?_, .node x.doc.graph.size, ?_, ?_, hcopy⟩
  · intro s hs
    rw [hsame, Node.at?_set_of_ne hs, Graph.at?, hm, Option.bind_some]
  · rw [hsame, Node.at?_set_self hslot]
  · rw [(hx'.steps hran.steps).refText?, ← hx.refText?, Graph.refText?_new]

theorem enterSlot_ran (hinner : Enters origin inner) (hx : Valid origin x) (hid : id ∈ x.entered)
    (hat : x.doc.graph.at? (.node id) slot = some v) (h : enterSlot inner id x (slot, v) = .ok y) :
    SlotDone id slot x y := by
  simp only [enterSlot, bind_ok_iff] at h
  obtain ⟨⟨w, z⟩, hsettle, h⟩ := h
  cases settle_ok hsettle with
  | inl hplain =>
    obtain ⟨hplain, rfl, rfl⟩ := hplain
    exact slotDone_plain hinner hx hid hat hplain h
  | inr href =>
    obtain ⟨ref, target, x₁, href, hfound, rfl, rfl⟩ := href
    have hx₁ : Valid origin x₁ := hx.steps hfound.steps
    rw [← hfound.doc] at hat href h
    have hdone := slotDone_copy hinner hx₁ (hfound.entered ▸ hid) hat href hfound.lookup h
    refine ⟨hfound.ran.trans hx ?_ hdone.ran, fun s hs => ?_, hdone.done⟩
    · intro j hj
      rw [← Option.some.inj hj]
      exact hid
    · rw [hdone.others s hs, hfound.doc]

/-- Slots still to be gone through hold what they held when the container was entered. -/
theorem pending_of_others {places : List (Slot × Value)} (hslot : slot ∉ places.map Prod.fst)
    (hothers : ∀ s, s ≠ slot → y.doc.graph.at? (.node id) s = x.doc.graph.at? (.node id) s)
    (hat : ∀ p ∈ places, x.doc.graph.at? (.node id) p.1 = some p.2) :
    ∀ p ∈ places, y.doc.graph.at? (.node id) p.1 = some p.2 := by
  intro p hp
  have hne : p.1 ≠ slot := fun e => hslot (List.mem_map.mpr ⟨p, hp, e⟩)
  rw [hothers p.1 hne]
  exact hat p hp

/-- Work on some slots of a container settles them and leaves the others. -/
theorem enterSlots_ran (hinner : Enters origin inner) {places : List (Slot × Value)}
    (hdistinct : (places.map Prod.fst).Nodup) (hx : Valid origin x) (hid : id ∈ x.entered)
    (hat : ∀ p ∈ places, x.doc.graph.at? (.node id) p.1 = some p.2)
    (h : places.foldlM (enterSlot inner id) x = .ok y) :
    Ran (some id) x y ∧
      (∀ s, s ∉ places.map Prod.fst →
        y.doc.graph.at? (.node id) s = x.doc.graph.at? (.node id) s) ∧
      ∀ s ∈ places.map Prod.fst, ∃ w, y.doc.graph.at? (.node id) s = some w ∧ y.Settled w := by
  induction places generalizing x with
  | nil =>
    obtain rfl := (pure_ok_iff _ _).mp h
    exact ⟨.refl _ _, fun s _ => rfl, fun s hs => absurd hs List.not_mem_nil⟩
  | cons p places ih =>
    obtain ⟨slot, v⟩ := p
    simp only [List.foldlM_cons, bind_ok_iff] at h
    obtain ⟨x₁, hslot, h⟩ := h
    rw [List.map_cons, List.nodup_cons] at hdistinct
    have hown : ∀ j, some id = some j → j ∈ x.entered := fun j hj => Option.some.inj hj ▸ hid
    obtain ⟨hran₁, hothers, w, hw, hsettled⟩ :=
      enterSlot_ran hinner hx hid (hat (slot, v) List.mem_cons_self) hslot
    have hx₁ := hx.steps hran₁.steps
    have hat₁ := pending_of_others hdistinct.1 hothers fun p hp => hat p (List.mem_cons_of_mem _ hp)
    obtain ⟨hran, hrest, hdone⟩ := ih hdistinct.2 hx₁ (hran₁.entered id hid) hat₁ h
    refine ⟨hran₁.trans hx hown hran, ?_, ?_⟩
    · intro s hs
      rw [List.map_cons, List.mem_cons, not_or] at hs
      rw [hrest s hs.2, hothers s hs.1]
    · intro s hs
      rw [List.map_cons, List.mem_cons] at hs
      by_cases hslots : s ∈ places.map Prod.fst
      · exact hdone s hslots
      · obtain rfl := hs.resolve_right hslots
        exact ⟨w, (hrest s hslots).trans hw, hsettled.mono hx₁ hran⟩

theorem enters_of_fresh (h : ∀ id x y, Valid origin x → id < x.doc.graph.size → id ∉ x.entered →
    enter depth (.node id) x = .ok y → Ran none x y ∧ id ∈ y.entered) :
    Enters origin (enter depth) := by
  intro v x y hx hv hrun
  cases v with
  | scalar s =>
    obtain rfl : x = y := by simpa using hrun
    exact ⟨.refl _ _, nofun⟩
  | node id =>
    by_cases hid : id ∈ x.entered
    · obtain rfl : x = y := by simpa [enter_of_mem hid] using hrun
      exact ⟨.refl _ _, fun j hj => Value.node.inj hj ▸ hid⟩
    · obtain ⟨hran, hmem⟩ := h id x y hx hv hid hrun
      exact ⟨hran, fun j hj => Value.node.inj hj ▸ hmem⟩

/-- The slots of a container that has just been counted as entered. -/
theorem slots_mark (hx : Valid origin x) (id : Nat) :
    ((x.doc.graph.slots id).map Prod.fst).Nodup ∧
      ∀ p ∈ x.doc.graph.slots id, (x.mark id).doc.graph.at? (.node id) p.1 = some p.2 :=
  ⟨Graph.nodup_slots hx.wellFormed id, fun _ hp => (Graph.mem_slots_iff hx.wellFormed).mp hp⟩

/-- Entering ends with each container entered on the way free of references. -/
theorem enter_ran (depth : Nat) : Enters origin (enter depth) := by
  induction depth with
  | zero =>
    apply enters_of_fresh
    intro id x y hx hlt hid h
    simp [enter_zero hid] at h
  | succ depth ih =>
    apply enters_of_fresh
    intro id x y hx hlt hid h
    rw [enter_succ hid] at h
    obtain ⟨hdistinct, hat⟩ := slots_mark hx id
    have hmark : Valid origin (x.mark id) := hx.step (.mark hlt)
    obtain ⟨hran, hothers, hdone⟩ := enterSlots_ran ih hdistinct hmark List.mem_cons_self hat h
    have hmem : id ∈ y.entered := hran.entered id List.mem_cons_self
    refine ⟨⟨.head (.mark hlt) hran.steps, ?_, ?_, hran.fresh, ?_⟩, hmem⟩
    · intro j hj
      exact hran.entered j (List.mem_cons_of_mem _ hj)
    · intro j hj _ hwhen
      have hne : id ≠ j := by
        rintro rfl
        exact hwhen.elim hid fun h => h hmem
      exact hran.frame j hj (by simpa using hne) (hwhen.imp_left (List.mem_cons_of_mem _))
    · intro j hj hnot slot v hv
      by_cases hself : j = id
      · subst hself
        have hslot : slot ∈ (x.doc.graph.slots j).map Prod.fst := by
          by_contra hslot
          rw [hothers slot hslot] at hv
          exact hslot (List.mem_map_of_mem ((Graph.mem_slots_iff hx.wellFormed).mpr hv))
        obtain ⟨w, hw, hsettled⟩ := hdone slot hslot
        obtain rfl : v = w := Option.some.inj (hv.symm.trans hw)
        exact hsettled
      · exact hran.settled j hj (by simp [mark, hself, hnot]) slot v hv

/-- An expanded document is what a run from the marked document leaves, with all that was entered
settled. -/
structure Prepared (marked : Document) (x : Expansion) : Prop where
  valid : Valid marked x
  steps : Steps ⟨marked, [], []⟩ x
  root : ∀ id, marked.root = .node id → id ∈ x.entered
  settled : ∀ id ∈ x.entered, ∀ slot v, x.doc.graph.at? (.node id) slot = some v → x.Settled v

theorem prepared_of_expand {marked prepared : Document} (hmarked : marked.WellFormed)
    (h : marked.expand depth = .ok prepared) : ∃ x, x.doc = prepared ∧ Prepared marked x := by
  simp only [Document.expand, bind_ok_iff, pure_ok_iff] at h
  obtain ⟨x, hrun, rfl⟩ := h
  have hstart := valid_start hmarked
  obtain ⟨hran, hroot⟩ := enter_ran _ _ _ _ hstart hmarked.root hrun
  exact ⟨x, rfl, hstart.steps hran.steps, hran.steps, hroot,
    fun id hid => hran.settled id hid List.not_mem_nil⟩

theorem prepared_of_prepare {doc marked prepared : Document} {v2 : Bool} (hdoc : doc.WellFormed)
    (hmarked : doc.stamp v2 = .ok marked) (h : doc.prepare v2 = .ok prepared) :
    ∃ x, x.doc = prepared ∧ Prepared marked x := by
  obtain ⟨_, hstamp, hexpand⟩ := (bind_ok_iff ..).mp h
  obtain rfl := Except.ok.inj (hmarked.symm.trans hstamp)
  exact prepared_of_expand (hdoc.stamp hmarked) hexpand

end ApiRecords.Expansion
