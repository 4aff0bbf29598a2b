import ApiRecords.Proofs.Expansion.Silence

/-!
Runs that never end: inside a copy they meet a reference that leads back to itself. Each turn makes a
copy of the same target, in which the reference has not been replaced.
-/

namespace ApiRecords

namespace Expansion

variable {origin : Document} {x y z : Expansion} {id : Nat} {slot : Slot} {u v w target : Value}
  {ref : String} {depth depth' : Nat}

/-! ### Quiet work -/

/-- Whether work on quiet values ends, if it does, with nothing new met. -/
def QuietlyEnds (origin : Document) (depth : Nat) : Prop :=
  ∀ x id slot v, Inside origin id x → x.doc.graph.at? (.node id) slot = some v → Quiet x v →
    enterSlot (enter depth) id x (slot, v) = .error .endlessExpansion ∨
      ∃ y, enterSlot (enter depth) id x (slot, v) = .ok y ∧ Quietly origin x y

theorem enterSlots_quiet (hends : QuietlyEnds origin depth) {places : List (Slot × Value)}
    (hdistinct : (places.map Prod.fst).Nodup) (h : Inside origin id x)
    (hat : ∀ p ∈ places, x.doc.graph.at? (.node id) p.1 = some p.2)
    (hquiet : ∀ p ∈ places, Quiet x p.2) :
    places.foldlM (enterSlot (enter depth) id) x = .error .endlessExpansion ∨
      ∃ y, places.foldlM (enterSlot (enter depth) id) x = .ok y ∧ Quietly origin x y := by
  induction places generalizing x with
  | nil => exact .inr ⟨x, rfl, .refl origin x⟩
  | cons p places ih =>
    obtain ⟨slot, v⟩ := p
    rw [List.map_cons, List.nodup_cons] at hdistinct
    rw [List.foldlM_cons]
    have hhead := hat (slot, v) List.mem_cons_self
    cases hends x id slot v h hhead (hquiet (slot, v) List.mem_cons_self) with
    | inl hendless =>
      rw [hendless]
      exact .inl rfl
    | inr hok =>
      obtain ⟨y, hy, hq⟩ := hok
      obtain ⟨hran, hothers, -⟩ := enterSlot_ran (enter_ran depth) h.valid h.entered hhead hy
      have hinside := h.ran hran hq
      have hat' := pending_of_others hdistinct.1 hothers fun p hp =>
        hat p (List.mem_cons_of_mem _ hp)
      have hquiet' : ∀ p ∈ places, Quiet y p.2 := fun p hp =>
        (hquiet p (List.mem_cons_of_mem _ hp)).mono h.valid hinside.valid (h.alike hran hq)
      rw [hy]
      refine (ih hdistinct.2 hinside hat' hquiet').imp_right ?_
      rintro ⟨z, hz, hq'⟩
      exact ⟨z, hz, hq.trans hq'⟩

theorem quietlyEnds (origin : Document) (depth : Nat) : QuietlyEnds origin depth := by
  induction depth with
  | zero =>
    intro x id slot v h hat hquiet
    cases hquiet with
    | scalar => exact .inr ⟨x, enterSlot_settled (v := .scalar _) rfl nofun 0 id slot, .refl origin x⟩
    | entered hplain hid =>
      exact .inr ⟨x, enterSlot_settled hplain (by simp [hid]) 0 id slot, .refl origin x⟩
    | copied href hlookup hmembers =>
      rw [enterSlot_cached h.valid ((h.valid.refText? v).symm.trans href) hlookup]
      exact .inl (enter_zero (h.size_notMem slot _ _ v))
  | succ depth ih =>
    intro x id slot v h hat hquiet
    cases hquiet with
    | scalar => exact .inr ⟨x, enterSlot_settled (v := .scalar _) rfl nofun _ id slot, .refl origin x⟩
    | entered hplain hid =>
      exact .inr ⟨x, enterSlot_settled hplain (by simp [hid]) _ id slot, .refl origin x⟩
    | @copied _ ref target href hlookup hmembers =>
      have href' := (h.valid.refText? v).symm.trans href
      obtain ⟨hdistinct, hat'⟩ := h.places_copied hat href' hlookup
      have hinside := h.copied hat href' hlookup
      have hquiet : ∀ p ∈ slotsOf (x.copyMembers ref target v),
          Quiet (x.copied id slot ref target v) p.2 := by
        intro p hp
        obtain ⟨m, hm, rfl⟩ := List.mem_map.mp hp
        exact (hmembers m hm).mono h.valid hinside.valid (h.alike_copied slot ref target v)
      rw [h.enterSlot_copy href' hlookup]
      refine (enterSlots_quiet ih hdistinct hinside hat' hquiet).imp_right ?_
      rintro ⟨y, hy, hq⟩
      exact ⟨y, hy, (h.quietly_copied slot ref target v).trans hq⟩

/-! ### Turns without end -/

theorem exists_step_of_cycle {α : Type} {r : α → α → Prop} {a : α} (h : Relation.TransGen r a a) :
    ∃ b, r a b ∧ Relation.TransGen r b b := by
  obtain ⟨b, hab, hba⟩ := Relation.TransGen.head'_iff.mp h
  exact ⟨b, hab, Relation.TransGen.tail' hba hab⟩

/-- Work on a reference that leads back to itself needs more depth than there is. -/
theorem enterSlot_endless (h : Inside origin id x) (hat : x.doc.graph.at? (.node id) slot = some v)
    (hcycle : Relation.TransGen (Leads x) v v) (depth : Nat) :
    enterSlot (enter depth) id x (slot, v) = .error .endlessExpansion := by
  induction depth generalizing x id slot v with
  | zero =>
    obtain ⟨w, hleads, -⟩ := exists_step_of_cycle hcycle
    obtain ⟨ref, target, before, key, after, href, hlookup, -⟩ := hleads
    rw [enterSlot_cached h.valid ((h.valid.refText? v).symm.trans href) hlookup]
    exact enter_zero (h.size_notMem slot ref target v)
  | succ depth ih =>
    obtain ⟨w, hleads, hcycle⟩ := exists_step_of_cycle hcycle
    obtain ⟨ref, target, before, key, after, href, hlookup, heq, hquiet, -⟩ := hleads
    have href' := (h.valid.refText? v).symm.trans href
    have hinside := h.copied hat href' hlookup
    have halike := h.alike_copied slot ref target v
    obtain ⟨hdistinct, hat'⟩ := h.places_copied hat href' hlookup
    have hslots : slotsOf (x.copyMembers ref target v) =
        slotsOf before ++ (.key key, w) :: slotsOf after := by simp [slotsOf, heq]
    rw [hslots] at hdistinct hat'
    rw [h.enterSlot_copy href' hlookup, hslots, List.foldlM_append]
    have hbefore : ∀ p ∈ slotsOf before, Quiet (x.copied id slot ref target v) p.2 := by
      intro p hp
      obtain ⟨m, hm, rfl⟩ := List.mem_map.mp hp
      exact (hquiet m hm).mono h.valid hinside.valid halike
    rw [List.map_append, List.map_cons] at hdistinct
    have hdistinct' := (List.nodup_append'.mp hdistinct).1
    have hat'' : ∀ p ∈ slotsOf before, _ := fun p hp => hat' p (List.mem_append_left _ hp)
    cases enterSlots_quiet (quietlyEnds origin depth) hdistinct' hinside hat'' hbefore with
    | inl hendless =>
      rw [hendless]
      rfl
    | inr hok =>
      obtain ⟨y, hy, hq⟩ := hok
      obtain ⟨hran, hothers, -⟩ :=
        enterSlots_ran (enter_ran depth) hdistinct' hinside.valid hinside.entered hat'' hy
      have hinside' := hinside.ran hran hq
      have hnew : (Slot.key key) ∉ (slotsOf before).map Prod.fst := fun hmem =>
        (List.nodup_append'.mp hdistinct).2.2 hmem List.mem_cons_self
      have hw : y.doc.graph.at? (.node x.doc.graph.size) (.key key) = some w := by
        rw [hothers _ hnew]
        exact hat' _ (List.mem_append_right _ List.mem_cons_self)
      have halike' := halike.trans (hinside.alike hran hq)
      have hleads : Leads x ≤ Leads y := fun a b hab => hab.mono h.valid hinside'.valid halike'
      have hnext := ih hinside' hw (Relation.TransGen.mono hleads w w hcycle)
      simp [hy, List.foldlM_cons, hnext, bind, Except.bind]

/-! ### The calls of a run -/

/-- Whether the run comes to a slot of the container `id`, entered in `x`, in the state `y`. -/
def Meets (id : Nat) (x : Expansion) (place : Slot × Value) (y : Expansion) : Prop :=
  ∃ before after depth, x.doc.graph.slots id = before ++ place :: after ∧
    before.foldlM (enterSlot (enter depth) id) (x.mark id) = .ok y

/-- The containers that are entered in the expansion of a document, each with the state before. -/
inductive Calls (doc : Document) : Nat → Expansion → Prop
  | root {id : Nat} : doc.root = .node id → Calls doc id ⟨doc, [], []⟩
  | inner {id id' : Nat} {x y y' : Expansion} {slot : Slot} {v : Value} : Calls doc id x →
      Meets id x (slot, v) y → y.settle id slot v = .ok (.node id', y') → id' ∉ y'.entered →
      Calls doc id' y'

/-- A state in which `id` is about to be entered, all copies but `id` being done. -/
structure Entering (origin : Document) (id : Nat) (x : Expansion) : Prop where
  valid : Valid origin x
  lt : id < x.doc.graph.size
  notMem : id ∉ x.entered
  full : ∀ j, origin.graph.size ≤ j → j < x.doc.graph.size → j ≠ id → j ∈ x.entered
  untargeted : origin.graph.size ≤ id → ∀ ref, x.targets.lookup ref ≠ some (.node id)

/-- A state in which a slot of `id` is next to be gone through, all copies being done. -/
structure Working (origin : Document) (id : Nat) (slot : Slot) (v : Value) (x : Expansion) :
    Prop where
  valid : Valid origin x
  entered : id ∈ x.entered
  at? : x.doc.graph.at? (.node id) slot = some v
  full : ∀ j, origin.graph.size ≤ j → j < x.doc.graph.size → j ∈ x.entered

/-- What is known once the slots before one have been gone through. -/
theorem Entering.before (h : Entering origin id x) {before after : List (Slot × Value)}
    (hslots : x.doc.graph.slots id = before ++ (slot, v) :: after)
    (hrun : before.foldlM (enterSlot (enter depth) id) (x.mark id) = .ok y) :
    (before.map Prod.fst).Nodup ∧
      (∀ p ∈ before, (x.mark id).doc.graph.at? (.node id) p.1 = some p.2) ∧
      Ran (some id) (x.mark id) y ∧ y.doc.graph.at? (.node id) slot = some v := by
  obtain ⟨hdistinct, hat⟩ := slots_mark h.valid id
  rw [hslots] at hdistinct hat
  rw [List.map_append, List.map_cons, List.nodup_append'] at hdistinct
  have hbefore : ∀ p ∈ before, (x.mark id).doc.graph.at? (.node id) p.1 = some p.2 :=
    fun p hp => hat p (List.mem_append_left _ hp)
  obtain ⟨hran, hothers, -⟩ := enterSlots_ran (enter_ran depth) hdistinct.1
    (h.valid.step (.mark h.lt)) List.mem_cons_self hbefore hrun
  refine ⟨hdistinct.1, hbefore, hran, ?_⟩
  rw [hothers slot fun hmem => hdistinct.2.2 hmem List.mem_cons_self]
  exact hat (slot, v) (List.mem_append_right _ List.mem_cons_self)

theorem Entering.ran (h : Entering origin id x) (hm : Meets id x (slot, v) y) :
    Ran (some id) (x.mark id) y ∧ y.doc.graph.at? (.node id) slot = some v := by
  obtain ⟨before, after, depth, hslots, hrun⟩ := hm
  exact (h.before hslots hrun).2.2

theorem Entering.working (h : Entering origin id x) (hm : Meets id x (slot, v) y) :
    Working origin id slot v y := by
  obtain ⟨hran, hat⟩ := h.ran hm
  refine ⟨(h.valid.step (.mark h.lt)).steps hran.steps, hran.entered id List.mem_cons_self, hat, ?_⟩
  intro j hj hlt
  by_cases hx : j < x.doc.graph.size
  · apply hran.entered
    by_cases hself : j = id
    · exact hself ▸ List.mem_cons_self
    · exact List.mem_cons_of_mem _ (h.full j hj hx hself)
  · exact hran.fresh j (Nat.le_of_not_lt hx) hlt

theorem steps_settle (hat : x.doc.graph.at? (.node id) slot = some v)
    (h : x.settle id slot v = .ok (w, z)) : Steps x z := by
  cases settle_ok h with
  | inl hplain =>
    obtain ⟨-, -, rfl⟩ := hplain
    exact .refl
  | inr hcopy =>
    obtain ⟨ref, target, y, href, hfound, -, rfl⟩ := hcopy
    rw [← hfound.doc] at hat href
    exact hfound.steps.tail (.replace hat href hfound.lookup)

/-- The next call is on a container of the document, or on a copy that has just been made. -/
theorem Working.entering {id' : Nat} (h : Working origin id slot v y)
    (hs : y.settle id slot v = .ok (.node id', z)) (hnot : id' ∉ z.entered) :
    Entering origin id' z := by
  cases settle_ok hs with
  | inl hplain =>
    obtain ⟨-, hv, rfl⟩ := hplain
    have hid' : z.doc.graph.Has (.node id') := by
      rw [hv]
      exact h.valid.wellFormed.values _ _ _ h.at?
    exact ⟨h.valid, hid', hnot, fun j hj hlt _ => h.full j hj hlt,
      fun hcopy => absurd (h.full id' hcopy hid') hnot⟩
  | inr href =>
    obtain ⟨ref, target, x, href, hfound, hw, rfl⟩ := href
    obtain rfl := Value.node.inj hw
    have hx := h.valid.steps hfound.steps
    have hsize := x.size_replaceRef id slot ref target v
    rw [hfound.doc] at hsize
    refine ⟨h.valid.steps (steps_settle h.at? hs), by omega, hnot, ?_, ?_⟩
    · intro j hj hlt hne
      have hj' := h.full j hj (by omega)
      rwa [← hfound.entered] at hj'
    · intro _ r hr
      have hlt : y.doc.graph.size < x.doc.graph.size := (hx.target r _ hr).1
      rw [hfound.doc] at hlt
      exact Nat.lt_irrefl _ hlt

theorem Calls.entering (horigin : origin.WellFormed) (h : Calls origin id x) :
    Entering origin id x := by
  induction h with
  | root hroot =>
    refine ⟨valid_start horigin, ?_, List.not_mem_nil, ?_, fun _ _ => nofun⟩
    · have hlt := horigin.root
      rwa [hroot] at hlt
    · exact fun j hj hlt => absurd hlt (Nat.not_lt_of_le hj)
  | inner _ hm hs hnot ih => exact (ih.working hm).entering hs hnot

/-! ### Depth -/

theorem enter_stays (h : depth ≤ depth') (v : Value) (x : Expansion) :
    StaysUnless .endlessExpansion (enter depth v x) (enter depth' v x) := by
  induction depth generalizing depth' v x with
  | zero =>
    cases v with
    | scalar s => exact .inr (by rw [enter_scalar, enter_scalar])
    | node id =>
      by_cases hid : id ∈ x.entered
      · exact .inr (by rw [enter_of_mem hid, enter_of_mem hid])
      · exact .inl (enter_zero hid)
  | succ depth ih =>
    cases v with
    | scalar s => exact .inr (by rw [enter_scalar, enter_scalar])
    | node id =>
      by_cases hid : id ∈ x.entered
      · exact .inr (by rw [enter_of_mem hid, enter_of_mem hid])
      · obtain ⟨depth', rfl⟩ := Nat.exists_eq_add_of_le' h
        rw [enter_succ hid, ← Nat.add_assoc, enter_succ hid]
        have hinner := fun v x => ih (Nat.le_add_left depth depth') v x
        exact .foldlM (fun x p => StaysUnless.bind (.inr rfl) fun settled => hinner _ _) _ _

theorem enterSlot_stays (h : depth ≤ depth') (id : Nat) (x : Expansion) (p : Slot × Value) :
    StaysUnless .endlessExpansion (enterSlot (enter depth) id x p) (enterSlot (enter depth') id x p) :=
  StaysUnless.bind (.inr rfl) fun settled => enter_stays h settled.1 settled.2

/-- A run that comes to a slot fails as it does there, where it nests deep enough to come there. -/
theorem Meets.error (h : Meets id x (slot, v) y) (hnot : id ∉ x.entered) (depth : Nat) :
    ∃ deep ≥ depth, ∀ e, enterSlot (enter deep) id y (slot, v) = .error e →
      enter (deep + 1) (.node id) x = .error e := by
  obtain ⟨before, after, depth', hslots, hbefore⟩ := h
  have hstays := StaysUnless.foldlM (enterSlot_stays (Nat.le_max_right depth depth') id) before
    (x.mark id)
  rw [hbefore] at hstays
  refine ⟨max depth depth', Nat.le_max_left _ _, fun e hslot => ?_⟩
  rw [enter_succ hnot, hslots, List.foldlM_append, hstays.resolve_left nofun]
  simp [List.foldlM_cons, hslot, bind, Except.bind]

theorem Meets.endless (h : Meets id x (slot, v) y) (hnot : id ∉ x.entered)
    (hend : ∀ depth, enterSlot (enter depth) id y (slot, v) = .error .endlessExpansion)
    (depth : Nat) : enter depth (.node id) x = .error .endlessExpansion := by
  obtain ⟨deep, hdeep, hfails⟩ := h.error hnot depth
  cases enter_stays (Nat.le_succ_of_le hdeep) (.node id) x with
  | inl hendless => exact hendless
  | inr hsame => exact hsame ▸ hfails _ (hend deep)

/-- A call that does not end keeps the whole run from ending. -/
theorem Calls.endless (horigin : origin.WellFormed) (h : Calls origin id x)
    (hend : ∀ depth, enter depth (.node id) x = .error .endlessExpansion) (depth : Nat) :
    origin.expand depth = .error .endlessExpansion := by
  induction h generalizing depth with
  | root hroot => simp [Document.expand, hroot, hend, bind, Except.bind]
  | @inner id id' x y y' slot v hcall hm hs hnot ih =>
    apply ih
    apply hm.endless (hcall.entering horigin).notMem
    intro depth
    simp [enterSlot, hs, hend, bind, Except.bind]

end Expansion

/-! ### Recurrence -/

/-- Whether a run inside a copy that is no target meets a reference that leads back to itself. -/
def Document.Recurs (doc : Document) : Prop :=
  ∃ id x slot v y, Expansion.Calls doc id x ∧ Expansion.Meets id x (slot, v) y ∧
    doc.graph.size ≤ id ∧ (∀ ref, y.targets.lookup ref ≠ some (.node id)) ∧
    Relation.TransGen (Expansion.Leads y) v v

theorem Document.Recurs.endless {doc : Document} (hdoc : doc.WellFormed) (h : doc.Recurs)
    (depth : Nat) : doc.expand depth = .error .endlessExpansion := by
  obtain ⟨id, x, slot, v, y, hcall, hm, hcopy, huntargeted, hcycle⟩ := h
  have hentering := hcall.entering hdoc
  have hworking := hentering.working hm
  have hinside : Expansion.Inside doc id y :=
    ⟨hworking.valid, hworking.entered, hcopy, huntargeted, hworking.full⟩
  apply hcall.endless hdoc
  exact hm.endless hentering.notMem (Expansion.enterSlot_endless hinside hworking.at? hcycle)

end ApiRecords
