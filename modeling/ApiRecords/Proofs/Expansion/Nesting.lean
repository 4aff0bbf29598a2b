import ApiRecords.Proofs.Expansion.Recurrence
import Mathlib.Data.Finset.Card

/-!
How deep containers nest in runs that end. Between two first events, a container entered or a target
found, a reference is met again on the way down only if it leads back to itself. The document has as
many containers and references as it has, so that a run which nests deeper has met such a reference.
-/

namespace ApiRecords

namespace Expansion

variable {origin : Document} {x y z : Expansion} {id id' : Nat} {slot : Slot} {u v w target : Value}
  {ref : String} {depth : Nat}

/-! ### First events -/

def unentered (origin : Document) (x : Expansion) : Finset Nat :=
  (Finset.range origin.graph.size).filter fun id => id ∉ x.entered

/-- The references of the document whose targets have not been found. -/
def unfound (origin : Document) (x : Expansion) : Finset Nat :=
  (Finset.range origin.graph.size).filter fun id =>
    (origin.graph.refText? (.node id)).any fun ref => (x.targets.lookup ref).isNone

/-- Number of first events still to come. -/
def rank (origin : Document) (x : Expansion) : Nat :=
  (unentered origin x).card + (unfound origin x).card

theorem mem_unentered : id ∈ unentered origin x ↔ id < origin.graph.size ∧ id ∉ x.entered := by
  simp [unentered]

theorem mem_unfound : id ∈ unfound origin x ↔ id < origin.graph.size ∧
    ∃ ref, origin.graph.refText? (.node id) = some ref ∧ x.targets.lookup ref = none := by
  simp [unfound, Option.any_eq_true]

theorem rank_le (origin : Document) (x : Expansion) : rank origin x ≤ 2 * origin.graph.size := by
  have hunentered : (unentered origin x).card ≤ (Finset.range origin.graph.size).card :=
    Finset.card_filter_le _ _
  have hunfound : (unfound origin x).card ≤ (Finset.range origin.graph.size).card :=
    Finset.card_filter_le _ _
  rw [Finset.card_range] at hunentered hunfound
  rw [rank]
  omega

section

variable (origin) (h : Steps x y)

include h

theorem unentered_steps : unentered origin y ⊆ unentered origin x := by
  intro id hid
  rw [mem_unentered] at hid ⊢
  exact ⟨hid.1, fun hx => hid.2 (Steps.entered h hx)⟩

theorem unfound_steps : unfound origin y ⊆ unfound origin x := by
  intro id hid
  rw [mem_unfound] at hid ⊢
  obtain ⟨hlt, ref, href, hy⟩ := hid
  refine ⟨hlt, ref, href, ?_⟩
  cases hx : x.targets.lookup ref with
  | none => rfl
  | some target =>
    rw [Steps.lookup h hx] at hy
    cases hy

theorem rank_steps : rank origin y ≤ rank origin x :=
  Nat.add_le_add (Finset.card_le_card (unentered_steps origin h))
    (Finset.card_le_card (unfound_steps origin h))

end

theorem quietly_of_rank (hx : Valid origin x) (h : Steps x y)
    (hrank : rank origin x ≤ rank origin y) : Quietly origin x y := by
  have hentered := Finset.card_le_card (unentered_steps origin h)
  have hfound := Finset.card_le_card (unfound_steps origin h)
  simp only [rank] at hrank
  have hunentered := Finset.eq_of_subset_of_card_le (unentered_steps origin h) (by omega)
  have hunfound := Finset.eq_of_subset_of_card_le (unfound_steps origin h) (by omega)
  constructor
  · intro ref
    cases hlookup : x.targets.lookup ref with
    | some target => exact Steps.lookup h hlookup
    | none =>
      cases hy : y.targets.lookup ref with
      | none => rfl
      | some target =>
        obtain ⟨v, href⟩ := (hx.steps h).found ref target hy
        cases v with
        | scalar s => cases href
        | node id =>
          have hid : id ∈ unfound origin x :=
            mem_unfound.mpr ⟨Graph.has_of_refText? href, ref, href, hlookup⟩
          rw [← hunfound, mem_unfound] at hid
          obtain ⟨-, ref', href', hnone⟩ := hid
          obtain rfl : ref = ref' := Option.some.inj (href.symm.trans href')
          rw [hy] at hnone
          cases hnone
  · intro id hlt hid
    by_contra hnot
    have hmem : id ∈ unentered origin x := mem_unentered.mpr ⟨hlt, hnot⟩
    rw [← hunentered, mem_unentered] at hmem
    exact hmem.2 hid

/-! ### What quiet work leaves -/

/-- Whether work that meets nothing new leaves quiet values. -/
def LeavesQuiet (origin : Document) (depth : Nat) : Prop :=
  ∀ x y id slot v, Inside origin id x → x.doc.graph.at? (.node id) slot = some v →
    enterSlot (enter depth) id x (slot, v) = .ok y → Quietly origin x y → Quiet y v

theorem enterSlots_leavesQuiet (hleaves : LeavesQuiet origin depth) {places : List (Slot × Value)}
    (hdistinct : (places.map Prod.fst).Nodup) (h : Inside origin id x)
    (hat : ∀ p ∈ places, x.doc.graph.at? (.node id) p.1 = some p.2)
    (hrun : places.foldlM (enterSlot (enter depth) id) x = .ok y) (hq : Quietly origin x y) :
    ∀ p ∈ places, Quiet y p.2 := by
  induction places generalizing x with
  | nil => exact fun p hp => absurd hp List.not_mem_nil
  | cons p places ih =>
    obtain ⟨slot, v⟩ := p
    rw [List.map_cons, List.nodup_cons] at hdistinct
    simp only [List.foldlM_cons, bind_ok_iff] at hrun
    obtain ⟨z, hslot, hrest⟩ := hrun
    have hhead := hat (slot, v) List.mem_cons_self
    obtain ⟨hran, hothers, -⟩ := enterSlot_ran (enter_ran depth) h.valid h.entered hhead hslot
    have hat' := pending_of_others hdistinct.1 hothers fun p hp => hat p (List.mem_cons_of_mem _ hp)
    have hz := h.valid.steps hran.steps
    obtain ⟨hran', -, -⟩ :=
      enterSlots_ran (enter_ran depth) hdistinct.2 hz (hran.entered id h.entered) hat' hrest
    obtain ⟨hq₁, hq₂⟩ := Quietly.parts hran.steps hran'.steps hq
    have hinside := h.ran hran hq₁
    intro p hp
    cases List.mem_cons.mp hp with
    | inl hself =>
      subst hself
      exact (hleaves x z id slot v h hhead hslot hq₁).mono hz (hz.steps hran'.steps)
        (hinside.alike hran' hq₂)
    | inr hp => exact ih hdistinct.2 hinside hat' hrest hq₂ p hp

/-- The target of a reference is known once there has been work on it. -/
theorem enterSlot_lookup (hx : Valid origin x) (hat : x.doc.graph.at? (.node id) slot = some v)
    (href : x.doc.graph.refText? v = some ref) (h : enterSlot (enter depth) id x (slot, v) = .ok y) :
    ∃ target, y.targets.lookup ref = some target := by
  simp only [enterSlot, bind_ok_iff] at h
  obtain ⟨⟨w, z⟩, hsettle, h⟩ := h
  cases settle_ok hsettle with
  | inl hplain =>
    rw [href] at hplain
    cases hplain.1
  | inr hcopy =>
    obtain ⟨ref', target, x', href', hfound, rfl, rfl⟩ := hcopy
    obtain rfl : ref = ref' := Option.some.inj (href.symm.trans href')
    have hx' : Valid origin x' := hx.steps hfound.steps
    rw [← hfound.doc] at hat href h
    have hx'' := hx'.step (.replace hat href hfound.lookup)
    obtain ⟨hran, -⟩ := enter_ran depth _ _ _ hx'' (x'.has_replaceRef id slot ref target v) h
    exact ⟨target, Steps.lookup hran.steps hfound.lookup⟩

theorem quiet_of_plain (hx : Valid origin x) (hat : x.doc.graph.at? (.node id) slot = some v)
    (hplain : x.doc.graph.refText? v = none) (h : enterSlot (enter depth) id x (slot, v) = .ok y) :
    Quiet y v := by
  rw [enterSlot, settle_plain hplain] at h
  obtain ⟨hran, hv⟩ := enter_ran depth v x y hx (hx.wellFormed.values _ _ _ hat) h
  cases v with
  | scalar s => exact .scalar
  | node j =>
    refine .entered ?_ (hv j rfl)
    rw [(hx.steps hran.steps).refText?, ← hx.refText?, hplain]

theorem Inside.lookup (h : Inside origin id x) (hat : x.doc.graph.at? (.node id) slot = some v)
    (href : x.doc.graph.refText? v = some ref)
    (hrun : enterSlot (enter depth) id x (slot, v) = .ok y) (hq : Quietly origin x y) :
    ∃ target, x.targets.lookup ref = some target := by
  obtain ⟨target, htarget⟩ := enterSlot_lookup h.valid hat href hrun
  exact ⟨target, (hq.targets ref).symm.trans htarget⟩

theorem leavesQuiet (origin : Document) (depth : Nat) : LeavesQuiet origin depth := by
  induction depth with
  | zero =>
    intro x y id slot v h hat hrun hq
    cases href : x.doc.graph.refText? v with
    | none => exact quiet_of_plain h.valid hat href hrun
    | some ref =>
      obtain ⟨target, hlookup⟩ := h.lookup hat href hrun hq
      rw [enterSlot_cached h.valid ((h.valid.refText? v).symm.trans href) hlookup,
        enter_zero (h.size_notMem slot ref target v)] at hrun
      cases hrun
  | succ depth ih =>
    intro x y id slot v h hat hrun hq
    cases href : x.doc.graph.refText? v with
    | none => exact quiet_of_plain h.valid hat href hrun
    | some ref =>
      obtain ⟨target, hlookup⟩ := h.lookup hat href hrun hq
      have href' := (h.valid.refText? v).symm.trans href
      have halike := h.alike (enterSlot_ran (enter_ran _) h.valid h.entered hat hrun).ran hq
      have hinside := h.copied hat href' hlookup
      obtain ⟨hdistinct, hat'⟩ := h.places_copied hat href' hlookup
      rw [h.enterSlot_copy href' hlookup] at hrun
      obtain ⟨hran, -, -⟩ :=
        enterSlots_ran (enter_ran depth) hdistinct hinside.valid hinside.entered hat' hrun
      obtain ⟨-, hq'⟩ := Quietly.parts (h.steps_copied hat href' hlookup) hran.steps hq
      have hquiet := enterSlots_leavesQuiet ih hdistinct hinside hat' hrun hq'
      refine .copied ?_ ((halike.targets ref).trans hlookup) fun m hm => ?_
      · rw [(hinside.valid.steps hran.steps).refText?, href']
      · rw [halike.copyMembers href' hlookup] at hm
        exact hquiet (.key m.1, m.2) (List.mem_map_of_mem hm)

/-! ### The way down -/

theorem settle_error {e : Fault} (h : x.settle id slot v = .error e) :
    ∃ ref, x.doc.graph.refText? v = some ref ∧ x.doc.target ref = .error e := by
  cases href : x.doc.graph.refText? v with
  | none =>
    rw [settle_plain href] at h
    cases h
  | some ref =>
    refine ⟨ref, rfl, ?_⟩
    rw [settle_ref href, bind_error_iff] at h
    rcases h with h | ⟨_, -, h⟩
    · rw [targetOf] at h
      split at h
      · cases h
      · rw [bind_error_iff] at h
        rcases h with h | ⟨_, -, h⟩
        · exact h
        · cases h
    · cases h

theorem settle_ne_endless (x : Expansion) (id : Nat) (slot : Slot) (v : Value) :
    x.settle id slot v ≠ .error .endlessExpansion := by
  intro h
  obtain ⟨ref, -, htarget⟩ := settle_error h
  exact Document.target_ne_endless x.doc ref htarget

/-- A call that fails does so at one of the slots, or in a call from there. -/
theorem enter_error {e : Fault} (hid : id ∉ x.entered)
    (h : enter (depth + 1) (.node id) x = .error e) :
    ∃ slot v y, Meets id x (slot, v) y ∧ (y.settle id slot v = .error e ∨
      ∃ id' y', y.settle id slot v = .ok (.node id', y') ∧ id' ∉ y'.entered ∧
        enter depth (.node id') y' = .error e) := by
  rw [enter_succ hid] at h
  obtain ⟨before, ⟨slot, v⟩, after, y, hslots, hbefore, hslot⟩ := foldlM_error h
  rw [enterSlot, bind_error_iff] at hslot
  refine ⟨slot, v, y, ⟨before, after, depth, hslots, hbefore⟩, hslot.imp_right ?_⟩
  rintro ⟨⟨w, y'⟩, hsettle, hinner⟩
  cases w with
  | scalar s => cases (enter_scalar depth s y').symm.trans hinner
  | node id' =>
    have hid' : id' ∉ y'.entered := fun hmem => by cases (enter_of_mem hmem depth).symm.trans hinner
    exact ⟨id', y', hsettle, hid', hinner⟩

/-- A run that nests too deep does so in a call from one of the slots. -/
theorem exists_call (hid : id ∉ x.entered)
    (h : enter (depth + 1) (.node id) x = .error .endlessExpansion) :
    ∃ slot v y id' y', Meets id x (slot, v) y ∧ y.settle id slot v = .ok (.node id', y') ∧
      id' ∉ y'.entered ∧ enter depth (.node id') y' = .error .endlessExpansion := by
  obtain ⟨slot, v, y, hmeets, hsettle | ⟨id', y', hcall⟩⟩ := enter_error hid h
  · exact absurd hsettle (settle_ne_endless y id slot v)
  · exact ⟨slot, v, y, id', y', hmeets, hcall⟩

/-- A call in which nothing new is met is on a copy made for a reference. -/
theorem Working.quiet_call (h : Working origin id slot v y)
    (hs : y.settle id slot v = .ok (.node id', z)) (hnot : id' ∉ z.entered)
    (hq : Quietly origin y (z.mark id')) :
    ∃ ref target, origin.graph.refText? v = some ref ∧ y.targets.lookup ref = some target ∧
      id' = y.doc.graph.size ∧ z = (y.replaceRef id slot ref target v).2 := by
  cases settle_ok hs with
  | inl hplain =>
    obtain ⟨-, hv, rfl⟩ := hplain
    have hid' : z.doc.graph.Has (.node id') := by
      rw [hv]
      exact h.valid.wellFormed.values _ _ _ h.at?
    by_cases hlt : id' < origin.graph.size
    · exact absurd (hq.entered id' hlt List.mem_cons_self) hnot
    · exact absurd (h.full id' (Nat.le_of_not_lt hlt) hid') hnot
  | inr hcopy =>
    obtain ⟨ref, target, x, href, hfound, -, rfl⟩ := hcopy
    have href' := (h.valid.refText? v).symm.trans href
    have hlookup : y.targets.lookup ref = some target := (hq.targets ref).symm.trans hfound.lookup
    rw [settle_cached h.valid href' hlookup, Except.ok.injEq] at hs
    exact ⟨ref, target, href', hlookup, (Value.node.inj (congrArg Prod.fst hs)).symm,
      (congrArg Prod.snd hs).symm⟩

/-! ### Trails -/

theorem Entering.inside (h : Entering origin id x) (hcopy : origin.graph.size ≤ id) :
    Inside origin id (x.mark id) where
  valid := h.valid.step (.mark h.lt)
  entered := List.mem_cons_self
  copy := hcopy
  untargeted := h.untargeted hcopy
  full j hj hlt := by
    by_cases hself : j = id
    · exact hself ▸ List.mem_cons_self
    · exact List.mem_cons_of_mem _ (h.full j hj hlt hself)

/-- Whether the container about to be entered is a copy to which work on the reference `w` led. -/
structure ComesFrom (origin : Document) (id : Nat) (x : Expansion) (w : Value) : Prop where
  copy : origin.graph.size ≤ id
  last : ∃ u ref target, origin.graph.refText? u = some ref ∧ x.targets.lookup ref = some target ∧
    x.doc.graph.slots id = slotsOf (x.copyMembers ref target u) ∧
    Relation.ReflTransGen (Leads (x.mark id)) w u

theorem Leads.isSome_refText? (h : Leads x v w) : (x.doc.graph.refText? v).isSome := by
  obtain ⟨ref, target, before, key, after, href, -⟩ := h
  simp [href]

theorem ComesFrom.isSome_refText? (h : ComesFrom origin id x w) (hx : Valid origin x) :
    (origin.graph.refText? w).isSome := by
  obtain ⟨u, ref, target, hu, -, -, hpath⟩ := h.last
  cases hpath.cases_head with
  | inl hself => simp [hself, hu]
  | inr hstep =>
    obtain ⟨v, hleads, -⟩ := hstep
    rw [← hx.refText?]
    exact hleads.isSome_refText?

theorem slotsOf_eq_append {members : List (String × Value)} {before after : List (Slot × Value)}
    (h : slotsOf members = before ++ (slot, v) :: after) :
    ∃ first key rest, members = first ++ (key, v) :: rest ∧ before = slotsOf first := by
  obtain ⟨first, others, rfl, rfl, hothers⟩ := List.map_eq_append_iff.mp h
  obtain ⟨⟨key, w⟩, rest, rfl, hhead, -⟩ := List.map_eq_cons_iff.mp hothers
  obtain rfl : w = v := congrArg Prod.snd hhead
  exact ⟨first, key, rest, rfl, rfl⟩

/-- Work on what led to a copy leads to each reference that is met in the copy. -/
theorem ComesFrom.leads (h : ComesFrom origin id x w) (hx : Entering origin id x)
    (hm : Meets id x (slot, v) y) (hq : Quietly origin (x.mark id) y)
    (hv : (origin.graph.refText? v).isSome) : Relation.TransGen (Leads y) w v := by
  obtain ⟨u, ref, target, hu, hlookup, hslots, hpath⟩ := h.last
  obtain ⟨before, after, depth, hplaces, hrun⟩ := hm
  have hinside := hx.inside h.copy
  obtain ⟨hdistinct, hat, hran, -⟩ := hx.before hplaces hrun
  have halike := hinside.alike hran hq
  have hy := (hinside.ran hran hq).valid
  have hquiet := enterSlots_leavesQuiet (leavesQuiet origin depth) hdistinct hinside hat hrun hq
  obtain ⟨first, key, rest, hmembers, rfl⟩ := slotsOf_eq_append (hslots.symm.trans hplaces)
  have hlast : Leads y u v := by
    refine ⟨ref, target, first, key, rest, ?_, (halike.targets ref).trans hlookup, ?_, ?_, ?_⟩
    · rw [hy.refText?, hu]
    · rw [halike.copyMembers hu hlookup]
      exact hmembers
    · exact fun m hm => hquiet (.key m.1, m.2) (List.mem_map_of_mem hm)
    · rw [hy.refText?]
      exact hv
  have hleads : Leads (x.mark id) ≤ Leads y := fun a b hab => hab.mono hinside.valid hy halike
  exact .tail' (Relation.ReflTransGen.mono hleads w u hpath) hlast

theorem Inside.comesFrom (h : Inside origin id y) (hat : y.doc.graph.at? (.node id) slot = some v)
    (href : origin.graph.refText? v = some ref) (hlookup : y.targets.lookup ref = some target)
    (hpath : Relation.ReflTransGen (Leads y) w v) :
    ComesFrom origin y.doc.graph.size (y.replaceRef id slot ref target v).2 w where
  copy := h.valid.size
  last := by
    have halike := h.alike_copied slot ref target v
    have hvalid := (h.copied hat href hlookup).valid
    have hleads : Leads y ≤ Leads (y.copied id slot ref target v) :=
      fun a b hab => hab.mono h.valid hvalid halike
    refine ⟨v, ref, target, href, hlookup, ?_, Relation.ReflTransGen.mono hleads w v hpath⟩
    rw [slots_copy (h.valid.entered id h.entered)]
    exact congrArg slotsOf (halike.copyMembers href hlookup).symm

/-- References that have led to the container about to be entered, each once. -/
structure Trail (origin : Document) (id : Nat) (x : Expansion) (trail : List Value) : Prop where
  nodup : trail.Nodup
  comesFrom : ∀ w ∈ trail, ComesFrom origin id x w

theorem Trail.nil (origin : Document) (id : Nat) (x : Expansion) : Trail origin id x [] :=
  ⟨List.nodup_nil, fun _ hw => absurd hw List.not_mem_nil⟩

theorem Trail.length_le {trail : List Value} (h : Trail origin id x trail) (hx : Valid origin x) :
    trail.length ≤ origin.graph.size := by
  have hsub : trail ⊆ (List.range origin.graph.size).map .node := by
    intro w hw
    obtain ⟨ref, href⟩ :=
      Option.isSome_iff_exists.mp ((h.comesFrom w hw).isSome_refText? hx)
    cases w with
    | scalar s => cases href
    | node id => exact List.mem_map_of_mem (List.mem_range.mpr (Graph.has_of_refText? href))
  simpa using (List.subperm_of_subset h.nodup hsub).length_le

theorem Trail.cons {trail : List Value} (h : Trail origin id x trail) (hy : Inside origin id y)
    (hat : y.doc.graph.at? (.node id) slot = some v) (href : origin.graph.refText? v = some ref)
    (hlookup : y.targets.lookup ref = some target)
    (hleads : ∀ w ∈ trail, Relation.TransGen (Leads y) w v) (hv : v ∉ trail) :
    Trail origin y.doc.graph.size (y.replaceRef id slot ref target v).2 (v :: trail) where
  nodup := List.nodup_cons.mpr ⟨hv, h.nodup⟩
  comesFrom w hw := by
    cases List.mem_cons.mp hw with
    | inl hself => exact hy.comesFrom hat href hlookup (hself ▸ .refl)
    | inr hw => exact hy.comesFrom hat href hlookup (hleads w hw).to_reflTransGen

/-! ### Depth enough -/

theorem rank_mark_lt (hx : Valid origin x) (hlt : id < origin.graph.size) (hid : id ∉ x.entered) :
    rank origin (x.mark id) < rank origin x := by
  have hsteps : Steps x (x.mark id) := .single (.mark (Nat.lt_of_lt_of_le hlt hx.size))
  have hsub : unentered origin (x.mark id) ⊂ unentered origin x := by
    rw [Finset.ssubset_iff_of_subset (unentered_steps origin hsteps)]
    exact ⟨id, mem_unentered.mpr ⟨hlt, hid⟩, fun h => (mem_unentered.mp h).2 List.mem_cons_self⟩
  exact Nat.add_lt_add_right (Finset.card_lt_card hsub) _

/-- A call that nests deeper than first events and references allow has met a reference that leads
back to itself. `room` is the depth there is for the references off the trail, and for a container
of the document. -/
theorem Calls.recurs (horigin : origin.WellFormed) {trail : List Value} {room : Nat}
    (hcall : Calls origin id x) (htrail : Trail origin id x trail)
    (hroom : origin.graph.size ≤ room + trail.length)
    (hfirst : id < origin.graph.size → origin.graph.size < room)
    (hdepth : rank origin (x.mark id) * (origin.graph.size + 2) + room < depth)
    (h : enter depth (.node id) x = .error .endlessExpansion) : origin.Recurs := by
  induction depth generalizing id x trail room with
  | zero => exact absurd hdepth (Nat.not_lt_zero _)
  | succ depth ih =>
    have hx := hcall.entering horigin
    obtain ⟨slot, v, y, id', z, hm, hs, hnot, hend⟩ := exists_call hx.notMem h
    have hcall' := hcall.inner hm hs hnot
    have hz := hcall'.entering horigin
    have hy := hx.working hm
    have hran := (hx.ran hm).1
    have hsteps : Steps y (z.mark id') := (steps_settle hy.at? hs).tail (.mark hz.lt)
    have hrank := rank_steps origin (hran.steps.trans hsteps)
    by_cases hless : rank origin (z.mark id') < rank origin (x.mark id)
    · -- after a first event there is depth for all references again
      have hmul := Nat.mul_le_mul_right (origin.graph.size + 2) hless
      rw [Nat.succ_mul] at hmul
      exact ih hcall' (.nil origin id' z) (Nat.le_succ _) (fun _ => Nat.lt_succ_self _)
        (by omega) hend
    · have hquietly : Quietly origin (x.mark id) (z.mark id') :=
        quietly_of_rank (hx.valid.step (.mark hx.lt)) (hran.steps.trans hsteps)
          (Nat.le_of_not_lt hless)
      obtain ⟨hq, hq'⟩ := Quietly.parts hran.steps hsteps hquietly
      obtain ⟨ref, target, href, hlookup, rfl, rfl⟩ := hy.quiet_call hs hnot hq'
      have hnew : ¬ y.doc.graph.size < origin.graph.size := Nat.not_lt_of_le hy.valid.size
      rw [← Nat.le_antisymm hrank (Nat.le_of_not_lt hless)] at hdepth
      by_cases hid : id < origin.graph.size
      · have hroom' : origin.graph.size ≤ room - 1 + ([] : List Value).length :=
           Nat.le_sub_one_of_lt (hfirst hid)
        exact ih hcall' (.nil origin _ _) hroom' (fun hlt => absurd hlt hnew) (by omega) hend
      · have hinside := (hx.inside (Nat.le_of_not_lt hid)).ran hran hq
        have hleads : ∀ w ∈ trail, Relation.TransGen (Leads y) w v :=
          fun w hw => (htrail.comesFrom w hw).leads hx hm hq (by simp [href])
        by_cases hv : v ∈ trail
        · exact ⟨id, x, slot, v, y, hcall, hm, hinside.copy, hinside.untargeted, hleads v hv⟩
        · have htrail' := htrail.cons hinside hy.at? href hlookup hleads hv
          have hlength := htrail'.length_le hz.valid
          have hroom' : origin.graph.size ≤ room - 1 + (v :: trail).length := by
            rw [List.length_cons]
            omega
          rw [List.length_cons] at hlength
          exact ih hcall' htrail' hroom' (fun hlt => absurd hlt hnew) (by omega) hend

end Expansion

/-! ### Documents that do not end -/

namespace Document

variable {doc marked : Document} {v2 : Bool} {depth : Nat}

/-- The bound leaves room for all references between any two first events. -/
theorem nestingBound_le (doc : Document) :
    2 * doc.graph.size * (doc.graph.size + 2) ≤ doc.nestingBound := by
  have hslots : doc.graph.size * 3 ≤ doc.graph.size * (doc.graph.slotCount + 3) :=
    Nat.mul_le_mul_left _ (Nat.le_add_left _ _)
  calc
    2 * doc.graph.size * (doc.graph.size + 2) ≤ (doc.graph.size * 3 + 1) * (doc.graph.size + 1) := by
      grind
    _ ≤ doc.nestingBound := Nat.mul_le_mul_right _ (Nat.succ_le_succ hslots)

theorem expand_eq (doc : Document) (depth : Nat) : doc.expand depth =
    (Expansion.enter depth doc.root ⟨doc, [], []⟩).map Expansion.doc := by
  rw [expand]
  cases Expansion.enter depth doc.root ⟨doc, [], []⟩ <;> rfl

theorem WellFormed.recurs (h : doc.WellFormed) (hdepth : doc.nestingBound ≤ depth)
    (hend : doc.expand depth = .error .endlessExpansion) : doc.Recurs := by
  rw [expand_eq] at hend
  cases hrun : Expansion.enter depth doc.root ⟨doc, [], []⟩ with
  | ok x =>
    rw [hrun] at hend
    cases hend
  | error e =>
    rw [hrun] at hend
    cases hend
    have hlt := h.root
    cases hroot : doc.root with
    | scalar s =>
      rw [hroot, Expansion.enter_scalar] at hrun
      cases hrun
    | node id =>
      rw [hroot] at hrun hlt
      have hrank := Expansion.rank_mark_lt (Expansion.valid_start h) hlt List.not_mem_nil
      have hle := Expansion.rank_le doc ⟨doc, [], []⟩
      have hmul := Nat.mul_le_mul_right (doc.graph.size + 2) (Nat.le_trans hrank hle)
      rw [Nat.succ_mul] at hmul
      have hbound := doc.nestingBound_le
      have hroom : doc.graph.size ≤ doc.graph.size + 1 + ([] : List Value).length := Nat.le_succ _
      exact (Expansion.Calls.root hroot).recurs h (.nil doc id _) hroom (fun _ => Nat.lt_succ_self _)
        (by omega) hrun

theorem expand_stays (doc : Document) {depth depth' : Nat} (h : depth ≤ depth') :
    StaysUnless .endlessExpansion (doc.expand depth) (doc.expand depth') :=
  (Expansion.enter_stays h doc.root ⟨doc, [], []⟩).bind fun _ => .inr rfl

/-- Within any two depths a document expands alike, unless one of them is not enough. -/
theorem expand_agree (doc : Document) (depth depth' : Nat) :
    AgreeBut .endlessExpansion (doc.expand depth) (doc.expand depth') := by
  cases Nat.le_total depth depth' with
  | inl h => exact (doc.expand_stays h).agree
  | inr h => exact (doc.expand_stays h).agree.symm

/-- A table of definitions that is missing is a fault of the document, where this is a mapping. -/
theorem schemaTable_error {doc : Document} {v2 : Bool} {e : Fault} (h : doc.schemaTable v2 = .error e) :
    (∃ fault, e = .spec fault) ∨ e = .notMapping ∧ doc.graph.object? doc.root = none := by
  unfold schemaTable at h
  cases v2 with
  | false =>
    simp only [Bool.false_eq_true, if_false] at h
    split at h
    · rw [pure_bind] at h
      split at h
      · cases h
      · exact .inl ⟨_, (Except.error.inj h).symm⟩
    · exact .inl ⟨_, (Except.error.inj h).symm⟩
  | true =>
    simp only [if_true] at h
    split at h
    · rw [pure_bind] at h
      split at h
      · cases h
      · exact .inl ⟨_, (Except.error.inj h).symm⟩
    · rename_i hnone
      refine .inr ⟨(Except.error.inj h).symm, ?_⟩
      cases hobject : doc.graph.object? doc.root with
      | none => rfl
      | some members => exact absurd hobject (hnone members)

theorem stamp_ne_endless (doc : Document) (v2 : Bool) :
    doc.stamp v2 ≠ .error .endlessExpansion := by
  intro h
  cases htable : doc.schemaTable v2 with
  | ok v =>
    rw [stamp, definitions, htable] at h
    cases h
  | error e =>
    rw [stamp, definitions, htable] at h
    cases h
    rcases schemaTable_error htable with ⟨_, heq⟩ | ⟨heq, -⟩ <;> cases heq

end Document

/-- Preparing a document ends, within the bound on nesting, just when the marked document does not
recur. One that recurs nests deeper than any bound. -/
theorem prepare_endless_iff {doc : Document} (hdoc : doc.WellFormed) (v2 : Bool) :
    (doc.prepare v2 = .error .endlessExpansion ↔
        ∃ marked, doc.stamp v2 = .ok marked ∧ marked.Recurs) ∧
      ∀ marked, doc.stamp v2 = .ok marked →
        (marked.Recurs → ∀ depth, marked.expand depth = .error .endlessExpansion) ∧
        (¬ marked.Recurs → ∀ depth ≥ marked.nestingBound, marked.expand depth = doc.prepare v2) := by
  have hprepare : ∀ marked, doc.stamp v2 = .ok marked →
      doc.prepare v2 = marked.expand marked.nestingBound := by
    intro marked hmarked
    rw [Document.prepare, hmarked]
    rfl
  refine ⟨⟨fun h => ?_, fun h => ?_⟩,
    fun marked hmarked => ⟨fun hrecurs => ?_, fun hrecurs depth hdepth => ?_⟩⟩
  · cases hmarked : doc.stamp v2 with
    | ok marked =>
      rw [hprepare marked hmarked] at h
      exact ⟨marked, rfl, (hdoc.stamp hmarked).recurs (Nat.le_refl _) h⟩
    | error e =>
      rw [Document.prepare, hmarked] at h
      cases h
      exact absurd hmarked (doc.stamp_ne_endless v2)
  · obtain ⟨marked, hmarked, hrecurs⟩ := h
    rw [hprepare marked hmarked]
    exact hrecurs.endless (hdoc.stamp hmarked) _
  · exact hrecurs.endless (hdoc.stamp hmarked)
  · rw [hprepare marked hmarked]
    have hends : ∀ d ≥ marked.nestingBound, marked.expand d ≠ .error .endlessExpansion :=
      fun d hd hend => hrecurs ((hdoc.stamp hmarked).recurs hd hend)
    have hagree := marked.expand_agree depth marked.nestingBound
    exact hagree.resolve_right (not_or.mpr ⟨hends depth hdepth, hends _ (Nat.le_refl _)⟩)

/-- Rows of rows, first met below a sheet. -/
def rows : Tree :=
  .object [("components", .object [("schemas", .object [
    ("Sheet", .object [("items", .object [("$ref", .text "#/components/schemas/Rows")])]),
    ("Rows", .object [("items", .object [("$ref", .text "#/components/schemas/Rows")])])])])]

theorem recurs_rows {marked : Document} (hmarked : (Document.ofTree rows).stamp false = .ok marked) :
    marked.Recurs := by
  have hroot : Expansion.Calls marked 0 ⟨marked, [], []⟩ := by
    cases hmarked
    exact .root rfl
  cases hmarked
  have hcomponents := hroot.inner ⟨[], [], 0, rfl, rfl⟩ rfl (by decide)
  have hschemas := hcomponents.inner ⟨[], [], 0, rfl, rfl⟩ rfl (by decide)
  have hsheet := hschemas.inner ⟨[], _, 0, rfl, rfl⟩ rfl (by decide)
  have hcopy := hsheet.inner ⟨[], _, 0, rfl, rfl⟩ rfl (by decide)
  refine ⟨_, _, _, _, _, hcopy, ⟨[], _, 0, rfl, rfl⟩, by decide, ?_, .single ?_⟩
  · intro ref h
    cases lookup_cons_cases h with
    | inl h => cases h.2
    | inr h => cases h
  · exact ⟨_, _, [], "items", _, rfl, rfl, rfl, fun m hm => absurd hm List.not_mem_nil, rfl⟩

theorem prepare_endless_iff_rows : (Document.ofTree rows).WellFormed ∧
    (Document.ofTree rows).prepare false = .error .endlessExpansion := by
  have hwell : (Document.ofTree rows).WellFormed := wellFormed_ofTree (by decide)
  obtain ⟨marked, hmarked⟩ : ∃ marked, (Document.ofTree rows).stamp false = .ok marked := ⟨_, rfl⟩
  exact ⟨hwell, (prepare_endless_iff hwell false).1.mpr ⟨marked, hmarked, recurs_rows hmarked⟩⟩

theorem rows_endless : (Document.ofTree rows).WellFormed ∧
    ∃ marked, (Document.ofTree rows).stamp false = .ok marked ∧
      ∀ depth, marked.expand depth = .error .endlessExpansion := by
  have hwell : (Document.ofTree rows).WellFormed := wellFormed_ofTree (by decide)
  obtain ⟨marked, hmarked⟩ : ∃ marked, (Document.ofTree rows).stamp false = .ok marked := ⟨_, rfl⟩
  exact ⟨hwell, marked, hmarked, (recurs_rows hmarked).endless (hwell.stamp hmarked)⟩

end ApiRecords
