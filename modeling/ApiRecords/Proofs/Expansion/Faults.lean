import ApiRecords.Proofs.Expansion.Chains
import ApiRecords.Proofs.Expansion.Order

/-!
The faults with which preparation ends. Every fault is one of the document, unless the run comes to a
reference whose chain ends in no mapping.
-/

namespace ApiRecords

namespace Expansion

variable {origin : Document} {x y : Expansion} {id : Nat} {slot : Slot} {v : Value} {ref : String}
  {depth : Nat} {e : Fault}

/-- A run that fails at a slot it comes to fails. -/
theorem Meets.fails (h : Meets id x (slot, v) y) (hnot : id ∉ x.entered)
    (hslot : enterSlot (enter depth) id y (slot, v) = .error e) (he : e ≠ .endlessExpansion) :
    ∃ depth, enter depth (.node id) x = .error e := by
  obtain ⟨deep, hdeep, hfails⟩ := h.error hnot depth
  have hstays := enterSlot_stays hdeep id y (slot, v)
  rw [hslot] at hstays
  exact ⟨deep + 1, hfails e (hstays.resolve_left fun heq => he (Except.error.inj heq))⟩

/-- A call that fails makes the whole run fail, if it nests deep enough. -/
theorem Calls.fails (horigin : origin.WellFormed) (h : Calls origin id x)
    (he : e ≠ .endlessExpansion) (hfails : ∃ depth, enter depth (.node id) x = .error e) :
    ∃ depth, origin.expand depth = .error e := by
  induction h with
  | root hroot =>
    obtain ⟨depth, hdepth⟩ := hfails
    exact ⟨depth, by simp [Document.expand, hroot, hdepth, bind, Except.bind]⟩
  | @inner id id' x y y' slot v hcall hm hs hnot ih =>
    obtain ⟨depth, hdepth⟩ := hfails
    have hslot : enterSlot (enter depth) id y (slot, v) = .error e := by
      simp [enterSlot, hs, hdepth, bind, Except.bind]
    exact ih (hm.fails (hcall.entering horigin).notMem hslot he)

theorem settle_of_target {ref : String} (href : x.doc.graph.refText? v = some ref)
    (hnew : x.targets.lookup ref = none) (htarget : x.doc.target ref = .error e) :
    x.settle id slot v = .error e := by
  rw [settle_ref href, targetOf, hnew]
  simp [htarget, bind, Except.bind]

theorem settle_fault (h : x.settle id slot v = .error e) :
    (∃ fault, e = .spec fault) ∨ e = .notMapping ∧ ∃ ref, x.doc.graph.refText? v = some ref ∧
      x.targets.lookup ref = none ∧ x.doc.Astray ref := by
  obtain ⟨ref, href, htarget⟩ := settle_error h
  refine (Document.target_error htarget).imp_right (And.imp_right fun hastray => ?_)
  refine ⟨ref, href, ?_, hastray⟩
  cases hlookup : x.targets.lookup ref with
  | none => rfl
  | some target =>
    rw [settle_ref href, targetOf, hlookup] at h
    cases h

end Expansion

namespace Document

/-- Whether the expansion comes to a reference, met for the first time, whose chain as the document
then stands ends in no mapping. -/
def ComesAstray (doc : Document) : Prop :=
  ∃ id x slot v y ref, Expansion.Calls doc id x ∧ Expansion.Meets id x (slot, v) y ∧
    y.doc.graph.refText? v = some ref ∧ y.targets.lookup ref = none ∧ y.doc.Astray ref

variable {doc : Document} {depth : Nat} {v2 : Bool} {e : Fault}

/-- A run that comes to such a reference fails there, if it nests deep enough. -/
theorem ComesAstray.fails (hdoc : doc.WellFormed) (h : doc.ComesAstray) :
    ∃ depth, doc.expand depth = .error .notMapping := by
  obtain ⟨id, x, slot, v, y, ref, hcall, hmeets, href, hnew, hastray⟩ := h
  have hslot : Expansion.enterSlot (Expansion.enter 0) id y (slot, v) = .error .notMapping := by
    rw [Expansion.enterSlot, Expansion.settle_of_target href hnew hastray.target]
    rfl
  have hne : Fault.notMapping ≠ .endlessExpansion := by simp
  exact hcall.fails hdoc hne (hmeets.fails (hcall.entering hdoc).notMem hslot hne)

theorem expand_fault (h : doc.expand depth = .error e) (he : e ≠ .endlessExpansion) :
    (∃ fault, e = .spec fault) ∨ e = .notMapping ∧ doc.ComesAstray := by
  rw [expand_eq] at h
  have hrun : Expansion.enter depth doc.root ⟨doc, [], []⟩ = .error e := map_error_iff.mp h
  cases hroot : doc.root with
  | scalar s =>
    rw [hroot, Expansion.enter_scalar] at hrun
    cases hrun
  | node root =>
    rw [hroot] at hrun
    obtain ⟨id, x, slot, v, y, hcall, hmeets, hsettle⟩ :=
      Expansion.exists_failure (.root hroot) List.not_mem_nil hrun he
    refine (Expansion.settle_fault hsettle).imp_right (And.imp_right ?_)
    rintro ⟨ref, href, hnew, hastray⟩
    exact ⟨id, x, slot, v, y, ref, hcall, hmeets, href, hnew, hastray⟩

/-- A document that comes to such a reference fails within the bound on nesting. -/
theorem ComesAstray.expand (hdoc : doc.WellFormed) (h : doc.ComesAstray) :
    doc.expand doc.nestingBound = .error .notMapping := by
  obtain ⟨depth, hdepth⟩ := h.fails hdoc
  have hends : doc.expand doc.nestingBound ≠ .error .endlessExpansion := by
    intro hend
    cases ((hdoc.recurs (Nat.le_refl _) hend).endless hdoc depth).symm.trans hdepth
  have hagree := doc.expand_agree doc.nestingBound depth
  rw [hdepth] at hagree
  exact hagree.resolve_right (not_or.mpr ⟨hends, nofun⟩)

theorem stamp_fault (hroot : (doc.graph.object? doc.root).isSome) (h : doc.stamp v2 = .error e) :
    ∃ fault, e = .spec fault := by
  cases htable : doc.schemaTable v2 with
  | ok table =>
    rw [stamp, definitions, htable] at h
    cases h
  | error e' =>
    rw [stamp, definitions, htable] at h
    cases h
    refine (schemaTable_error htable).resolve_right fun hnone => ?_
    rw [hnone.2] at hroot
    cases hroot

end Document

/-- Where preparation of a mapping ends, it gives a document or a fault of it, unless the expansion
comes to a reference whose chain ends in no mapping: it then fails for want of a mapping. -/
theorem prepare_fault_iff {doc : Document} (hdoc : doc.WellFormed)
    (hroot : (doc.graph.object? doc.root).isSome) (v2 : Bool) :
    (∀ e, doc.prepare v2 = .error e → e ≠ .endlessExpansion →
        (∃ fault, e = .spec fault) ∨ e = .notMapping) ∧
      (doc.prepare v2 = .error .notMapping ↔
        ∃ marked, doc.stamp v2 = .ok marked ∧ marked.ComesAstray) := by
  cases hmarked : doc.stamp v2 with
  | error e =>
    have hprepare : doc.prepare v2 = .error e := by
      rw [Document.prepare, hmarked]
      rfl
    obtain ⟨fault, rfl⟩ := Document.stamp_fault hroot hmarked
    rw [hprepare]
    exact ⟨fun e he _ => .inl ⟨fault, (Except.error.inj he).symm⟩, by simp⟩
  | ok marked =>
    rw [Document.prepare_of_stamp hmarked]
    refine ⟨fun e h he => ?_, fun h => ?_, ?_⟩
    · exact (Document.expand_fault h he).imp_right And.left
    · refine ⟨marked, rfl, ?_⟩
      rcases Document.expand_fault h (by simp) with ⟨fault, hfault⟩ | ⟨-, hastray⟩
      · cases hfault
      · exact hastray
    · rintro ⟨_, ⟨⟩, hastray⟩
      exact hastray.expand (hdoc.stamp hmarked)

def orderWithStatus : String × Tree :=
  ("Order", .object [("properties", .object [
    ("status", .object [("$ref", .text "#/components/schemas/Status")])])])

/-- A definition that is a reference to a text. -/
def statusFromVersion : String × Tree := ("Status", .object [("$ref", .text "#/info/version")])

def versioned (schemas : List (String × Tree)) : Document := .ofTree (.object [
  ("components", .object [("schemas", .object schemas)]),
  ("info", .object [("version", .text "1.0")])])

theorem prepare_fault_iff_versioned :
    (versioned [statusFromVersion, orderWithStatus]).WellFormed ∧
      (versioned [statusFromVersion, orderWithStatus]).prepare false =
        .error (.spec (.notSchema "#/info/version")) ∧
      ∀ marked, (versioned [statusFromVersion, orderWithStatus]).stamp false = .ok marked →
        ¬ marked.ComesAstray := by
  have hwell : (versioned [statusFromVersion, orderWithStatus]).WellFormed :=
    wellFormed_ofTree (by decide)
  obtain ⟨-, hiff⟩ := prepare_fault_iff hwell rfl false
  refine ⟨hwell, rfl, fun marked hmarked hastray => ?_⟩
  cases hiff.mpr ⟨marked, hmarked, hastray⟩

/-- The order comes to the reference to the text by way of another. -/
theorem versioned_notMapping :
    (versioned [orderWithStatus, statusFromVersion]).prepare false = .error .notMapping ∧
      ∀ fault, (versioned [orderWithStatus, statusFromVersion]).prepare false ≠
        .error (.spec fault) :=
  ⟨rfl, nofun⟩

end ApiRecords
