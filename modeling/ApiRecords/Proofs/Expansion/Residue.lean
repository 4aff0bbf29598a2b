import ApiRecords.Proofs.Expansion.Run
import ApiRecords.Proofs.Layout

/-!
What preparation leaves of the references of a document: none, wherever they stood. A path through a
prepared document only leads to values that were settled on the way.
-/

namespace ApiRecords

namespace Expansion

variable {marked : Document} {x : Expansion} {path : List Slot} {slot : Slot} {v : Value}

/-- Every container that a path leads to was entered. -/
theorem Prepared.entered (h : Prepared marked x) {id : Nat}
    (hpath : x.doc.find path = some (.node id)) : id ∈ x.entered := by
  induction path using List.reverseRecOn generalizing id with
  | nil =>
    rw [Document.find_nil, h.valid.root] at hpath
    exact h.root id (Option.some.inj hpath)
  | append_singleton path slot ih =>
    obtain ⟨u, hu, hat⟩ := Document.find_snoc.mp hpath
    obtain ⟨i, rfl, -⟩ := Document.exists_holds hat
    exact (h.settled i (ih hu) slot _ hat).entered id rfl

theorem Prepared.find_settled (h : Prepared marked x) (hpath : x.doc.find (path ++ [slot]) = some v) :
    x.Settled v := by
  obtain ⟨u, hu, hat⟩ := Document.find_snoc.mp hpath
  cases u with
  | scalar s => cases hat
  | node i => exact h.settled i (h.entered hu) slot v hat

end Expansion

theorem Graph.member?_refKey_ne {g : Graph} {v : Value} (h : g.refText? v = none) (ref : String) :
    g.member? v refKey ≠ some (.scalar (.text ref)) := by
  intro hmember
  simp [refText?, hmember] at h

/-- No reference survives preparation: whatever keys and indices lead to in a prepared document, it
is no mapping with a text in the place of a reference. -/
theorem prepare_leaves_no_ref {doc prepared : Document} {v2 : Bool} (hdoc : doc.WellFormed)
    (hprepared : doc.prepare v2 = .ok prepared) {path : List Slot} {slot : Slot} {v : Value}
    (hv : prepared.find (path ++ [slot]) = some v) (ref : String) :
    prepared.graph.member? v refKey ≠ some (.scalar (.text ref)) := by
  obtain ⟨marked, hmarked, -⟩ := (bind_ok_iff _ _ _).mp hprepared
  obtain ⟨x, rfl, hx⟩ := Expansion.prepared_of_prepare hdoc hmarked hprepared
  exact Graph.member?_refKey_ne (hx.find_settled hv).plain ref

/-- Definitions that lead back to each other through an alias, a reference with another one beside it,
and a reference into a definition that is itself a reference. -/
def household : Tree :=
  let ref (target : String) (beside : List (String × Tree)) : Tree :=
    .object (("$ref", .text target) :: beside)
  .object [
    ("Alias", ref "#/Owner" []),
    ("Owner", .object [("pet", ref "#/Pet" [])]),
    ("Pet", .object [("owner", ref "#/Alias" [("home", ref "#/Home" [])])]),
    ("Home", ref "#/Alias/pet" [])]

theorem prepare_leaves_no_ref_household :
    ∃ prepared v, (Document.ofTree household).WellFormed ∧
      (Document.ofTree household).prepare true = .ok prepared ∧
      prepared.find ([.key "Alias", .key "pet", .key "owner", .key "home", .key "owner"] ++
        [.key "home"]) = some v ∧
      ∀ ref, prepared.graph.member? v refKey ≠ some (.scalar (.text ref)) := by
  have hwell : (Document.ofTree household).WellFormed := wellFormed_ofTree (by decide)
  obtain ⟨prepared, v, hprepared, hv⟩ : ∃ prepared v,
      (Document.ofTree household).prepare true = .ok prepared ∧
        prepared.find ([.key "Alias", .key "pet", .key "owner", .key "home", .key "owner"] ++
          [.key "home"]) = some v := ⟨_, _, rfl, rfl⟩
  exact ⟨prepared, v, hwell, hprepared, hv, prepare_leaves_no_ref hwell hprepared hv⟩

end ApiRecords
