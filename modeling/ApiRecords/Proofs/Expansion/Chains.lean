import ApiRecords.Proofs.Expansion.Failure

/-!
Chains of references, one leading to the next. A chain that ends is followed to its end, so that a
document is refused with a fault of the document or else comes to a chain that ends in no mapping.
-/

namespace ApiRecords

namespace Document

/-- Whether a value is a reference, and what it leads to. -/
def Hop (doc : Document) (v w : Value) : Prop :=
  ∃ ref, doc.graph.refText? v = some ref ∧ doc.resolve ref = .ok w

abbrev Chain (doc : Document) : Value → Value → Prop := Relation.ReflTransGen doc.Hop

variable {doc : Document} {u v w : Value} {first ref : String} {hops : Nat} {seen : List String}
  {e : Fault}

theorem Hop.unique (h : doc.Hop u v) (h' : doc.Hop u w) : v = w := by
  obtain ⟨ref, href, hv⟩ := h
  obtain ⟨ref', href', hw⟩ := h'
  obtain rfl : ref = ref' := Option.some.inj (href.symm.trans href')
  exact Except.ok.inj (hv.symm.trans hw)

/-- A chain that leads back to where it starts has no end. -/
theorem Chain.hop_of_cycle (h : doc.Chain v w) (hcycle : Relation.TransGen doc.Hop v v) :
    ∃ u, doc.Hop w u := by
  have hw : Relation.TransGen doc.Hop w w := by
    induction h with
    | refl => exact hcycle
    | @tail a b _ hab ih =>
      obtain ⟨c, hac, hca⟩ := Relation.TransGen.head'_iff.mp ih
      obtain rfl := hab.unique hac
      exact Relation.TransGen.tail' hca hab
  obtain ⟨u, hwu, -⟩ := Expansion.exists_step_of_cycle hw
  exact ⟨u, hwu⟩

/-! ### One reference of a chain -/

theorem not_hop_of_object? (h : doc.graph.object? v = none) : ¬ doc.Hop v w := by
  rintro ⟨ref, href, -⟩
  obtain ⟨members, hmembers⟩ := object?_of_refText? href
  cases h.symm.trans hmembers

/-! ### Chains followed -/

/-- Where a chain that starts with `first` has got to: `v` is next, `seen` are the references
followed, and `hops` leaves room for all others that there are. -/
structure Following (doc : Document) (first : String) (hops : Nat) (seen : List String) (v : Value) :
    Prop where
  behind : ∀ ref ∈ seen, ∃ u, doc.resolve ref = .ok u ∧ doc.Chain u v
  nodup : seen.Nodup
  given : ∀ ref ∈ seen, ref = first ∨ ∃ u, doc.graph.refText? u = some ref
  room : doc.graph.size < hops + seen.length

/-- There are no more references than containers. -/
theorem length_le_of_given (hnodup : seen.Nodup)
    (hgiven : ∀ ref ∈ seen, ref = first ∨ ∃ u, doc.graph.refText? u = some ref) :
    seen.length ≤ doc.graph.size + 1 := by
  let texts := (List.range doc.graph.size).filterMap fun id => doc.graph.refText? (.node id)
  have hsub : seen ⊆ first :: texts := by
    intro ref href
    rcases hgiven ref href with rfl | ⟨u, hu⟩
    · exact List.mem_cons_self
    · cases u with
      | scalar s => cases hu
      | node id =>
        have hid : id < doc.graph.size := Graph.has_of_refText? hu
        exact List.mem_cons_of_mem _ (List.mem_filterMap.mpr ⟨id, List.mem_range.mpr hid, hu⟩)
  calc
    seen.length ≤ (first :: texts).length := (List.subperm_of_subset hnodup hsub).length_le
    _ ≤ doc.graph.size + 1 := by
      have hlength := List.length_filterMap_le (fun id => doc.graph.refText? (.node id))
        (List.range doc.graph.size)
      rw [List.length_range] at hlength
      exact Nat.succ_le_succ hlength

theorem following_start (h : doc.resolve first = .ok v) :
    doc.Following first doc.graph.size [first] v where
  behind ref href := by
    obtain rfl := List.mem_singleton.mp href
    exact ⟨v, h, .refl⟩
  nodup := List.nodup_singleton first
  given ref href := .inl (List.mem_singleton.mp href)
  room := Nat.lt_succ_self _

/-- For a reference that is new there is room. -/
theorem Following.exists_left (h : doc.Following first hops seen v)
    (href : doc.graph.refText? v = some ref) (hnew : ref ∉ seen) : ∃ left, hops = left + 1 := by
  have hlength : (ref :: seen).length ≤ doc.graph.size + 1 :=
    length_le_of_given (List.nodup_cons.mpr ⟨hnew, h.nodup⟩)
      (List.forall_mem_cons.mpr ⟨.inr ⟨v, href⟩, h.given⟩)
  have hroom := h.room
  rw [List.length_cons] at hlength
  exact ⟨hops - 1, by omega⟩

/-- Following goes on with a reference that is new. -/
theorem Following.step (h : doc.Following first (hops + 1) seen v)
    (href : doc.graph.refText? v = some ref) (hnew : ref ∉ seen) (hresolve : doc.resolve ref = .ok w) :
    doc.Following first hops (ref :: seen) w where
  behind := by
    refine List.forall_mem_cons.mpr ⟨⟨w, hresolve, .refl⟩, fun r hr => ?_⟩
    obtain ⟨u, hu, hchain⟩ := h.behind r hr
    exact ⟨u, hu, hchain.tail ⟨ref, href, hresolve⟩⟩
  nodup := List.nodup_cons.mpr ⟨hnew, h.nodup⟩
  given := List.forall_mem_cons.mpr ⟨.inr ⟨v, href⟩, h.given⟩
  room := by
    rw [List.length_cons, ← Nat.add_assoc, Nat.add_right_comm]
    exact h.room

/-- On a way that does not lead back, a chain is followed from one reference to the next. -/
theorem Following.hop (h : doc.Following first hops seen v) (hhop : doc.Hop v w)
    (hcycle : ¬ Relation.TransGen doc.Hop v v) :
    ∃ hops' seen', doc.Following first hops' seen' w ∧
      doc.chase first hops seen v = doc.chase first hops' seen' w := by
  obtain ⟨next, hnext, hresolve⟩ := id hhop
  have hnew : next ∉ seen := by
    intro hmem
    obtain ⟨u, hu, hchain⟩ := h.behind next hmem
    obtain rfl : u = w := Except.ok.inj (hu.symm.trans hresolve)
    exact hcycle (Relation.TransGen.head' hhop hchain)
  obtain ⟨left, rfl⟩ := h.exists_left hnext hnew
  refine ⟨left, next :: seen, h.step hnext hnew hresolve, ?_⟩
  rw [chase_of_ref hnext, if_neg hnew, hresolve]
  rfl

/-- A chain that ends is followed to its end. -/
theorem Following.chain (h : doc.Following first hops seen v) (hchain : doc.Chain v w)
    (hend : ∀ u, ¬ doc.Hop w u) :
    ∃ hops' seen', doc.Following first hops' seen' w ∧
      doc.chase first hops seen v = doc.chase first hops' seen' w := by
  induction hchain using Relation.ReflTransGen.head_induction_on generalizing hops seen with
  | refl => exact ⟨hops, seen, h, rfl⟩
  | head hhop hrest ih =>
    have hcycle : ¬ Relation.TransGen doc.Hop _ _ := fun hcycle =>
      (Chain.hop_of_cycle (.head hhop hrest) hcycle).elim hend
    obtain ⟨hops₁, seen₁, hfollowing, heq⟩ := h.hop hhop hcycle
    obtain ⟨hops', seen', hfollowing', heq'⟩ := ih hfollowing
    exact ⟨hops', seen', hfollowing', heq.trans heq'⟩

/-! ### Chains that end in no mapping -/

/-- Whether a reference leads to a mapping from which a chain of references goes on to a value that
is none. -/
def Astray (doc : Document) (ref : String) : Prop :=
  ∃ v w, doc.resolve ref = .ok v ∧ (doc.graph.object? v).isSome ∧ doc.Chain v w ∧
    doc.graph.object? w = none

/-- A chain that is refused is refused at once, or further on. -/
theorem chase_error_cases (h : doc.chase first hops seen v = .error e) :
    (∃ fault, e = .spec fault) ∨ e = .notMapping ∧ doc.graph.object? v = none ∨
      ∃ hops' seen' w, hops' < hops ∧ doc.Hop v w ∧ doc.chase first hops' seen' w = .error e := by
  cases hobject : doc.graph.object? v with
  | none =>
    rw [chase_of_notMapping hobject] at h
    exact .inr (.inl ⟨(Except.error.inj h).symm, rfl⟩)
  | some members =>
    cases href : doc.graph.refText? v with
    | none => cases (chase_of_plain hobject href).symm.trans h
    | some next =>
      rw [chase_of_ref href] at h
      by_cases hseen : next ∈ seen
      · rw [if_pos hseen] at h
        exact .inl ⟨_, (Except.error.inj h).symm⟩
      · rw [if_neg hseen] at h
        cases hops with
        | zero => exact .inl ⟨_, (Except.error.inj h).symm⟩
        | succ hops =>
          cases hresolve : doc.resolve next with
          | error fault =>
            rw [hresolve] at h
            exact .inl ⟨fault, (Except.error.inj h).symm⟩
          | ok w =>
            rw [hresolve] at h
            exact .inr (.inr ⟨hops, _, w, Nat.lt_succ_self _, ⟨next, href, hresolve⟩, h⟩)

/-- A chain is refused with a fault of the document, or ends in no mapping. -/
theorem chase_error (h : doc.chase first hops seen v = .error e) :
    (∃ fault, e = .spec fault) ∨
      e = .notMapping ∧ ∃ w, doc.Chain v w ∧ doc.graph.object? w = none := by
  induction hops using Nat.strong_induction_on generalizing seen v with
  | h hops ih =>
    rcases chase_error_cases h with hfault | ⟨he, hv⟩ | ⟨hops', seen', w, hlt, hhop, hw⟩
    · exact .inl hfault
    · exact .inr ⟨he, v, .refl, hv⟩
    · refine (ih hops' hlt hw).imp_right (And.imp_right ?_)
      rintro ⟨x, hchain, hx⟩
      exact ⟨x, .head hhop hchain, hx⟩

theorem target_error (h : doc.target ref = .error e) :
    (∃ fault, e = .spec fault) ∨ e = .notMapping ∧ doc.Astray ref := by
  unfold target at h
  cases hresolve : doc.resolve ref with
  | error fault =>
    rw [hresolve] at h
    exact .inl ⟨fault, (Except.error.inj h).symm⟩
  | ok v =>
    rw [hresolve] at h
    cases hobject : doc.graph.object? v with
    | none =>
      simp only [Except.mapError, bind, Except.bind, hobject] at h
      exact .inl ⟨_, (Except.error.inj h).symm⟩
    | some members =>
      simp only [Except.mapError, bind, Except.bind, hobject] at h
      refine (chase_error h).imp_right (And.imp_right ?_)
      rintro ⟨w, hchain, hw⟩
      exact ⟨v, w, hresolve, by rw [hobject]; rfl, hchain, hw⟩

/-- A chain that ends in no mapping is followed there. -/
theorem Astray.target (h : doc.Astray ref) : doc.target ref = .error .notMapping := by
  obtain ⟨v, w, hresolve, hobject, hchain, hw⟩ := h
  obtain ⟨members, hmembers⟩ := Option.isSome_iff_exists.mp hobject
  obtain ⟨hops, seen, -, heq⟩ :=
    (following_start hresolve).chain hchain fun u => not_hop_of_object? hw
  rw [chase_of_notMapping hw] at heq
  unfold Document.target
  rw [hresolve]
  simp only [Except.mapError, bind, Except.bind, hmembers]
  exact heq

end Document

end ApiRecords
