import ApiRecords.Proofs.FindingsReading

/-!
Kinds of schemas, and unions with the ways in which they fail, where identity attributes are texts and
discriminators have proper mappings.
-/

namespace ApiRecords

namespace Graph

/-- Schemas whose identity attributes are texts and whose discriminators have mappings, where they
have any. -/
structure Regular (g : Graph) : Prop where
  identity : ∀ id < g.size, g.truthy (g.get (.node id) identityKey) →
    (g.tree (g.get (.node id) identityKey)).text?.isSome
  mapping : ∀ id < g.size, g.truthy (g.get (g.get (.node id) "discriminator") "mapping") →
    (g.object? (g.get (g.get (.node id) "discriminator") "mapping")).isSome

variable {g : Graph} {v w : Value} {e : Fault}

theorem lt_size_of_node? {id : Nat} {n : Node} (h : g.node? (.node id) = some n) : id < g.size :=
  (Array.getElem?_eq_some_iff.mp h).1

theorem node_of_object? {members : List (String × Value)} (h : g.object? v = some members) :
    ∃ id < g.size, v = .node id := by
  cases v with
  | scalar s => cases h
  | node id =>
    cases hn : g.node? (.node id) with
    | none => simp [object?, hn] at h
    | some n => exact ⟨id, lt_size_of_node? hn, rfl⟩

theorem get_of_not_object {key : String} (h : g.object? v = none) : g.get v key = .null := by
  simp [get, member?, h]

theorem tree_eq_text {s : String} (h : (g.tree v).text? = some s) : g.tree v = .text s := by
  cases ht : g.tree v with
  | scalar a => cases a <;> simp_all [Tree.text?]
  | array | object | back => simp [ht, Tree.text?] at h

theorem identity_ok {members : List (String × Value)} (h : g.object? v = some members)
    (htext : g.truthy (g.get v identityKey) → (g.tree (g.get v identityKey)).text?.isSome) :
    ∃ identity, g.identity v = .ok identity := by
  have hname : ∃ s, (if g.truthy (g.get v identityKey) then
      g.tree (g.get v identityKey) else .text defaultIdentity) = .text s := by
    split
    · rename_i hgiven
      obtain ⟨s, hs⟩ := Option.isSome_iff_exists.mp (htext hgiven)
      exact ⟨s, tree_eq_text hs⟩
    · exact ⟨_, rfl⟩
  obtain ⟨s, hs⟩ := hname
  simp only [Graph.identity, h, hs, Tree.holds, Tree.key?]
  cases g.object? (g.get v "properties") with
  | none => exact ⟨_, rfl⟩
  | some properties =>
    cases hdot : s.toList.contains '.' with
    | true => exact ⟨_, rfl⟩
    | false => exact ⟨_, rfl⟩

namespace Regular

variable (hg : g.Regular)

include hg

theorem identity_text (v : Value) (hgiven : g.truthy (g.get v identityKey)) :
    (g.tree (g.get v identityKey)).text?.isSome := by
  cases hobject : g.object? v with
  | none =>
    rw [get_of_not_object hobject] at hgiven
    cases hgiven
  | some members =>
    obtain ⟨id, hid, rfl⟩ := node_of_object? hobject
    exact hg.identity id hid hgiven

theorem kind_ok (v : Value) : ∃ kind, g.kind v = .ok kind := by
  unfold Graph.kind
  cases hn : g.node? v with
  | none => exact ⟨_, rfl⟩
  | some n =>
    cases n with
    | array items => exact ⟨_, rfl⟩
    | object members =>
      have hobject : g.object? v = some members := by simp [object?, hn]
      obtain ⟨identity, hidentity⟩ := identity_ok hobject (hg.identity_text v)
      simp only [standsForModel, hidentity]
      cases (g.modelName v).truthy <;> exact ⟨_, rfl⟩

end Regular

/-! ### Unions -/

theorem require_ok {key : String} {members : List (String × Value)}
    (h : g.object? v = some members) (hne : g.get v key ≠ .null) :
    g.require v key = .ok (g.get v key) := by
  simp only [get, member?, h, Option.bind_some, require] at hne ⊢
  cases hlookup : members.lookup key with
  | none => simp [hlookup] at hne
  | some w => rfl

theorem elements_of_array? {items : List Value} (h : g.array? v = some items) :
    g.elements v = .ok items := by
  cases hn : g.node? v with
  | none => simp [array?, hn] at h
  | some n =>
    cases n with
    | array items' => simp_all [array?, elements]
    | object members => simp [array?, hn] at h

/-- What makes a schema a union. -/
theorem shapeKind_union (h : g.shapeKind v = .discriminatedUnion) :
    (g.array? (g.get v "oneOf")).isSome ∧ g.truthy (g.get v "discriminator") := by
  unfold shapeKind at h
  split at h
  · rename_i hitems
    split at h
    · rename_i htruthy
      exact ⟨hitems, htruthy⟩
    · cases h
  · split at h
    · cases h
    · split at h <;> cases h

theorem kind_union (h : g.kind v = .ok .discriminatedUnion) :
    ∃ members items, g.object? v = some members ∧ g.array? (g.get v "oneOf") = some items ∧
      g.truthy (g.get v "discriminator") := by
  unfold Graph.kind at h
  cases hn : g.node? v with
  | none => simp [hn] at h
  | some n =>
    cases n with
    | array items => simp [hn] at h
    | object members =>
      simp only [hn, bind_ok_iff, pure_ok_iff] at h
      obtain ⟨standsFor, -, h⟩ := h
      cases standsFor with
      | true => cases h
      | false =>
        obtain ⟨hitems, htruthy⟩ := shapeKind_union h.symm
        obtain ⟨items, hitems⟩ := Option.isSome_iff_exists.mp hitems
        exact ⟨members, items, by simp [object?, hn], hitems, htruthy⟩

/-- The branches of a union are its alternatives. -/
theorem branches_schemas {property : Tree} {index : Nat} {vs : List Value} {bs : List Branch}
    (h : g.branches property index vs = .ok bs) : bs.map (·.schema) = vs := by
  induction vs generalizing index bs with
  | nil =>
    cases h
    rfl
  | cons v vs ih =>
    simp only [branches, bind_ok_iff, pure_ok_iff] at h
    obtain ⟨b, hb, rest, hrest, rfl⟩ := h
    rw [List.map_cons, (branch_eq hb).2.2, ih hrest]

theorem branch_error {property : Tree} {index : Nat}
    (htext : g.truthy (g.get v identityKey) → (g.tree (g.get v identityKey)).text?.isSome)
    (h : g.branch property index v = .error e) : ∃ fault, e = .union fault := by
  cases hobject : g.object? v with
  | none =>
    have hname : g.modelName v = .null := by simp [modelName, get_of_not_object hobject]
    rw [branch, hname] at h
    exact ⟨_, (Except.error.inj h).symm⟩
  | some members =>
    obtain ⟨identity, hidentity⟩ := identity_ok hobject htext
    simp only [branch, hidentity, reference, hobject] at h
    cases hname : (g.modelName v).truthy with
    | false =>
      rw [hname] at h
      exact ⟨_, (Except.error.inj h).symm⟩
    | true =>
      rw [hname] at h
      cases hfound : identity.isFound with
      | false =>
        simp only [bind, Except.bind, hfound] at h
        exact ⟨_, (Except.error.inj h).symm⟩
      | true =>
        simp only [bind, Except.bind, hfound] at h
        cases h

theorem branches_error {property : Tree} {index : Nat} {vs : List Value}
    (htexts : ∀ v ∈ vs, g.truthy (g.get v identityKey) →
      (g.tree (g.get v identityKey)).text?.isSome)
    (h : g.branches property index vs = .error e) : ∃ fault, e = .union fault := by
  induction vs generalizing index with
  | nil => cases h
  | cons v vs ih =>
    simp only [branches, bind_error_iff, pure_ne_error, and_false, exists_false, or_false] at h
    obtain ⟨hv, hvs⟩ := List.forall_mem_cons.mp htexts
    rcases h with hfirst | ⟨_, -, hrest⟩
    · exact branch_error hv hfirst
    · exact ih hvs hrest

theorem entryTarget_error {branches : List Branch} {key : String} {ref : Tree}
    (h : entryTarget branches key ref = .error e) : ∃ fault, e = .union fault := by
  unfold entryTarget at h
  split at h
  · cases h
  · exact ⟨_, (Except.error.inj h).symm⟩

/-- A union without a mapping of its own has no key for a branch whose marker is a container. -/
def Unkeyed (g : Graph) (u : Value) : Prop :=
  ¬ g.truthy (g.get (g.get u "discriminator") "mapping") ∧
    ∃ items w id, g.array? (g.get u "oneOf") = some items ∧ w ∈ items ∧
      g.get w modelNameKey = .node id

theorem unionMapping_error {mapping : Value} {branches : List Branch}
    (hmapping : g.truthy mapping → (g.object? mapping).isSome)
    (h : g.unionMapping mapping branches = .error e) :
    (∃ fault, e = .union fault) ∨
      e = .notKey ∧ ¬ g.truthy mapping ∧ ∃ b ∈ branches, b.name.key? = .error .notKey := by
  unfold unionMapping at h
  split at h
  · rename_i htruthy
    obtain ⟨entries, hentries⟩ := Option.isSome_iff_exists.mp (hmapping htruthy)
    rw [hentries] at h
    obtain ⟨entry, -, herror⟩ := mapM_error h
    simp only [bind_error_iff, pure_ne_error, and_false, exists_false, or_false] at herror
    exact .inl (entryTarget_error herror)
  · rename_i hnot
    obtain ⟨before, b, after, acc, rfl, -, herror⟩ := foldlM_error h
    simp only [bind_error_iff, pure_ne_error, and_false, exists_false, or_false] at herror
    have hkey : e = .notKey := by
      unfold Tree.key? at herror
      split at herror
      · cases herror
      · exact (Except.error.inj herror).symm
    subst hkey
    exact .inr ⟨rfl, hnot, b, by simp, herror⟩

theorem node_of_key?_error (h : (g.tree v).key? = .error e) : ∃ id, v = .node id := by
  cases v with
  | scalar s => simp [Tree.key?] at h
  | node id => exact ⟨id, rfl⟩

theorem union_error (hg : g.Regular) (hkind : g.kind v = .ok .discriminatedUnion)
    (h : g.union v = .error e) : (∃ fault, e = .union fault) ∨ e = .notKey ∧ g.Unkeyed v := by
  obtain ⟨members, items, hobject, hitems, htruthy⟩ := kind_union hkind
  obtain ⟨id, hid, rfl⟩ := node_of_object? hobject
  have hdiscriminator : g.get (.node id) "discriminator" ≠ .null := by
    intro hnull
    rw [hnull] at htruthy
    cases htruthy
  have honeOf : g.get (.node id) "oneOf" ≠ .null := by
    intro hnull
    rw [hnull] at hitems
    cases hitems
  simp only [Graph.union, require_ok hobject hdiscriminator, require_ok hobject honeOf,
    bind_error_iff, reduceCtorEq, false_or, Except.ok.injEq, exists_eq_left'] at h
  cases hd : g.object? (g.get (.node id) "discriminator") with
  | none =>
    rw [hd] at h
    exact .inl ⟨_, (Except.error.inj h).symm⟩
  | some entries =>
    simp only [hd, elements_of_array? hitems, bind_error_iff, reduceCtorEq, false_or,
      Except.ok.injEq, exists_eq_left', pure_ne_error, and_false, exists_false, or_false] at h
    rcases h with hbranches | ⟨bs, hbs, hmapping⟩
    · exact .inl (branches_error (fun w _ => hg.identity_text w) hbranches)
    · rcases unionMapping_error (hg.mapping id hid) hmapping with hfault | ⟨rfl, hnot, b, hb, hkey⟩
      · exact .inl hfault
      · refine .inr ⟨rfl, hnot, items, b.schema, ?_⟩
        rw [(branches_named hbs b hb).1] at hkey
        obtain ⟨marker, hmarker⟩ := node_of_key?_error hkey
        refine ⟨marker, hitems, ?_, hmarker⟩
        rw [← branches_schemas hbs]
        exact List.mem_map_of_mem hb

theorem union_schemas {items : List Value} {u : Union} (h : g.union v = .ok u)
    (hitems : g.array? (g.get v "oneOf") = some items) : u.branches.map (·.schema) = items := by
  obtain ⟨_, vs, -, hvs, hbranches, -⟩ := union_ok h
  obtain rfl : items = vs := Except.ok.inj ((elements_of_array? hitems).symm.trans hvs)
  exact branches_schemas hbranches

end Graph

end ApiRecords
