import ApiRecords.Proofs.Properties.Determined

/-!
What a blueprint says of the properties, traced back to their schemas in the document: the flag for
required ones is the only thing that a survey changes.
-/

namespace ApiRecords

namespace Graph

variable {g g₁ : Graph} {v u : Value} {required : Prop} {key : String}

theorem WellFormed.has_get (hg : g.WellFormed) (v : Value) (key : String) : g.Has (g.get v key) := by
  rw [get, member?]
  cases hmembers : g.object? v with
  | none => trivial
  | some members =>
    rw [Option.bind_some]
    cases hw : members.lookup key with
    | none => trivial
    | some w =>
      exact hg.has_of_mem_values (object?_iff.mp hmembers) (List.mem_map_of_mem (mem_of_lookup hw))

theorem Extends.truthy (h : g.Extends g₁) (hv : g.Has v) : g₁.truthy v = g.truthy v := by
  cases v with
  | scalar s => rfl
  | node id => rw [Graph.truthy, Graph.truthy, h.node _ hv]

theorem Flagged.get_of_ne (h : Flagged g g₁ required v u) (hext : g.Extends g₁) (hv : g.Has v)
    (hkey : key ≠ "required") : g₁.get u key = g.get v key := by
  cases h with
  | kept => rw [get, get, member?, member?, hext.object? hv]
  | flagged _ hmembers _ hnode =>
    rw [get, get, member?, member?, object?_iff.mpr hnode, hmembers, Option.bind_some, Option.bind_some,
      lookup_putMember_of_ne hkey]

end Graph

/-- A property in a blueprint comes from a schema, as it stands among the properties of the survey. -/
structure Property.From (g : Graph) (s : Survey) (spell : String → String) (key : String) (v : Value)
    (p : Property) : Prop where
  has : g.Has v
  made : ∃ required u dependency, Graph.Flagged g s.graph required v u ∧
    s.graph.property spell s.branchNames key u dependency = .ok p

/-- The properties of a blueprint are those of the schema of the model, in their order. -/
theorem Graph.blueprint_origins {g : Graph} (hg : g.WellFormed) {options : Options} {name : Tree}
    {model : Value} {d : Blueprint} (h : g.blueprint options name model = .ok (some d)) :
    ∃ members s, g.object? (g.get model "properties") = some members ∧ g.Extends s.graph ∧
      List.Forall₂ (fun m p => p.From g s options.attributeCase m.1 m.2) members d.properties := by
  obtain ⟨identity, s, hidentity, hs, hd⟩ := survey_of_blueprint h
  obtain ⟨members, hmembers⟩ := properties_of_identity hidentity
  have hproperties := (Survey.describes hd).properties
  obtain ⟨g₁, w, found, hmark, -, rfl⟩ := survey_ok hs
  obtain ⟨id, marked, rfl, hmarked⟩ := markRequired_marked hg hmembers hmark
  simp only [object?_iff.mpr hmarked.node, Option.getD_some] at hproperties
  refine ⟨members, ⟨g₁, identity, marked, found⟩, hmembers, hmarked.extended, ?_⟩
  have hvalues : ∀ m ∈ members, g.Has m.2 := fun m hm =>
    hg.has_of_mem_values (object?_iff.mp hmembers) (List.mem_map_of_mem hm)
  have hflagged := (List.forall₂_and_left _ _).mpr ⟨hvalues, hmarked.flagged⟩
  refine (forall₂_comp hflagged hproperties).imp ?_
  rintro ⟨key, v⟩ p ⟨⟨_, u⟩, ⟨hv, rfl, hu, -⟩, dependency, -, hp⟩
  exact ⟨hv, _, u, dependency, hu, hp⟩

end ApiRecords
