import ApiRecords.Proofs.Properties.Flags

/-!
Blueprints of models that differ in nothing but their lists of required properties.
-/

namespace ApiRecords

/-! ### Blueprints without their flags -/

def Blueprint.unflagged (d : Blueprint) : Blueprint :=
  { d with properties := d.properties.map Property.unflagged }

/-- Surveys that differ in nothing but the flags of their properties. -/
structure Survey.AlikeButFlags (s s' : Survey) : Prop where
  identity : s'.identity = s.identity
  properties : MembersRel (fun v u => ∀ spell unions key dependency,
    (s'.graph.property spell unions key u dependency).map Property.unflagged =
      (s.graph.property spell unions key v dependency).map Property.unflagged) s.properties s'.properties
  findings : Findings.Same s.graph s'.graph s.findings s'.findings

theorem importsOf_eq {g g' : Graph} {models models' : List Value}
    (h : List.Forall₂ (fun v w => g'.modelName w = g.modelName v) models models') (own : Tree) :
    importsOf g' own models' = importsOf g own models := by
  have hstep : ∀ found v w, g'.modelName w = g.modelName v →
      addImport g' own found w = addImport g own found v := by
    intro found v w hname
    simp only [addImport, hname]
  rw [importsOf, importsOf, foldlM_eq_of_rel h hstep]

theorem Survey.AlikeButFlags.blueprint {s s' : Survey} (h : s.AlikeButFlags s') (options : Options)
    (name : Tree) : OutcomeRel (fun d d' => d'.unflagged = d.unflagged) (s.blueprint options name)
      (s'.blueprint options name) := by
  have hbranches : s'.branchNames = s.branchNames := by rw [branchNames, branchNames, h.findings.unions]
  have himports := importsOf_eq h.findings.models name
  unfold Survey.blueprint
  simp only [h.identity, h.findings.dependency, h.findings.unions, hbranches, himports]
  refine (OutcomeRel.refl _).bind fun identity _ heq => ?_
  subst heq
  refine OutcomeRel.bind (R := List.Forall₂ fun p p' : Property => p'.unflagged = p.unflagged)
    (mapM_rel h.properties ?_) fun ps ps' hps => ?_
  · rintro ⟨key, v⟩ ⟨_, u⟩ ⟨rfl, hproperty⟩
    refine (OutcomeRel.refl _).bind fun dependency _ heq => ?_
    subst heq
    exact OutcomeRel.map_eq_iff.mpr (hproperty _ _ _ _)
  refine (OutcomeRel.refl _).bind fun schema _ heq => ?_
  subst heq
  refine (OutcomeRel.refl _).bind fun unionEntries _ heq => ?_
  subst heq
  refine (OutcomeRel.refl _).bind fun imports _ heq => ?_
  subst heq
  have hps : ps.map Property.unflagged = ps'.map Property.unflagged :=
    map_eq_map_iff_forall₂.mpr (hps.imp fun _ _ hp => hp.symm)
  exact .ok (by simp only [Blueprint.unflagged, hps])

namespace Graph

variable {g : Graph} {model bare properties required : Value} {options : Options} {name identity : Tree}

/-- A survey of the properties as they stand in the document. Nothing that is found below them leads back to
the mapping they are in: a survey has a new one. -/
def surveyAsIs (g : Graph) (properties : Value) (identity : Tree) : Except Fault Survey := do
  let findings ← g.findNode (fun _ => g.findFrom g.size []) [] 0 properties
  return { graph := g, identity, properties := (g.object? properties).getD [], findings }

def blueprintAsIs (g : Graph) (options : Options) (name : Tree) (model : Value) :
    Except Fault (Option Blueprint) := do
  match ← g.identity model with
  | .found identity =>
    return some (← (← g.surveyAsIs (g.get model "properties") identity).blueprint options name)
  | _ => return none

theorem exists_marked (hg : g.WellFormed) {members : List (String × Value)}
    (hmembers : g.object? properties = some members) (required : Value) :
    ∃ g₁ id marked, g.markRequired properties required = .ok (g₁, .node id) ∧
      Marked g required members g₁ id marked := by
  obtain ⟨⟨g₁, w⟩, hmark⟩ : ∃ r, g.markRequired properties required = .ok r := by
    unfold markRequired pairs
    rw [hmembers]
    cases g.array? required <;> exact ⟨_, rfl⟩
  obtain ⟨id, marked, rfl, hmarked⟩ := markRequired_marked hg hmembers hmark
  exact ⟨g₁, id, marked, hmark, hmarked⟩

theorem survey_of_marked {g₁ : Graph} {id : Nat} {members marked : List (String × Value)}
    (hmark : g.markRequired (g.get model "properties") (g.get model "required") = .ok (g₁, .node id))
    (hmarked : Marked g (g.get model "required") members g₁ id marked) :
    g.survey model identity = g₁.findings 0 (.node id) >>= fun findings =>
      pure ⟨g₁, identity, marked, findings⟩ := by
  have hproperties : (g₁.object? (.node id)).getD [] = marked := by
    rw [object?_iff.mpr hmarked.node, Option.getD_some]
  rw [survey, hmark, ← hproperties]
  rfl

/-- The survey of a model differs from that of its properties as they stand in nothing but the flags. -/
theorem survey_alike (hg : g.WellFormed) {members : List (String × Value)}
    (hmembers : g.object? (g.get model "properties") = some members)
    (hapart : g.FlagsApart (g.get model "properties") (g.get model "required"))
    (hunseen : g.FlagsUnseen (g.get model "properties") (g.get model "required")) (identity : Tree) :
    OutcomeRel Survey.AlikeButFlags (g.surveyAsIs (g.get model "properties") identity)
      (g.survey model identity) := by
  obtain ⟨g₁, id, marked, hmark, hmarked⟩ := exists_marked hg hmembers (g.get model "required")
  have hvalues : ∀ m ∈ members, g.Has m.2 := fun m hm =>
    hg.has_of_mem_values (object?_iff.mp hmembers) (List.mem_map_of_mem hm)
  rw [survey_of_marked hmark hmarked, surveyAsIs]
  refine (hmarked.findings hmembers hg hapart hunseen).bind fun found found' hfound =>
    .ok ⟨rfl, ?_, hfound⟩
  rw [hmembers]
  exact forall₂_imp_mem hmarked.flagged fun m hm n _ hmn =>
    ⟨hmn.1, hmn.2.1.property hmarked.extended hg (hvalues m hm)⟩

/-- A blueprint is, but for the flags, that of the properties as they stand. -/
theorem blueprint_asIs (hg : g.WellFormed)
    (hapart : g.FlagsApart (g.get model "properties") (g.get model "required"))
    (hunseen : g.FlagsUnseen (g.get model "properties") (g.get model "required")) :
    (g.blueprint options name model).map (·.map Blueprint.unflagged) =
      (g.blueprintAsIs options name model).map (·.map Blueprint.unflagged) := by
  rw [← OutcomeRel.map_eq_iff, blueprint, blueprintAsIs]
  cases hidentity : g.identity model with
  | error e => exact .error e
  | ok found =>
    cases found with
    | noProperties => exact .ok rfl
    | absent _ => exact .ok rfl
    | found identity =>
      obtain ⟨members, hmembers⟩ := properties_of_identity hidentity
      refine (survey_alike hg hmembers hapart hunseen identity).bind fun s s' hs => ?_
      exact (hs.blueprint options name).bind fun d d' hd => .ok (congrArg some hd)

theorem blueprintAsIs_eq (h : AlikeBut (· = ·) (· = "required") g g model bare) :
    g.blueprintAsIs options name bare = g.blueprintAsIs options name model := by
  have hrefl := Mirrors.refl g
  have hidentity : g.identity bare = g.identity model :=
    h.identity hrefl (by decide : identityKey ≠ "required") (by decide : "properties" ≠ "required")
  have hproperties : g.get model "properties" = g.get bare "properties" :=
    h.get hrefl (by decide : "properties" ≠ "required")
  rw [blueprintAsIs, blueprintAsIs, hidentity, hproperties]

theorem flags_of_no_list (h : g.array? required = none) (key : String) (v : Value) :
    g.flags required key v = false := by
  simp [flags, requires, h]

/-- Where a blueprint has the relations of the properties as they stand, no flag is seen. -/
theorem flagsUnseen_of_blueprint (hg : g.WellFormed)
    (hapart : g.FlagsApart (g.get model "properties") (g.get model "required")) {d d' : Blueprint}
    (h : g.blueprintAsIs options name model = .ok (some d))
    (h' : g.blueprint options name model = .ok (some d')) (hsame : d'.dependency = d.dependency) :
    g.FlagsUnseen (g.get model "properties") (g.get model "required") := by
  obtain ⟨identity, s', hidentity, hs', hd'⟩ := survey_of_blueprint h'
  obtain ⟨members, hmembers⟩ := properties_of_identity hidentity
  obtain ⟨g₁, id, marked, hmark, hmarked⟩ := exists_marked hg hmembers (g.get model "required")
  simp only [blueprintAsIs, hidentity, bind_ok_iff, pure_ok_iff, Except.ok.injEq, exists_eq_left',
    Option.some.injEq, surveyAsIs] at h
  obtain ⟨s, ⟨found, hfound, rfl⟩, _, hd, rfl⟩ := h
  rw [survey_of_marked hmark hmarked] at hs'
  obtain ⟨found', hfound', hs'⟩ := (bind_ok_iff _ _ _).mp hs'
  obtain rfl := (pure_ok_iff _ _).mp hs'
  have hdependency := (Survey.describes hd).dependency
  have hdependency' := (Survey.describes hd').dependency
  refine hmarked.flagsUnseen hmembers hg hapart hfound hfound' ?_
  exact hdependency'.symm.trans (hsame.trans hdependency)

theorem Flagged.get_required {g₁ : Graph} {flag : Prop} {v u : Value} (h : Flagged g g₁ flag v u)
    (hext : g.Extends g₁) (hg : g.WellFormed) (hv : g.Has v) :
    g₁.get u "required" = .scalar (.bool true) ↔
      flag ∧ (g.object? v).isSome ∨ g.get v "required" = .scalar (.bool true) := by
  cases h with
  | kept hnot =>
    have hfalse : ¬ (flag ∧ (g.object? v).isSome) := fun ⟨hflag, hobject⟩ => by
      simp [hnot hflag] at hobject
    rw [hext.get hg hv, or_iff_right hfalse]
  | @flagged members new hflag hmembers _ hnode =>
    have htrue : g₁.get (.node new) "required" = .scalar (.bool true) := by
      rw [get, Graph.member?, object?_iff.mpr hnode, Option.bind_some, putMember, lookup_putBy_self]
      rfl
    exact iff_of_true htrue (.inl ⟨hflag, by simp [hmembers]⟩)

/-- A survey leaves the document as it is. In the blueprint made from it those properties are flagged that are
listed and have a mapping for a schema, and those whose schema has the flag already. -/
theorem blueprint_flags (hg : g.WellFormed) {d : Blueprint}
    (h : g.blueprint options name model = .ok (some d)) :
    (∀ identity s, g.survey model identity = .ok s → g.Extends s.graph) ∧
      List.Forall₂ (fun m p => p.propertyName = m.1 ∧ (p.required ↔
        g.flags (g.get model "required") m.1 m.2 ∨ g.get m.2 "required" = .scalar (.bool true)))
        ((g.object? (g.get model "properties")).getD []) d.properties := by
  obtain ⟨identity, s, hidentity, hs, hd⟩ := survey_of_blueprint h
  obtain ⟨members, hmembers⟩ := properties_of_identity hidentity
  obtain ⟨g₁, id, marked, hmark, hmarked⟩ := exists_marked hg hmembers (g.get model "required")
  refine ⟨fun identity s hs => ?_, ?_⟩
  · rw [survey_of_marked hmark hmarked] at hs
    obtain ⟨found, -, hs⟩ := (bind_ok_iff _ _ _).mp hs
    obtain rfl := (pure_ok_iff _ _).mp hs
    exact hmarked.extended
  · rw [survey_of_marked hmark hmarked] at hs
    obtain ⟨found, -, hs⟩ := (bind_ok_iff _ _ _).mp hs
    obtain rfl := (pure_ok_iff _ _).mp hs
    have hproperties := (Survey.describes hd).properties
    have hvalues : ∀ m ∈ members, g.Has m.2 := fun m hm =>
      hg.has_of_mem_values (object?_iff.mp hmembers) (List.mem_map_of_mem hm)
    have hflagged := (List.forall₂_and_left _ _).mpr ⟨hvalues, hmarked.flagged⟩
    rw [hmembers]
    refine (forall₂_comp hflagged hproperties).imp ?_
    rintro ⟨key, v⟩ p ⟨⟨_, u⟩, ⟨hv, rfl, hu, -⟩, dependency, -, hp⟩
    obtain ⟨listing, hparts⟩ := projects hp
    refine ⟨hparts.propertyName, hparts.required.trans ?_⟩
    rw [hu.get_required hmarked.extended hg hv, flags, Bool.and_eq_true]

/-- The graph with a copy of a model that has no list of required properties. -/
def withoutRequired (g : Graph) (model : Value) : Graph × Value :=
  g.add (.object (((g.object? model).getD []).filter (·.1 ≠ "required")))

theorem withoutRequired_alike (hg : g.WellFormed) (hmodel : (g.object? model).isSome) :
    g.Extends (g.withoutRequired model).1 ∧ (g.withoutRequired model).1.WellFormed ∧
      AlikeBut (· = ·) (· = "required") (g.withoutRequired model).1 (g.withoutRequired model).1 model
        (g.withoutRequired model).2 ∧
      (g.withoutRequired model).1.get (g.withoutRequired model).2 "required" = .null := by
  obtain ⟨members, hmembers⟩ := Option.isSome_iff_exists.mp hmodel
  have hn := object?_iff.mp hmembers
  have hext := extends_add g (.object (members.filter (·.1 ≠ "required")))
  have hnew := object?_iff.mpr (node?_add_new g (.object (members.filter (·.1 ≠ "required"))))
  have hold := (hext.object? (has_of_node? hn)).trans hmembers
  have hlookup (key : String) : (members.filter (·.1 ≠ "required")).lookup key =
      if key ≠ "required" then members.lookup key else none := by
    simpa using lookup_filterKeys members (fun key => key ≠ "required") key
  have hcopy : g.withoutRequired model =
      ((g.add (.object (members.filter (·.1 ≠ "required")))).1, .node g.size) := by
    rw [withoutRequired, hmembers]
    rfl
  rw [hcopy]
  refine ⟨hext, hg.add_object ?_ fun m hm => ?_, ⟨?_, fun {key} hkey => ?_⟩, ?_⟩
  · exact (List.filter_sublist.map Prod.fst).nodup (hg.keys _ _ hn)
  · exact hg.has_of_mem_values hn (List.mem_map_of_mem (List.mem_of_mem_filter hm))
  · rw [hnew, hold, Option.isSome_some, Option.isSome_some]
  · rw [member?, member?, hnew, hold, Option.bind_some, Option.bind_some, hlookup, if_pos hkey]
    cases members.lookup key with
    | none => exact .none
    | some v => exact .some rfl
  · rw [get, member?, hnew, Option.bind_some, hlookup]
    rfl

end Graph

theorem Blueprint.exists_of_unflagged {x y : Except Fault (Option Blueprint)}
    (h : x.map (·.map unflagged) = y.map (·.map unflagged)) {d : Blueprint} (hd : x = .ok (some d)) :
    ∃ d', y = .ok (some d') ∧ d'.dependency = d.dependency := by
  rw [hd] at h
  obtain ⟨found, hfound, hsame⟩ := (map_ok_iff _ _ _).mp h.symm
  obtain ⟨d', rfl, hsame⟩ := Option.map_eq_some_iff.mp hsame
  have hdependency : d'.unflagged.dependency = d.unflagged.dependency :=
    congrArg Blueprint.dependency (Option.some.inj hsame)
  exact ⟨d', hfound, hdependency⟩

/-- Blueprints of two models that differ in nothing but that the second one lists no required properties, one
of which is accepted. They differ in the flags of their properties only just when no flag is seen by the
search. The flags are those of the properties that are listed, and the document is left as it is. -/
theorem blueprint_required_iff {g : Graph} (hg : g.WellFormed) {model bare : Value}
    (halike : Graph.AlikeBut (· = ·) (· = "required") g g model bare)
    (hbare : g.array? (g.get bare "required") = none)
    (hapart : g.FlagsApart (g.get model "properties") (g.get model "required"))
    {options : Options} {name : Tree}
    (haccepted : ∃ d, g.blueprint options name model = .ok (some d) ∨
      g.blueprint options name bare = .ok (some d)) :
    ((g.blueprint options name model).map (·.map Blueprint.unflagged) =
        (g.blueprint options name bare).map (·.map Blueprint.unflagged) ↔
      g.FlagsUnseen (g.get model "properties") (g.get model "required")) ∧
    ∀ d, g.blueprint options name model = .ok (some d) →
      (∀ identity s, g.survey model identity = .ok s → g.Extends s.graph) ∧
      List.Forall₂ (fun m p => p.propertyName = m.1 ∧ (p.required ↔
        g.flags (g.get model "required") m.1 m.2 ∨ g.get m.2 "required" = .scalar (.bool true)))
        ((g.object? (g.get model "properties")).getD []) d.properties := by
  have hbareAsIs : (g.blueprint options name bare).map (·.map Blueprint.unflagged) =
      (g.blueprintAsIs options name model).map (·.map Blueprint.unflagged) := by
    have hnone := Graph.flags_of_no_list hbare
    rw [← Graph.blueprintAsIs_eq halike]
    exact Graph.blueprint_asIs hg ⟨by simp [hnone], by simp [hnone], by simp [hnone]⟩
      fun m _ hflags => by simp [hnone] at hflags
  refine ⟨⟨fun hsame => ?_, fun hunseen => ?_⟩, fun d hd => Graph.blueprint_flags hg hd⟩
  · rw [hbareAsIs] at hsame
    obtain ⟨d, hd⟩ : ∃ d, g.blueprintAsIs options name model = .ok (some d) := by
      obtain ⟨d, hd | hd⟩ := haccepted
      · obtain ⟨d', hd', -⟩ := Blueprint.exists_of_unflagged hsame hd
        exact ⟨d', hd'⟩
      · obtain ⟨d', hd', -⟩ := Blueprint.exists_of_unflagged hbareAsIs hd
        exact ⟨d', hd'⟩
    obtain ⟨d', hd', hdependency⟩ := Blueprint.exists_of_unflagged hsame.symm hd
    exact Graph.flagsUnseen_of_blueprint hg hapart hd hd' hdependency
  · rw [hbareAsIs]
    exact Graph.blueprint_asIs hg hapart hunseen

/-- A named schema with an id. -/
def catSchema : Tree := .object [("x-model-name", .text "Cat"), ("properties", .object [("id", .object [])])]

/-- A model that requires an owner, whose properties lead back to themselves. -/
def ownedPet : Document := .ofTree (.object [
  ("properties", .object [
    ("id", .object []),
    ("owner", .object [
      ("type", .text "object"),
      ("properties", .object [("cat", catSchema), ("next", .back 1)])])]),
  ("required", .array [.text "owner"])])

theorem blueprint_required_iff_owner : ∃ d d',
    (ownedPet.graph.withoutRequired ownedPet.root).1.blueprint plainOptions (.text "Pet") ownedPet.root =
        .ok (some d) ∧
      (ownedPet.graph.withoutRequired ownedPet.root).1.blueprint plainOptions (.text "Pet")
        (ownedPet.graph.withoutRequired ownedPet.root).2 = .ok (some d') ∧
      d.unflagged = d'.unflagged ∧ d.properties.map (·.required) = [false, true] ∧
      d'.properties.map (·.required) = [false, false] := by
  have hg : ownedPet.WellFormed := wellFormed_ofTree (by decide)
  obtain ⟨-, hg', halike, hbare⟩ :=
    Graph.withoutRequired_alike hg.graph (show (ownedPet.graph.object? ownedPet.root).isSome from rfl)
  obtain ⟨d, hd, hflags⟩ := exists_ok_some
    (x := (ownedPet.graph.withoutRequired ownedPet.root).1.blueprint plainOptions (.text "Pet") ownedPet.root)
    (f := fun d => d.properties.map (·.required)) (c := [false, true]) (by decide +kernel)
  obtain ⟨d', hd', hflags'⟩ := exists_ok_some
    (x := (ownedPet.graph.withoutRequired ownedPet.root).1.blueprint plainOptions (.text "Pet")
      (ownedPet.graph.withoutRequired ownedPet.root).2)
    (f := fun d => d.properties.map (·.required)) (c := [false, false]) (by decide +kernel)
  refine ⟨d, d', hd, hd', ?_, hflags, hflags'⟩
  generalize hcopy : (ownedPet.graph.withoutRequired ownedPet.root).1 = g at hg' halike hbare hd hd'
  -- the owner leads to the properties of an owner and on to a cat, but not back to itself
  have howner : ¬ g.Reaches (.node 4) (.node 3) := fun h => by
    have hmem : .node 3 ∈ [Value.node 4, .node 5] :=
      Graph.mem_of_reaches (by subst hcopy; decide +kernel) List.mem_cons_self h
    exact absurd hmem (by decide)
  have hunseen : g.FlagsUnseen (g.get ownedPet.root "properties") (g.get ownedPet.root "required") := by
    have hsearched : g.searched (g.get ownedPet.root "properties") =
        [("id", .node 2), ("owner", .node 3)] := by subst hcopy; decide +kernel
    have hbelow : g.searched (.node 3) = [("properties", .node 4)] := by subst hcopy; decide +kernel
    have hid : g.flags (g.get ownedPet.root "required") "id" (.node 2) = false := by
      subst hcopy; decide +kernel
    rw [Graph.FlagsUnseen, hsearched]
    refine List.forall_mem_cons.mpr ⟨fun hflags => by simp [hid] at hflags, ?_⟩
    refine List.forall_mem_singleton.mpr fun _ id heq => ?_
    obtain rfl : 3 = id := Value.node.inj heq
    refine Graph.flagUnseen_of_not_reaches ?_
    rw [hbelow]
    exact List.forall_mem_singleton.mpr ⟨by decide, howner⟩
  have hapart : g.FlagsApart (g.get ownedPet.root "properties") (g.get ownedPet.root "required") := by
    subst hcopy
    exact ⟨by decide +kernel, fun _ => by decide +kernel, fun _ => by decide +kernel⟩
  have hsame := (blueprint_required_iff hg' halike (by rw [hbare]; rfl) hapart ⟨d, .inl hd⟩).1.mpr hunseen
  rw [hd, hd'] at hsame
  exact Option.some.inj (Except.ok.inj hsame)

/-- A model that requires a tree, which leads back to the properties that it is in. -/
def treePet : Document := .ofTree (.object [
  ("properties", .object [("id", .object []), ("tree", .object [("up", .back 2), ("owner", catSchema)])]),
  ("required", .array [.text "tree"])])

/-- The properties above the tree have the tree without its flag, which has not been met yet. -/
theorem tree_flag_seen : ∃ d d',
    (treePet.graph.withoutRequired treePet.root).1.blueprint plainOptions (.text "Pet") treePet.root =
        .ok (some d) ∧
      (treePet.graph.withoutRequired treePet.root).1.blueprint plainOptions (.text "Pet")
        (treePet.graph.withoutRequired treePet.root).2 = .ok (some d') ∧
      d.dependency.map (·.leaves) = some ["CatSchema", "CatSchema"] ∧
      d'.dependency.map (·.leaves) = some ["CatSchema"] := by
  obtain ⟨d, hd, hleaves⟩ := exists_ok_some
    (x := (treePet.graph.withoutRequired treePet.root).1.blueprint plainOptions (.text "Pet") treePet.root)
    (f := fun d => d.dependency.map (·.leaves)) (c := some ["CatSchema", "CatSchema"]) (by decide +kernel)
  obtain ⟨d', hd', hleaves'⟩ := exists_ok_some
    (x := (treePet.graph.withoutRequired treePet.root).1.blueprint plainOptions (.text "Pet")
      (treePet.graph.withoutRequired treePet.root).2)
    (f := fun d => d.dependency.map (·.leaves)) (c := some ["CatSchema"]) (by decide +kernel)
  exact ⟨d, d', hd, hd', hleaves, hleaves'⟩

end ApiRecords
