import ApiRecords.Proofs.Entities
import ApiRecords.Proofs.Unions

/-!
Which unions can be resolved, and to what mappings. Every alternative has to be a branch, and every entry
of a mapping has to refer to one of them. In which order the alternatives come does not matter.
-/

namespace ApiRecords

theorem entryTarget_ok_iff {branches : List Branch} {key : String} {ref : Tree} {target : String} :
    entryTarget branches key ref = .ok target ↔
      ∃ b, branches.filter (fun b => b.ref.eq ref) = [b] ∧ target = b.entityName := by
  unfold entryTarget
  split
  · rename_i b hb
    simp [hb, eq_comm]
  · rename_i hne
    simp only [reduceCtorEq, false_iff, not_exists, not_and]
    exact fun b hb => absurd hb (hne b)

/-! ### Mappings of texts -/

theorem putBy_of_texts {α : Type} (f : String → α) (texts : List String) (s : String) :
    putBy Scalar.same (.text s) (f s) (texts.map fun t => (.text t, f t)) =
      (if s ∈ texts then texts else texts ++ [s]).map fun t => (.text t, f t) := by
  rw [putBy_of_kept (by simp +contextual [Scalar.same_texts])]
  by_cases hmem : s ∈ texts <;> simp [Scalar.same_texts, hmem]

namespace Graph

variable {g : Graph} {v w : Value} {items : List Value} {branches : List Branch} {property : Tree}

/-- Without entries, each branch has its own name for a key. -/
theorem unionMapping_of_names {mapping : Value} {names : List String}
    (hnot : ¬ g.truthy mapping) (hnames : branches.map (·.name) = names.map .text)
    (hentities : ∀ b ∈ branches, b.entityName = entityName b.name) :
    g.unionMapping mapping branches =
      .ok (names.eraseDups.map fun s => (.text s, entityName (.text s))) := by
  rw [unionMapping, if_neg hnot]
  induction names using List.reverseRecOn generalizing branches with
  | nil =>
    obtain rfl : branches = [] := by simpa using hnames
    rfl
  | append_singleton names s ih =>
    rw [List.map_append] at hnames
    obtain ⟨before, last, rfl, hbefore, hlast⟩ := List.map_eq_append_iff.mp hnames
    obtain ⟨b, rfl, hb⟩ : ∃ b, last = [b] ∧ b.name = .text s := by
      simpa [List.map_eq_cons_iff] using hlast
    have hentity := hentities b (by simp)
    rw [List.foldlM_append, ih hbefore fun b hb => hentities b (by simp [hb]), eraseDups_concat]
    simp only [bind, Except.bind, List.foldlM_cons, List.foldlM_nil, hb, hentity, Tree.key?]
    rw [putBy_of_texts (fun s => entityName (.text s))]
    simp only [List.mem_eraseDups]
    rfl

/-- With entries, each keeps its key and selects the one branch that it refers to. -/
theorem unionMapping_entries_iff {mapping : Value} {entries : List (String × Value)}
    {targets : List (Scalar × String)} (htruthy : g.truthy mapping)
    (hentries : g.object? mapping = some entries) :
    g.unionMapping mapping branches = .ok targets ↔
      List.Forall₂ (fun e m => m.1 = .text e.1 ∧
        ∃ b, branches.filter (fun b => b.ref.eq (g.tree e.2)) = [b] ∧ m.2 = b.entityName)
        entries targets := by
  rw [unionMapping, if_pos htruthy, hentries, mapM_ok_iff]
  refine iff_of_eq (congrArg (fun R => List.Forall₂ R entries targets) ?_)
  funext e m
  simp only [bind_ok_iff, pure_ok_iff, entryTarget_ok_iff, eq_iff_iff]
  constructor
  · rintro ⟨_, ⟨b, hb, rfl⟩, rfl⟩
    exact ⟨rfl, b, hb, rfl⟩
  · rintro ⟨hkey, b, hb, htarget⟩
    exact ⟨_, ⟨b, hb, rfl⟩, Prod.ext hkey htarget⟩

/-! ### Branches -/

/-- The reference by which the entries of a mapping find a schema. -/
def ownReference (g : Graph) (w : Value) : Tree := (g.reference w).toOption.getD .null

def refersTo (g : Graph) (ref : Tree) (w : Value) : Bool := (g.ownReference w).eq ref

/-- Whether a schema can be a branch: it is named for a model, and its records are identified. -/
def IsBranch (g : Graph) (w : Value) : Prop :=
  (g.modelName w).truthy ∧ ∃ name, g.identity w = .ok (.found name)

def branchOf (g : Graph) (w : Value) : Branch :=
  ⟨g.modelName w, entityName (g.modelName w), g.ownReference w, w⟩

theorem reference_of_identity {identity : Identity} (h : g.identity w = .ok identity) :
    g.reference w = .ok (g.ownReference w) := by
  cases hobject : g.object? w with
  | none =>
    rw [Graph.identity, hobject] at h
    cases h
  | some members => simp [ownReference, reference, hobject, Except.toOption]

theorem branch_ok_iff {index : Nat} {b : Branch} :
    g.branch property index w = .ok b ↔ g.IsBranch w ∧ b = g.branchOf w := by
  constructor
  · intro h
    simp only [branch] at h
    split at h
    · simp at h
    · rename_i hname
      simp only [bind_ok_iff] at h
      obtain ⟨identity, hidentity, h⟩ := h
      split at h
      · simp at h
      · rename_i hfound
        simp only [reference_of_identity hidentity, bind_ok_iff, pure_ok_iff, Except.ok.injEq] at h
        obtain ⟨_, rfl, rfl⟩ := h
        cases identity with
        | found name => exact ⟨⟨by simpa using hname, name, hidentity⟩, rfl⟩
        | noProperties | absent => simp [Identity.isFound] at hfound
  · rintro ⟨⟨hname, name, hidentity⟩, rfl⟩
    simp only [branch, hname, hidentity, reference_of_identity hidentity, bind, Except.bind]
    rfl

theorem branches_ok_iff {index : Nat} :
    g.branches property index items = .ok branches ↔
      (∀ w ∈ items, g.IsBranch w) ∧ branches = items.map g.branchOf := by
  induction items generalizing index branches with
  | nil => simp [Graph.branches, eq_comm]
  | cons w items ih =>
    simp only [Graph.branches, bind_ok_iff, pure_ok_iff, branch_ok_iff, ih, List.forall_mem_cons,
      List.map_cons]
    constructor
    · rintro ⟨_, ⟨hw, rfl⟩, _, ⟨hitems, rfl⟩, rfl⟩
      exact ⟨⟨hw, hitems⟩, rfl⟩
    · rintro ⟨⟨hw, hitems⟩, rfl⟩
      exact ⟨_, ⟨hw, rfl⟩, _, ⟨hitems, rfl⟩, rfl⟩

theorem filter_branchOf (ref : Tree) (items : List Value) :
    (items.map g.branchOf).filter (fun b => b.ref.eq ref) =
      (items.filter (g.refersTo ref)).map g.branchOf := by
  rw [List.filter_map]
  rfl

/-- What an entry of a mapping becomes: the schema object of the one alternative that it refers to, under
the key of the entry. -/
def Selects (g : Graph) (items : List Value) (entry : String × Value) (target : Scalar × String) : Prop :=
  target.1 = .text entry.1 ∧
    ∃ w, items.filter (g.refersTo (g.tree entry.2)) = [w] ∧ target.2 = entityName (g.modelName w)

theorem unionMapping_selects_iff {mapping : Value} {entries : List (String × Value)}
    {targets : List (Scalar × String)} (htruthy : g.truthy mapping)
    (hentries : g.object? mapping = some entries) :
    g.unionMapping mapping (items.map g.branchOf) = .ok targets ↔
      List.Forall₂ (g.Selects items) entries targets := by
  rw [unionMapping_entries_iff htruthy hentries]
  refine iff_of_eq (congrArg (fun R => List.Forall₂ R entries targets) ?_)
  funext e m
  simp only [filter_branchOf, List.map_eq_singleton_iff, Selects, eq_iff_iff]
  refine and_congr_right fun _ => ⟨?_, ?_⟩
  · rintro ⟨_, ⟨w, hw, rfl⟩, htarget⟩
    exact ⟨w, hw, htarget⟩
  · rintro ⟨w, hw, htarget⟩
    exact ⟨_, ⟨w, hw, rfl⟩, htarget⟩

theorem Selects.perm {items' : List Value} {e : String × Value} {m m' : Scalar × String}
    (h : g.Selects items e m) (h' : g.Selects items' e m') (hperm : items'.Perm items) : m' = m := by
  obtain ⟨hkey, w, hw, htarget⟩ := h
  obtain ⟨hkey', w', hw', htarget'⟩ := h'
  have hone : [w'] = [w] := by
    rw [← hw']
    exact List.perm_singleton.mp (hw ▸ hperm.filter _)
  obtain rfl := (List.cons.inj hone).1
  exact Prod.ext (hkey'.trans hkey.symm) (htarget'.trans htarget.symm)

theorem names_branchOf {names : List String} (hnames : items.map g.modelName = names.map .text) :
    (items.map g.branchOf).map (·.name) = names.map .text := by
  rw [List.map_map]
  exact hnames

/-! ### Unions -/

/-- A schema with alternatives and something to tell them apart by. What its alternatives say of their
names and identities are texts, and its mapping has entries, where it has one. -/
structure DeclaresUnion (g : Graph) (v : Value) (items : List Value) : Prop where
  alternatives : g.array? (g.get v "oneOf") = some items
  discriminated : g.truthy (g.get v "discriminator")
  names : ∀ w ∈ items, (g.modelName w).truthy → (g.modelName w).text?.isSome
  identities : ∀ w ∈ items, g.truthy (g.get w identityKey) →
    (g.tree (g.get w identityKey)).text?.isSome
  mapping : g.truthy (g.get (g.get v "discriminator") "mapping") →
    (g.object? (g.get (g.get v "discriminator") "mapping")).isSome

/-- Alternatives that are branches, told apart by a property whose mapping, if it has entries, refers to
one of them by each. -/
structure Resolvable (g : Graph) (discriminator : Value) (items : List Value) : Prop where
  isObject : (g.object? discriminator).isSome
  branches : ∀ w ∈ items, g.IsBranch w
  entries : ∀ entries, g.truthy (g.get discriminator "mapping") →
    g.object? (g.get discriminator "mapping") = some entries →
      ∀ e ∈ entries, ∃ w, items.filter (g.refersTo (g.tree e.2)) = [w]

theorem Resolvable.perm {discriminator : Value} {items' : List Value}
    (h : g.Resolvable discriminator items) (hperm : items'.Perm items) :
    g.Resolvable discriminator items' where
  isObject := h.isObject
  branches w hw := h.branches w (hperm.mem_iff.mp hw)
  entries entries htruthy hentries e he := by
    obtain ⟨w, hw⟩ := h.entries entries htruthy hentries e he
    exact ⟨w, List.perm_singleton.mp (hw ▸ hperm.filter _)⟩

namespace DeclaresUnion

variable (h : g.DeclaresUnion v items)

include h

theorem perm {v' : Value} {items' : List Value} (hitems : g.array? (g.get v' "oneOf") = some items')
    (hperm : items'.Perm items) (hsame : g.get v' "discriminator" = g.get v "discriminator") :
    g.DeclaresUnion v' items' where
  alternatives := hitems
  discriminated := hsame ▸ h.discriminated
  names w hw := h.names w (hperm.mem_iff.mp hw)
  identities w hw := h.identities w (hperm.mem_iff.mp hw)
  mapping := hsame ▸ h.mapping

theorem required {key : String} (hne : g.get v key ≠ .null) :
    g.require v key = .ok (g.get v key) := by
  cases hobject : g.object? v with
  | none =>
    have hitems := h.alternatives
    rw [get_of_not_object hobject] at hitems
    cases hitems
  | some members => exact require_ok hobject hne

theorem union_eq :
    g.union v =
      match g.object? (g.get v "discriminator") with
      | none => .error (.union (.discriminatorNotMapping (g.tree (g.get v "discriminator"))))
      | some _ => do
        let name := ((g.member? (g.get v "discriminator") "propertyName").map g.tree).getD (.text "")
        let branches ← g.branches name 0 items
        let mapping ← g.unionMapping (g.get (g.get v "discriminator") "mapping") branches
        return { key := none, propertyName := name, mapping, branches } := by
  have hdiscriminator : g.get v "discriminator" ≠ .null := by
    intro hnull
    have htruthy := h.discriminated
    rw [hnull] at htruthy
    cases htruthy
  have honeOf : g.get v "oneOf" ≠ .null := by
    intro hnull
    have hitems := h.alternatives
    rw [hnull] at hitems
    cases hitems
  simp only [Graph.union, h.required hdiscriminator, h.required honeOf, bind, Except.bind,
    elements_of_array? h.alternatives]
  cases g.object? (g.get v "discriminator") with
  | none => rfl
  | some members => rfl

theorem exists_names (hbranches : ∀ w ∈ items, g.IsBranch w) :
    ∃ names : List String, items.map g.modelName = names.map .text := by
  refine ⟨items.map fun w => (g.modelName w).text?.getD "", ?_⟩
  rw [List.map_map]
  refine List.map_congr_left fun w hw => ?_
  obtain ⟨s, hs⟩ := Option.isSome_iff_exists.mp (h.names w hw (hbranches w hw).1)
  rw [Function.comp_apply, hs]
  exact tree_eq_text hs

theorem resolvable {u : Union} (hu : g.union v = .ok u) :
    g.Resolvable (g.get v "discriminator") items ∧ u.branches = items.map g.branchOf := by
  obtain ⟨members, vs, hobject, hvs, hbranches, hmapping⟩ := union_ok hu
  obtain rfl : items = vs := Except.ok.inj ((elements_of_array? h.alternatives).symm.trans hvs)
  obtain ⟨hall, hbranches⟩ := branches_ok_iff.mp hbranches
  rw [hbranches] at hmapping
  refine ⟨⟨by simp [hobject], hall, fun entries htruthy hentries e he => ?_⟩, hbranches⟩
  have htargets := (unionMapping_selects_iff htruthy hentries).mp hmapping
  obtain ⟨m, -, w, hw, -⟩ := exists_of_forall₂ htargets e he
  exact ⟨w, hw⟩

theorem resolves (hres : g.Resolvable (g.get v "discriminator") items) : ∃ u, g.union v = .ok u := by
  obtain ⟨members, hobject⟩ := Option.isSome_iff_exists.mp hres.isObject
  have hmapping : ∃ targets, g.unionMapping (g.get (g.get v "discriminator") "mapping")
      (items.map g.branchOf) = .ok targets := by
    by_cases htruthy : g.truthy (g.get (g.get v "discriminator") "mapping")
    · obtain ⟨entries, hentries⟩ := Option.isSome_iff_exists.mp (h.mapping htruthy)
      let target (e : String × Value) := ((items.filter (g.refersTo (g.tree e.2))).head?).getD .null
      refine ⟨entries.map fun e => (.text e.1, entityName (g.modelName (target e))), ?_⟩
      rw [unionMapping_selects_iff htruthy hentries, List.forall₂_map_right_iff, List.forall₂_same]
      intro e he
      obtain ⟨w, hw⟩ := hres.entries entries htruthy hentries e he
      have htarget : target e = w := by simp only [target, hw, List.head?_cons, Option.getD_some]
      exact ⟨rfl, w, hw, by rw [htarget]⟩
    · obtain ⟨names, hnames⟩ := h.exists_names hres.branches
      refine ⟨_, unionMapping_of_names htruthy (names_branchOf hnames) fun b hb => ?_⟩
      obtain ⟨w, -, rfl⟩ := List.mem_map.mp hb
      rfl
  obtain ⟨targets, htargets⟩ := hmapping
  rw [h.union_eq]
  simp only [hobject, branches_ok_iff.mpr ⟨hres.branches, rfl⟩, bind, Except.bind, htargets]
  exact ⟨_, rfl⟩

theorem union_fault {e : Fault} (he : g.union v = .error e) : ∃ fault, e = .union fault := by
  rw [h.union_eq] at he
  cases hobject : g.object? (g.get v "discriminator") with
  | none =>
    rw [hobject] at he
    exact ⟨_, (Except.error.inj he).symm⟩
  | some members =>
    simp only [hobject, bind_error_iff, pure_ne_error, and_false, exists_false, or_false] at he
    rcases he with hbranches | ⟨bs, hbs, hmapping⟩
    · exact branches_error h.identities hbranches
    · obtain ⟨hbranches, rfl⟩ := branches_ok_iff.mp hbs
      refine (unionMapping_error h.mapping hmapping).resolve_right ?_
      rintro ⟨-, -, b, hb, hkey⟩
      obtain ⟨w, hw, rfl⟩ := List.mem_map.mp hb
      obtain ⟨s, hs⟩ := Option.isSome_iff_exists.mp (h.names w hw (hbranches w hw).1)
      have hname : (g.branchOf w).name = .text s := tree_eq_text hs
      rw [hname] at hkey
      cases hkey

end DeclaresUnion

/-- A union is resolved just when its alternatives are branches and each entry of its mapping refers to
one of them; what is against it is always told as a fault of the union. The mapping has the keys of the
entries, or else the names of the branches, and with entries it does not depend on the order of the
alternatives. -/
theorem union_resolves (h : g.DeclaresUnion v items) :
    ((∃ u, g.union v = .ok u) ↔ g.Resolvable (g.get v "discriminator") items) ∧
    (∀ e, g.union v = .error e → ∃ fault, e = .union fault) ∧
    (∀ u, g.union v = .ok u →
      (∀ entries, g.truthy (g.get (g.get v "discriminator") "mapping") →
        g.object? (g.get (g.get v "discriminator") "mapping") = some entries →
          List.Forall₂ (g.Selects items) entries u.mapping) ∧
      (¬ g.truthy (g.get (g.get v "discriminator") "mapping") →
        ∃ names : List String, items.map g.modelName = names.map .text ∧
          u.mapping = names.eraseDups.map fun s => (.text s, entityName (.text s)))) ∧
    ∀ v' items', g.array? (g.get v' "oneOf") = some items' → items'.Perm items →
      g.get v' "discriminator" = g.get v "discriminator" →
      ((∃ u', g.union v' = .ok u') ↔ ∃ u, g.union v = .ok u) ∧
        (g.truthy (g.get (g.get v "discriminator") "mapping") →
          ∀ u u', g.union v = .ok u → g.union v' = .ok u' → u'.mapping = u.mapping) := by
  have hiff : ∀ {v items}, g.DeclaresUnion v items →
      ((∃ u, g.union v = .ok u) ↔ g.Resolvable (g.get v "discriminator") items) := fun h =>
    ⟨fun ⟨_, hu⟩ => (h.resolvable hu).1, h.resolves⟩
  have hmapping : ∀ {v items}, g.DeclaresUnion v items → ∀ {u entries}, g.union v = .ok u →
      g.truthy (g.get (g.get v "discriminator") "mapping") →
      g.object? (g.get (g.get v "discriminator") "mapping") = some entries →
      List.Forall₂ (g.Selects items) entries u.mapping := fun h _ _ hu htruthy hentries => by
    obtain ⟨_, _, -, -, -, hmapping⟩ := union_ok hu
    rw [(h.resolvable hu).2] at hmapping
    exact (unionMapping_selects_iff htruthy hentries).mp hmapping
  refine ⟨hiff h, fun e he => h.union_fault he, fun u hu => ⟨fun entries => hmapping h hu, ?_⟩, ?_⟩
  · intro hnot
    obtain ⟨hres, hbranches⟩ := h.resolvable hu
    obtain ⟨names, hnames⟩ := h.exists_names hres.branches
    refine ⟨names, hnames, ?_⟩
    have hnamed := unionMapping_of_names hnot (names_branchOf hnames) fun b hb => by
      obtain ⟨w, -, rfl⟩ := List.mem_map.mp hb
      rfl
    obtain ⟨_, _, -, -, -, htargets⟩ := union_ok hu
    rw [hbranches, hnamed] at htargets
    exact (Except.ok.inj htargets).symm
  · intro v' items' hitems hperm hsame
    have h' := h.perm hitems hperm hsame
    refine ⟨?_, fun htruthy u u' hu hu' => ?_⟩
    · rw [hiff h, hiff h', hsame]
      exact ⟨fun hres => hres.perm hperm.symm, fun hres => hres.perm hperm⟩
    · obtain ⟨entries, hentries⟩ := Option.isSome_iff_exists.mp (h.mapping htruthy)
      have hto := hmapping h hu htruthy hentries
      have hto' := hmapping h' hu' (hsame ▸ htruthy) (hsame ▸ hentries)
      refine List.forall₂_eq_eq_eq ▸ (forall₂_comp hto'.flip hto).imp ?_
      rintro m' m ⟨e, hselects', hselects⟩
      exact hselects.perm hselects' hperm

end Graph

/-- A cat and a dog, told apart by a mapping with these entries. -/
def petsBy (entries : List (String × Tree)) : Document := .ofTree (.object [
  ("oneOf", .array [
    .object [
      ("x-model-name", .text "Cat"), ("x-original-ref", .text "#/components/schemas/Cat"),
      ("properties", .object [("id", .object [])])],
    .object [
      ("x-model-name", .text "Dog"), ("x-original-ref", .text "#/components/schemas/Dog"),
      ("properties", .object [("id", .object [])])]]),
  ("discriminator", .object [("propertyName", .text "kind"), ("mapping", .object entries)])])

def petsOnce : Document := petsBy [
  ("woof", .text "#/components/schemas/Dog"), ("meow", .text "#/components/schemas/Cat")]

theorem union_resolves_pets : ∃ items u,
    petsOnce.graph.DeclaresUnion petsOnce.root items ∧ petsOnce.graph.union petsOnce.root = .ok u ∧
      petsOnce.graph.Resolvable (petsOnce.graph.get petsOnce.root "discriminator") items ∧
      u.mapping = [(.text "woof", "DogSchema"), (.text "meow", "CatSchema")] := by
  have h : petsOnce.graph.DeclaresUnion petsOnce.root [.node 2, .node 5] :=
    ⟨by decide, by decide, by decide, by decide, by decide⟩
  obtain ⟨hiff, -, -, -⟩ := Graph.union_resolves h
  refine ⟨_, _, h, rfl, hiff.mp ⟨_, rfl⟩, ?_⟩
  rfl

end ApiRecords
