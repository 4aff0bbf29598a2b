import ApiRecords.Proofs.BoundNames
import Mathlib.Data.List.Induction

/-!
The schema objects that the relations and unions of a model mention, against those that its file has:
its own, one for each import, and one for each union. No two of them share a name.
-/

namespace ApiRecords

/-! ### The first of each name -/

theorem eraseDups_concat (xs : List String) (x : String) :
    (xs ++ [x]).eraseDups = if x ∈ xs then xs.eraseDups else xs.eraseDups ++ [x] := by
  rw [List.eraseDups_append]
  by_cases hx : x ∈ xs
  · simp [List.removeAll, hx]
  · simp [List.removeAll, hx, List.eraseDups_cons]

theorem nodup_eraseDups (xs : List String) : xs.eraseDups.Nodup := by
  induction xs using List.reverseRecOn with
  | nil => simp
  | append_singleton xs x ih =>
    rw [eraseDups_concat]
    split
    · exact ih
    · rename_i hx
      exact ih.append (List.nodup_singleton x) (by simpa [List.mem_eraseDups] using hx)

theorem eraseDups_of_nodup {xs : List String} (h : xs.Nodup) : xs.eraseDups = xs := by
  induction xs using List.reverseRecOn with
  | nil => rfl
  | append_singleton xs x ih =>
    obtain ⟨hxs, -, hnew⟩ := List.nodup_append.mp h
    have hx : x ∉ xs := fun hx => hnew x hx x (List.mem_singleton_self x) rfl
    rw [eraseDups_concat, if_neg hx, ih hxs]

theorem Scalar.same_texts (s t : String) : Scalar.same (.text s) (.text t) = decide (s = t) := by
  simp [Scalar.same, Scalar.eq, Scalar.whole?]

theorem distinctBy_texts (texts : List String) :
    distinctBy Scalar.same (texts.map .text) = texts.eraseDups.map .text := by
  induction texts using List.reverseRecOn with
  | nil => rfl
  | append_singleton texts s ih =>
    rw [List.map_append, distinctBy, List.foldl_append]
    show addDistinct _ (distinctBy Scalar.same (texts.map .text)) _ = _
    have hany : (texts.eraseDups.map Scalar.text).any (Scalar.same · (.text s)) =
        decide (s ∈ texts) := by
      rw [Bool.eq_iff_iff]
      simp [Scalar.same_texts, List.mem_eraseDups]
    rw [ih, addDistinct, eraseDups_concat, hany]
    by_cases hs : s ∈ texts <;> simp [hs]

/-! ### Imports of models named by texts -/

def importOf (name : String) : Import := ⟨.text name, entityName (.text name), fileName (.text name)⟩

/-- What a file of `own` imports of the models of these names: each once, in the order in which they
are first met, its own left out. -/
def importedOf (own : String) (names : List String) : List String :=
  (names.filter (· ≠ own)).eraseDups

theorem importedOf_concat (own : String) (names : List String) (name : String) :
    importedOf own (names ++ [name]) =
      if name = own ∨ name ∈ importedOf own names then importedOf own names
      else importedOf own names ++ [name] := by
  unfold importedOf
  by_cases hown : name = own
  · simp [hown]
  · have hlast : [name].filter (· ≠ own) = [name] := by simp [hown]
    rw [List.filter_append, hlast, eraseDups_concat]
    simp only [List.mem_eraseDups, hown, false_or]

theorem own_notMem_importedOf (own : String) (names : List String) : own ∉ importedOf own names := by
  simp [importedOf, List.mem_eraseDups]

theorem mem_importedOf {own name : String} {names : List String} (h : name ∈ names) :
    name = own ∨ name ∈ importedOf own names := by
  by_cases hown : name = own
  · exact .inl hown
  · exact .inr (List.mem_eraseDups.mpr (List.mem_filter.mpr ⟨h, by simpa using hown⟩))

variable {g : Graph} {own : String}

theorem addImport_text {m : Value} {name : String} (hname : g.modelName m = .text name)
    (names : List String) :
    addImport g (.text own) ((importedOf own names).map fun s => (.text s, importOf s)) m =
      .ok ((importedOf own (names ++ [name])).map fun s => (.text s, importOf s)) := by
  have heq : ∀ s t : String, (Tree.text s).eq (.text t) = decide (s = t) := by
    simp [Tree.eq, Scalar.eq, Scalar.whole?]
  have hsame : ∀ s t : String, Scalar.same (.text s) (.text t) = decide (s = t) := by
    simp [Scalar.same, Scalar.eq, Scalar.whole?]
  rw [addImport, hname, heq, importedOf_concat]
  by_cases hown : name = own
  · simp [hown, pure, Except.pure]
  · by_cases hmem : name ∈ importedOf own names
    · simp [hown, hmem, hsame, Tree.key?, bind, Except.bind, pure, Except.pure]
    · simp [hown, hmem, hsame, Tree.key?, bind, Except.bind, pure, Except.pure, importOf]

theorem foldlM_addImport {models : List Value} {names : List String}
    (hnames : models.map g.modelName = names.map .text) (before : List String) :
    models.foldlM (addImport g (.text own))
        ((importedOf own before).map fun s => (.text s, importOf s)) =
      .ok ((importedOf own (before ++ names)).map fun s => (.text s, importOf s)) := by
  induction models generalizing names before with
  | nil =>
    obtain rfl : names = [] := by simpa using hnames.symm
    simp [pure, Except.pure]
  | cons m models ih =>
    cases names with
    | nil => simp at hnames
    | cons name names =>
      obtain ⟨hname, hnames⟩ := List.cons.inj hnames
      rw [List.foldlM_cons, addImport_text hname]
      simpa using ih hnames (before ++ [name])

theorem importsOf_texts {models : List Value} {names : List String}
    (hnames : models.map g.modelName = names.map .text) :
    importsOf g (.text own) models = .ok ((importedOf own names).map importOf) := by
  have hfound : models.foldlM (addImport g (.text own)) [] =
      .ok ((importedOf own names).map fun s => (.text s, importOf s)) :=
    foldlM_addImport hnames []
  simp [importsOf, hfound, bind, Except.bind, pure, Except.pure]

/-! ### What a union selects -/

/-- Whether only schemas of `branches` are selected. -/
def SelectsFrom (branches : List Branch) (targets : List (Scalar × String)) : Prop :=
  ∀ t ∈ targets, ∃ b ∈ branches, t.2 = b.entityName

def Union.SelectsBranches (u : Union) : Prop := SelectsFrom u.branches u.mapping

theorem entryTarget_branch {branches : List Branch} {key target : String} {ref : Tree}
    (h : entryTarget branches key ref = .ok target) : ∃ b ∈ branches, target = b.entityName := by
  unfold entryTarget at h
  split at h
  · rename_i b hb
    have hmem : b ∈ branches.filter fun b => b.ref.eq ref := hb ▸ List.mem_singleton_self b
    exact ⟨b, List.mem_of_mem_filter hmem, (Except.ok.inj h).symm⟩
  · cases h

theorem SelectsFrom.putBranch {branches : List Branch} {b : Branch} {key : Scalar}
    {targets : List (Scalar × String)} (h : SelectsFrom branches targets) :
    SelectsFrom (branches ++ [b]) (putBy Scalar.same key b.entityName targets) := by
  intro t ht
  rcases mem_putBy ht with heq | ht
  · exact ⟨b, by simp, heq⟩
  · obtain ⟨b', hb', heq⟩ := h t ht
    exact ⟨b', List.mem_append_left _ hb', heq⟩

theorem unionMapping_select {mapping : Value} {branches : List Branch}
    {targets : List (Scalar × String)} (h : g.unionMapping mapping branches = .ok targets) :
    SelectsFrom branches targets := by
  unfold Graph.unionMapping at h
  split at h
  · split at h
    · cases h
    · -- each entry of an explicit mapping names one branch by its reference
      rw [mapM_ok_iff] at h
      intro t ht
      obtain ⟨entry, htarget⟩ := exists_of_forall₂ h.flip t ht
      simp only [bind_ok_iff, pure_ok_iff] at htarget
      obtain ⟨target, htarget, rfl⟩ := htarget
      exact entryTarget_branch htarget
  · have hstart : SelectsFrom [] [] := by simp [SelectsFrom]
    refine foldlM_ok_invariant (fun before targets b targets' hbefore hstep => ?_) hstart h
    simp only [bind_ok_iff, pure_ok_iff] at hstep
    obtain ⟨key, -, rfl⟩ := hstep
    exact hbefore.putBranch

theorem union_select {v : Value} {u : Union} (h : g.union v = .ok u) : u.SelectsBranches := by
  obtain ⟨_, _, -, -, -, hmapping⟩ := Graph.union_ok h
  exact unionMapping_select hmapping

theorem unionFindings_select {number : Nat} {v : Value} {found : Findings}
    (h : g.unionFindings number v = .ok found) : ∀ u ∈ found.unions, u.SelectsBranches := by
  simp only [Graph.unionFindings, bind_ok_iff, pure_ok_iff] at h
  obtain ⟨u, hu, rfl⟩ := h
  simpa [Union.SelectsBranches] using union_select hu

theorem findMembers_select {find : Nat → Value → Except Fault Findings}
    (hfind : ∀ offset v found, find offset v = .ok found → ∀ u ∈ found.unions, u.SelectsBranches)
    {offset : Nat} {members : List (String × Value)} {found : Findings.Members}
    (h : findMembers find offset members = .ok found) : ∀ u ∈ found.unions, u.SelectsBranches := by
  induction members generalizing offset found with
  | nil => cases h; simp
  | cons m rest ih =>
    simp only [findMembers, bind_ok_iff, pure_ok_iff] at h
    obtain ⟨first, hfirst, others, hothers, rfl⟩ := h
    exact List.forall_mem_append.mpr ⟨hfind offset m.2 first hfirst, ih hothers⟩

theorem findNode_select {inner : List Nat → Nat → Value → Except Fault Findings}
    (hinner : ∀ path offset v found, inner path offset v = .ok found →
      ∀ u ∈ found.unions, u.SelectsBranches)
    {path : List Nat} {offset : Nat} {v : Value} {found : Findings}
    (h : g.findNode inner path offset v = .ok found) : ∀ u ∈ found.unions, u.SelectsBranches := by
  cases findNode_finds h with
  | nothing => simp [Findings.none]
  | model => simp
  | union h => exact unionFindings_select h
  | object _ below => exact hinner _ _ _ _ below
  | array _ below => exact fun u hu => hinner _ _ _ _ below u hu
  | members _ below => exact findMembers_select (hinner _) below

theorem findFrom_select {depth : Nat} {path : List Nat} {offset : Nat} {v : Value}
    {found : Findings} (h : g.findFrom depth path offset v = .ok found) :
    ∀ u ∈ found.unions, u.SelectsBranches := by
  induction depth generalizing path offset v found with
  | zero =>
    refine findNode_select ?_ h
    rintro _ _ _ _ ⟨⟩
    simp [Findings.none]
  | succ depth ih => exact findNode_select (fun _ _ _ _ h => ih h) h

theorem survey_select {model : Value} {identity : Tree} {s : Survey}
    (h : g.survey model identity = .ok s) : ∀ u ∈ s.findings.unions, u.SelectsBranches := by
  obtain ⟨graph, properties, found, -, hfound, rfl⟩ := Graph.survey_ok h
  exact findFrom_select hfound

/-! ### The schema objects of a file -/

theorem entityName_text_injective : Function.Injective fun s : String => entityName (.text s) := by
  intro s t h
  have h := congrArg modelOfEntity h
  simpa only [modelOfEntity_entityName, Tree.display_text] using h

namespace Blueprint

/-- The schema objects of models that the file has: its own, and one for each import. -/
def entities (d : Blueprint) : List String := entityName d.name :: d.imports.map (·.entityName)

def unionKeys (d : Blueprint) : List String := d.unionEntries.map (·.key)

/-- The schema objects that the relations of the model mention. -/
def leaves (d : Blueprint) : List String := (d.dependency.map (·.leaves)).getD []

/-- Each schema object that the relations or unions of a model mention is one that its file has, and
no two that it has share a name. -/
structure EntitiesBound (d : Blueprint) : Prop where
  distinct : (d.entities ++ d.unionKeys).Nodup
  leaves : ∀ leaf ∈ d.leaves, leaf ∈ d.entities ++ d.unionKeys
  targets : ∀ u ∈ d.unions, ∀ t ∈ u.mapping, t.2 ∈ d.entities

end Blueprint

namespace Survey

variable {s : Survey} {options : Options} {d : Blueprint}

theorem Describes.unionKeys {name : Tree} (h : s.Describes options name d) :
    d.unionKeys = s.findings.unions.map fun u => u.key.getD "" :=
  map_eq_map_iff_forall₂.mpr (h.unionEntries.flip.imp fun _ _ he => he.1)

theorem unionKeys_eq {name : Tree}
    (hreading : Reading s.graph 0 s.findings.leaves s.findings.models s.findings.unions)
    (hd : s.blueprint options name = .ok d) :
    d.unionKeys = (List.range' 1 d.unions.length).map Union.keyOf := by
  have hmap := congrArg (List.map (Option.getD · "")) hreading.keys_eq
  simpa [(describes hd).unionKeys, (describes hd).unions, Function.comp_def] using hmap

theorem entities_eq {own : String} {names : List String}
    (hd : s.blueprint options (.text own) = .ok d)
    (hnames : s.findings.models.map s.graph.modelName = names.map .text) :
    d.entities = (own :: importedOf own names).map fun name => entityName (.text name) := by
  have himports := (describes hd).imports
  rw [importsOf_texts hnames] at himports
  rw [Blueprint.entities, (describes hd).name, ← Except.ok.inj himports, List.map_map, List.map_cons]
  rfl

theorem entitiesBound {own : String} {names : List String}
    (hreading : Reading s.graph 0 s.findings.leaves s.findings.models s.findings.unions)
    (hselect : ∀ u ∈ s.findings.unions, u.SelectsBranches)
    (hd : s.blueprint options (.text own) = .ok d)
    (hnames : s.findings.models.map s.graph.modelName = names.map .text) : d.EntitiesBound := by
  have hkeys := unionKeys_eq hreading hd
  have hentities := entities_eq hd hnames
  have hfound : ∀ m ∈ s.findings.models, entityName (s.graph.modelName m) ∈ d.entities := by
    intro m hm
    have hname : s.graph.modelName m ∈ names.map .text := hnames ▸ List.mem_map_of_mem hm
    obtain ⟨name, hname, heq⟩ := List.mem_map.mp hname
    rw [hentities, ← heq]
    exact List.mem_map_of_mem (List.mem_cons.mpr (mem_importedOf hname))
  refine ⟨?_, ?_, ?_⟩
  · rw [hentities, hkeys]
    refine List.Nodup.append ?_ (List.Nodup.map keyOf_injective List.nodup_range') ?_
    · exact (List.nodup_cons.mpr ⟨own_notMem_importedOf own names, nodup_eraseDups _⟩).map
        entityName_text_injective
    · intro name hentity hkey
      obtain ⟨_, -, rfl⟩ := List.mem_map.mp hentity
      obtain ⟨n, -, heq⟩ := List.mem_map.mp hkey
      exact entityName_ne_key _ n heq.symm
  · intro leaf hleaf
    rw [Blueprint.leaves, (describes hd).dependency] at hleaf
    rcases hreading.leaf_cases hleaf with ⟨m, hm, rfl⟩ | ⟨u, hu, hkey⟩
    · exact List.mem_append_left _ (hfound m hm)
    · refine List.mem_append_right _ ?_
      rw [(describes hd).unionKeys]
      exact List.mem_map.mpr ⟨u, hu, by rw [hkey, Option.getD_some]⟩
  · intro u hu t ht
    rw [(describes hd).unions] at hu
    obtain ⟨b, hb, htarget⟩ := hselect u hu t ht
    obtain ⟨hmodel, -, hentity⟩ := hreading.branch_found hu hb
    rw [htarget, hentity]
    exact hfound b.schema hmodel

end Survey

/-- The relations, the unions and the imports of a file fit together. It has the schema object of each
union under its key, in the order of the unions; it imports the models found below its properties, each
once, in the order in which they are first met, its own left out; and it has every schema object that
the relations and the unions mention. -/
theorem blueprint_entities_bound {options : Options} {own : String} {model : Value} {d : Blueprint}
    (h : g.blueprint options (.text own) model = .ok (some d)) :
    ∃ identity s, g.identity model = .ok (.found identity) ∧ g.survey model identity = .ok s ∧
      d.name = .text own ∧ d.dependency = s.findings.dependency ∧ d.unions = s.findings.unions ∧
      d.unionKeys.map some = d.unions.map (·.key) ∧
      ∀ names : List String, s.findings.models.map s.graph.modelName = names.map .text →
        d.imports = (importedOf own names).map importOf ∧ d.EntitiesBound := by
  obtain ⟨identity, s, hidentity, hs, hd⟩ := Graph.survey_of_blueprint h
  have hreading := Graph.survey_reading hs
  obtain ⟨hname, -, -, hdependency, hunions, -, -, -, -, himports⟩ := Survey.describes hd
  refine ⟨identity, s, hidentity, hs, hname, hdependency, hunions, ?_, ?_⟩
  · rw [Survey.unionKeys_eq hreading hd, hunions, hreading.keys_eq]
  · intro names hnames
    rw [importsOf_texts hnames] at himports
    exact ⟨(Except.ok.inj himports).symm,
      Survey.entitiesBound hreading (survey_select hs) hd hnames⟩

/-- A pet that refers to itself and to a kind, and to a model both by itself and as a branch. -/
def petOfKinds : Document := .ofTree (.object [
  ("x-model-name", .text "Pet"),
  ("properties", .object [
    ("id", .object []),
    ("parent", .back 2),
    ("friend", .object [
      ("x-model-name", .text "Cat"), ("properties", .object [("id", .object [])])]),
    ("tags", .object [
      ("type", .text "array"),
      ("items", .object [
        ("x-model-name", .text "Tag"), ("properties", .object [("id", .object [])])])]),
    ("kinds", .object [
      ("type", .text "array"),
      ("items", .object [
        ("oneOf", .array [
          .object [("x-model-name", .text "Cat"), ("properties", .object [("id", .object [])])],
          .object [("x-model-name", .text "Dog"), ("properties", .object [("id", .object [])])]]),
        ("discriminator", .object [("propertyName", .text "kind")])])])])])

theorem blueprint_entities_bound_pet : ∃ d,
    petOfKinds.graph.blueprint plainOptions (.text "Pet") petOfKinds.root = .ok (some d) ∧
      d.leaves = ["PetSchema", "CatSchema", "TagSchema", "oneOfSchema1"] ∧
      d.imports = ["Cat", "Tag", "Dog"].map importOf ∧ d.unionKeys = ["oneOfSchema1"] ∧
      d.EntitiesBound := by
  obtain ⟨d, hd⟩ : ∃ d, petOfKinds.graph.blueprint plainOptions (.text "Pet") petOfKinds.root =
      .ok (some d) := ⟨_, rfl⟩
  obtain ⟨identity, s, hidentity, hs, hname, hdependency, hunions, hkeys, himports⟩ :=
    blueprint_entities_bound hd
  obtain rfl : .text "id" = identity := Identity.found.inj (Except.ok.inj hidentity)
  obtain rfl := Except.ok.inj hs
  obtain ⟨himports, hbound⟩ := himports ["Pet", "Cat", "Tag", "Cat", "Dog"] rfl
  refine ⟨d, hd, ?_, himports, ?_, hbound⟩
  · rw [Blueprint.leaves, hdependency]
    rfl
  · rw [hunions] at hkeys
    exact List.map_injective_iff.mpr (fun _ _ => Option.some.inj) hkeys

end ApiRecords
