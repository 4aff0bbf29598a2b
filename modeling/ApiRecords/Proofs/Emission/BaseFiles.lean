import ApiRecords.Proofs.Emission.Imports

/-!
The base files that a run leaves, against the texts that were made for them. Two models whose names give
one file name share a base file, which holds what was made for the later of them.
-/

namespace ApiRecords.Emitter

open ApiRecords.Action FileSystem

/-- The texts that a run makes for base files, each under the name of its model. `r` is the run as it
stands when the first of the models has its turn. -/
inductive Renders (emitter : Emitter) (g : Graph) :
    List (Scalar × Value) → Run → Scalar → String → Prop
  | now {name model models r d text} :
      g.blueprint emitter.options (.scalar name) model = .ok (some d) →
      (emitter.baseText d).result r = .ok text →
      Renders emitter g ((name, model) :: models) r name text
  | later {m models r name text} :
      Renders emitter g models ((emitter.emitModel g (.scalar m.1) m.2).after r) name text →
      Renders emitter g (m :: models) r name text

variable {emitter : Emitter} {g : Graph} {name : Scalar} {model : Value} {r : Run} {current : Path}
  {stem text : String} {models : List (Scalar × Value)}

theorem Renders.identified (h : Renders emitter g models r name text) :
    ∃ model, (name, model) ∈ models ∧ g.IsIdentified model := by
  induction h with
  | @now _ model _ _ _ _ hd _ =>
    exact ⟨model, List.mem_cons_self, (Graph.blueprint_isIdentified hd).mp rfl⟩
  | later _ ih =>
    obtain ⟨model, hmodel, hid⟩ := ih
    exact ⟨model, List.mem_cons_of_mem _ hmodel, hid⟩

theorem Renders.fileName_mem (h : Renders emitter g models r name text) :
    fileName (.scalar name) ∈ models.map fun m => fileName (.scalar m.1) := by
  obtain ⟨model, hmodel, -⟩ := h.identified
  exact List.mem_map.mpr ⟨_, hmodel, rfl⟩

/-- Where no two names give one file name, one text is made for each base file. -/
theorem Renders.text_eq {name' : Scalar} {text' : String}
    (hfiles : (models.map fun m => fileName (.scalar m.1)).Nodup)
    (h : Renders emitter g models r name text) (h' : Renders emitter g models r name' text')
    (hfile : fileName (.scalar name) = fileName (.scalar name')) : text = text' := by
  induction h with
  | now hd htext =>
    cases h' with
    | now hd' htext' =>
      cases hd.symm.trans hd'
      exact Except.ok.inj (htext.symm.trans htext')
    | later h' =>
      have hmem := h'.fileName_mem
      rw [← hfile] at hmem
      exact absurd hmem (List.nodup_cons.mp hfiles).1
  | later h ih =>
    obtain ⟨hfirst, hfiles⟩ := List.nodup_cons.mp hfiles
    cases h' with
    | now _ _ =>
      have hmem := h.fileName_mem
      rw [hfile] at hmem
      exact absurd hmem hfirst
    | later h' => exact ih hfiles h' hfile

/-! ### One model -/

/-- A model whose records are not identified has no files. -/
theorem keeps_emitModel_of_not_identified {I : FileSystem → Prop} {name : Tree}
    (h : ¬ g.IsIdentified model) : Keeps I (emitter.emitModel g name model) := by
  refine (keeps_notifyAll _).bind fun _ _ _ => (keeps_lift _).bind fun _ d? hd => ?_
  cases d? with
  | none => exact keeps_pure _
  | some d => exact absurd ((Graph.blueprint_isIdentified hd).mp rfl) h

theorem current_emitBase {name : Tree} {d : Blueprint}
    (hd : g.blueprint emitter.options name model = .ok (some d)) (r : Run) :
    ((emitter.emitBase g name model d).after r).files.current = r.files.current :=
  keeps_emitBase (I := fun fs => fs.current = r.files.current) hd
    (fun fs q h => (fs.makeFolders_keeps q fun _ => False).current.trans h)
    (fun fs s h => (fs.putFile_keeps _ s).current.trans h) r rfl

/-- Where the writing of a model does not fail, a text was made for its base file, and is there once
its turn is over. -/
theorem emitModel_base {name : Tree} {d : Blueprint} {written : Option Tree}
    (hd : g.blueprint emitter.options name model = .ok (some d))
    (h : (emitter.emitModel g name model).result r = .ok written) :
    ∃ text, (emitter.baseText d).result r = .ok text ∧
      (Path.placeFrom r.files.current (emitter.overridePath (fileName name)) ≠
          Path.placeFrom r.files.current (emitter.basePath (fileName name)) →
        Stands r.files.current (emitter.basePath (fileName name)) text
          ((emitter.emitModel g name model).after r).files) := by
  obtain ⟨d', hd', -, hbase, -, hafter⟩ | ⟨hnone, -⟩ := emitModel_steps h
  · obtain rfl : d' = d := Option.some.inj (Except.ok.inj (hd'.symm.trans hd))
    obtain ⟨text, htext, hread⟩ := emitBase_ok hbase
    rw [blueprint_fileName hd] at hread
    refine ⟨text, htext, fun hplaces => ?_⟩
    rw [hafter]
    exact keeps_emitOverride hd (fun _ q h => h.makeFolders q)
      (.inr fun _ s h => h.putFile hplaces s) _ ⟨current_emitBase hd r, hread⟩
  · cases hnone.symm.trans hd

/-! ### One model after another -/

theorem overridePath_ne_basePath {stem stem' : String}
    (hfolders : Path.placeFrom current emitter.outputFolder ≠
      Path.placeFrom current emitter.baseFolder)
    (h : emitter.Names stem) (h' : emitter.Names stem') :
    Path.placeFrom current (emitter.overridePath stem') ≠
      Path.placeFrom current (emitter.basePath stem) := by
  rw [placeFrom_overridePath h', placeFrom_basePath h]
  exact fun heq => hfolders (List.append_inj' heq rfl).1

theorem current_emitModel (g : Graph) (name : Tree) (model : Value) (r : Run) :
    ((emitter.emitModel g name model).after r).files.current = r.files.current :=
  keeps_emitModel (I := fun fs => fs.current = r.files.current)
    (fun fs q h => (fs.makeFolders_keeps q fun _ => False).current.trans h)
    (fun fs s h => (fs.putFile_keeps _ s).current.trans h)
    (.inr fun fs s h => (fs.putFile_keeps _ s).current.trans h) r rfl

section

variable {names : List Tree}
  (hfolders : Path.placeFrom current emitter.outputFolder ≠
    Path.placeFrom current emitter.baseFolder)

include hfolders

/-- Models of other file names leave a base file as it is. -/
theorem keeps_emitModels_base (hstem : emitter.Names stem)
    (hnames : ∀ m ∈ models, emitter.Names (fileName (.scalar m.1)))
    (hother : ∀ m ∈ models, g.IsIdentified m.2 → fileName (.scalar m.1) ≠ stem) :
    Keeps (Stands current (emitter.basePath stem) text) (emitter.emitModels g models) := by
  apply keeps_emitModels
  intro m hm
  by_cases hid : g.IsIdentified m.2
  · refine keeps_emitModel (fun _ q h => h.makeFolders q) (fun _ s h => h.putFile ?_ s)
      (.inr fun _ s h => h.putFile ?_ s)
    · exact fun heq => hother m hm hid (stem_eq_of_pathOf (hnames m hm) hstem heq)
    · exact overridePath_ne_basePath hfolders hstem (hnames m hm)
  · exact keeps_emitModel_of_not_identified hid

/-- Of the texts made for one base file the last one is there in the end. -/
theorem emitModels_base (hcurrent : r.files.current = current)
    (hnames : ∀ m ∈ models, emitter.Names (fileName (.scalar m.1)))
    (h : (emitter.emitModels g models).result r = .ok names)
    (hid : ∃ m ∈ models, g.IsIdentified m.2 ∧ fileName (.scalar m.1) = stem) :
    ∃ name text, Renders emitter g models r name text ∧ fileName (.scalar name) = stem ∧
      Stands current (emitter.basePath stem) text ((emitter.emitModels g models).after r).files := by
  induction models generalizing r names with
  | nil =>
    obtain ⟨m, hm, -⟩ := hid
    exact absurd hm List.not_mem_nil
  | cons m models ih =>
    obtain ⟨written, rest, hwritten, hrest, -, hafter⟩ := emitModels_cons_ok h
    obtain ⟨hname, hnames⟩ := List.forall_mem_cons.mp hnames
    rw [hafter]
    by_cases hlater : ∃ m' ∈ models, g.IsIdentified m'.2 ∧ fileName (.scalar m'.1) = stem
    · obtain ⟨name, text, hrenders, hstem, hstands⟩ :=
        ih ((current_emitModel ..).trans hcurrent) hnames hrest hlater
      exact ⟨name, text, .later hrenders, hstem, hstands⟩
    · have hother : ∀ m' ∈ models, g.IsIdentified m'.2 → fileName (.scalar m'.1) ≠ stem :=
        fun m' hm' hid' heq => hlater ⟨m', hm', hid', heq⟩
      obtain ⟨m', hm', hid', hstem⟩ := hid
      obtain ⟨hid, rfl⟩ : g.IsIdentified m.2 ∧ fileName (.scalar m.1) = stem := by
        rcases List.mem_cons.mp hm' with rfl | hm'
        · exact ⟨hid', hstem⟩
        · exact absurd hstem (hother m' hm' hid')
      obtain ⟨⟨d?, hd⟩, -⟩ := emitModel_ok hwritten
      obtain ⟨d, rfl⟩ := Option.isSome_iff_exists.mp ((Graph.blueprint_isIdentified hd).mpr hid)
      subst hcurrent
      obtain ⟨text, htext, hstands⟩ := emitModel_base hd hwritten
      have hstands := hstands (overridePath_ne_basePath hfolders hname hname)
      exact ⟨m.1, text, .now hd htext, rfl,
        keeps_emitModels_base hfolders hname hnames hother _ hstands⟩

end

theorem emitModels_renders {m : Scalar × Value} {names : List Tree}
    (h : (emitter.emitModels g models).result r = .ok names) (hm : m ∈ models)
    (hid : g.IsIdentified m.2) : ∃ text, Renders emitter g models r m.1 text := by
  induction models generalizing r names with
  | nil => exact absurd hm List.not_mem_nil
  | cons first models ih =>
    obtain ⟨written, rest, hwritten, hrest, -, -⟩ := emitModels_cons_ok h
    rcases List.mem_cons.mp hm with rfl | hm
    · obtain ⟨⟨d?, hd⟩, -⟩ := emitModel_ok hwritten
      obtain ⟨d, rfl⟩ := Option.isSome_iff_exists.mp ((Graph.blueprint_isIdentified hd).mpr hid)
      obtain ⟨text, htext, -⟩ := emitModel_base hd hwritten
      exact ⟨text, .now hd htext⟩
    · obtain ⟨text, hrenders⟩ := ih hrest hm
      exact ⟨text, .later hrenders⟩

/-! ### A run -/

section

variable {doc : Document} {names : List Tree}

/-- Where a run ends well, every name given back has the text that was made for its base file. The base
files hold these texts just when models whose names give one file name were given the same text. -/
theorem emitAll_base_iff
    (hfolders : Path.placeFrom r.files.current emitter.outputFolder ≠
      Path.placeFrom r.files.current emitter.baseFolder)
    (hext : '/' ∉ emitter.fileExtension.display.toList)
    (hmodels : doc.models emitter.isV2 = .ok models)
    (hdots : ∀ m ∈ models,
      fileName (.scalar m.1) ++ emitter.fileExtension.display ∉ ["", ".", ".."])
    (hresult : (emitter.emitAll doc).result r = .ok names) :
    (∀ name, name ∈ names ↔ ∃ s text, name = .scalar s ∧
        Renders emitter doc.graph models r s text) ∧
      ((∀ name text, Renders emitter doc.graph models r name text →
          ((emitter.emitAll doc).after r).files.read (emitter.basePath (fileName (.scalar name))) =
            .ok text) ↔
        ∀ name text name' text', Renders emitter doc.graph models r name text →
          Renders emitter doc.graph models r name' text' →
          fileName (.scalar name) = fileName (.scalar name') → text = text') := by
  have hnames : ∀ m ∈ models, emitter.Names (fileName (.scalar m.1)) := fun m hm =>
    names_of_parts hext (slash_notMem_fileName _) (hdots m hm)
  obtain ⟨hwritten, -, hafter⟩ := emitAll_steps hmodels hresult
  obtain ⟨-, hgiven, -⟩ := emitAll_ok hmodels hresult
  refine ⟨fun name => ?_, ?_, ?_⟩
  · rw [hgiven]
    constructor
    · rintro ⟨m, hm, rfl, hid⟩
      obtain ⟨text, hrenders⟩ := emitModels_renders hwritten hm hid
      exact ⟨m.1, text, rfl, hrenders⟩
    · rintro ⟨s, text, rfl, hrenders⟩
      obtain ⟨model, hmodel, hid⟩ := hrenders.identified
      exact ⟨(s, model), hmodel, rfl, hid⟩
  · intro hread name text name' text' hrenders hrenders' hstem
    have hsame := (hread name text hrenders).symm.trans (hstem ▸ hread name' text' hrenders')
    exact Except.ok.inj hsame
  · intro hsame name text hrenders
    obtain ⟨model, hmodel, hid⟩ := hrenders.identified
    obtain ⟨name', text', hrenders', hstem, hstands⟩ :=
      emitModels_base hfolders rfl hnames hwritten ⟨_, hmodel, hid, rfl⟩
    obtain rfl := hsame name text name' text' hrenders hrenders' hstem.symm
    have hindex : emitter.Names "index" := by
      refine names_of_parts hext (by decide) ?_
      intro h
      simp [String.ext_iff] at h
    rw [hafter, files_notify]
    refine (keeps_emitIndex (fun _ q h => h.makeFolders q) (fun _ s h => h.putFile ?_ s) _ _
      hstands).2
    exact overridePath_ne_basePath hfolders (hnames _ hmodel) hindex

end

def twoModels (name name' : String) : Document :=
  let identified : Tree := .object [("properties", .object [("id", .object [])])]
  .ofTree (.object [
    ("components", .object [("schemas", .object [(name, identified), (name', identified)])])])

theorem emitAll_base_iff_pets : ∃ doc models names,
    (twoModels "Pet" "Tag").prepare false = .ok doc ∧ doc.models plain.isV2 = .ok models ∧
      (plain.emitAll doc).result noFiles = .ok names ∧
      ∀ name text, Renders plain doc.graph models noFiles name text →
        ((plain.emitAll doc).after noFiles).files.read (plain.basePath (fileName (.scalar name))) =
          .ok text := by
  obtain ⟨doc, hdoc⟩ : ∃ doc, (twoModels "Pet" "Tag").prepare false = .ok doc := ⟨_, rfl⟩
  have hmodels : doc.models plain.isV2 = .ok [(.text "Pet", .node 3), (.text "Tag", .node 6)] := by
    cases hdoc
    rfl
  obtain ⟨names, hnames⟩ : ∃ names, (plain.emitAll doc).result noFiles = .ok names := by
    cases hdoc
    exact exists_ok_of_toBool (by decide +kernel)
  refine ⟨doc, _, names, hdoc, hmodels, hnames, ?_⟩
  refine (emitAll_base_iff (by decide) (by decide) hmodels (by decide) hnames).2.mpr ?_
  exact fun _ _ _ _ h h' => h.text_eq (by decide) h'

/-- Both names give the file name `pet`. The base file is that of the second model. -/
theorem base_overwritten : ∃ doc models names,
    (twoModels "Pet" "PET").prepare false = .ok doc ∧ doc.models plain.isV2 = .ok models ∧
      Path.placeFrom noFiles.files.current plain.outputFolder ≠
        Path.placeFrom noFiles.files.current plain.baseFolder ∧
      (plain.emitAll doc).result noFiles = .ok names ∧
      ∃ name text, .scalar name ∈ names ∧ Renders plain doc.graph models noFiles name text ∧
        ((plain.emitAll doc).after noFiles).files.read (plain.basePath (fileName (.scalar name))) ≠
          .ok text := by
  obtain ⟨doc, hdoc⟩ : ∃ doc, (twoModels "Pet" "PET").prepare false = .ok doc := ⟨_, rfl⟩
  have hmodels : doc.models plain.isV2 = .ok [(.text "Pet", .node 3), (.text "PET", .node 6)] := by
    cases hdoc
    rfl
  obtain ⟨d, hd⟩ : ∃ d, doc.graph.blueprint plain.options (.text "Pet") (.node 3) = .ok (some d) := by
    cases hdoc
    exact ⟨_, rfl⟩
  obtain ⟨text, htext⟩ : ∃ text, (plain.baseText d).result noFiles = .ok text := ⟨_, rfl⟩
  obtain ⟨names, hnames⟩ : ∃ names, (plain.emitAll doc).result noFiles = .ok names := by
    cases hdoc
    exact exists_ok_of_toBool (by decide +kernel)
  refine ⟨doc, _, names, hdoc, hmodels, by decide, hnames, .text "Pet", text, ?_, .now hd htext, ?_⟩
  · rw [(emitAll_ok hmodels hnames).2.1]
    exact ⟨_, List.mem_cons_self, rfl, (Graph.blueprint_isIdentified hd).mp rfl⟩
  · cases hdoc
    cases hd
    cases htext
    intro h
    exact absurd (congrArg Except.toOption h) (by decide +kernel)

end ApiRecords.Emitter
