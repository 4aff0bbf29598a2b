import ApiRecords.Schema.Expansion
import ApiRecords.Proofs.Emission.Steps
import ApiRecords.Proofs.Surveys
import ApiRecords.Proofs.Words

/-!
Override files through a run of the generator. Whether the run ends well or fails, a file at the
override path of a model is what it was, unless the path is that of the index.
-/

namespace ApiRecords

/-! ### Files in folders -/

namespace Path

/-- Whether a text is the name of something in a folder. -/
structure IsName (s : String) : Prop where
  single : '/' ∉ s.toList
  notDots : s ∉ ["", ".", ".."]

variable {s : String} {current folder : Path}

theorem anchor_eq_here {cs : List Char} (h : '/' ∉ cs) : Anchor.ofChars cs = .here := by
  unfold Anchor.ofChars
  split <;> simp_all

theorem ofText_of_isName (h : IsName s) : ofText s = ⟨.here, [s]⟩ := by
  have hdots := h.notDots
  simp only [List.mem_cons, List.not_mem_nil, or_false, not_or] at hdots
  simp [ofText, anchor_eq_here h.single, Text.parts, Text.splitOnChar_of_notMem h.single, hdots.1,
    hdots.2.1]

theorem child_of_isName (h : IsName s) : folder.child s = ⟨folder.anchor, folder.names ++ [s]⟩ := by
  simp [child, ofText_of_isName h, join, isAbsolute]

theorem placeFrom_child (h : IsName s) :
    placeFrom current (folder.child s) = placeFrom current folder ++ [s] := by
  have hdots := h.notDots
  simp only [List.mem_cons, List.not_mem_nil, or_false, not_or] at hdots
  have hnames : (current.join (folder.child s)).names = (current.join folder).names ++ [s] := by
    rw [child_of_isName h]
    obtain ⟨anchor, names⟩ := folder
    cases anchor <;> simp [join, isAbsolute]
  simp only [placeFrom, normal]
  rw [hnames, normalNames_append]
  simp [enterName, hdots.2.2]

end Path

theorem slash_notMem_fileName (name : Tree) : '/' ∉ (fileName name).toList := by
  intro h
  exact absurd (Text.snakeCase_chars _ _ h) (by decide)

namespace Emitter

variable {emitter : Emitter} {current : Path} {stem stem' : String}

/-- Whether the files of a model are named by one name each, the extension being no way to another
folder. -/
def Names (emitter : Emitter) (stem : String) : Prop :=
  Path.IsName (stem ++ emitter.fileExtension.display)

theorem names_of_parts (hext : '/' ∉ emitter.fileExtension.display.toList)
    (hstem : '/' ∉ stem.toList) (hdots : stem ++ emitter.fileExtension.display ∉ ["", ".", ".."]) :
    emitter.Names stem :=
  ⟨by simp [hext, hstem], hdots⟩

theorem placeFrom_basePath (h : emitter.Names stem) :
    Path.placeFrom current (emitter.basePath stem) =
      Path.placeFrom current emitter.baseFolder ++ [stem ++ emitter.fileExtension.display] :=
  Path.placeFrom_child h

theorem placeFrom_overridePath (h : emitter.Names stem) :
    Path.placeFrom current (emitter.overridePath stem) =
      Path.placeFrom current emitter.outputFolder ++ [stem ++ emitter.fileExtension.display] :=
  Path.placeFrom_child h

/-- Files of different names in one folder are different files. -/
theorem stem_eq_of_pathOf {folder : Path} (h : emitter.Names stem) (h' : emitter.Names stem')
    (heq : Path.placeFrom current (emitter.pathOf folder stem) =
      Path.placeFrom current (emitter.pathOf folder stem')) : stem = stem' := by
  have heq : _ ++ [_] = _ ++ [_] :=
    (Path.placeFrom_child h).symm.trans (heq.trans (Path.placeFrom_child h'))
  have hname := (List.append_inj' heq rfl).2
  simpa using hname

theorem stem_eq_of_placeFrom (h : emitter.Names stem) (h' : emitter.Names stem')
    (heq : Path.placeFrom current (emitter.overridePath stem) =
      Path.placeFrom current (emitter.overridePath stem')) : stem = stem' :=
  stem_eq_of_pathOf h h' heq

/-! ### What every file written keeps -/

variable {I : FileSystem → Prop} {g : Graph} {name : Tree} {model : Value}

open ApiRecords.Action

theorem keeps_templates (whole : Source.Part) (parts : List Source.Part) :
    Keeps I (emitter.templates whole parts) :=
  keeps_of_files fun _ => rfl

theorem keeps_baseText (d : Blueprint) : Keeps I (emitter.baseText d) :=
  (keeps_templates _ _).bind fun _ _ _ => keeps_pure _

theorem keeps_overrideText (d : Blueprint) : Keeps I (emitter.overrideText d) :=
  keeps_get.bind fun _ _ _ => (keeps_templates _ _).bind fun _ _ _ => keeps_pure _

theorem blueprint_fileName {options : Options} {d : Blueprint}
    (h : g.blueprint options name model = .ok (some d)) : d.fileName = fileName name := by
  obtain ⟨identity, s, -, -, hd⟩ := Graph.survey_of_blueprint h
  exact (Survey.describes hd).fileName

section

variable {d : Blueprint} (hd : g.blueprint emitter.options name model = .ok (some d))
  (hfolders : ∀ fs q, I fs → I (fs.makeFolders q).1)

include hd hfolders

theorem keeps_emitBase
    (hput : ∀ fs s, I fs → I (fs.putFile (emitter.basePath (fileName name)) s).1) :
    Keeps I (emitter.emitBase g name model d) := by
  rw [← blueprint_fileName hd] at hput
  refine (keeps_notifyAll _).bind fun _ _ _ => ?_
  exact (keeps_baseText d).bind fun _ _ _ => keeps_write hfolders hput _

theorem keeps_emitOverride
    (hput : (∀ fs, I fs → fs.exists? (emitter.overridePath (fileName name))) ∨
      ∀ fs s, I fs → I (fs.putFile (emitter.overridePath (fileName name)) s).1) :
    Keeps I (emitter.emitOverride name d) := by
  rw [← blueprint_fileName hd] at hput
  exact (keeps_overrideText d).bind fun _ text _ => keeps_once hfolders hput text _ _

end

theorem keeps_emitModel (hfolders : ∀ fs q, I fs → I (fs.makeFolders q).1)
    (hbase : ∀ fs s, I fs → I (fs.putFile (emitter.basePath (fileName name)) s).1)
    (hoverride : (∀ fs, I fs → fs.exists? (emitter.overridePath (fileName name))) ∨
      ∀ fs s, I fs → I (fs.putFile (emitter.overridePath (fileName name)) s).1) :
    Keeps I (emitter.emitModel g name model) := by
  intro r hr
  by_cases hsome : ∃ d, g.blueprint emitter.options name model = .ok (some d)
  · obtain ⟨d, hd⟩ := hsome
    rw [(emitModel_identified hd r).2]
    exact (keeps_emitBase hd hfolders hbase).bind
      (fun _ _ _ => keeps_emitOverride hd hfolders hoverride) r hr
  · rw [(emitModel_without_blueprint (fun d hd => hsome ⟨d, hd⟩) r).2]
    exact keeps_notifyAll _ r hr

theorem keeps_emitModels {models : List (Scalar × Value)}
    (h : ∀ m ∈ models, Keeps I (emitter.emitModel g (.scalar m.1) m.2)) :
    Keeps I (emitter.emitModels g models) := by
  induction models with
  | nil => exact keeps_pure _
  | cons m models ih =>
    obtain ⟨hm, hmodels⟩ := List.forall_mem_cons.mp h
    exact hm.bind fun _ _ _ => (ih hmodels).bind fun _ _ _ => keeps_pure _

theorem keeps_emitIndex (hfolders : ∀ fs q, I fs → I (fs.makeFolders q).1)
    (hindex : ∀ fs s, I fs → I (fs.putFile emitter.indexPath s).1) (names : Tree) :
    Keeps I (emitter.emitIndex names) := by
  refine (keeps_lift _).bind fun _ entries _ => ?_
  refine (keeps_templates _ _).bind fun _ templates _ => ?_
  refine (keeps_lift _).bind fun _ items _ => ?_
  exact (keeps_write hfolders hindex _).bind fun _ _ _ => keeps_pure _

/-- What every file written leaves, a run of the generator leaves. -/
theorem keeps_emitAll {doc : Document} (hfolders : ∀ fs q, I fs → I (fs.makeFolders q).1)
    (hmodels : ∀ models, doc.models emitter.isV2 = .ok models → ∀ m ∈ models,
      Keeps I (emitter.emitModel doc.graph (.scalar m.1) m.2))
    (hindex : ∀ fs s, I fs → I (fs.putFile emitter.indexPath s).1) :
    Keeps I (emitter.emitAll doc) := by
  refine (keeps_lift _).bind fun _ models hm => ?_
  refine (keeps_emitModels (hmodels models hm)).bind fun _ names _ => ?_
  exact (keeps_emitIndex hfolders hindex _).bind fun _ _ _ =>
    (keeps_notify _ _).bind fun _ _ _ => keeps_pure _

/-! ### One file -/

section

variable {path : Path} {content : String} {doc : Document} {models : List (Scalar × Value)}

/-- Whether a file stands at a path, in files that are seen from `current`. -/
def Stands (current path : Path) (content : String) (fs : FileSystem) : Prop :=
  fs.current = current ∧ fs.read path = .ok content

namespace Stands

variable {fs : FileSystem} (h : Stands current path content fs)

include h

theorem of_keeps {overwritten : Place → Prop} {fs' : FileSystem} (hkeeps : fs.Keeps overwritten fs')
    (hover : ¬ overwritten (Path.placeFrom current path)) : Stands current path content fs' := by
  obtain ⟨rfl, hread⟩ := h
  obtain ⟨content', hread', rfl | hplace⟩ := hkeeps.read hread
  · exact ⟨hkeeps.current, hread'⟩
  · exact absurd hplace hover

theorem makeFolders (q : Path) : Stands current path content (fs.makeFolders q).1 :=
  h.of_keeps (fs.makeFolders_keeps q fun _ => False) id

theorem putFile {q : Path} (hne : Path.placeFrom current q ≠ Path.placeFrom current path)
    (s : String) : Stands current path content (fs.putFile q s).1 := by
  have hkeeps := fs.putFile_keeps q s
  rw [h.1] at hkeeps
  exact h.of_keeps hkeeps (Ne.symm hne)

end Stands

/-- A run keeps a file at whose place it writes no base file and no index, and an override file at
most by the very path that the file is known to stand at. -/
theorem keeps_stands
    (hbase : ∀ models, doc.models emitter.isV2 = .ok models → ∀ m ∈ models,
      Path.placeFrom current (emitter.basePath (fileName (.scalar m.1))) ≠
        Path.placeFrom current path)
    (hoverride : ∀ models, doc.models emitter.isV2 = .ok models → ∀ m ∈ models,
      Path.placeFrom current (emitter.overridePath (fileName (.scalar m.1))) =
        Path.placeFrom current path → emitter.overridePath (fileName (.scalar m.1)) = path)
    (hindex : Path.placeFrom current emitter.indexPath ≠ Path.placeFrom current path) :
    Keeps (Stands current path content) (emitter.emitAll doc) := by
  have hfolders : ∀ fs q, Stands current path content fs →
      Stands current path content (fs.makeFolders q).1 := fun _ q h => h.makeFolders q
  refine keeps_emitAll hfolders ?_ fun _ s h => h.putFile hindex s
  intro models hmodels m hm
  refine keeps_emitModel hfolders (fun _ s h => h.putFile (hbase models hmodels m hm) s) ?_
  by_cases hplace : Path.placeFrom current (emitter.overridePath (fileName (.scalar m.1))) =
      Path.placeFrom current path
  · left
    intro fs h
    rw [hoverride models hmodels m hm hplace]
    exact FileSystem.exists?_of_read h.2
  · right
    exact fun _ s h => h.putFile hplace s

/-- Custom code is kept: whatever a run ends in, the override file of a model that is not named like
the index has the content that it had before. -/
theorem emitAll_keeps_override {r : Run} {name : Scalar} {model : Value}
    (hfolders : Path.placeFrom r.files.current emitter.outputFolder ≠
      Path.placeFrom r.files.current emitter.baseFolder)
    (hext : '/' ∉ emitter.fileExtension.display.toList)
    (hmodels : doc.models emitter.isV2 = .ok models) (hmodel : (name, model) ∈ models)
    (hdots : ∀ m ∈ models,
      fileName (.scalar m.1) ++ emitter.fileExtension.display ∉ ["", ".", ".."])
    (hindex : fileName (.scalar name) ≠ "index")
    (hread : r.files.read (emitter.overridePath (fileName (.scalar name))) = .ok content) :
    ((emitter.emitAll doc).after r).files.read (emitter.overridePath (fileName (.scalar name))) =
      .ok content := by
  have hnames : ∀ m ∈ models, emitter.Names (fileName (.scalar m.1)) := fun m hm =>
    names_of_parts hext (slash_notMem_fileName _) (hdots m hm)
  have hname := hnames _ hmodel
  have hnameIndex : emitter.Names "index" := by
    refine names_of_parts hext (by decide) ?_
    intro h
    simp [String.ext_iff] at h
  refine (keeps_stands ?_ ?_ ?_ r ⟨rfl, hread⟩).2
  · intro models' hmodels' m hm heq
    obtain rfl : models' = models := Except.ok.inj (hmodels'.symm.trans hmodels)
    rw [placeFrom_basePath (hnames m hm), placeFrom_overridePath hname] at heq
    exact hfolders (List.append_inj' heq rfl).1.symm
  · intro models' hmodels' m hm heq
    obtain rfl : models' = models := Except.ok.inj (hmodels'.symm.trans hmodels)
    rw [stem_eq_of_placeFrom (hnames m hm) hname heq]
  · intro heq
    exact hindex (stem_eq_of_placeFrom hnameIndex hname heq).symm

/-- Writes to `out` and `out/base`. -/
def plain : Emitter where
  options := ⟨Case.plain, .bool true, .bool false⟩
  isV2 := false
  outputFolder := .ofText "out"
  baseFolder := .ofText "out/base"
  templateFolder := none
  wholeFiles := .builtin
  fileExtension := .text ".js"
  date := none

def oneModel (name : String) : Document :=
  let identified : Tree := .object [("properties", .object [("id", .object [])])]
  .ofTree (.object [("components", .object [("schemas", .object [(name, identified)])])])

/-- A file of custom code in `out`. -/
def customFile (name : String) : Run :=
  .ofFiles ⟨[(["out"], .folder), (["out", name], .file "custom")], ⟨.root, []⟩⟩

theorem emitAll_keeps_override_pet : ∃ doc, (oneModel "Pet").prepare false = .ok doc ∧
    ((plain.emitAll doc).after (customFile "pet.js")).files.read
      (plain.overridePath (fileName (.text "Pet"))) = .ok "custom" := by
  refine ⟨_, rfl, ?_⟩
  exact emitAll_keeps_override (by decide) (by decide) rfl (List.mem_singleton_self _) (by decide)
    (by decide) rfl

/-- The index takes the place of the custom code of a model of that name. -/
theorem emitAll_loses_index : ∃ doc models model, (oneModel "Index").prepare false = .ok doc ∧
    doc.models plain.isV2 = .ok models ∧ (.text "Index", model) ∈ models ∧
    Path.placeFrom (customFile "index.js").files.current plain.outputFolder ≠
      Path.placeFrom (customFile "index.js").files.current plain.baseFolder ∧
    (customFile "index.js").files.read (plain.overridePath (fileName (.text "Index"))) =
      .ok "custom" ∧
    ((plain.emitAll doc).after (customFile "index.js")).files.read
      (plain.overridePath (fileName (.text "Index"))) ≠ .ok "custom" := by
  refine ⟨_, _, _, rfl, rfl, List.mem_singleton_self _, by decide, rfl, ?_⟩
  intro h
  exact absurd (congrArg Except.toOption h) (by decide +kernel)

end

end Emitter

end ApiRecords
