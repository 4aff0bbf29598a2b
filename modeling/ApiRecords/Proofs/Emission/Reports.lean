import ApiRecords.Proofs.Discovery
import ApiRecords.Proofs.Emission.Parts

/-!
What a run that ends well reports, against the definitions of its document and the files that it leaves:
the names given back, the index, and the warnings.
-/

namespace ApiRecords

/-- The texts of the warnings given so far. -/
def Run.warnings (r : Run) : List String :=
  (r.notices.filter (·.level = .warning)).map Notice.text

open FileSystem

theorem FileSystem.Keeps.exists? {overwritten : Place → Prop} {fs fs' : FileSystem} {p : Path}
    (h : fs.Keeps overwritten fs') (hexists : fs.exists? p) : fs'.exists? p := by
  obtain ⟨e, he⟩ := exists?_iff.mp hexists
  obtain ⟨place, hplace, he⟩ := find_ok.mp he
  obtain ⟨rfl, hroot⟩ := place_ok hplace
  have hplace' := h.place_eq hplace
  cases e with
  | folder => exact exists?_iff.mpr ⟨_, find_of_place hplace' (h.folder _ hroot he)⟩
  | file c =>
    obtain ⟨c', hc', -⟩ := h.file _ c hroot he
    exact exists?_iff.mpr ⟨_, find_of_place hplace' hc'⟩

namespace Graph

variable {g : Graph} {v : Value}

/-- Whether the records of a schema are identified, worked out. -/
def isIdentified (g : Graph) (v : Value) : Bool :=
  match g.identity v with
  | .ok i => i.isFound
  | .error _ => false

theorem isIdentified_iff : g.isIdentified v ↔ g.IsIdentified v := by
  unfold isIdentified IsIdentified
  cases g.identity v with
  | error e => simp
  | ok i => cases i <;> simp [Identity.isFound]

/-- Whether `text` is the warning about a definition of a name. -/
def Warns (g : Graph) (m : Scalar × Value) (text : String) : Prop :=
  ∃ i, g.identity m.2 = .ok i ∧ i.warning? (.scalar m.1) = some text

/-- Of what is reported while a model is described, only what is said of its own identity warns. What is
met within it does not. -/
theorem warnings_notices {name : Tree} {i : Identity} (hname : name.truthy)
    (hi : g.identity v = .ok i) :
    ((g.notices name v).filter (·.level = .warning)).map Notice.text = (i.warning? name).toList := by
  cases i with
  | found identity =>
    cases hs : g.survey v identity <;> simp [notices, hi, hs, Identity.warning?]
  | noProperties | absent _ =>
    simp [notices, hi, Identity.notices, hname, Identity.warning?]

end Graph

namespace Action

variable {α : Type} {p : Path}

theorem blind_warnings : Blind Run.warnings where
  files _ _ := rfl
  notices r level text hlevel := by simp [Run.warnings, hlevel]

/-- What is written once is there afterwards. -/
theorem exists?_of_once {s notice : String} {x y : α} {r : Run}
    (h : (once p s notice x).result r = .ok y) :
    ((once p s notice x).after r).files.exists? p := by
  obtain ⟨-, ⟨hexists, hafter⟩ | ⟨-, hwrite, hafter⟩⟩ := once_ok h
  · rwa [hafter]
  · rw [hafter]
    exact exists?_of_read (write_ok hwrite)

end Action

namespace Emitter

open ApiRecords.Action

variable {emitter : Emitter} {g : Graph} {name : Tree} {model : Value} {r : Run} {p : Path}
  {models : List (Scalar × Value)} {names : List Tree}

/-! ### One model -/

theorem warnings_emitModel {i : Identity} (hname : name.truthy) (hi : g.identity model = .ok i) :
    ((emitter.emitModel g name model).after r).warnings =
      r.warnings ++ (i.warning? name).toList := by
  have hnotices : (notifyAll (g.notices name model)).result r = .ok () := rfl
  have hafter : ((notifyAll (g.notices name model)).after r).warnings =
      r.warnings ++ (i.warning? name).toList := by
    have hall : ((notifyAll (g.notices name model)).after r).notices =
        r.notices ++ g.notices name model := rfl
    rw [Run.warnings, hall, List.filter_append, List.map_append, Graph.warnings_notices hname hi]
    rfl
  rw [emitModel, (bind_of_ok hnotices).2, ← hafter]
  refine Leaves.bind (fun _ => rfl) (fun d? => ?_) _
  cases d? with
  | none => exact fun _ => rfl
  | some d =>
    refine Leaves.bind (fun _ => rfl) fun text => (blind_warnings.write _ text).bind fun _ => ?_
    exact Leaves.bind (fun _ => rfl) fun text' => blind_warnings.once _ text' _ _

theorem keeps_exists_emitModel :
    Keeps (fun fs => fs.exists? p) (emitter.emitModel g name model) :=
  keeps_emitModel (fun fs q h => (fs.makeFolders_keeps q fun _ => False).exists? h)
    (fun fs s h => (fs.putFile_keeps _ s).exists? h)
    (.inr fun fs s h => (fs.putFile_keeps _ s).exists? h)

theorem emitModel_exists {written : Option Tree}
    (h : (emitter.emitModel g name model).result r = .ok written) (hid : g.IsIdentified model) :
    let files := ((emitter.emitModel g name model).after r).files
    files.exists? (emitter.basePath (fileName name)) ∧
      files.exists? (emitter.overridePath (fileName name)) := by
  intro files
  obtain ⟨-, hwritten⟩ := emitModel_ok h
  obtain ⟨-, -, content, hread⟩ := hwritten.resolve_right fun hnot => hnot.1 hid
  refine ⟨exists?_of_read hread, ?_⟩
  obtain ⟨d, hd, -, -, hoverride, hafter⟩ | ⟨hnone, -⟩ := emitModel_steps h
  · obtain ⟨text, htext, honce⟩ := bind_result_ok.mp hoverride
    rw [emitOverride, (bind_of_ok htext).2, blueprint_fileName hd] at hafter
    rw [blueprint_fileName hd] at honce
    show ((emitter.emitModel g name model).after r).files.exists? _
    rw [hafter]
    exact exists?_of_once honce
  · exact absurd ((Graph.blueprint_isIdentified hnone).mpr hid) Bool.false_ne_true

/-! ### One model after another -/

theorem emitModels_names (h : (emitter.emitModels g models).result r = .ok names)
    (htruthy : ∀ m ∈ models, m.1.truthy) :
    names = (models.filter fun m => g.isIdentified m.2).map fun m => .scalar m.1 := by
  induction models generalizing r names with
  | nil =>
    cases h
    rfl
  | cons m models ih =>
    obtain ⟨hm, hmodels⟩ := List.forall_mem_cons.mp htruthy
    obtain ⟨written, rest, hwritten, hrest, rfl, -⟩ := emitModels_cons_ok h
    rw [ih hrest hmodels]
    rcases (emitModel_ok hwritten).2 with ⟨hid, rfl, -⟩ | ⟨hid, rfl⟩
    · have hgiven : ((some (.scalar m.1)).filter Tree.truthy).toList = [Tree.scalar m.1] := by
        simp [Tree.truthy, hm]
      have hid := Graph.isIdentified_iff.mpr hid
      simp [hgiven, hid]
    · have hid := mt Graph.isIdentified_iff.mp hid
      simp [hid]

theorem emitModels_warnings (h : (emitter.emitModels g models).result r = .ok names)
    (htruthy : ∀ m ∈ models, m.1.truthy) :
    ∃ texts, ((emitter.emitModels g models).after r).warnings = r.warnings ++ texts ∧
      List.Forall₂ g.Warns (models.filter fun m => !g.isIdentified m.2) texts := by
  induction models generalizing r names with
  | nil => exact ⟨[], (List.append_nil _).symm, .nil⟩
  | cons m models ih =>
    obtain ⟨hm, hmodels⟩ := List.forall_mem_cons.mp htruthy
    obtain ⟨written, rest, hwritten, hrest, -, hafter⟩ := emitModels_cons_ok h
    obtain ⟨texts, hwarnings, htexts⟩ := ih hrest hmodels
    obtain ⟨⟨d?, hd⟩, -⟩ := emitModel_ok hwritten
    obtain ⟨i, hi, -⟩ := (bind_ok_iff ..).mp hd
    have hname : (Tree.scalar m.1).truthy := hm
    rw [hafter, hwarnings, warnings_emitModel hname hi, List.append_assoc]
    refine ⟨_, rfl, ?_⟩
    cases i with
    | found identity =>
      have hid : g.isIdentified m.2 = true := by simp [Graph.isIdentified, hi, Identity.isFound]
      simpa [hid, Identity.warning?] using htexts
    | noProperties | absent _ =>
      have hid : g.isIdentified m.2 = false := by simp [Graph.isIdentified, hi, Identity.isFound]
      simp only [List.filter_cons, hid, Bool.not_false, if_true, Identity.warning?,
        Option.toList_some, List.singleton_append]
      exact .cons ⟨_, hi, rfl⟩ htexts

theorem emitModels_exist (h : (emitter.emitModels g models).result r = .ok names)
    {m : Scalar × Value} (hm : m ∈ models) (hid : g.IsIdentified m.2) :
    let files := ((emitter.emitModels g models).after r).files
    files.exists? (emitter.basePath (fileName (.scalar m.1))) ∧
      files.exists? (emitter.overridePath (fileName (.scalar m.1))) := by
  induction models generalizing r names with
  | nil => exact absurd hm List.not_mem_nil
  | cons first models ih =>
    obtain ⟨written, rest, hwritten, hrest, -, hafter⟩ := emitModels_cons_ok h
    rw [hafter]
    rcases List.mem_cons.mp hm with rfl | hm
    · obtain ⟨hbase, hoverride⟩ := emitModel_exists hwritten hid
      have hkeeps : ∀ p, Keeps (fun fs => fs.exists? p) (emitter.emitModels g models) :=
        fun _ => keeps_emitModels fun _ _ => keeps_exists_emitModel
      exact ⟨hkeeps _ _ hbase, hkeeps _ _ hoverride⟩
    · exact ih hrest hm

/-! ### The index -/

/-- The line of the index for a model: its name, out of the file that is named after it. -/
def exportLine (name : String) : Source.Item :=
  .exportDefaultOf name ("./" ++ Text.snakeCase name)

theorem indexEntries_texts {texts : List String} (h : texts.Nodup) :
    indexEntries (.array (texts.map .text)) = .ok (.array (texts.map fun s =>
      .object [("name", .text s), ("file_name", .text (Text.snakeCase s))])) := by
  have hkeys : (texts.map Tree.text).mapM Tree.key? = .ok (texts.map Scalar.text) := by
    rw [mapM_ok_iff, List.forall₂_map_left_iff, List.forall₂_map_right_iff]
    exact List.forall₂_same.mpr fun _ _ => rfl
  simp only [indexEntries, Tree.elements, bind, Except.bind, hkeys, distinctBy_texts,
    eraseDups_of_nodup h, List.map_map]
  rfl

theorem index_texts (templates : Source.Templates) (date : Option String) (texts : List String) :
    Source.index templates date (.array (texts.map fun s =>
        .object [("name", .text s), ("file_name", .text (Text.snakeCase s))])) =
      .ok (templates.fill .index (Source.head templates date ++ texts.map exportLine)) := by
  unfold Source.index Source.Templates.fill
  cases templates.given .index with
  | some s => rfl
  | none =>
    have hitems : (texts.map fun s =>
        Tree.object [("name", .text s), ("file_name", .text (Text.snakeCase s))]).mapM
          Source.indexItem = .ok (texts.map exportLine) := by
      rw [mapM_ok_iff, List.forall₂_map_left_iff, List.forall₂_map_right_iff]
      exact List.forall₂_same.mpr fun _ _ => rfl
    simp only [Tree.elements, bind, Except.bind, hitems]
    rfl

/-- The index of models by their names. -/
def indexText (emitter : Emitter) (r : Run) (texts : List String) : String :=
  let templates := emitter.templatesAt r
  Source.text (templates.fill .index (Source.head templates emitter.date ++ texts.map exportLine))

theorem emitIndex_files {texts : List String} {path : Path} (htexts : texts.Nodup)
    (h : (emitter.emitIndex (.array (texts.map .text))).result r = .ok path) :
    r.files.write emitter.indexPath (emitter.indexText r texts) =
      .ok ((emitter.emitIndex (.array (texts.map .text))).after r).files := by
  unfold emitIndex at h ⊢
  obtain ⟨entries, hentries, h⟩ := bind_result_ok.mp h
  obtain rfl := Except.ok.inj (hentries.symm.trans (indexEntries_texts htexts))
  rw [(bind_of_ok hentries).2]
  obtain ⟨templates, htemplates, h⟩ := bind_result_ok.mp h
  rw [(bind_of_ok htemplates).2]
  obtain rfl := Except.ok.inj ((templates_result_eq ..).symm.trans htemplates)
  obtain ⟨items, hitems, h⟩ := bind_result_ok.mp h
  obtain rfl := Except.ok.inj (hitems.symm.trans (index_texts _ emitter.date texts))
  rw [(bind_of_ok hitems).2]
  obtain ⟨⟨⟩, hwrite, -⟩ := bind_result_ok.mp h
  rw [(bind_of_ok hwrite).2, after_pure]
  exact write_files (by rfl) hwrite

theorem leaves_warnings_emitIndex (names : Tree) : Leaves Run.warnings (emitter.emitIndex names) := by
  refine Leaves.bind (fun _ => rfl) fun entries => ?_
  refine Leaves.bind (fun _ => rfl) fun templates => ?_
  refine Leaves.bind (fun _ => rfl) fun items => ?_
  exact (blind_warnings.write _ _).bind fun _ _ => rfl

/-! ### A run -/

theorem warnings_emitAll {doc : Document} (hmodels : doc.models emitter.isV2 = .ok models)
    (h : (emitter.emitAll doc).result r = .ok names) :
    ((emitter.emitAll doc).after r).warnings =
      ((emitter.emitModels doc.graph models).after r).warnings := by
  obtain ⟨-, -, hafter⟩ := emitAll_steps hmodels h
  rw [hafter, blind_warnings.notify (by simp), leaves_warnings_emitIndex]

/-- A cat that nothing identifies, and two definitions of a pet, the first of them without properties. -/
def catAndPets : Document :=
  .ofTree (.object [("components", .object [("schemas", .object [
    ("Draft", .object [("x-model-name", .text "Pet")]),
    ("Cat", .object [("properties", .object [("lives", .object [])])]),
    ("Pet", .object [("properties", .object [("id", .object [])])])])])])

end Emitter

end ApiRecords
