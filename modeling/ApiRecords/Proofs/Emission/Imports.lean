import ApiRecords.Proofs.BoundNames
import ApiRecords.Proofs.Emission.Overrides
import ApiRecords.Proofs.Reachability

/-!
The imports of the generated files against the files that a run leaves. An import is dangling where
the model that a schema refers to is not itself among the definitions with an identity.
-/

namespace ApiRecords

namespace Graph

/-- Whether the records of a schema are identified. -/
def IsIdentified (g : Graph) (v : Value) : Prop := ∃ name, g.identity v = .ok (.found name)

/-- Names of the models that a model refers to from its properties. -/
def RefersByName (g : Graph) (model : Value) (name : Tree) : Prop :=
  ∃ graph properties m,
    g.markRequired (g.get model "properties") (g.get model "required") = .ok (graph, properties) ∧
      graph.Refers properties m ∧ name = graph.modelName m

variable {g : Graph} {own : Tree} {model : Value} {options : Options} {d : Blueprint}

theorem blueprint_isIdentified {d? : Option Blueprint}
    (h : g.blueprint options own model = .ok d?) : d?.isSome ↔ g.IsIdentified model := by
  simp only [blueprint, bind_ok_iff] at h
  obtain ⟨identity, hidentity, h⟩ := h
  cases identity with
  | found name =>
    simp only [bind_ok_iff, pure_ok_iff] at h
    obtain ⟨_, -, _, -, rfl⟩ := h
    exact iff_of_true rfl ⟨name, hidentity⟩
  | noProperties | absent _ =>
    obtain rfl := (pure_ok_iff _ _).mp h
    refine iff_of_false Bool.false_ne_true ?_
    rintro ⟨name, hfound⟩
    cases hidentity.symm.trans hfound

/-! ### Imports and references -/

theorem text_same {a : Tree} {s : String} (h : (Tree.text s).same a) : a = .text s := by
  cases a with
  | scalar a => cases a <;> simp_all [Tree.same, Scalar.same, Scalar.eq, Scalar.whole?]
  | _ => simp [Tree.same] at h

theorem importsOf_file {models : List Value} {imports : List Import}
    (h : importsOf g own models = .ok imports) : ∀ i ∈ imports, i.file = fileName i.name := by
  simp only [importsOf, bind_ok_iff, pure_ok_iff] at h
  obtain ⟨found, hfound, rfl⟩ := h
  have hstep : ∀ (found : List (Scalar × Import)) m found',
      (∀ entry ∈ found, entry.2.file = fileName entry.2.name) →
      addImport g own found m = .ok found' →
      ∀ entry ∈ found', entry.2.file = fileName entry.2.name := by
    intro found m found' hfiles hadd
    simp only [addImport] at hadd
    split at hadd
    · rwa [(pure_ok_iff _ _).mp hadd]
    · simp only [bind_ok_iff] at hadd
      obtain ⟨key, -, hadd⟩ := hadd
      split at hadd
      · rwa [(pure_ok_iff _ _).mp hadd]
      · obtain rfl := (pure_ok_iff _ _).mp hadd
        exact List.forall_mem_append.mpr ⟨hfiles, List.forall_mem_singleton.mpr rfl⟩
  have hfiles := foldlM_ok_keeps hstep (by simp) hfound
  intro i hi
  obtain ⟨entry, hentry, rfl⟩ := List.mem_map.mp hi
  exact hfiles entry hentry

theorem blueprint_findings (h : g.blueprint options own model = .ok (some d)) :
    ∃ graph properties found,
      g.markRequired (g.get model "properties") (g.get model "required") = .ok (graph, properties) ∧
        graph.findings 0 properties = .ok found ∧
        importsOf graph own found.models = .ok d.imports := by
  obtain ⟨identity, s, -, hs, hd⟩ := survey_of_blueprint h
  obtain ⟨graph, properties, found, hmark, hfound, rfl⟩ := survey_ok hs
  exact ⟨graph, properties, found, hmark, hfound, (Survey.describes hd).imports⟩

theorem refersByName_iff {graph : Graph} {properties : Value} {found : Findings} {name : Tree}
    (hmark : g.markRequired (g.get model "properties") (g.get model "required") =
      .ok (graph, properties))
    (hfound : graph.findings 0 properties = .ok found) :
    g.RefersByName model name ↔ ∃ m ∈ found.models, name = graph.modelName m := by
  constructor
  · rintro ⟨graph', properties', m, hmark', hrefers, hname⟩
    cases hmark.symm.trans hmark'
    exact ⟨m, (mem_findings hfound).mpr hrefers, hname⟩
  · rintro ⟨m, hm, hname⟩
    exact ⟨graph, properties, m, hmark, (mem_findings hfound).mp hm, hname⟩

/-- A file imports the models referred to, its own left out. -/
theorem blueprint_imports (h : g.blueprint options own model = .ok (some d)) :
    (∀ i ∈ d.imports, g.RefersByName model i.name ∧ i.file = fileName i.name) ∧
      ∀ s, g.RefersByName model (.text s) → own = .text s ∨ ∃ i ∈ d.imports, i.name = .text s := by
  obtain ⟨graph, properties, found, hmark, hfound, himports⟩ := blueprint_findings h
  obtain ⟨collected, hcollected, heq⟩ := importsOf_collected himports
  constructor
  · intro i hi
    refine ⟨?_, importsOf_file himports i hi⟩
    rw [heq] at hi
    obtain ⟨entry, hentry, rfl⟩ := List.mem_map.mp hi
    obtain ⟨-, hmodel⟩ := hcollected.imported entry hentry
    exact (refersByName_iff hmark hfound).mpr hmodel
  · intro s hrefers
    obtain ⟨m, hm, hname⟩ := (refersByName_iff hmark hfound).mp hrefers
    rw [heq]
    rcases hcollected.covered m hm with hown | ⟨entry, hentry, hm⟩
    · rw [← hname] at hown
      exact .inl (text_same hown)
    · refine .inr ⟨entry.2, List.mem_map_of_mem hentry, ?_⟩
      rw [← hname] at hm
      exact hm.elim id same_text

end Graph

/-! ### Files that are there -/

/-- Whether a file stands at a path. -/
def FileSystem.HasFile (p : Path) (fs : FileSystem) : Prop := ∃ content, fs.read p = .ok content

namespace FileSystem

variable {fs fs' : FileSystem} {p : Path}

theorem HasFile.of_keeps {overwritten : Place → Prop} (h : fs.HasFile p) (hkeeps : fs.Keeps overwritten fs') :
    fs'.HasFile p := by
  obtain ⟨content, hread⟩ := h
  obtain ⟨content', hread', -⟩ := hkeeps.read hread
  exact ⟨content', hread'⟩

theorem HasFile.makeFolders (q : Path) (h : fs.HasFile p) : (fs.makeFolders q).1.HasFile p :=
  h.of_keeps (fs.makeFolders_keeps q fun _ => False)

theorem HasFile.putFile (q : Path) (s : String) (h : fs.HasFile p) : (fs.putFile q s).1.HasFile p :=
  h.of_keeps (fs.putFile_keeps q s)

end FileSystem

namespace Emitter

open ApiRecords.Action FileSystem

variable {emitter : Emitter} {g : Graph} {name : Tree} {model : Value} {r : Run} {p : Path}

theorem keeps_hasFile_emitModel : Keeps (HasFile p) (emitter.emitModel g name model) :=
  keeps_emitModel (fun _ q h => h.makeFolders q) (fun _ s h => h.putFile _ s)
    (.inr fun _ s h => h.putFile _ s)

/-- Where the writing of a model does not fail, its base file is there afterwards if its records are
identified, and its name is given back. -/
theorem emitModel_ok {written : Option Tree}
    (h : (emitter.emitModel g name model).result r = .ok written) :
    (∃ d?, g.blueprint emitter.options name model = .ok d?) ∧
      (g.IsIdentified model ∧ written = some name ∧
          ((emitter.emitModel g name model).after r).files.HasFile
            (emitter.basePath (fileName name)) ∨
        ¬ g.IsIdentified model ∧ written = none) := by
  obtain ⟨d, hd, hname, hbase, -, hafter⟩ | ⟨hd, hname, -⟩ := emitModel_steps h
  · obtain ⟨text, -, hread⟩ := emitBase_ok hbase
    rw [blueprint_fileName hd] at hread
    refine ⟨⟨_, hd⟩, .inl ⟨(Graph.blueprint_isIdentified hd).mp rfl, hname, ?_⟩⟩
    rw [hafter]
    exact keeps_emitOverride (I := HasFile _) hd (fun _ q h => h.makeFolders q)
      (.inr fun _ s h => h.putFile _ s) _ ⟨text, hread⟩
  · have hidentified := Graph.blueprint_isIdentified hd
    exact ⟨⟨_, hd⟩, .inr ⟨fun hid => absurd (hidentified.mpr hid) Bool.false_ne_true, hname⟩⟩

/-- The names given back are those of the models whose records are identified, and their base files
are there. -/
theorem emitModels_ok {models : List (Scalar × Value)} {names : List Tree}
    (h : (emitter.emitModels g models).result r = .ok names)
    (htruthy : ∀ m ∈ models, m.1.truthy) :
    (∀ m ∈ models, ∃ d?, g.blueprint emitter.options (.scalar m.1) m.2 = .ok d?) ∧
      (∀ name, name ∈ names ↔ ∃ m ∈ models, .scalar m.1 = name ∧ g.IsIdentified m.2) ∧
      ∀ name ∈ names,
        ((emitter.emitModels g models).after r).files.HasFile (emitter.basePath (fileName name)) := by
  induction models generalizing r names with
  | nil =>
    cases h
    simp
  | cons m models ih =>
    obtain ⟨hm, hmodels⟩ := List.forall_mem_cons.mp htruthy
    obtain ⟨written, rest, hwritten, hrest, rfl, hafter⟩ := emitModels_cons_ok h
    rw [hafter]
    obtain ⟨hblueprints, hnames, hfiles⟩ := ih hrest hmodels
    obtain ⟨hblueprint, hmodel⟩ := emitModel_ok hwritten
    refine ⟨List.forall_mem_cons.mpr ⟨hblueprint, hblueprints⟩, ?_⟩
    rcases hmodel with ⟨hid, rfl, hfile⟩ | ⟨hid, rfl⟩
    · have hgiven : ((some (.scalar m.1)).filter Tree.truthy).toList = [Tree.scalar m.1] := by
        simp [Tree.truthy, hm]
      rw [hgiven]
      constructor
      · intro name
        simp [hnames, hid, eq_comm]
      · refine List.forall_mem_cons.mpr ⟨?_, hfiles⟩
        exact keeps_emitModels (I := HasFile _) (fun _ _ => keeps_hasFile_emitModel) _ hfile
    · constructor
      · intro name
        simp [hnames, hid]
      · exact hfiles

end Emitter

/-! ### The names of the models of a document -/

theorem models_truthy {doc : Document} {v2 : Bool} {models : List (Scalar × Value)}
    (h : doc.models v2 = .ok models) : ∀ m ∈ models, m.1.truthy := by
  simp only [Document.models, bind_ok_iff] at h
  obtain ⟨definitions, -, h⟩ := h
  refine foldlM_ok_keeps (P := fun found => ∀ m ∈ found, m.1.truthy) ?_ (by simp) h
  rintro found ⟨_, v⟩ found' hfound hstep
  split at hstep
  · rename_i htruthy
    simp only [bind_ok_iff, pure_ok_iff] at hstep
    obtain ⟨key, hkey, rfl⟩ := hstep
    rw [key?_eq_ok hkey] at htruthy
    intro m hm
    rcases key_of_mem_putBy hm with hname | ⟨m', hm', hname⟩
    · rw [hname]
      exact htruthy
    · rw [← hname]
      exact hfound m' hm'
  · rwa [(pure_ok_iff _ _).mp hstep]

namespace Emitter

open ApiRecords.Action FileSystem

variable {emitter : Emitter} {doc : Document} {r : Run}

theorem keeps_hasFile_emitIndex {p : Path} (names : Tree) :
    Keeps (HasFile p) (emitter.emitIndex names) :=
  keeps_emitIndex (fun _ q h => h.makeFolders q) (fun _ s h => h.putFile _ s) names

theorem emitAll_ok {models : List (Scalar × Value)} {names : List Tree}
    (hmodels : doc.models emitter.isV2 = .ok models)
    (h : (emitter.emitAll doc).result r = .ok names) :
    (∀ m ∈ models, ∃ d?, doc.graph.blueprint emitter.options (.scalar m.1) m.2 = .ok d?) ∧
      (∀ name, name ∈ names ↔ ∃ m ∈ models, .scalar m.1 = name ∧ doc.graph.IsIdentified m.2) ∧
      ∀ name ∈ names,
        ((emitter.emitAll doc).after r).files.HasFile (emitter.basePath (fileName name)) := by
  obtain ⟨hwritten, -, hafter⟩ := emitAll_steps hmodels h
  obtain ⟨hblueprints, hnames, hfiles⟩ := emitModels_ok hwritten (models_truthy hmodels)
  refine ⟨hblueprints, hnames, fun name hname => ?_⟩
  rw [hafter, files_notify]
  exact keeps_hasFile_emitIndex _ _ (hfiles name hname)

/-- Where a run ends well and the models referred to are named by texts, no import is dangling just
when each model that an identified one refers to is, under its name, a definition whose records are
identified. -/
theorem emitAll_imports_iff {models : List (Scalar × Value)} {names : List Tree}
    (hmodels : doc.models emitter.isV2 = .ok models)
    (hresult : (emitter.emitAll doc).result r = .ok names)
    (htexts : ∀ m ∈ models, doc.graph.IsIdentified m.2 →
      ∀ name, doc.graph.RefersByName m.2 name → ∃ s, name = .text s) :
    (∀ m ∈ models, ∀ d, doc.graph.blueprint emitter.options (.scalar m.1) m.2 = .ok (some d) →
        ∀ i ∈ d.imports, i.name ∈ names ∧ i.file = fileName i.name ∧
          ((emitter.emitAll doc).after r).files.HasFile (emitter.basePath i.file)) ↔
      ∀ m ∈ models, doc.graph.IsIdentified m.2 → ∀ name, doc.graph.RefersByName m.2 name →
        ∃ m' ∈ models, .scalar m'.1 = name ∧ doc.graph.IsIdentified m'.2 := by
  obtain ⟨hblueprints, hnames, hfiles⟩ := emitAll_ok hmodels hresult
  constructor
  · intro himports m hm hid name hrefers
    obtain ⟨s, rfl⟩ := htexts m hm hid name hrefers
    obtain ⟨d?, hd⟩ := hblueprints m hm
    obtain ⟨d, rfl⟩ := Option.isSome_iff_exists.mp ((Graph.blueprint_isIdentified hd).mpr hid)
    rcases (Graph.blueprint_imports hd).2 s hrefers with hown | ⟨i, hi, hname⟩
    · exact ⟨m, hm, hown, hid⟩
    · rw [← hname]
      exact (hnames i.name).mp (himports m hm d hd i hi).1
  · intro hdefined m hm d hd i hi
    obtain ⟨hrefers, hfile⟩ := (Graph.blueprint_imports hd).1 i hi
    have hid := (Graph.blueprint_isIdentified hd).mp rfl
    have hmem : i.name ∈ names := (hnames i.name).mpr (hdefined m hm hid i.name hrefers)
    refine ⟨hmem, hfile, ?_⟩
    rw [hfile]
    exact hfiles i.name hmem

/-- An owner of a cat. The reference is to an identified cat; the definition of a cat has the one
property `key`. -/
def catOwner (key : String) : Document :=
  let cat : Tree := .object [
    ("$ref", .text "#/components/schemas/Cat"), ("properties", .object [("id", .object [])])]
  .ofTree (.object [("components", .object [("schemas", .object [
    ("Cat", .object [("properties", .object [(key, .object [])])]),
    ("Owner", .object [("properties", .object [
      ("id", .object []),
      ("pet", .object [
        ("oneOf", .array [cat]), ("discriminator", .object [("propertyName", .text "kind")])])])])])])])

def noFiles : Run := .ofFiles ⟨[], ⟨.root, []⟩⟩

theorem emitAll_imports_iff_catOwner : ∃ doc models names,
    (catOwner "id").prepare false = .ok doc ∧ doc.models plain.isV2 = .ok models ∧
      (plain.emitAll doc).result noFiles = .ok names ∧
      ∀ m ∈ models, ∀ d, doc.graph.blueprint plain.options (.scalar m.1) m.2 = .ok (some d) →
        ∀ i ∈ d.imports, i.name ∈ names ∧ i.file = fileName i.name ∧
          ((plain.emitAll doc).after noFiles).files.HasFile (plain.basePath i.file) := by
  obtain ⟨doc, hdoc⟩ : ∃ doc, (catOwner "id").prepare false = .ok doc := ⟨_, rfl⟩
  have hmodels : doc.models plain.isV2 =
      .ok [(.text "Cat", .node 3), (.text "Owner", .node 6)] := by
    cases hdoc
    rfl
  obtain ⟨names, hnames⟩ : ∃ names, (plain.emitAll doc).result noFiles = .ok names := by
    cases hdoc
    exact exists_ok_of_toBool (by decide +kernel)
  have hrefers : ∀ m ∈ [(Scalar.text "Cat", Value.node 3), (.text "Owner", .node 6)], ∀ name,
      doc.graph.RefersByName m.2 name → name = .text "Cat" := by
    cases hdoc
    intro m hm name h
    rcases List.mem_cons.mp hm with rfl | hm
    · obtain ⟨_, hfound, -⟩ := (Graph.refersByName_iff rfl rfl).mp h
      exact absurd hfound List.not_mem_nil
    · obtain rfl := List.mem_singleton.mp hm
      obtain ⟨_, hfound, rfl⟩ := (Graph.refersByName_iff rfl rfl).mp h
      obtain rfl := List.mem_singleton.mp hfound
      rfl
  have hcat : doc.graph.IsIdentified (.node 3) := by
    cases hdoc
    exact ⟨_, rfl⟩
  refine ⟨doc, _, names, hdoc, hmodels, hnames, ?_⟩
  refine (emitAll_imports_iff hmodels hnames ?_).mpr ?_
  · exact fun m hm _ name h => ⟨"Cat", hrefers m hm name h⟩
  · exact fun m hm _ name h => ⟨_, List.mem_cons_self, (hrefers m hm name h).symm, hcat⟩

theorem catOwner_dangling : ∃ doc models names,
    (catOwner "lives").prepare false = .ok doc ∧ doc.models plain.isV2 = .ok models ∧
      (plain.emitAll doc).result noFiles = .ok names ∧
      ∃ m ∈ models, ∃ d, doc.graph.blueprint plain.options (.scalar m.1) m.2 = .ok (some d) ∧
        ∃ i ∈ d.imports, i.name ∉ names := by
  obtain ⟨doc, hdoc⟩ : ∃ doc, (catOwner "lives").prepare false = .ok doc := ⟨_, rfl⟩
  have hmodels : doc.models plain.isV2 =
      .ok [(.text "Cat", .node 3), (.text "Owner", .node 6)] := by
    cases hdoc
    rfl
  obtain ⟨names, hnames⟩ : ∃ names, (plain.emitAll doc).result noFiles = .ok names := by
    cases hdoc
    exact exists_ok_of_toBool (by decide +kernel)
  have hcat : ¬ doc.graph.IsIdentified (.node 3) := by
    cases hdoc
    rintro ⟨name, h⟩
    cases h
  have howner : doc.graph.IsIdentified (.node 6) := by
    cases hdoc
    exact ⟨_, rfl⟩
  have hrefers : doc.graph.RefersByName (.node 6) (.text "Cat") := by
    cases hdoc
    exact (Graph.refersByName_iff rfl rfl).mpr ⟨_, List.mem_cons_self, rfl⟩
  obtain ⟨hblueprints, hgiven, -⟩ := emitAll_ok hmodels hnames
  have hmem : (Scalar.text "Owner", Value.node 6) ∈
      [(Scalar.text "Cat", Value.node 3), (.text "Owner", .node 6)] := by simp
  obtain ⟨d?, hd⟩ := hblueprints _ hmem
  obtain ⟨d, rfl⟩ := Option.isSome_iff_exists.mp ((Graph.blueprint_isIdentified hd).mpr howner)
  obtain ⟨i, hi, himport⟩ := ((Graph.blueprint_imports hd).2 "Cat" hrefers).resolve_left (by simp)
  refine ⟨doc, _, names, hdoc, hmodels, hnames, _, hmem, d, hd, i, hi, ?_⟩
  rw [himport, hgiven]
  rintro ⟨m, hm, hname, hid⟩
  rcases List.mem_cons.mp hm with rfl | hm
  · exact hcat hid
  · obtain rfl := List.mem_singleton.mp hm
    simp at hname

end Emitter

end ApiRecords
