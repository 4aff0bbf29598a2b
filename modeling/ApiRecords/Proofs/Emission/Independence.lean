import ApiRecords.Proofs.Emission.Filling
import ApiRecords.Proofs.Emission.Reports
import ApiRecords.Proofs.Reordering.Definitions

/-!
Runs over one document in two orders of its definitions. Each file holds what was made for its model
alone, so that the order of the models shows in the index only.
-/

namespace ApiRecords

open FileSystem

namespace Graph.SameOn

variable {kept : Value → Prop} {g g' : Graph}

theorem isIdentified (h : g.SameOn kept g') {v : Value} (hv : kept v) :
    g'.isIdentified v = g.isIdentified v := by
  rw [Graph.isIdentified, h.identity hv, Graph.isIdentified]

theorem texts? (h : g.SameOn kept g') {emitter : Emitter} {r : Run} {m : Scalar × Value}
    (hm : kept m.2) : emitter.texts? g' r m = emitter.texts? g r m := by
  rw [Emitter.texts?, h.blueprint hm, Emitter.texts?]

end Graph.SameOn

namespace Emitter

open ApiRecords.Action

variable {emitter : Emitter} {t : Texts} {g : Graph} {r : Run} {doc : Document}
  {models : List (Scalar × Value)} {names names' : List Tree} {id : Nat}
  {definitions members : List (String × Value)}

theorem texts?_stem {m : Scalar × Value} (h : emitter.texts? g r m = some t) :
    t.stem = fileName (.scalar m.1) := by
  unfold texts? at h
  split at h
  · rw [← Option.some.inj h]
  · cases h

theorem stems_sublist (models : List (Scalar × Value)) :
    ((models.filterMap (emitter.texts? g r)).map Texts.stem).Sublist
      (models.map fun m => fileName (.scalar m.1)) := by
  induction models with
  | nil => exact .slnil
  | cons m models ih =>
    cases hm : emitter.texts? g r m with
    | none =>
      rw [List.filterMap_cons_none hm]
      exact ih.cons _
    | some t =>
      rw [List.filterMap_cons_some hm, List.map_cons, List.map_cons, texts?_stem hm]
      exact ih.cons_cons _

/-- A run that ends well, by the texts of its models. -/
theorem emitAll_files {written : Place → Prop} (hr : r.files.WellFormed)
    (hapart : emitter.PartsApart r.files written)
    (hdefinitions : doc.definitions emitter.isV2 = .ok definitions)
    (htexts : doc.graph.NamedByTexts definitions)
    (hnodup : ((doc.graph.named definitions).map Prod.fst).Nodup)
    (hwritten : ∀ d ∈ doc.graph.named definitions, ∀ q,
      emitter.IsModelPlace r.files.current (Text.snakeCase d.1) q → written q)
    (h : (emitter.emitAll doc).result r = .ok names) :
    let named := doc.graph.named definitions
    let texts := (named.filter fun d => doc.graph.isIdentified d.2).map Prod.fst
    let models := named.map fun d => (Scalar.text d.1, d.2)
    names = texts.map .text ∧ ∃ fs,
      (models.filterMap (emitter.texts? doc.graph r)).foldlM emitter.putModel r.files = .ok fs ∧
      fs.write emitter.indexPath (emitter.indexText r texts) =
        .ok ((emitter.emitAll doc).after r).files := by
  intro named texts models
  have hmodels := Document.models_of_nodup hdefinitions htexts hnodup
  obtain ⟨hresult, ⟨path, hindex⟩, hafter⟩ := emitAll_steps hmodels h
  have hnames : names = texts.map .text := by
    rw [emitModels_names hresult (models_truthy hmodels), List.filter_map, List.map_map, List.map_map]
    rfl
  have hwritten : ∀ m ∈ models, ∀ q,
      emitter.IsModelPlace r.files.current (fileName (.scalar m.1)) q → written q :=
    List.forall_mem_map.mpr hwritten
  obtain ⟨hkept, hput⟩ := emitModels_files (partsKept_refl hr) hr hapart hwritten hresult
  refine ⟨hnames, _, hput, ?_⟩
  have htexts : texts.Nodup := hnodup.sublist (List.filter_sublist.map Prod.fst)
  rw [hafter, files_notify]
  rw [hnames] at hindex ⊢
  have hwrite := emitIndex_files htexts hindex
  rw [indexText, hkept.templatesAt hr hapart] at hwrite
  exact hwrite

/-! ### Definitions in another order -/

/-- Whether a run may be compared with one over the same definitions in the order `members`: the files
of different models have different names, in two different folders. -/
structure Reorders (emitter : Emitter) (r : Run) (doc : Document) (id : Nat)
    (definitions members : List (String × Value)) : Prop where
  files : r.files.WellFormed
  folders : Path.placeFrom r.files.current emitter.outputFolder ≠
    Path.placeFrom r.files.current emitter.baseFolder
  extension : '/' ∉ emitter.fileExtension.display.toList
  defined : doc.DefinedAt emitter.isV2 id definitions
  texts : doc.graph.NamedByTexts definitions
  stems : ((doc.graph.named definitions).map fun d => Text.snakeCase d.1).Nodup
  index : "index" ∉ (doc.graph.named definitions).map fun d => Text.snakeCase d.1
  perm : members.Perm definitions

/-- Two definitions, and the same two the other way round. -/
theorem reorders_two {a b : String} {v w : Value} (hr : r.files.WellFormed)
    (hfolders : Path.placeFrom r.files.current emitter.outputFolder ≠
      Path.placeFrom r.files.current emitter.baseFolder)
    (hext : '/' ∉ emitter.fileExtension.display.toList)
    (hdefined : doc.DefinedAt emitter.isV2 id [(a, v), (b, w)])
    (hv : doc.graph.nameOf? v = some a) (hw : doc.graph.nameOf? w = some b)
    (hstems : ["index", Text.snakeCase a, Text.snakeCase b].Nodup) :
    emitter.Reorders r doc id [(a, v), (b, w)] [(b, w), (a, v)] := by
  have hnamed : doc.graph.named [(a, v), (b, w)] = [(a, v), (b, w)] := by
    simp [Graph.named, hv, hw]
  obtain ⟨hindex, hstems⟩ := List.nodup_cons.mp hstems
  refine ⟨hr, hfolders, hext, hdefined, ?_, ?_, ?_, .swap ..⟩
  · intro d hd _
    simp only [List.mem_cons, List.not_mem_nil, or_false] at hd
    rcases hd with rfl | rfl
    · exact ⟨a, (Graph.nameOf?_eq_some.mp hv).1⟩
    · exact ⟨b, (Graph.nameOf?_eq_some.mp hw).1⟩
  · rw [hnamed]
    exact hstems
  · rw [hnamed]
    exact hindex

/-- In another order, the same texts are made for the models. -/
theorem Reorders.texts_perm (h : emitter.Reorders r doc id definitions members)
    (hapart : ∀ d ∈ definitions, ¬ doc.graph.Encloses d.2 (.node id)) :
    let doc' := doc.withMembers id members
    (((doc.graph.named definitions).map fun d => (Scalar.text d.1, d.2)).filterMap
      (emitter.texts? doc.graph r)).Perm
      (((doc'.graph.named members).map fun d => (Scalar.text d.1, d.2)).filterMap
        (emitter.texts? doc'.graph r)) := by
  have hsame := h.defined.sameOn members
  have hkept := h.defined.apart_of_named h.perm hapart
  have hnamed := h.defined.named_withMembers h.perm hapart
  intro doc'
  rw [List.filterMap_congr (List.forall_mem_map.mpr fun d hd => hsame.texts? (hkept d hd))]
  exact ((hnamed.map _).filterMap _).symm

/-- In another order, the same models have an identity. -/
theorem Reorders.identified_perm (h : emitter.Reorders r doc id definitions members)
    (hapart : ∀ d ∈ definitions, ¬ doc.graph.Encloses d.2 (.node id)) :
    let doc' := doc.withMembers id members
    ((doc.graph.named definitions).filter fun d => doc.graph.isIdentified d.2).Perm
      ((doc'.graph.named members).filter fun d => doc'.graph.isIdentified d.2) := by
  have hsame := h.defined.sameOn members
  have hkept := h.defined.apart_of_named h.perm hapart
  have hnamed := h.defined.named_withMembers h.perm hapart
  intro doc'
  rw [List.filter_congr fun d hd => hsame.isIdentified (hkept d hd)]
  exact (hnamed.filter _).symm

/-- Whether two runs that end well leave the same at every place but that of the index, and give back
the same names in some order. The two indices are the same but for this order of their lines. -/
def SameButOrder (emitter : Emitter) (r : Run) (doc doc' : Document) : Prop :=
  ∀ names names', (emitter.emitAll doc).result r = .ok names →
    (emitter.emitAll doc').result r = .ok names' →
    let final := ((emitter.emitAll doc).after r).files
    let final' := ((emitter.emitAll doc').after r).files
    (∀ q, q ≠ Path.placeFrom r.files.current emitter.indexPath → final.get? q = final'.get? q) ∧
      ∃ texts texts' : List String, names = texts.map .text ∧ names' = texts'.map .text ∧
        texts.Perm texts' ∧ final.read emitter.indexPath = .ok (emitter.indexText r texts) ∧
        final'.read emitter.indexPath = .ok (emitter.indexText r texts')

/-- Whether definitions can be put in an order that leaves other files than that of a document does. -/
def OrderShows (emitter : Emitter) (r : Run) (doc : Document) : Prop :=
  ∃ id definitions members, emitter.Reorders r doc id definitions members ∧
    ¬ emitter.SameButOrder r doc (doc.withMembers id members)

theorem Reorders.orderShows (h : emitter.Reorders r doc id definitions members) {γ : Type} (q : Place)
    (tell : Option String → γ)
    (hresult : ((emitter.emitAll doc).result r).toBool)
    (hresult' : ((emitter.emitAll (doc.withMembers id members)).result r).toBool)
    (hq : q ≠ Path.placeFrom r.files.current emitter.indexPath)
    (hne : tell (((emitter.emitAll doc).after r).files.content? q) ≠
      tell (((emitter.emitAll (doc.withMembers id members)).after r).files.content? q)) :
    emitter.OrderShows r doc := by
  refine ⟨id, definitions, members, h, fun hsame => ?_⟩
  obtain ⟨names, hnames⟩ := exists_ok_of_toBool hresult
  obtain ⟨names', hnames'⟩ := exists_ok_of_toBool hresult'
  have hget := (hsame names names' hnames hnames').1 q hq
  exact hne (by rw [content?, hget, content?])

/-- A model of all that the document is made of, its own definition included. -/
def catalogAndPet : Document :=
  .ofTree (.object [("components", .object [("schemas", .object [
    ("Catalog", .object [("properties", .object [("id", .object []),
      ("all", .object [("$ref", .text "#/components")])])]),
    ("Pet", .object [("properties", .object [("id", .object [])])])])])])

/-- What leads back to the definitions lists them in their order. -/
theorem orderShows_catalogAndPet :
    ∃ doc, catalogAndPet.prepare false = .ok doc ∧ plain.OrderShows noFiles doc := by
  obtain ⟨doc, hdoc⟩ : ∃ doc, catalogAndPet.prepare false = .ok doc := ⟨_, rfl⟩
  have hreorders : plain.Reorders noFiles doc 2 [("Catalog", .node 3), ("Pet", .node 7)]
      [("Pet", .node 7), ("Catalog", .node 3)] := by
    cases hdoc
    exact reorders_two wellFormed_noFiles (by decide) (by decide) ⟨rfl, rfl, by decide⟩
      (by decide +kernel) (by decide +kernel) (by decide +kernel)
  refine ⟨doc, hdoc, ?_⟩
  cases hdoc
  exact hreorders.orderShows ["out", "base", "catalog.js"] (fun c => c) (by decide +kernel)
    (by decide +kernel) (by decide) (by decide +kernel)

/-- A model named like a part of a template, and one that has this part. -/
def oneOfAndPet : Document :=
  .ofTree (.object [("components", .object [("schemas", .object [
    ("OneOf", .object [("properties", .object [("id", .object [])])]),
    ("Pet", .object [("properties", .object [("id", .object []),
      ("owner", .object [("oneOf", .array [.object [("$ref", .text "#/components/schemas/OneOf")]]),
        ("discriminator", .object [("propertyName", .text "kind")])])])])])])])

/-- Override files in the folder of templates, with a template of one line for each. -/
def amongTemplates : Emitter :=
  { plain with
    outputFolder := .ofText "templates"
    baseFolder := .ofText "gen"
    templateFolder := some (.ofText "templates")
    wholeFiles := ⟨fun part => if part = .override then some "own" else none⟩
    fileExtension := .text ".js.jinja2" }

def ownOverride : Run :=
  .ofFiles ⟨[(["templates"], .folder), (["templates", "override.js.jinja2"], .file "own")], ⟨.root, []⟩⟩

/-- An override file that stands where a part of a template is looked for shows in the models after
it. -/
theorem orderShows_oneOfAndPet :
    ∃ doc, oneOfAndPet.prepare false = .ok doc ∧ amongTemplates.OrderShows ownOverride doc := by
  obtain ⟨doc, hdoc⟩ : ∃ doc, oneOfAndPet.prepare false = .ok doc := ⟨_, rfl⟩
  have hreorders : amongTemplates.Reorders ownOverride doc 2 [("OneOf", .node 3), ("Pet", .node 6)]
      [("Pet", .node 6), ("OneOf", .node 3)] := by
    cases hdoc
    exact reorders_two (wellFormed_of_around rfl (by decide)) (by decide) (by decide)
      ⟨rfl, rfl, by decide⟩ (by decide +kernel) (by decide +kernel) (by decide +kernel)
  refine ⟨doc, hdoc, ?_⟩
  cases hdoc
  exact hreorders.orderShows ["gen", "pet.js.jinja2"] (·.map String.utf8ByteSize)
    (by decide +kernel) (by decide +kernel) (by decide) (by decide +kernel)

def customHeadAndPet : Run :=
  .ofFiles ⟨[(["out"], .folder), (["out", "head.js"], .file "custom"),
    (["out", "pet.js"], .file "custom")], ⟨.root, []⟩⟩

/-- The first override file takes the place of custom code, the second does not: the folder to go back
from is there by then. -/
theorem orderShows_headAndPet :
    ∃ doc, (twoModels "Head" "Pet").prepare false = .ok doc ∧
      beside.OrderShows customHeadAndPet doc := by
  obtain ⟨doc, hdoc⟩ : ∃ doc, (twoModels "Head" "Pet").prepare false = .ok doc := ⟨_, rfl⟩
  have hreorders : beside.Reorders customHeadAndPet doc 2 [("Head", .node 3), ("Pet", .node 6)]
      [("Pet", .node 6), ("Head", .node 3)] := by
    cases hdoc
    exact reorders_two (wellFormed_of_around rfl (by decide)) (by decide) (by decide)
      ⟨rfl, rfl, by decide⟩ (by decide +kernel) (by decide +kernel) (by decide +kernel)
  refine ⟨doc, hdoc, ?_⟩
  cases hdoc
  exact hreorders.orderShows ["out", "pet.js"] (·.map String.utf8ByteSize) (by decide +kernel)
    (by decide +kernel) (by decide) (by decide +kernel)

end Emitter

end ApiRecords
