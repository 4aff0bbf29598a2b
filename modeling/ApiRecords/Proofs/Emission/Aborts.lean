import ApiRecords.Proofs.Emission.Changes
import ApiRecords.Proofs.Expansion.Nesting

/-!
A run that a defective union ends. Every failure of a union is met before the first file of its model,
so that the run leaves what the models before it leave when they are written one by one.
-/

namespace ApiRecords

variable {α : Type} {fault : UnionFault} {e : Fault}

def failsForUnion : Except Fault α → Bool
  | .error (.union _) => true
  | _ => false

theorem failsForUnion_iff {x : Except Fault α} :
    failsForUnion x ↔ ∃ fault, x = .error (.union fault) := by
  unfold failsForUnion
  split <;> simp_all

/-! ### Failures of other kinds -/

theorem key?_error {t : Tree} (h : t.key? = .error e) : e = .notKey := by
  cases t <;> cases h <;> rfl

theorem elements_error {t : Tree} (h : t.elements = .error e) : e = .notIterable := by
  cases t with
  | scalar s => cases s <;> cases h <;> rfl
  | _ => cases h <;> rfl

theorem requiredField_error {entry : Tree} {name : String}
    (h : Source.requiredField entry name = .error e) : e = .missingField name := by
  unfold Source.requiredField at h
  split at h <;> cases h
  rfl

theorem models_ne_union (doc : Document) (v2 : Bool) : doc.models v2 ≠ .error (.union fault) := by
  intro h
  simp only [Document.models, Document.definitions, bind_error_iff, pure_ne_error, and_false,
    exists_false, or_false] at h
  rcases h with hroot | ⟨definitions, -, h⟩
  · rcases Document.schemaTable_error hroot with ⟨_, heq⟩ | ⟨heq, -⟩ <;> cases heq
  · obtain ⟨_, ⟨_, v⟩, _, found, -, -, hstep⟩ := foldlM_error h
    dsimp only at hstep
    split at hstep
    · simp only [bind_error_iff, pure_ne_error, and_false, exists_false, or_false] at hstep
      cases key?_error hstep
    · cases hstep

theorem index_ne_union (templates : Source.Templates) (date : Option String) (entries : Tree) :
    Source.index templates date entries ≠ .error (.union fault) := by
  unfold Source.index
  intro h
  split at h
  · cases h
  · simp only [bind_error_iff, pure_ne_error, and_false, exists_false, or_false] at h
    rcases h with helements | ⟨_, -, hitem⟩
    · cases elements_error helements
    · obtain ⟨entry, -, h⟩ := mapM_error hitem
      simp only [Source.indexItem, bind_error_iff, pure_ne_error, and_false, exists_false,
        or_false] at h
      rcases h with hname | ⟨_, -, hfile⟩
      · cases requiredField_error hname
      · cases requiredField_error hfile

namespace Emitter

theorem indexEntries_ne_union (names : Tree) : indexEntries names ≠ .error (.union fault) := by
  intro h
  simp only [indexEntries, bind_error_iff, pure_ne_error, and_false, exists_false, or_false] at h
  rcases h with helements | ⟨_, -, hkey⟩
  · cases elements_error helements
  · obtain ⟨_, -, hkey⟩ := mapM_error hkey
    cases key?_error hkey

end Emitter

namespace Action

theorem mapError_file_ne_union (x : Except FileFault Unit) :
    x.mapError Fault.file ≠ .error (.union fault) := by
  cases x <;> simp [Except.mapError]

theorem write_ne_union (p : Path) (s : String) (r : Run) :
    (write p (.text s)).result r ≠ .error (.union fault) := by
  rcases write_parts p s r with ⟨fault', -, hresult, -⟩ | ⟨-, hresult, -⟩
  · simp [hresult]
  · rw [hresult]
    exact mapError_file_ne_union _

theorem once_ne_union (p : Path) (s notice : String) (x : α) (r : Run) :
    (once p s notice x).result r ≠ .error (.union fault) := by
  by_cases hexists : r.files.exists? p
  · simp [(once_of_exists s notice x hexists).1]
  · rw [(once_of_not_exists s notice x hexists).1]
    exact mt map_error_iff.mp (write_ne_union p s r)

end Action

namespace Emitter

open ApiRecords.Action

variable {emitter : Emitter} {g : Graph} {name : Tree} {model : Value} {r : Run} {doc : Document}
  {models : List (Scalar × Value)}

/-! ### The model with the union -/

/-- A model fails for a union only while its blueprint is made, when nothing has been written. -/
theorem emitModel_union (h : (emitter.emitModel g name model).result r = .error (.union fault)) :
    g.blueprint emitter.options name model = .error (.union fault) ∧
      ∀ r, ((emitter.emitModel g name model).after r).files = r.files := by
  by_cases hsome : ∃ d, g.blueprint emitter.options name model = .ok (some d)
  · obtain ⟨d, hd⟩ := hsome
    rw [(emitModel_identified hd r).1] at h
    rcases bind_result_error.mp h with hbase | ⟨_, -, hoverride⟩
    · rcases bind_result_error.mp hbase with hnotices | ⟨_, -, hbase⟩
      · cases hnotices
      · rcases bind_result_error.mp hbase with htext | ⟨text, -, hwrite⟩
        · cases htext
        · exact absurd hwrite (write_ne_union _ text _)
    · rcases bind_result_error.mp hoverride with htext | ⟨text, -, honce⟩
      · cases htext
      · exact absurd honce (once_ne_union _ text _ _ _)
  · have hnone : ∀ d, g.blueprint emitter.options name model ≠ .ok (some d) :=
      fun d hd => hsome ⟨d, hd⟩
    refine ⟨?_, fun r => ?_⟩
    · rw [(emitModel_without_blueprint hnone r).1] at h
      exact map_error_iff.mp h
    · rw [(emitModel_without_blueprint hnone r).2]
      rfl

theorem emitIndex_ne_union (names : Tree) (r : Run) :
    (emitter.emitIndex names).result r ≠ .error (.union fault) := by
  intro h
  rcases bind_result_error.mp h with hentries | ⟨entries, -, h⟩
  · exact absurd hentries (indexEntries_ne_union names)
  rcases bind_result_error.mp h with htemplates | ⟨templates, -, h⟩
  · cases htemplates
  rcases bind_result_error.mp h with hitems | ⟨items, -, h⟩
  · exact absurd hitems (index_ne_union _ _ _)
  rcases bind_result_error.mp h with hwrite | ⟨_, -, hpure⟩
  · exact absurd hwrite (write_ne_union _ _ _)
  · cases hpure

/-! ### The models before it -/

/-- Models fail in a row where one of them does, after those before it did not. -/
theorem emitModels_error (h : (emitter.emitModels g models).result r = .error e) :
    ∃ before m after names, models = before ++ m :: after ∧
      (emitter.emitModels g before).result r = .ok names ∧
      let r' := (emitter.emitModels g before).after r
      (emitter.emitModel g (.scalar m.1) m.2).result r' = .error e ∧
        (emitter.emitModels g models).after r = (emitter.emitModel g (.scalar m.1) m.2).after r' := by
  induction models generalizing r with
  | nil => cases h
  | cons m models ih =>
    cases hm : (emitter.emitModel g (.scalar m.1) m.2).result r with
    | error e' =>
      rw [emitModels, (bind_of_error hm).1] at h
      obtain rfl := Except.error.inj h
      exact ⟨[], m, models, [], rfl, rfl, hm, (bind_of_error hm).2⟩
    | ok written =>
      obtain ⟨hresult, hafter⟩ := emitModels_cons models hm
      rw [hresult] at h
      obtain ⟨before, m', after, names, rfl, hbefore, herror, hrest⟩ := ih (map_error_iff.mp h)
      obtain ⟨hresult', hafter'⟩ := emitModels_cons before hm
      rw [hbefore] at hresult'
      exact ⟨m :: before, m', after, _, rfl, hresult', hafter' ▸ herror,
        hafter' ▸ hafter.trans hrest⟩

/-- Models that are written in a row without a failure leave what they leave when they are written one
by one. -/
theorem emitModels_eq_calls {names : List Tree}
    (h : (emitter.emitModels g models).result r = .ok names) :
    (emitter.emitModels g models).after r =
      emitter.calls (models.map fun m => .model g (.scalar m.1) m.2) r := by
  induction models generalizing r names with
  | nil => rfl
  | cons m models ih =>
    obtain ⟨written, rest, -, hrest, -, hafter⟩ := emitModels_cons_ok h
    rw [hafter, ih hrest]
    rfl

/-- A run that ends for a defective union leaves just what the models before the one with the union
leave, each written in turn without a failure: nothing of that model or of a later one, no index, and no
spare file. -/
theorem emitAll_union_aborts (h : (emitter.emitAll doc).result r = .error (.union fault)) :
    ∃ before m after, doc.models emitter.isV2 = .ok (before ++ m :: after) ∧
      doc.graph.blueprint emitter.options (.scalar m.1) m.2 = .error (.union fault) ∧
      (∃ names, (emitter.emitModels doc.graph before).result r = .ok names) ∧
      ((emitter.emitAll doc).after r).files =
        (emitter.calls (before.map fun m => .model doc.graph (.scalar m.1) m.2) r).files ∧
      (r.files.WellFormed → ∀ q,
        ((emitter.emitAll doc).after r).files.content? q ≠ r.files.content? q →
        ∃ name model r', Turn emitter doc.graph before r name model r' ∧
          Announced emitter doc.graph name model r' q) := by
  unfold emitAll at h ⊢
  rcases bind_result_error.mp h with hmodels | ⟨models, hmodels, h⟩
  · exact absurd hmodels (models_ne_union doc emitter.isV2)
  rw [(bind_of_ok hmodels).2]
  rcases bind_result_error.mp h with h | ⟨names, -, h⟩
  · obtain ⟨before, m, after, names, rfl, hbefore, herror, hafter⟩ := emitModels_error h
    obtain ⟨hblueprint, hfiles⟩ := emitModel_union herror
    rw [(bind_of_error h).2, hafter, hfiles]
    refine ⟨before, m, after, hmodels, hblueprint, ⟨names, hbefore⟩, ?_, fun hr q hq => ?_⟩
    · exact congrArg Run.files (emitModels_eq_calls hbefore)
    · exact (alters_emitModels hr before).content q hq
  · rcases bind_result_error.mp h with hindex | ⟨_, -, h⟩
    · exact absurd hindex (emitIndex_ne_union _ _)
    · rcases bind_result_error.mp h with hnotify | ⟨_, -, hpure⟩
      · cases hnotify
      · cases hpure

/-- A tag, and an owner of a pet that is always a cat, whose records nothing identifies. -/
def tagAndOwner : Document :=
  .ofTree (.object [("components", .object [("schemas", .object [
    ("Tag", .object [("properties", .object [("id", .object [])])]),
    ("Owner", .object [("properties", .object [
      ("id", .object []),
      ("pet", .object [
        ("oneOf", .array [.object [("x-model-name", .text "Cat")]]),
        ("discriminator", .object [("propertyName", .text "kind")])])])])])])])

theorem emitAll_union_aborts_tagAndOwner : ∃ doc fault, tagAndOwner.prepare false = .ok doc ∧
    (plain.emitAll doc).result noFiles = .error (.union fault) ∧
    ∃ before m after, doc.models plain.isV2 = .ok (before ++ m :: after) ∧
      doc.graph.blueprint plain.options (.scalar m.1) m.2 = .error (.union fault) ∧
      ((plain.emitAll doc).after noFiles).files =
        (plain.calls (before.map fun m => .model doc.graph (.scalar m.1) m.2) noFiles).files ∧
      ∀ q, ((plain.emitAll doc).after noFiles).files.content? q ≠ noFiles.files.content? q →
        ∃ name model r', Turn plain doc.graph before noFiles name model r' ∧
          Announced plain doc.graph name model r' q := by
  obtain ⟨doc, hdoc⟩ : ∃ doc, tagAndOwner.prepare false = .ok doc := ⟨_, rfl⟩
  obtain ⟨fault, herror⟩ : ∃ fault, (plain.emitAll doc).result noFiles = .error (.union fault) := by
    cases hdoc
    exact failsForUnion_iff.mp (by decide +kernel)
  obtain ⟨before, m, after, hmodels, hblueprint, -, hfiles, hchanged⟩ := emitAll_union_aborts herror
  exact ⟨doc, _, hdoc, herror, before, m, after, hmodels, hblueprint, hfiles,
    hchanged wellFormed_noFiles⟩

end Emitter

end ApiRecords
