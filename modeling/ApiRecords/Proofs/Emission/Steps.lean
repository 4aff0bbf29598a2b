import ApiRecords.Emission.Emitter
import ApiRecords.Proofs.Emission.Actions

/-!
The steps of a run of the generator: what is done for one model, for a row of models, and for all models
of a document.
-/

namespace ApiRecords.Emitter

open ApiRecords.Action

variable {emitter : Emitter} {g : Graph} {name : Tree} {model : Value} {d : Blueprint} {r : Run}
  {models : List (Scalar × Value)} {names : List Tree}

/-! ### One model -/

/-- What is done for a model before its override file: notices are given, and the base file is
written. -/
def emitBase (emitter : Emitter) (g : Graph) (name : Tree) (model : Value) (d : Blueprint) :
    Action Unit := do
  notifyAll (g.notices name model)
  write (emitter.basePath d.fileName) (.text (← emitter.baseText d))

def emitOverride (emitter : Emitter) (name : Tree) (d : Blueprint) : Action (Option Tree) := do
  let path := emitter.overridePath d.fileName
  once path (← emitter.overrideText d) ("Created override model " ++ path.text) (some name)

theorem emitModel_identified (hd : g.blueprint emitter.options name model = .ok (some d)) (r : Run) :
    let parts := emitter.emitBase g name model d >>= fun _ => emitter.emitOverride name d
    (emitter.emitModel g name model).result r = parts.result r ∧
      (emitter.emitModel g name model).after r = parts.after r := by
  intro parts
  have hnotices : (notifyAll (g.notices name model)).result r = .ok () := rfl
  have hlift : (liftM (g.blueprint emitter.options name model) : Action _).result
      ((notifyAll (g.notices name model)).after r) = .ok (some d) := hd
  have hparts : parts = (do
      notifyAll (g.notices name model)
      let text ← emitter.baseText d
      write (emitter.basePath d.fileName) (.text text)
      emitter.emitOverride name d) := by
    simp only [parts, emitBase, bind_assoc]
  rw [hparts, (bind_of_ok hnotices).1, (bind_of_ok hnotices).2, emitModel, (bind_of_ok hnotices).1,
    (bind_of_ok hnotices).2, (bind_of_ok hlift).1, (bind_of_ok hlift).2]
  exact ⟨rfl, rfl⟩

/-- Without a blueprint nothing is written, whether for a failure or for want of an identity. -/
theorem emitModel_without_blueprint
    (hnone : ∀ d, g.blueprint emitter.options name model ≠ .ok (some d)) (r : Run) :
    (emitter.emitModel g name model).result r =
        (g.blueprint emitter.options name model).map (fun _ => none) ∧
      (emitter.emitModel g name model).after r = (notifyAll (g.notices name model)).after r := by
  have hnotices : (notifyAll (g.notices name model)).result r = .ok () := rfl
  rw [emitModel, (bind_of_ok hnotices).1, (bind_of_ok hnotices).2]
  cases hd : g.blueprint emitter.options name model with
  | error e => exact ⟨rfl, rfl⟩
  | ok d? =>
    cases d? with
    | none => exact ⟨rfl, rfl⟩
    | some d => exact absurd hd (hnone d)

/-- The steps of a model whose turn ends well. -/
theorem emitModel_steps {written : Option Tree}
    (h : (emitter.emitModel g name model).result r = .ok written) :
    (∃ d, g.blueprint emitter.options name model = .ok (some d) ∧ written = some name ∧
        let r' := (emitter.emitBase g name model d).after r
        (emitter.emitBase g name model d).result r = .ok () ∧
          (emitter.emitOverride name d).result r' = .ok (some name) ∧
          (emitter.emitModel g name model).after r = (emitter.emitOverride name d).after r') ∨
      g.blueprint emitter.options name model = .ok none ∧ written = none ∧
        (emitter.emitModel g name model).after r = (notifyAll (g.notices name model)).after r := by
  by_cases hsome : ∃ d, g.blueprint emitter.options name model = .ok (some d)
  · obtain ⟨d, hd⟩ := hsome
    obtain ⟨hresult, hafter⟩ := emitModel_identified hd r
    rw [hresult] at h
    obtain ⟨⟨⟩, hbase, hoverride⟩ := bind_result_ok.mp h
    obtain ⟨text, htext, honce⟩ := bind_result_ok.mp hoverride
    obtain ⟨rfl, -⟩ := once_ok honce
    rw [(bind_of_ok hbase).2] at hafter
    exact .inl ⟨d, hd, rfl, hbase, hoverride, hafter⟩
  · obtain ⟨hresult, hafter⟩ := emitModel_without_blueprint (fun d hd => hsome ⟨d, hd⟩) r
    rw [hresult] at h
    obtain ⟨d?, hd, rfl⟩ := (map_ok_iff ..).mp h
    cases d? with
    | none => exact .inr ⟨hd, rfl, hafter⟩
    | some d => exact absurd ⟨d, hd⟩ hsome

/-- The base file holds the text that was made for it. -/
theorem emitBase_ok (h : (emitter.emitBase g name model d).result r = .ok ()) :
    ∃ text, (emitter.baseText d).result r = .ok text ∧
      ((emitter.emitBase g name model d).after r).files.read (emitter.basePath d.fileName) =
        .ok text := by
  unfold emitBase at h ⊢
  obtain ⟨⟨⟩, hnotices, h⟩ := bind_result_ok.mp h
  obtain ⟨text, htext, hwrite⟩ := bind_result_ok.mp h
  rw [(bind_of_ok hnotices).2, (bind_of_ok htext).2]
  exact ⟨text, htext, write_ok hwrite⟩

/-! ### Models in a row -/

theorem emitModels_cons (models : List (Scalar × Value)) {m : Scalar × Value}
    {written : Option Tree} (hm : (emitter.emitModel g (.scalar m.1) m.2).result r = .ok written) :
    let r' := (emitter.emitModel g (.scalar m.1) m.2).after r
    (emitter.emitModels g (m :: models)).result r =
        ((emitter.emitModels g models).result r').map ((written.filter Tree.truthy).toList ++ ·) ∧
      (emitter.emitModels g (m :: models)).after r = (emitter.emitModels g models).after r' := by
  intro r'
  rw [emitModels, (bind_of_ok hm).1, (bind_of_ok hm).2]
  cases h : (emitter.emitModels g models).result r' with
  | ok rest =>
    rw [(bind_of_ok h).1, (bind_of_ok h).2]
    exact ⟨rfl, rfl⟩
  | error e =>
    rw [(bind_of_error h).1, (bind_of_error h).2]
    exact ⟨rfl, rfl⟩

/-- The steps of a row of models that ends well. -/
theorem emitModels_cons_ok {m : Scalar × Value}
    (h : (emitter.emitModels g (m :: models)).result r = .ok names) :
    ∃ written rest, (emitter.emitModel g (.scalar m.1) m.2).result r = .ok written ∧
      (emitter.emitModels g models).result ((emitter.emitModel g (.scalar m.1) m.2).after r) =
        .ok rest ∧
      names = (written.filter Tree.truthy).toList ++ rest ∧
      (emitter.emitModels g (m :: models)).after r =
        (emitter.emitModels g models).after ((emitter.emitModel g (.scalar m.1) m.2).after r) := by
  obtain ⟨written, hwritten, -⟩ := bind_result_ok.mp h
  obtain ⟨hresult, hafter⟩ := emitModels_cons models hwritten
  rw [hresult] at h
  obtain ⟨rest, hrest, hnames⟩ := (map_ok_iff ..).mp h
  exact ⟨written, rest, hwritten, hrest, hnames.symm, hafter⟩

/-! ### All models -/

/-- The steps of a run that ends well: the models, the index, and a notice of their number. -/
theorem emitAll_steps {doc : Document} (hmodels : doc.models emitter.isV2 = .ok models)
    (h : (emitter.emitAll doc).result r = .ok names) :
    let r' := (emitter.emitModels doc.graph models).after r
    let r'' := (emitter.emitIndex (.array names)).after r'
    (emitter.emitModels doc.graph models).result r = .ok names ∧
      (∃ path, (emitter.emitIndex (.array names)).result r' = .ok path) ∧
      (emitter.emitAll doc).after r = (notify .info ("Generated " ++ toString names.length ++
        " models in " ++ emitter.outputFolder.text)).after r'' := by
  unfold emitAll at h ⊢
  obtain ⟨models', hmodels', h⟩ := bind_result_ok.mp h
  obtain rfl : models = models' := Except.ok.inj (hmodels.symm.trans hmodels')
  obtain ⟨written, hwritten, h⟩ := bind_result_ok.mp h
  obtain ⟨path, hindex, h⟩ := bind_result_ok.mp h
  obtain ⟨⟨⟩, hnotice, h⟩ := bind_result_ok.mp h
  obtain rfl := Except.ok.inj h
  rw [(bind_of_ok hmodels').2, (bind_of_ok hwritten).2, (bind_of_ok hindex).2]
  exact ⟨hwritten, ⟨path, hindex⟩, rfl⟩

end ApiRecords.Emitter
