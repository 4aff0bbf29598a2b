import ApiRecords.Proofs.Emission.Repetition
import ApiRecords.Proofs.Files.Contents

/-!
Which files a row of calls changes, whether the calls fail or not: the base files of models with an
identity, their override files where nothing was found, and the index. Spare files do not stay.
-/

namespace ApiRecords

/-- Whether nothing is found at a path, and nothing stands there unless the path leads back out of a
folder that is missing. -/
structure FileSystem.Vacant (fs : FileSystem) (p : Path) : Prop where
  notFound : ¬ fs.exists? p
  nothing : fs.Direct p → fs.get? (Path.placeFrom fs.current p) = none

open FileSystem

namespace Action

variable {α β : Type} {a : Action α} {b : Action β} {next : α → Action β} {r : Run} {p : Path} {q : Place}
  {s notice : String} {x : α} {changed changed' : Place → Prop}

/-- Whether an action, failed or not, changes contents of files only at the places `changed`. -/
structure Alters (changed : Place → Prop) (a : Action α) (r : Run) : Prop where
  later : Later r.files (a.after r).files
  content : ∀ q, (a.after r).files.content? q ≠ r.files.content? q → changed q

theorem alters_of_files (hr : r.files.WellFormed) (h : ∀ r, (a.after r).files = r.files) :
    Alters changed a r := by
  refine ⟨(h r).symm ▸ .refl hr, fun q hq => ?_⟩
  rw [h] at hq
  exact absurd rfl hq

theorem Alters.mono (h : Alters changed a r) (himp : ∀ q, changed q → changed' q) :
    Alters changed' a r :=
  ⟨h.later, fun q hq => himp q (h.content q hq)⟩

theorem Alters.of_files_eq (hb : Alters changed b r) (h : (a.after r).files = (b.after r).files) :
    Alters changed a r :=
  ⟨h ▸ hb.later, h ▸ hb.content⟩

theorem Alters.bind (ha : Alters changed a r)
    (hnext : ∀ x, a.result r = .ok x → Later r.files (a.after r).files →
      Alters changed (next x) (a.after r)) : Alters changed (a >>= next) r := by
  cases h : a.result r with
  | error e =>
    obtain ⟨-, hafter⟩ : (a >>= next).result r = .error e ∧
        (a >>= next).after r = a.after r := bind_of_error h
    exact ⟨hafter ▸ ha.later, hafter ▸ ha.content⟩
  | ok x =>
    have hafter : (a >>= next).after r = (next x).after (a.after r) := (bind_of_ok h).2
    have hx := hnext x h ha.later
    refine ⟨hafter ▸ ha.later.trans hx.later, fun q hq => ?_⟩
    rw [hafter] at hq
    by_cases hfirst : (a.after r).files.content? q = r.files.content? q
    · exact hx.content q (hfirst ▸ hq)
    · exact ha.content q hfirst

theorem alters_bind_of_files (hr : r.files.WellFormed) (ha : ∀ r, (a.after r).files = r.files)
    (hnext : ∀ x r', r'.files = r.files → Alters changed (next x) r') :
    Alters changed (a >>= next) r :=
  (alters_of_files hr ha).bind fun x _ _ => hnext x _ (ha r)

theorem alters_bind_lift {y : Except Fault α} (hr : r.files.WellFormed)
    (hnext : ∀ x, y = .ok x → Alters changed (next x) r) :
    Alters changed ((liftM y : Action α) >>= next) r :=
  (alters_of_files hr fun _ => rfl).bind fun x hx _ => hnext x hx

/-! ### One file -/

/-- Writing a file changes what is at its place, and nothing else that is there. -/
theorem write_content (hr : r.files.WellFormed)
    (hq : ((write p (.text s)).after r).files.content? q ≠ r.files.content? q) :
    q = Path.placeFrom r.files.current p ∧ ¬ Unnameable p := by
  have hlater := makeFolders_later hr p.parent
  rcases write_parts p s r with ⟨fault, -, -, hafter⟩ | ⟨hmade, -, hafter⟩
  · rw [hafter, content?_makeFolders hr] at hq
    exact absurd rfl hq
  · have hget := (putFile_spec hlater.wellFormed (makeFolders_find hr hmade) s).2 q
    rw [hlater.keeps.current] at hget
    rw [hafter, ← content?_makeFolders hr p.parent q] at hq
    by_cases hput : (r.files.makeFolders p.parent).1.putOutcome p = .ok () ∧
        q = Path.placeFrom r.files.current p
    · refine ⟨hput.2, fun hname => ?_⟩
      rw [putOutcome, if_pos hname] at hput
      cases hput.1
    · rw [if_neg hput] at hget
      simp only [content?, hget] at hq
      exact absurd rfl hq

theorem write_later (hr : r.files.WellFormed) (p : Path) (s : String) :
    Later r.files ((write p (.text s)).after r).files := by
  have hlater := makeFolders_later hr p.parent
  rcases write_parts p s r with ⟨fault, -, -, hafter⟩ | ⟨-, -, hafter⟩
  · exact hafter ▸ hlater
  · exact hafter ▸ hlater.trans (putFile_later hlater.wellFormed p s)

theorem alters_write (hr : r.files.WellFormed) (p : Path) (s : String) :
    Alters (· = Path.placeFrom r.files.current p) (write p (.text s)) r :=
  ⟨write_later hr p s, fun _ hq => (write_content hr hq).1⟩

/-- A file that is written once is changed only where nothing was. -/
theorem alters_once (hr : r.files.WellFormed) (p : Path) (s notice : String) (x : α) :
    Alters (fun q => r.files.Vacant p ∧ q = Path.placeFrom r.files.current p)
      (once p s notice x) r := by
  by_cases hexists : r.files.exists? p
  · obtain ⟨-, hafter⟩ := once_of_exists s notice x hexists
    have hpure : ((pure x : Action α).after r).files = r.files := rfl
    exact (alters_of_files hr fun _ => rfl).of_files_eq (hafter.trans hpure.symm)
  · refine Alters.of_files_eq ⟨write_later hr p s, fun q hq => ?_⟩ (once_of_not_exists s notice x hexists).2
    obtain ⟨hplace, hname⟩ := write_content hr hq
    refine ⟨⟨hexists, fun hdirect => ?_⟩, hplace⟩
    rw [hdirect.exists?_iff hr hname] at hexists
    exact Option.eq_none_iff_forall_ne_some.mpr fun e he => hexists ⟨e, he⟩

end Action

namespace Emitter

open ApiRecords.Action

variable {emitter : Emitter} {g : Graph} {name : Tree} {model : Value} {d : Blueprint} {r r' : Run}
  {q : Place} {models : List (Scalar × Value)} {doc : Document}

/-! ### One model -/

/-- The places where the files of a model may change when it has its turn, the run being `r` then. -/
inductive Announced (emitter : Emitter) (g : Graph) (name : Tree) (model : Value) (r : Run) :
    Place → Prop
  | base : g.IsIdentified model →
      Announced emitter g name model r
        (Path.placeFrom r.files.current (emitter.basePath (fileName name)))
  | override {d : Blueprint} : g.blueprint emitter.options name model = .ok (some d) →
      ((emitter.emitBase g name model d).after r).files.Vacant
        (emitter.overridePath (fileName name)) →
      Announced emitter g name model r
        (Path.placeFrom r.files.current (emitter.overridePath (fileName name)))

theorem alters_emitBase (hr : r.files.WellFormed)
    (hd : g.blueprint emitter.options name model = .ok (some d)) :
    Alters (· = Path.placeFrom r.files.current (emitter.basePath (fileName name)))
      (emitter.emitBase g name model d) r := by
  rw [emitBase, blueprint_fileName hd]
  refine alters_bind_of_files hr (fun _ => rfl) fun _ r' hfiles => ?_
  rw [← hfiles] at hr ⊢
  refine alters_bind_of_files hr (fun _ => rfl) fun text r'' hfiles => ?_
  rw [← hfiles] at hr ⊢
  exact alters_write hr _ text

theorem alters_emitOverride (hr : r.files.WellFormed) (name : Tree) (d : Blueprint) :
    let path := emitter.overridePath d.fileName
    Alters (fun q => r.files.Vacant path ∧ q = Path.placeFrom r.files.current path)
      (emitter.emitOverride name d) r := by
  intro path
  refine alters_bind_of_files hr (fun _ => rfl) fun text r' hfiles => ?_
  rw [← hfiles] at hr ⊢
  exact alters_once hr path text _ _

theorem alters_emitModel (hr : r.files.WellFormed) :
    Alters (Announced emitter g name model r) (emitter.emitModel g name model) r := by
  by_cases hsome : ∃ d, g.blueprint emitter.options name model = .ok (some d)
  · obtain ⟨d, hd⟩ := hsome
    have hid := (Graph.blueprint_isIdentified hd).mp rfl
    have hparts : Alters (Announced emitter g name model r)
        (emitter.emitBase g name model d >>= fun _ => emitter.emitOverride name d) r := by
      refine ((alters_emitBase hr hd).mono ?_).bind fun _ _ hlater => ?_
      · intro q hplace
        rw [hplace]
        exact .base hid
      · refine (alters_emitOverride hlater.wellFormed name d).mono ?_
        intro q ⟨hvacant, hplace⟩
        rw [hplace, hlater.keeps.current]
        rw [blueprint_fileName hd] at hvacant ⊢
        exact .override hd hvacant
    exact hparts.of_files_eq (congrArg Run.files (emitModel_identified hd r).2)
  · have hnone : ∀ d, g.blueprint emitter.options name model ≠ .ok (some d) :=
      fun d hd => hsome ⟨d, hd⟩
    refine alters_of_files hr fun r => ?_
    rw [(emitModel_without_blueprint hnone r).2]
    rfl

/-! ### One model after another -/

/-- Whether a model among others has its turn, the run having come from `r` to `r'` by then. -/
inductive Turn (emitter : Emitter) (g : Graph) :
    List (Scalar × Value) → Run → Tree → Value → Run → Prop
  | now {m : Scalar × Value} {models : List (Scalar × Value)} {r : Run} : Turn emitter g (m :: models) r (.scalar m.1) m.2 r
  | later {m : Scalar × Value} {models : List (Scalar × Value)} {r r' : Run} {written : Option Tree}
      {name : Tree} {model : Value} :
      (emitter.emitModel g (.scalar m.1) m.2).result r = .ok written →
      Turn emitter g models ((emitter.emitModel g (.scalar m.1) m.2).after r) name model r' →
      Turn emitter g (m :: models) r name model r'

theorem alters_emitModels (hr : r.files.WellFormed) (models : List (Scalar × Value)) :
    Alters (fun q => ∃ name model r', Turn emitter g models r name model r' ∧
      Announced emitter g name model r' q) (emitter.emitModels g models) r := by
  induction models generalizing r with
  | nil => exact alters_of_files hr fun _ => rfl
  | cons m models ih =>
    refine ((alters_emitModel hr).mono fun q hq => ⟨_, _, _, .now, hq⟩).bind fun written h hlater => ?_
    refine ((ih hlater.wellFormed).mono ?_).bind fun _ _ hlater =>
      alters_of_files hlater.wellFormed fun _ => rfl
    rintro q ⟨name, model, r', hturn, hq⟩
    exact ⟨name, model, r', .later h hturn, hq⟩

theorem alters_emitIndex (hr : r.files.WellFormed) (names : Tree) :
    Alters (· = Path.placeFrom r.files.current emitter.indexPath) (emitter.emitIndex names) r := by
  refine alters_bind_lift hr fun entries _ => ?_
  refine alters_bind_of_files hr (fun _ => rfl) fun templates r' hfiles => ?_
  rw [← hfiles] at hr ⊢
  refine alters_bind_lift hr fun items _ => ?_
  exact (alters_write hr _ _).bind fun _ _ hlater =>
    alters_of_files hlater.wellFormed fun _ => rfl

/-! ### Calls -/

/-- What may be asked of a generator. -/
inductive Call where
  | model (g : Graph) (name : Tree) (model : Value)
  | index (names : Tree)
  | all (doc : Document)

/-- What there is after a call, failed or not. -/
def call (emitter : Emitter) (r : Run) : Call → Run
  | .model g name model => (emitter.emitModel g name model).after r
  | .index names => (emitter.emitIndex names).after r
  | .all doc => (emitter.emitAll doc).after r

def calls (emitter : Emitter) (cs : List Call) (r : Run) : Run := cs.foldl emitter.call r

/-- Whether a call comes to the turn of a model, the run having come from `r` to `r'` by then. -/
inductive Handles (emitter : Emitter) (r : Run) : Call → Graph → Tree → Value → Run → Prop
  | model {g : Graph} {name : Tree} {model : Value} : Handles emitter r (.model g name model) g name model r
  | all {doc : Document} {models : List (Scalar × Value)} {name : Tree} {model : Value} {r' : Run} :
      doc.models emitter.isV2 = .ok models →
      Turn emitter doc.graph models r name model r' →
      Handles emitter r (.all doc) doc.graph name model r'

/-- The places where a call may change a file: those of the models that it handles, and the index,
which a call for one model leaves alone. -/
inductive Changes (emitter : Emitter) (r : Run) : Call → Place → Prop
  | file {c : Call} {g : Graph} {name : Tree} {model : Value} {r' : Run} {q : Place} : Handles emitter r c g name model r' →
      Announced emitter g name model r' q → Changes emitter r c q
  | index {names : Tree} : Changes emitter r (.index names)
      (Path.placeFrom r.files.current emitter.indexPath)
  | indexOfAll {doc : Document} : Changes emitter r (.all doc)
      (Path.placeFrom r.files.current emitter.indexPath)

theorem alters_emitAll (hr : r.files.WellFormed) (doc : Document) :
    Alters (Changes emitter r (.all doc)) (emitter.emitAll doc) r := by
  refine alters_bind_lift hr fun models hmodels => ?_
  refine ((alters_emitModels hr models).mono ?_).bind fun names _ hlater => ?_
  · rintro q ⟨name, model, r', hturn, hq⟩
    exact .file (.all hmodels hturn) hq
  · refine ((alters_emitIndex hlater.wellFormed _).mono ?_).bind fun _ _ hlater =>
      alters_of_files hlater.wellFormed fun _ => rfl
    intro q hq
    rw [hq, hlater.keeps.current]
    exact .indexOfAll

theorem call_changes (emitter : Emitter) (hr : r.files.WellFormed) (c : Call) :
    Later r.files (emitter.call r c).files ∧
      ∀ q, (emitter.call r c).files.content? q ≠ r.files.content? q → Changes emitter r c q := by
  cases c with
  | model g name model =>
    have h : Alters (Announced emitter g name model r) (emitter.emitModel g name model) r :=
      alters_emitModel hr
    exact ⟨h.later, fun q hq => .file .model (h.content q hq)⟩
  | index names =>
    have h : Alters (· = Path.placeFrom r.files.current emitter.indexPath)
        (emitter.emitIndex names) r := alters_emitIndex hr names
    refine ⟨h.later, fun q hq => ?_⟩
    rw [h.content q hq]
    exact .index
  | all doc =>
    have h : Alters (Changes emitter r (.all doc)) (emitter.emitAll doc) r := alters_emitAll hr doc
    exact ⟨h.later, h.content⟩

/-- Only announced files change, in calls of any kind and number, failed or not: the base file of a
model with an identity, its override file where nothing was found when its turn came to it, and the
index. No other file is left behind. -/
theorem calls_change_announced {cs : List Call} (hr : r.files.WellFormed)
    (hq : (emitter.calls cs r).files.content? q ≠ r.files.content? q) :
    ∃ before c after, cs = before ++ c :: after ∧
      Changes emitter (emitter.calls before r) c q := by
  induction cs generalizing r with
  | nil => exact absurd rfl hq
  | cons c cs ih =>
    obtain ⟨hlater, hfirst⟩ := call_changes emitter hr c
    by_cases hsame : (emitter.call r c).files.content? q = r.files.content? q
    · have hrest : (emitter.calls cs (emitter.call r c)).files.content? q ≠
          (emitter.call r c).files.content? q := by
        rw [hsame]
        exact hq
      obtain ⟨before, c', after, rfl, hc'⟩ := ih hlater.wellFormed hrest
      exact ⟨c :: before, c', after, rfl, hc'⟩
    · exact ⟨[], c, cs, rfl, hfirst q hsame⟩

theorem calls_change_announced_pet : ∃ doc, (oneModel "Pet").prepare false = .ok doc ∧
    let cs : List Call := [.index (.text "Pet"), .all doc]
    noFiles.files.WellFormed ∧
      (plain.calls cs noFiles).files.content? ["out", "base", "pet.js"] ≠
        noFiles.files.content? ["out", "base", "pet.js"] ∧
      ∃ before c after, cs = before ++ c :: after ∧
        Changes plain (plain.calls before noFiles) c ["out", "base", "pet.js"] := by
  obtain ⟨doc, hdoc⟩ : ∃ doc, (oneModel "Pet").prepare false = .ok doc := ⟨_, rfl⟩
  refine ⟨doc, hdoc, ?_⟩
  intro cs
  have hchanged : (plain.calls cs noFiles).files.content? ["out", "base", "pet.js"] ≠
      noFiles.files.content? ["out", "base", "pet.js"] := by
    cases hdoc
    decide +kernel
  exact ⟨wellFormed_noFiles, hchanged, calls_change_announced wellFormed_noFiles hchanged⟩

/-- Override files in a folder that is reached out of a folder that is missing. -/
def beside : Emitter :=
  { plain with outputFolder := .ofText "x/../out", baseFolder := .ofText "gen" }

/-- Custom code that stands where the override file goes is written over: it is looked for while the
folder to go back from is missing. -/
theorem call_changes_custom : ∃ doc d, (oneModel "Pet").prepare false = .ok doc ∧
    doc.models beside.isV2 = .ok [(.text "Pet", .node 3)] ∧
    doc.graph.blueprint beside.options (.text "Pet") (.node 3) = .ok (some d) ∧
    let r := customFile "pet.js"
    let place := Path.placeFrom r.files.current
    let q := place (beside.overridePath (fileName (.text "Pet")))
    ((beside.emitBase doc.graph (.text "Pet") (.node 3) d).after r).files.content? q =
        some "custom" ∧
      (beside.call r (.all doc)).files.content? q ≠ some "custom" ∧
      q ≠ place (beside.basePath (fileName (.text "Pet"))) ∧ q ≠ place beside.indexPath := by
  obtain ⟨doc, hdoc⟩ : ∃ doc, (oneModel "Pet").prepare false = .ok doc := ⟨_, rfl⟩
  have hmodels : doc.models beside.isV2 = .ok [(.text "Pet", .node 3)] := by
    cases hdoc
    rfl
  have hidentified : doc.graph.IsIdentified (.node 3) := by
    cases hdoc
    exact ⟨_, rfl⟩
  obtain ⟨d?, hd⟩ : ∃ d?, doc.graph.blueprint beside.options (.text "Pet") (.node 3) = .ok d? := by
    cases hdoc
    exact exists_ok_of_toBool (by decide +kernel)
  obtain ⟨d, rfl⟩ := Option.isSome_iff_exists.mp ((Graph.blueprint_isIdentified hd).mpr hidentified)
  refine ⟨doc, d, hdoc, hmodels, hd, ?_⟩
  intro r place q
  have hr : r.files.WellFormed := wellFormed_of_around rfl (by decide)
  have hbase : q ≠ place (beside.basePath (fileName (.text "Pet"))) := by decide
  refine ⟨?_, ?_, hbase, by decide⟩
  · have hcustom : r.files.content? q = some "custom" := by decide
    rw [← hcustom]
    by_contra hchanged
    exact hbase ((alters_emitBase hr hd).content q hchanged)
  · cases hdoc
    decide +kernel

end Emitter

end ApiRecords
