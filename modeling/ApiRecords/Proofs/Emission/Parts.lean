import ApiRecords.Proofs.Emission.Changes

/-!
The texts that are made of models. Parts of files that a user gives are looked for each time anew, but
found the same through a run that does not write to where they stand, so that what is written for a
model does not depend on the models before it.
-/

namespace ApiRecords

open FileSystem

namespace Action

variable {α γ : Type} {what : Run → γ} {p : Path} {r : Run}

/-- The text found for a part as the run stands. -/
def found (folder : Option Path) (r : Run) (part : Source.Part) : Option String :=
  if part ∈ r.builtinParts then none else
    folder.bind fun folder => findPart folder r.files part

/-- Whether something of a run depends neither on its files nor on notices that do not warn. -/
structure Blind (what : Run → γ) : Prop where
  files : ∀ r files, what { r with files } = what r
  notices : ∀ r level text, level ≠ .warning →
    what { r with notices := r.notices ++ [⟨level, text⟩] } = what r

namespace Blind

variable (h : Blind what)

include h

theorem notify {level : Level} (hlevel : level ≠ .warning) (text : String) :
    Leaves what (notify level text) :=
  fun r => h.notices r level text hlevel

theorem onFiles (change : FileSystem → FileSystem × Except FileFault Unit) :
    Leaves what (onFiles change) := by
  intro r
  have hafter : (Action.onFiles change).after r = (Action.onFiles fun _ => change r.files).after r := rfl
  rw [hafter]
  cases change r.files with
  | mk files outcome => cases outcome <;> exact h.files r files

theorem write (p : Path) (s : String) : Leaves what (write p (.text s)) := by
  rw [write_text]
  exact (h.onFiles _).bind fun _ => (h.onFiles _).bind fun _ => h.notify (by simp) _

theorem once (p : Path) (s notice : String) (x : α) : Leaves what (once p s notice x) := by
  have hwritten : Leaves what (writeOnce p (.text s)) := by
    intro r
    rw [(writeOnce_eq p (.text s) r).2]
    split
    · exact ((h.notify (by simp) _).bind fun _ _ => rfl) r
    · exact ((h.write p s).bind fun _ _ => rfl) r
  refine hwritten.bind fun written => ?_
  cases written with
  | false => exact fun _ => rfl
  | true => exact (h.notify (by simp) _).bind fun _ _ => rfl

end Blind

theorem blind_builtinParts : Blind Run.builtinParts := ⟨fun _ _ => rfl, fun _ _ _ _ => rfl⟩

/-- A file that was written is written whatever else there is of the run. -/
theorem write_files {fs : FileSystem} {s : String} (hfiles : r.files = fs)
    (h : (write p (.text s)).result r = .ok ()) :
    fs.write p s = .ok ((write p (.text s)).after r).files := by
  subst hfiles
  rcases write_parts p s r with ⟨fault, -, herror, -⟩ | ⟨hmade, hresult, hafter⟩
  · cases h.symm.trans herror
  · rw [hafter]
    rw [hresult] at h
    unfold FileSystem.write
    cases hput : ((r.files.makeFolders p.parent).1.putFile p s).2 with
    | error fault =>
      rw [hput] at h
      cases h
    | ok _ =>
      simp only [hmade, hput]
      rfl

theorem once_files {fs : FileSystem} {s notice : String} {x y : α} (hfiles : r.files = fs)
    (h : (once p s notice x).result r = .ok y) :
    (if fs.exists? p then .ok fs else fs.write p s) =
      .ok ((once p s notice x).after r).files := by
  subst hfiles
  obtain ⟨-, ⟨hexists, hafter⟩ | ⟨hexists, hwrite, hafter⟩⟩ := once_ok h
  · rw [if_pos hexists, hafter]
  · rw [if_neg hexists, hafter]
    exact write_files rfl hwrite

end Action

namespace Emitter

open ApiRecords.Action

variable {emitter : Emitter} {g : Graph} {name : Tree} {model : Value} {d : Blueprint}
  {r r' : Run} {written : Place → Prop} {models : List (Scalar × Value)} {names : List Tree}

/-- The templates as the run stands. -/
def templatesAt (emitter : Emitter) (r : Run) : Source.Templates :=
  emitter.wholeFiles.within (.ofParts (found emitter.templateFolder r))

def baseTextAt (emitter : Emitter) (r : Run) (d : Blueprint) : String :=
  Source.text (Source.base d (emitter.templatesAt r) emitter.date)

def overrideTextAt (emitter : Emitter) (r : Run) (d : Blueprint) : String :=
  Source.text
    (Source.override d (emitter.templatesAt r) (emitter.folders.importPath r.files.current))

theorem templates_result_eq (whole : Source.Part) (parts : List Source.Part) (r : Run) :
    (emitter.templates whole parts).result r = .ok (emitter.templatesAt r) :=
  rfl

theorem baseText_result (d : Blueprint) (r : Run) :
    (emitter.baseText d).result r = .ok (emitter.baseTextAt r d) :=
  rfl

theorem overrideText_result (d : Blueprint) (r : Run) :
    (emitter.overrideText d).result r = .ok (emitter.overrideTextAt r d) :=
  rfl

/-! ### Parts that a user gives -/

/-- Whether each part within a file stands at a direct path, and not at one of the places `written`. -/
def PartsApart (emitter : Emitter) (fs : FileSystem) (written : Place → Prop) : Prop :=
  ∀ folder, emitter.templateFolder = some folder → ∀ part : Source.Part, part.isWhole = false →
    fs.Direct (folder.child part.fileName) ∧
      ¬ written (Path.placeFrom fs.current (folder.child part.fileName))

/-- Whether a run has come from `r` to `r'` with the parts within files as they were: what was not found
is not there, and contents differ at places of `written` only. -/
structure PartsKept (emitter : Emitter) (written : Place → Prop) (r r' : Run) : Prop where
  later : Later r.files r'.files
  content : ∀ q, r'.files.content? q ≠ r.files.content? q → written q
  builtin : ∀ part ∈ r.builtinParts, part ∈ r'.builtinParts
  absent : ∀ part ∈ r'.builtinParts, part ∈ r.builtinParts ∨
    part.isWhole = false ∧ found emitter.templateFolder r part = none

theorem partsKept_refl (hr : r.files.WellFormed) : PartsKept emitter written r r where
  later := .refl hr
  content _ hq := absurd rfl hq
  builtin _ hpart := hpart
  absent _ hpart := .inl hpart

namespace PartsKept

variable (h : PartsKept emitter written r r') (hr : r.files.WellFormed)
  (hapart : emitter.PartsApart r.files written)

include h hr hapart

theorem found {part : Source.Part} (hpart : part.isWhole = false) :
    found emitter.templateFolder r' part = Action.found emitter.templateFolder r part := by
  by_cases hbefore : part ∈ r.builtinParts
  · rw [Action.found, Action.found, if_pos hbefore, if_pos (h.builtin part hbefore)]
  · by_cases hafter : part ∈ r'.builtinParts
    · rw [Action.found, if_pos hafter, ((h.absent part hafter).resolve_left hbefore).2]
    · rw [Action.found, Action.found, if_neg hbefore, if_neg hafter]
      cases hfolder : emitter.templateFolder with
      | none => rfl
      | some folder =>
        obtain ⟨hdirect, hnot⟩ := hapart folder hfolder part hpart
        have hsame : r'.files.content? (Path.placeFrom r.files.current (folder.child part.fileName)) =
            r.files.content? (Path.placeFrom r.files.current (folder.child part.fileName)) := by
          by_contra hne
          exact hnot (h.content _ hne)
        have hread : ∀ c, r'.files.read (folder.child part.fileName) = .ok c ↔
            r.files.read (folder.child part.fileName) = .ok c := by
          intro c
          rw [(h.later.direct hr hdirect).read_iff h.later.wellFormed, hdirect.read_iff hr,
            h.later.keeps.current, hsame]
        have hoption : ∀ (x : Except FileFault String) c, x.toOption = some c ↔ x = .ok c := by
          intro x c
          cases x <;> simp [Except.toOption]
        refine Option.ext fun c => ?_
        show (r'.files.read _).toOption = some c ↔ (r.files.read _).toOption = some c
        rw [hoption, hoption, hread]

theorem templatesAt : emitter.templatesAt r' = emitter.templatesAt r := by
  unfold Emitter.templatesAt Source.Templates.within Source.Templates.ofParts
  congr 1
  funext part
  cases hpart : part.isWhole with
  | true => rfl
  | false => simp only [h.found hr hapart hpart]

theorem baseTextAt (d : Blueprint) : emitter.baseTextAt r' d = emitter.baseTextAt r d := by
  rw [Emitter.baseTextAt, h.templatesAt hr hapart, Emitter.baseTextAt]

theorem overrideTextAt (d : Blueprint) : emitter.overrideTextAt r' d = emitter.overrideTextAt r d := by
  rw [Emitter.overrideTextAt, h.templatesAt hr hapart, h.later.keeps.current, Emitter.overrideTextAt]

omit hr hapart in
/-- One more action, which writes to places of `written` and knows no further parts to be built in. -/
theorem step {α : Type} {a : Action α} {changed : Place → Prop} (ha : Alters changed a r')
    (hchanged : ∀ q, changed q → written q) (hbuiltin : Leaves Run.builtinParts a) :
    PartsKept emitter written r (a.after r') where
  later := h.later.trans ha.later
  content q hq := by
    by_cases hfirst : r'.files.content? q = r.files.content? q
    · exact hchanged q (ha.content q (hfirst ▸ hq))
    · exact h.content q hfirst
  builtin part hpart := by
    rw [hbuiltin]
    exact h.builtin part hpart
  absent part hpart := by
    rw [hbuiltin] at hpart
    exact h.absent part hpart

omit hr hapart in
theorem notified (notices : List Notice) :
    PartsKept emitter written r ((notifyAll notices).after r') :=
  ⟨h.later, h.content, h.builtin, h.absent⟩

/-- Looking for parts within a file. -/
theorem asked {whole : Source.Part} {parts : List Source.Part}
    (hparts : ∀ part ∈ parts, part.isWhole = false) :
    PartsKept emitter written r ((emitter.templates whole parts).after r') := by
  let asked := if (emitter.wholeFiles.given whole).isSome then [] else parts
  have hafter : (emitter.templates whole parts).after r' = { r' with
      builtinParts := r'.builtinParts ++
        asked.filter fun p => (Action.found emitter.templateFolder r' p).isNone } := rfl
  have hasked : ∀ part ∈ asked, part.isWhole = false := by
    intro part hpart
    refine hparts part ?_
    dsimp only [asked] at hpart
    split at hpart
    · cases hpart
    · exact hpart
  rw [hafter]
  refine ⟨h.later, h.content, fun part hpart => List.mem_append_left _ (h.builtin part hpart), ?_⟩
  intro part hpart
  rcases List.mem_append.mp hpart with hpart | hpart
  · exact h.absent part hpart
  · obtain ⟨hpart, hnone⟩ := List.mem_filter.mp hpart
    have hwhole := hasked part hpart
    rw [h.found hr hapart hwhole] at hnone
    exact .inr ⟨hwhole, Option.isNone_iff_eq_none.mp hnone⟩

end PartsKept

/-! ### Models by their texts -/

/-- What is made of a model: the stem of its file names, and the texts of its files. -/
structure Texts where
  stem : String
  base : String
  override : String

/-- The texts of a model, unless its records are not identified. -/
def texts? (emitter : Emitter) (g : Graph) (r : Run) (m : Scalar × Value) : Option Texts :=
  match g.blueprint emitter.options (.scalar m.1) m.2 with
  | .ok (some d) =>
    some ⟨fileName (.scalar m.1), emitter.baseTextAt r d, emitter.overrideTextAt r d⟩
  | _ => none

/-- The files with those of one more model, where no writing fails. -/
def putModel (emitter : Emitter) (fs : FileSystem) (t : Texts) : Except FileFault FileSystem := do
  let fs ← fs.write (emitter.basePath t.stem) t.base
  if fs.exists? (emitter.overridePath t.stem) then return fs
  fs.write (emitter.overridePath t.stem) t.override

/-- Whether a place is that of a file of a model. -/
def IsModelPlace (emitter : Emitter) (current : Path) (stem : String) (q : Place) : Prop :=
  q = Path.placeFrom current (emitter.basePath stem) ∨
    q = Path.placeFrom current (emitter.overridePath stem)

section

variable (h : PartsKept emitter written r r') (hr : r.files.WellFormed)
  (hapart : emitter.PartsApart r.files written)

include h hr hapart

theorem emitBase_files (hd : g.blueprint emitter.options name model = .ok (some d))
    (hwritten : written (Path.placeFrom r.files.current (emitter.basePath (fileName name))))
    (hresult : (emitter.emitBase g name model d).result r' = .ok ()) :
    PartsKept emitter written r ((emitter.emitBase g name model d).after r') ∧
      r'.files.write (emitter.basePath (fileName name)) (emitter.baseTextAt r d) =
        .ok ((emitter.emitBase g name model d).after r').files := by
  have hnotified := h.notified (g.notices name model)
  have hasked : PartsKept emitter written r
      ((emitter.baseText d).after ((notifyAll (g.notices name model)).after r')) := by
    refine hnotified.asked hr hapart fun part hpart => ?_
    cases part <;> first | rfl | (split at hpart <;> simp at hpart)
  unfold emitBase at hresult ⊢
  obtain ⟨⟨⟩, hnotices, hresult⟩ := bind_result_ok.mp hresult
  obtain ⟨text, htext, hresult⟩ := bind_result_ok.mp hresult
  rw [(bind_of_ok hnotices).2, (bind_of_ok htext).2]
  rw [baseText_result, hnotified.baseTextAt hr hapart] at htext
  rw [← Except.ok.inj htext, blueprint_fileName hd] at hresult ⊢
  refine ⟨hasked.step (alters_write hasked.later.wellFormed _ _) ?_ (blind_builtinParts.write _ _),
    write_files (by rfl) hresult⟩
  intro q hq
  rw [hq, hasked.later.keeps.current]
  exact hwritten

theorem emitOverride_files (hfile : d.fileName = fileName name)
    (hwritten : written (Path.placeFrom r.files.current (emitter.overridePath (fileName name))))
    {x : Option Tree} (hresult : (emitter.emitOverride name d).result r' = .ok x) :
    PartsKept emitter written r ((emitter.emitOverride name d).after r') ∧
      (if r'.files.exists? (emitter.overridePath (fileName name)) then .ok r'.files
        else r'.files.write (emitter.overridePath (fileName name)) (emitter.overrideTextAt r d)) =
        .ok ((emitter.emitOverride name d).after r').files := by
  have hbuiltin : Leaves Run.builtinParts (emitter.emitOverride name d) := by
    have htext : Leaves Run.builtinParts (emitter.overrideText d) := by
      intro r
      have hafter : ((emitter.overrideText d).after r).builtinParts = r.builtinParts ++
          (if (emitter.wholeFiles.given .override).isSome then [] else []).filter
            fun p => (Action.found emitter.templateFolder r p).isNone := rfl
      rw [hafter, ite_self, List.filter_nil, List.append_nil]
    exact htext.bind fun text => blind_builtinParts.once _ text _ _
  refine ⟨h.step (alters_emitOverride h.later.wellFormed name d) ?_ hbuiltin, ?_⟩
  · intro q ⟨_, hq⟩
    rw [hq, hfile, h.later.keeps.current]
    exact hwritten
  · unfold emitOverride at hresult ⊢
    obtain ⟨text, htext, hresult⟩ := bind_result_ok.mp hresult
    rw [(bind_of_ok htext).2]
    rw [overrideText_result, h.overrideTextAt hr hapart] at htext
    rw [← Except.ok.inj htext, hfile] at hresult ⊢
    exact once_files (by rfl) hresult

theorem emitModel_files (hd : g.blueprint emitter.options name model = .ok (some d))
    (hwritten : ∀ q, emitter.IsModelPlace r.files.current (fileName name) q → written q)
    {x : Option Tree} (hresult : (emitter.emitModel g name model).result r' = .ok x) :
    PartsKept emitter written r ((emitter.emitModel g name model).after r') ∧
      emitter.putModel r'.files
          ⟨fileName name, emitter.baseTextAt r d, emitter.overrideTextAt r d⟩ =
        .ok ((emitter.emitModel g name model).after r').files := by
  obtain ⟨d', hd', -, hbase, hoverride, hafter⟩ | ⟨hnone, -⟩ := emitModel_steps hresult
  · obtain rfl : d' = d := Option.some.inj (Except.ok.inj (hd'.symm.trans hd))
    rw [hafter]
    obtain ⟨hkept, hwrite⟩ := emitBase_files h hr hapart hd (hwritten _ (.inl rfl)) hbase
    obtain ⟨hkept', honce⟩ := emitOverride_files hkept hr hapart (blueprint_fileName hd)
      (hwritten _ (.inr rfl)) hoverride
    refine ⟨hkept', ?_⟩
    simp only [putModel, hwrite, bind, Except.bind]
    exact honce
  · cases hnone.symm.trans hd

/-- What a row of models leaves, each with the texts that would be made for it at the start. -/
theorem emitModels_files
    (hwritten : ∀ m ∈ models, ∀ q,
      emitter.IsModelPlace r.files.current (fileName (.scalar m.1)) q → written q)
    (hresult : (emitter.emitModels g models).result r' = .ok names) :
    PartsKept emitter written r ((emitter.emitModels g models).after r') ∧
      (models.filterMap (emitter.texts? g r)).foldlM emitter.putModel r'.files =
        .ok ((emitter.emitModels g models).after r').files := by
  induction models generalizing r' names with
  | nil => exact ⟨h, rfl⟩
  | cons m models ih =>
    obtain ⟨hm, hmodels⟩ := List.forall_mem_cons.mp hwritten
    obtain ⟨x, rest, hx, hrest, -, hafter⟩ := emitModels_cons_ok hresult
    rw [hafter]
    by_cases hsome : ∃ d, g.blueprint emitter.options (.scalar m.1) m.2 = .ok (some d)
    · obtain ⟨d, hd⟩ := hsome
      obtain ⟨hkept, hput⟩ := emitModel_files h hr hapart hd hm hx
      obtain ⟨hkept', hputs⟩ := ih hkept hmodels hrest
      refine ⟨hkept', ?_⟩
      have htexts : emitter.texts? g r m = some ⟨fileName (.scalar m.1), emitter.baseTextAt r d,
          emitter.overrideTextAt r d⟩ := by rw [texts?, hd]
      rw [List.filterMap_cons_some htexts, List.foldlM_cons, hput]
      exact hputs
    · have hnone : ∀ d, g.blueprint emitter.options (.scalar m.1) m.2 ≠ .ok (some d) :=
        fun d hd => hsome ⟨d, hd⟩
      have htexts : emitter.texts? g r m = none := by
        unfold texts?
        split
        · rename_i d hd
          exact absurd hd (hnone d)
        · rfl
      rw [(emitModel_without_blueprint hnone r').2] at hrest ⊢
      rw [List.filterMap_cons_none htexts]
      exact ih (h.notified _) hmodels hrest

end

end Emitter

end ApiRecords
