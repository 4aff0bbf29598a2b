import ApiRecords.Proofs.Emission.BaseFiles
import ApiRecords.Proofs.Files.Writing

/-!
A run done again on the files that it left. Each of its actions ends as it did the first time, and each
place holds then what the last of them to write there has left.
-/

namespace ApiRecords

open FileSystem

/-- Whether every place holds what it holds in one of two states of the files. -/
def Between (fs final g : FileSystem) : Prop := ∀ q, g.get? q = final.get? q ∨ g.get? q = fs.get? q

namespace Between

variable {fs fs' final g : FileSystem}

theorem last (h : Between final final g) : ∀ q, g.get? q = final.get? q := fun q => (h q).elim id id

/-- What was only added to is left alone the second time. -/
theorem of_added (h : Between fs final g) (hfs' : fs'.WellFormed) (hlater : Later fs' g)
    (hadded : ∀ q e, fs.get? q = some e → fs'.get? q = some e) : Between fs' final g := by
  intro q
  refine (h q).imp_right fun hq => ?_
  cases hbefore : fs.get? q with
  | some e => rw [hq, hbefore, hadded q e hbefore]
  | none =>
    rw [hbefore] at hq
    cases hafter : fs'.get? q with
    | none => exact hq
    | some e =>
      cases e with
      | folder => cases hq.symm.trans (hlater.folder hfs' hafter)
      | file content =>
        obtain ⟨content', hfile⟩ := hlater.file hfs' hafter
        cases hq.symm.trans hfile

end Between

namespace Action

variable {α β : Type} {a : Action α} {next : α → Action β} {r : Run} {p : Path} {s : String}

/-- Whether an action, done again when the files have become `final` or later, ends as it did, and
leaves what it left before wherever it does not find what is in the final files. -/
structure Repeats (a : Action α) (r : Run) : Prop where
  later : Later r.files (a.after r).files
  again : ∀ final r', Later (a.after r).files final → Later final r'.files →
    Between r.files final r'.files →
      a.result r' = a.result r ∧ Later final (a.after r').files ∧
        Between (a.after r).files final (a.after r').files

theorem Repeats.bind (ha : Repeats a r)
    (hnext : ∀ x, a.result r = .ok x → Later r.files (a.after r).files →
      Repeats (next x) (a.after r)) : Repeats (a >>= next) r := by
  cases h : a.result r with
  | error e =>
    obtain ⟨hresult, hafter⟩ : (a >>= next).result r = .error e ∧
        (a >>= next).after r = a.after r := bind_of_error h
    refine ⟨hafter ▸ ha.later, ?_⟩
    intro final r' hfinal hr' hbetween
    rw [hafter] at hfinal ⊢
    obtain ⟨hagain, hlater, hbetween⟩ := ha.again final r' hfinal hr' hbetween
    rw [hresult, (bind_of_error (hagain.trans h)).1, (bind_of_error (hagain.trans h)).2]
    exact ⟨rfl, hlater, hbetween⟩
  | ok x =>
    obtain ⟨hresult, hafter⟩ : (a >>= next).result r = (next x).result (a.after r) ∧
        (a >>= next).after r = (next x).after (a.after r) := bind_of_ok h
    have hx := hnext x h ha.later
    refine ⟨hafter ▸ ha.later.trans hx.later, ?_⟩
    intro final r' hfinal hr' hbetween
    rw [hafter] at hfinal ⊢
    obtain ⟨hagain, hlater, hbetween⟩ :=
      ha.again final r' (hx.later.trans hfinal) hr' hbetween
    rw [hresult, (bind_of_ok (hagain.trans h)).1, (bind_of_ok (hagain.trans h)).2]
    exact hx.again final _ hfinal hlater hbetween

/-- Actions that leave the files alone, and see of them only where relative paths start. -/
theorem repeats_of_files (hr : r.files.WellFormed) (hfiles : ∀ r, (a.after r).files = r.files)
    (hresult : ∀ r', r'.files.current = r.files.current → a.result r' = a.result r) :
    Repeats a r := by
  refine ⟨(hfiles r).symm ▸ .refl hr, ?_⟩
  intro final r' hfinal hr' hbetween
  rw [hfiles r] at hfinal
  rw [hfiles r, hfiles r']
  exact ⟨hresult r' (hfinal.trans hr').keeps.current, hr', hbetween⟩

theorem repeats_pure (hr : r.files.WellFormed) (x : α) : Repeats (pure x) r :=
  repeats_of_files hr (fun _ => rfl) fun _ _ => rfl

theorem repeats_lift (hr : r.files.WellFormed) (x : Except Fault α) :
    Repeats (liftM x : Action α) r :=
  repeats_of_files hr (fun _ => rfl) fun _ _ => rfl

theorem repeats_notify (hr : r.files.WellFormed) (level : Level) (text : String) :
    Repeats (notify level text) r :=
  repeats_of_files hr (fun _ => rfl) fun _ _ => rfl

theorem repeats_notifyAll (hr : r.files.WellFormed) (notices : List Notice) :
    Repeats (notifyAll notices) r :=
  repeats_of_files hr (fun _ => rfl) fun _ _ => rfl

theorem repeats_makeFolders (hr : r.files.WellFormed) (hdirect : r.files.Direct p) :
    Repeats (onFiles (·.makeFolders p)) r := by
  obtain ⟨hresult, hafter⟩ := onFiles_eq (·.makeFolders p) r
  have hlater := makeFolders_later hr p
  refine ⟨hafter ▸ hlater, ?_⟩
  intro final r' hfinal hr' hbetween
  obtain ⟨hresult', hafter'⟩ := onFiles_eq (·.makeFolders p) r'
  rw [hafter] at hfinal ⊢
  have hmade := (hfinal.trans hr').makeFolders hr hdirect
  rw [hmade] at hresult' hafter'
  rw [hresult, hresult', hafter']
  exact ⟨rfl, hr', hbetween.of_added hlater.wellFormed (hfinal.trans hr')
    fun _ _ => makeFolders_adds hr p⟩

theorem repeats_putFile (hr : r.files.WellFormed) (hfolder : r.files.find p.parent = .ok .folder)
    (s : String) : Repeats (onFiles (·.putFile p s)) r := by
  obtain ⟨hresult, hafter⟩ := onFiles_eq (·.putFile p s) r
  have hlater := putFile_later hr p s
  refine ⟨hafter ▸ hlater, ?_⟩
  intro final r' hfinal hr' hbetween
  obtain ⟨hresult', hafter'⟩ := onFiles_eq (·.putFile p s) r'
  rw [hafter] at hfinal
  have hnow := hfinal.trans hr'
  obtain ⟨houtcome, hget⟩ := putFile_spec hr hfolder s
  obtain ⟨houtcome', hget'⟩ :=
    putFile_spec hr'.wellFormed ((hlater.trans hnow).find_folder hr hfolder) s
  rw [hnow.putOutcome hr hfolder] at houtcome' hget'
  rw [(hlater.trans hnow).keeps.current] at hget'
  refine ⟨?_, ?_, ?_⟩
  · rw [hresult, hresult', houtcome, houtcome']
  · rw [hafter']
    exact hr'.trans (putFile_later hr'.wellFormed p s)
  · rw [hafter, hafter']
    intro q
    rw [hget, hget']
    split
    · exact .inr rfl
    · exact hbetween q

theorem repeats_write (hr : r.files.WellFormed) (hdirect : r.files.Direct p) (s : String) :
    Repeats (write p (.text s)) r := by
  rw [write_text]
  refine (repeats_makeFolders hr hdirect.parent).bind fun _ hmade hlater => ?_
  obtain ⟨hresult, hafter⟩ := onFiles_eq (·.makeFolders p.parent) r
  have hok : (r.files.makeFolders p.parent).2 = .ok () := by
    rw [hresult] at hmade
    cases h : (r.files.makeFolders p.parent).2 with
    | ok _ => rfl
    | error e => simp [h, Except.mapError] at hmade
  have hput : Repeats (onFiles (·.putFile p s)) ((onFiles (·.makeFolders p.parent)).after r) := by
    apply repeats_putFile hlater.wellFormed
    rw [hafter]
    exact makeFolders_find hr hok
  exact hput.bind fun _ _ hlater => repeats_notify hlater.wellFormed _ _

/-! ### Files written once -/

section

variable (hr : r.files.WellFormed) (hdirect : r.files.Direct p) (hnot : ¬ r.files.exists? p)

include hr hdirect hnot

/-- A file that was written where nothing was took the place of nothing. -/
theorem write_adds (hok : (write p (.text s)).result r = .ok ()) {q : Place} {e : Entry}
    (hq : r.files.get? q = some e) : ((write p (.text s)).after r).files.get? q = some e := by
  rcases write_parts p s r with ⟨fault, -, herror, -⟩ | ⟨hmade, hresult, hafter⟩
  · cases hok.symm.trans herror
  · have hlater := makeFolders_later hr p.parent
    obtain ⟨houtcome, hget⟩ := putFile_spec hlater.wellFormed (makeFolders_find hr hmade) s
    rw [hafter, hget]
    split
    · rename_i hput
      have hname : ¬ Unnameable p := by
        intro hname
        rw [putOutcome, if_pos hname] at hput
        cases hput.1
      have hnone := get?_makeFolders_of_not_exists hr hdirect hname hnot hmade
      have hthere := makeFolders_adds hr p.parent hq
      rw [hput.2, hlater.keeps.current, hnone] at hthere
      cases hthere
    · exact makeFolders_adds hr _ hq

/-- Where writing a file failed, nothing is at its path later either. -/
theorem not_exists_of_write_error {fault : Fault} {g : FileSystem}
    (herror : (write p (.text s)).result r = .error fault)
    (hg : Later ((write p (.text s)).after r).files g) : ¬ g.exists? p := by
  have hends := namesPlace_of_not_exists hr hdirect hnot
  have hlater := makeFolders_later hr p.parent
  intro hexists
  obtain ⟨e, he⟩ := exists?_iff.mp hexists
  obtain ⟨place, hplace, -⟩ := find_ok.mp he
  have hname := nameable_of_place hplace
  rcases write_parts p s r with ⟨fault', hmade, -, hafter⟩ | ⟨hmade, hresult, hafter⟩
  · rw [hafter] at hg
    have hagain := hg.makeFolders hr hdirect.parent
    obtain ⟨anchor, names, n, rfl, -⟩ := exists_last hends
    have hfolder := folder_before hplace
    rw [parent_snoc] at hagain hmade
    rw [makeFolders_of_folder hg.wellFormed hfolder, hmade] at hagain
    cases congrArg Prod.snd hagain
  · have houtcome := (putFile_spec hlater.wellFormed (makeFolders_find hr hmade) s).1
    have hnone := get?_makeFolders_of_not_exists hr hdirect hname hnot hmade
    have hok : (r.files.makeFolders p.parent).1.putOutcome p = .ok () := by
      simp [putOutcome, hname, hends, hlater.keeps.current, hnone]
    rw [houtcome, hok] at hresult
    cases herror.symm.trans hresult

end

theorem Later.exists? {fs fs' : FileSystem} (h : Later fs fs') (hfs : fs.WellFormed)
    (hexists : fs.exists? p) : fs'.exists? p := by
  obtain ⟨e, he⟩ := exists?_iff.mp hexists
  obtain ⟨e', he', -⟩ := h.find_ok hfs he
  exact exists?_iff.mpr ⟨e', he'⟩

theorem repeats_once (hr : r.files.WellFormed) (hdirect : r.files.Direct p) (s notice : String)
    (x : α) : Repeats (once p s notice x) r := by
  by_cases hexists : r.files.exists? p
  · obtain ⟨hresult, hafter⟩ := once_of_exists s notice x hexists
    refine ⟨by rw [hafter]; exact .refl hr, ?_⟩
    intro final r' hfinal hr' hbetween
    rw [hafter] at hfinal ⊢
    have hexists' := Later.exists? (hfinal.trans hr') hr hexists
    obtain ⟨hagain, hafter'⟩ := once_of_exists s notice x hexists'
    rw [hresult, hagain, hafter']
    exact ⟨rfl, hr', hbetween⟩
  · obtain ⟨hresult, hafter⟩ := once_of_not_exists s notice x hexists
    have hwrite := repeats_write hr hdirect s
    refine ⟨by rw [hafter]; exact hwrite.later, ?_⟩
    intro final r' hfinal hr' hbetween
    rw [hafter] at hfinal ⊢
    have hnow := hfinal.trans hr'
    cases houtcome : (write p (.text s)).result r with
    | ok _ =>
      -- The file is there now, and nothing else was before.
      have hexists' : r'.files.exists? p :=
        Later.exists? hnow hwrite.later.wellFormed (exists?_of_read (write_ok houtcome))
      obtain ⟨hagain, hafter'⟩ := once_of_exists s notice x hexists'
      rw [hresult, houtcome, hagain, hafter']
      exact ⟨rfl, hr', hbetween.of_added hwrite.later.wellFormed hnow
        fun _ _ => write_adds hr hdirect hexists houtcome⟩
    | error fault =>
      have hnot := not_exists_of_write_error hr hdirect hexists houtcome hnow
      obtain ⟨hagain, hlater, hbetween⟩ := hwrite.again final r' hfinal hr' hbetween
      obtain ⟨hresult', hafter'⟩ := once_of_not_exists s notice x hnot
      rw [hresult, hresult', hafter', hagain]
      exact ⟨rfl, hlater, hbetween⟩

end Action

namespace Emitter

open ApiRecords.Action

variable {emitter : Emitter} {g : Graph} {doc : Document} {name : Tree} {model : Value} {r : Run}

/-- Without a folder of templates, what is found of them does not depend on the run. -/
theorem templates_result (h : emitter.templateFolder = none) (whole : Source.Part)
    (parts : List Source.Part) (r r' : Run) :
    (emitter.templates whole parts).result r' = (emitter.templates whole parts).result r := by
  have hnone : ∀ asked r, (Action.templates none asked).result r = .ok (.ofParts fun _ => none) := by
    intro asked r
    have hfound : (fun part => if part ∈ r.builtinParts then none else
        Option.bind none fun folder => findPart folder r.files part) = fun _ => none := by
      funext part
      split <;> rfl
    exact congrArg (fun found => Except.ok (Source.Templates.ofParts found)) hfound
  rw [Emitter.templates, h, (bind_of_ok (hnone _ r)).1, (bind_of_ok (hnone _ r')).1]
  rfl

theorem repeats_templates (h : emitter.templateFolder = none) (hr : r.files.WellFormed)
    (whole : Source.Part) (parts : List Source.Part) : Repeats (emitter.templates whole parts) r :=
  repeats_of_files hr (fun _ => rfl) fun r' _ => templates_result h whole parts r r'

theorem repeats_baseText (h : emitter.templateFolder = none) (hr : r.files.WellFormed)
    (d : Blueprint) : Repeats (emitter.baseText d) r :=
  (repeats_templates h hr _ _).bind fun _ _ hlater => repeats_pure hlater.wellFormed _

theorem repeats_overrideText (h : emitter.templateFolder = none) (hr : r.files.WellFormed)
    (d : Blueprint) : Repeats (emitter.overrideText d) r := by
  refine repeats_of_files hr (fun _ => rfl) fun r' hcurrent => ?_
  have hget : ∀ r : Run, (get : Action Run).result r = .ok r ∧ (get : Action Run).after r = r :=
    fun _ => ⟨rfl, rfl⟩
  obtain ⟨templates, htemplates⟩ : ∃ templates,
      (emitter.templates .override []).result r = .ok templates := ⟨_, rfl⟩
  have htemplates' := (templates_result h .override [] r r').trans htemplates
  rw [overrideText, (bind_of_ok (hget r).1).1, (bind_of_ok (hget r').1).1, (hget r).2, (hget r').2,
    (bind_of_ok htemplates).1, (bind_of_ok htemplates').1, hcurrent]
  rfl

theorem repeats_emitModel (htemplates : emitter.templateFolder = none) (hr : r.files.WellFormed)
    (hbase : r.files.Direct (emitter.basePath (fileName name)))
    (hoverride : r.files.Direct (emitter.overridePath (fileName name))) :
    Repeats (emitter.emitModel g name model) r := by
  refine (repeats_notifyAll hr _).bind fun _ _ h => ?_
  refine (repeats_lift h.wellFormed _).bind fun d? hd h' => ?_
  cases d? with
  | none => exact repeats_pure h'.wellFormed _
  | some d =>
    dsimp only
    rw [blueprint_fileName hd]
    have h := h.trans h'
    refine (repeats_baseText htemplates h.wellFormed d).bind fun text _ h' => ?_
    have h := h.trans h'
    refine (repeats_write h.wellFormed (h.direct hr hbase) text).bind fun _ _ h' => ?_
    have h := h.trans h'
    refine (repeats_overrideText htemplates h.wellFormed d).bind fun text' _ h' => ?_
    have h := h.trans h'
    exact repeats_once h.wellFormed (h.direct hr hoverride) text' _ _

theorem repeats_emitModels (htemplates : emitter.templateFolder = none) (hr : r.files.WellFormed)
    {models : List (Scalar × Value)}
    (hdirect : ∀ m ∈ models, r.files.Direct (emitter.basePath (fileName (.scalar m.1))) ∧
      r.files.Direct (emitter.overridePath (fileName (.scalar m.1)))) :
    Repeats (emitter.emitModels g models) r := by
  induction models generalizing r with
  | nil => exact repeats_pure hr _
  | cons m models ih =>
    obtain ⟨⟨hbase, hoverride⟩, hrest⟩ := List.forall_mem_cons.mp hdirect
    refine (repeats_emitModel htemplates hr hbase hoverride).bind fun written _ h => ?_
    refine (ih h.wellFormed fun m' hm' => ?_).bind fun _ _ h' => repeats_pure h'.wellFormed _
    exact (hrest m' hm').imp (h.direct hr) (h.direct hr)

theorem repeats_emitIndex (htemplates : emitter.templateFolder = none) (hr : r.files.WellFormed)
    (hdirect : r.files.Direct emitter.indexPath) (names : Tree) :
    Repeats (emitter.emitIndex names) r := by
  refine (repeats_lift hr _).bind fun entries _ h => ?_
  refine (repeats_templates htemplates h.wellFormed _ _).bind fun templates _ h' => ?_
  have h := h.trans h'
  refine (repeats_lift h.wellFormed _).bind fun items _ h' => ?_
  have h := h.trans h'
  refine (repeats_write h.wellFormed (h.direct hr hdirect) _).bind fun _ _ h' => ?_
  exact repeats_pure h'.wellFormed _

/-- Whether a run may write to a path. -/
def Writes (emitter : Emitter) (doc : Document) (p : Path) : Prop :=
  p = emitter.indexPath ∨ ∃ models, doc.models emitter.isV2 = .ok models ∧ ∃ m ∈ models,
    p = emitter.basePath (fileName (.scalar m.1)) ∨ p = emitter.overridePath (fileName (.scalar m.1))

theorem repeats_emitAll (htemplates : emitter.templateFolder = none) (hr : r.files.WellFormed)
    (hdirect : ∀ p, emitter.Writes doc p → r.files.Direct p) : Repeats (emitter.emitAll doc) r := by
  refine (repeats_lift hr _).bind fun models hmodels h => ?_
  refine (repeats_emitModels htemplates h.wellFormed fun m hm => ?_).bind fun names _ h' => ?_
  · exact ⟨h.direct hr (hdirect _ (.inr ⟨models, hmodels, m, hm, .inl rfl⟩)),
      h.direct hr (hdirect _ (.inr ⟨models, hmodels, m, hm, .inr rfl⟩))⟩
  · have h := h.trans h'
    have hindex := h.direct hr (hdirect _ (.inl rfl))
    refine (repeats_emitIndex htemplates h.wellFormed hindex _).bind fun _ _ h' => ?_
    refine (repeats_notify h'.wellFormed _ _).bind fun _ _ h' => ?_
    exact repeats_pure h'.wellFormed _

theorem direct_pathOf {fs : FileSystem} {folder : Path} {stem : String}
    (hfolder : ".." ∉ folder.names) (hstem : emitter.Names stem) :
    fs.Direct (emitter.pathOf folder stem) := by
  have hdots : stem ++ emitter.fileExtension.display ≠ ".." := by
    have hdots := hstem.notDots
    simp only [List.mem_cons, List.not_mem_nil, or_false, not_or] at hdots
    exact hdots.2.2
  apply direct_of_notMem
  rw [pathOf, Path.child_of_isName hstem]
  simpa using ⟨hfolder, hdots.symm⟩

/-- A run done again on the files that it left ends as it did, with the same names or the same failure,
and changes nothing, unless a path that it writes to leads back out of a folder that was missing. -/
theorem emitAll_again {r' : Run} (htemplates : emitter.templateFolder = none)
    (hr : r.files.WellFormed) (hdirect : ∀ p, emitter.Writes doc p → r.files.Direct p)
    (hfiles : r'.files = ((emitter.emitAll doc).after r).files) :
    (emitter.emitAll doc).result r' = (emitter.emitAll doc).result r ∧
      ∀ place, ((emitter.emitAll doc).after r').files.get? place = r'.files.get? place := by
  obtain ⟨hlater, hagain⟩ := repeats_emitAll htemplates hr hdirect
  have hrefl := Later.refl hlater.wellFormed
  obtain ⟨hresult, -, hbetween⟩ := hagain _ r' hrefl (hfiles ▸ hrefl) fun q => .inl (by rw [hfiles])
  refine ⟨hresult, ?_⟩
  rw [hfiles]
  exact hbetween.last

/-- Base files and override files in one folder. -/
def together : Emitter := { plain with baseFolder := .ofText "out" }

theorem wellFormed_noFiles : noFiles.files.WellFormed where
  rooted q e h := by
    obtain rfl : q = [] := by
      by_contra hne
      simp [noFiles, Run.ofFiles, get?, hne] at h
    exact rooted_root _
  absolute := by decide
  current := rfl

/-- All that is written goes to one path. -/
theorem emitAll_again_together : ∃ doc, (twoModels "Index" "INDEX").prepare false = .ok doc ∧
    let first := (together.emitAll doc).after noFiles
    (together.emitAll doc).result first = (together.emitAll doc).result noFiles ∧
      ∀ place, ((together.emitAll doc).after first).files.get? place = first.files.get? place := by
  obtain ⟨doc, hdoc⟩ : ∃ doc, (twoModels "Index" "INDEX").prepare false = .ok doc := ⟨_, rfl⟩
  have hmodels : doc.models together.isV2 =
      .ok [(.text "Index", .node 3), (.text "INDEX", .node 6)] := by
    cases hdoc
    rfl
  refine ⟨doc, hdoc, emitAll_again rfl wellFormed_noFiles ?_ rfl⟩
  have hname : together.Names "index" := names_of_parts (by decide) (by decide) (by decide)
  have hout : noFiles.files.Direct (together.pathOf (.ofText "out") "index") :=
    direct_pathOf (by decide) hname
  rintro p (rfl | ⟨models, hmodels', m, hm, hp⟩)
  · exact hout
  · obtain rfl := Except.ok.inj (hmodels'.symm.trans hmodels)
    have hfile : fileName (.scalar m.1) = "index" := by
      simp only [List.mem_cons, List.not_mem_nil, or_false] at hm
      rcases hm with rfl | rfl <;> decide
    rw [hfile] at hp
    exact hp.elim (· ▸ hout) (· ▸ hout)

/-- Override files in the folder of the base files, which is reached out of a folder that is missing. -/
def roundabout : Emitter := { together with outputFolder := .ofText "x/../out" }

/-- The first time the override file takes the place of the base file: the folder to go back from is
not there yet when it is looked for. The second time the base file stays. -/
theorem emitAll_again_changes : ∃ doc, (oneModel "Pet").prepare false = .ok doc ∧
    let first := (roundabout.emitAll doc).after noFiles
    ((roundabout.emitAll doc).after first).files.read (.ofText "out/pet.js") ≠
      first.files.read (.ofText "out/pet.js") := by
  refine ⟨_, rfl, ?_⟩
  intro first h
  exact absurd (congrArg Except.toOption h) (by decide +kernel)

end Emitter

end ApiRecords
