import ApiRecords.Proofs.Emission.Parts

/-!
What the files hold once those of several models have been put, each by the texts of its own model, and
that it is the same whatever the order of the models.
-/

namespace ApiRecords

open FileSystem

theorem FileSystem.Direct.snoc {fs : FileSystem} {anchor : Anchor} {names : List String} {n : String}
    (h : fs.Direct ⟨anchor, names⟩) (hn : n ≠ "..") : fs.Direct ⟨anchor, names ++ [n]⟩ := by
  intro before after heq
  have heq : names ++ [n] = before ++ ".." :: after := heq
  cases after using List.reverseRecOn with
  | nil =>
    have hlast : [n] = [".."] := (List.append_inj' heq rfl).2
    exact absurd (by simpa using hlast) hn
  | append_singleton after m =>
    rw [← List.cons_append, ← List.append_assoc] at heq
    exact h before after (List.append_inj' heq rfl).1

namespace Emitter

variable {emitter : Emitter} {made fs fs' : FileSystem} {t : Texts} {ts ts' us : List Texts}
  {stem s : String} {q : Place}

/-! ### One model -/

theorem Names.notDotDot (h : emitter.Names stem) : stem ++ emitter.fileExtension.display ≠ ".." := by
  have hdots := h.notDots
  simp only [List.mem_cons, List.not_mem_nil, or_false, not_or] at hdots
  exact hdots.2.2

theorem parent_pathOf (h : emitter.Names stem) (folder : Path) :
    (emitter.pathOf folder stem).parent = folder := by
  rw [pathOf, Path.child_of_isName h, parent_snoc]

theorem direct_overridePath (hdirect : fs.Direct emitter.outputFolder) (h : emitter.Names stem) :
    fs.Direct (emitter.overridePath stem) := by
  rw [overridePath, pathOf, Path.child_of_isName h]
  exact hdirect.snoc h.notDotDot

/-- A base file is put into a folder that is there. -/
theorem get?_of_write_base (hfs : fs.WellFormed) (hname : emitter.Names stem)
    (hfolder : fs.find emitter.baseFolder = .ok .folder)
    (h : fs.write (emitter.basePath stem) s = .ok fs') (q : Place) :
    fs'.get? q = if q = Path.placeFrom fs.current (emitter.basePath stem) then some (.file s)
      else fs.get? q := by
  rw [get?_of_write hfs h, basePath, parent_pathOf hname, makeFolders_of_folder hfs hfolder]

/-- An override file is put into a folder that a direct path leads to. -/
theorem get?_of_write_override (hfs : fs.WellFormed) (hname : emitter.Names stem)
    (hdirect : fs.Direct emitter.outputFolder)
    (h : fs.write (emitter.overridePath stem) s = .ok fs') (q : Place) :
    fs'.get? q = if q = Path.placeFrom fs.current (emitter.overridePath stem) then some (.file s)
      else if q <+: Path.placeFrom fs.current emitter.outputFolder then some .folder
      else fs.get? q := by
  have hmade := (write_parts h).1
  rw [overridePath, parent_pathOf hname] at hmade
  rw [get?_of_write hfs h, overridePath, parent_pathOf hname, get?_makeFolders hfs hdirect hmade]

theorem basePath_ne {stem' : String} (h : emitter.Names stem) (h' : emitter.Names stem')
    (hne : stem ≠ stem') (current : Path) :
    Path.placeFrom current (emitter.basePath stem) ≠
      Path.placeFrom current (emitter.basePath stem') :=
  fun heq => hne (stem_eq_of_pathOf h h' heq)

theorem overridePath_ne {stem' : String} (h : emitter.Names stem) (h' : emitter.Names stem')
    (hne : stem ≠ stem') (current : Path) :
    Path.placeFrom current (emitter.overridePath stem) ≠
      Path.placeFrom current (emitter.overridePath stem') :=
  fun heq => hne (stem_eq_of_pathOf h h' heq)

/-- What the files hold once the base files of `ts` and the override files of `us` have been seen to,
where `made` is what there was with the folder of base files: all of the former, the latter where
nothing was, folders on the way to these, and for the rest what there was. -/
structure Filled (emitter : Emitter) (made : FileSystem) (ts us : List Texts) (fs : FileSystem) :
    Prop where
  later : Later made fs
  base : ∀ t ∈ ts, fs.get? (Path.placeFrom made.current (emitter.basePath t.stem)) =
    some (.file t.base)
  override : ∀ u ∈ us, made.get? (Path.placeFrom made.current (emitter.overridePath u.stem)) = none →
    fs.get? (Path.placeFrom made.current (emitter.overridePath u.stem)) = some (.file u.override)
  other : ∀ q, (∀ t ∈ ts, q ≠ Path.placeFrom made.current (emitter.basePath t.stem)) →
    (∀ u ∈ us, q = Path.placeFrom made.current (emitter.overridePath u.stem) → made.get? q ≠ none) →
    fs.get? q = made.get? q ∨
      q <+: Path.placeFrom made.current emitter.outputFolder ∧ fs.get? q = some .folder

/-- Of different stems, so that their files are different. -/
def Other (emitter : Emitter) (t : Texts) (ts : List Texts) : Prop :=
  ∀ t' ∈ ts, emitter.Names t'.stem ∧ t'.stem ≠ t.stem

namespace Filled

variable (h : emitter.Filled made ts us fs)
  (hfolders : Path.placeFrom made.current emitter.outputFolder ≠
    Path.placeFrom made.current emitter.baseFolder)
  (ht : emitter.Names t.stem)

include h hfolders ht

theorem writeBase (hmade : made.WellFormed)
    (hfolder : made.find emitter.baseFolder = .ok .folder) (hts : emitter.Other t ts)
    (hus : ∀ u ∈ us, emitter.Names u.stem)
    (hwrite : fs.write (emitter.basePath t.stem) t.base = .ok fs') :
    emitter.Filled made (ts ++ [t]) us fs' := by
  have hget := get?_of_write_base h.later.wellFormed ht (h.later.find_folder hmade hfolder) hwrite
  rw [h.later.keeps.current] at hget
  refine ⟨h.later.trans (later_of_write h.later.wellFormed hwrite), ?_, ?_, ?_⟩
  · intro t' ht'
    rcases List.mem_append.mp ht' with ht' | ht'
    · obtain ⟨hname, hne⟩ := hts t' ht'
      rw [hget, if_neg (basePath_ne hname ht hne _)]
      exact h.base t' ht'
    · rw [List.mem_singleton.mp ht', hget]
      exact if_pos rfl
  · intro u hu hnone
    rw [hget, if_neg (overridePath_ne_basePath hfolders ht (hus u hu))]
    exact h.override u hu hnone
  · intro q hq hq'
    rw [hget, if_neg (hq t (by simp))]
    exact h.other q (fun t' ht' => hq t' (by simp [ht'])) hq'

/-- The place of an override file that has not been seen to is as it was. -/
theorem get?_override (hts : ∀ t' ∈ ts, emitter.Names t'.stem) (hus : emitter.Other t us) :
    fs.get? (Path.placeFrom made.current (emitter.overridePath t.stem)) =
      made.get? (Path.placeFrom made.current (emitter.overridePath t.stem)) := by
  refine (h.other _ (fun t' ht' => ?_) fun u hu heq => ?_).resolve_right fun hway => ?_
  · exact overridePath_ne_basePath hfolders (hts t' ht') ht
  · obtain ⟨hname, hne⟩ := hus u hu
    exact absurd heq.symm (overridePath_ne hname ht hne _)
  · rw [placeFrom_overridePath ht] at hway
    exact concat_notPrefix _ _ hway.1

/-- Nothing stands where an override file is not found. -/
theorem get?_eq_none (hmade : made.WellFormed) (hdirect : made.Direct emitter.outputFolder)
    (hts : ∀ t' ∈ ts, emitter.Names t'.stem) (hus : emitter.Other t us)
    (hname : ¬ Unnameable (emitter.overridePath t.stem))
    (hexists : ¬ fs.exists? (emitter.overridePath t.stem)) :
    made.get? (Path.placeFrom made.current (emitter.overridePath t.stem)) = none := by
  have hdirect := direct_overridePath (h.later.direct hmade hdirect) ht
  rw [hdirect.exists?_iff h.later.wellFormed hname, h.later.keeps.current,
    h.get?_override hfolders ht hts hus] at hexists
  exact Option.eq_none_iff_forall_ne_some.mpr fun e he => hexists ⟨e, he⟩

theorem addOverride (hmade : made.WellFormed) (hdirect : made.Direct emitter.outputFolder)
    (hts : ∀ t' ∈ ts, emitter.Names t'.stem) (hus : emitter.Other t us)
    (hexists : ¬ fs.exists? (emitter.overridePath t.stem))
    (hwrite : fs.write (emitter.overridePath t.stem) t.override = .ok fs') :
    emitter.Filled made ts (us ++ [t]) fs' := by
  have hcurrent := h.later.keeps.current
  have hfs := h.later.wellFormed
  have hname : ¬ Unnameable (emitter.overridePath t.stem) := by
    obtain ⟨place, hplace, -⟩ := read_ok.mp (read_of_write hwrite)
    exact nameable_of_place hplace
  have hnone := h.get?_eq_none hfolders ht hmade hdirect hts hus hname hexists
  have hget := get?_of_write hfs hwrite
  have hget' := get?_of_write_override hfs ht (h.later.direct hmade hdirect) hwrite
  rw [hcurrent] at hget hget'
  refine ⟨h.later.trans (later_of_write hfs hwrite), fun t' ht' => ?_, fun u hu hnone' => ?_,
    fun q hq hq' => ?_⟩
  · rw [hget, if_neg (overridePath_ne_basePath hfolders (hts t' ht') ht).symm]
    exact makeFolders_adds hfs _ (h.base t' ht')
  · rcases List.mem_append.mp hu with hu | hu
    · obtain ⟨hname, hne⟩ := hus u hu
      rw [hget, if_neg (overridePath_ne hname ht hne _)]
      exact makeFolders_adds hfs _ (h.override u hu hnone')
    · rw [List.mem_singleton.mp hu, hget]
      exact if_pos rfl
  · have hne : q ≠ Path.placeFrom made.current (emitter.overridePath t.stem) :=
      fun heq => hq' t (by simp) heq (heq ▸ hnone)
    rw [hget', if_neg hne]
    split
    · rename_i hway
      exact .inr ⟨hway, rfl⟩
    · exact h.other q hq fun u hu => hq' u (List.mem_append_left _ hu)

theorem keepOverride (hts : ∀ t' ∈ ts, emitter.Names t'.stem) (hus : emitter.Other t us)
    (hexists : fs.exists? (emitter.overridePath t.stem)) :
    emitter.Filled made ts (us ++ [t]) fs := by
  obtain ⟨e, he⟩ := exists?_iff.mp hexists
  have he := get?_of_find he
  rw [h.later.keeps.current, h.get?_override hfolders ht hts hus] at he
  refine ⟨h.later, h.base, fun u hu hnone => ?_, fun q hq hq' => ?_⟩
  · rcases List.mem_append.mp hu with hu | hu
    · exact h.override u hu hnone
    · rw [List.mem_singleton.mp hu, he] at hnone
      cases hnone
  · exact h.other q hq fun u hu => hq' u (List.mem_append_left _ hu)

end Filled

/-! ### One model after another -/

theorem Filled.putModel (h : emitter.Filled made ts ts fs) (hmade : made.WellFormed)
    (hfolders : Path.placeFrom made.current emitter.outputFolder ≠
      Path.placeFrom made.current emitter.baseFolder)
    (hfolder : made.find emitter.baseFolder = .ok .folder)
    (hdirect : made.Direct emitter.outputFolder) (ht : emitter.Names t.stem)
    (hts : emitter.Other t ts) (hput : emitter.putModel fs t = .ok fs') :
    emitter.Filled made (ts ++ [t]) (ts ++ [t]) fs' := by
  rw [Emitter.putModel, bind_ok_iff] at hput
  obtain ⟨fs₁, hwrite, honce⟩ := hput
  have hbase := h.writeBase hfolders ht hmade hfolder hts (fun u hu => (hts u hu).1) hwrite
  have hnames : ∀ t' ∈ ts ++ [t], emitter.Names t'.stem := by
    intro t' ht'
    rcases List.mem_append.mp ht' with ht' | ht'
    · exact (hts t' ht').1
    · rwa [List.mem_singleton.mp ht']
  by_cases hexists : fs₁.exists? (emitter.overridePath t.stem)
  · rw [if_pos hexists] at honce
    obtain rfl := Except.ok.inj honce
    exact hbase.keepOverride hfolders ht hnames hts hexists
  · rw [if_neg hexists] at honce
    exact hbase.addOverride hfolders ht hmade hdirect hnames hts hexists honce

theorem Filled.putModels {before : List Texts} (h : emitter.Filled made before before fs)
    (hmade : made.WellFormed)
    (hfolders : Path.placeFrom made.current emitter.outputFolder ≠
      Path.placeFrom made.current emitter.baseFolder)
    (hfolder : made.find emitter.baseFolder = .ok .folder)
    (hdirect : made.Direct emitter.outputFolder)
    (hnames : ∀ t ∈ before ++ ts, emitter.Names t.stem)
    (hstems : ((before ++ ts).map Texts.stem).Nodup)
    (hput : ts.foldlM emitter.putModel fs = .ok fs') :
    emitter.Filled made (before ++ ts) (before ++ ts) fs' := by
  induction ts generalizing before fs with
  | nil =>
    obtain rfl := (pure_ok_iff _ _).mp hput
    simpa using h
  | cons t ts ih =>
    rw [List.foldlM_cons, bind_ok_iff] at hput
    obtain ⟨fs₁, hput, hrest⟩ := hput
    have hother : emitter.Other t before := by
      intro t' ht'
      refine ⟨hnames t' (List.mem_append_left _ ht'), ?_⟩
      rw [List.map_append] at hstems
      exact (List.nodup_append.mp hstems).2.2 _ (List.mem_map_of_mem ht') _ (by simp)
    have ht := h.putModel hmade hfolders hfolder hdirect (hnames t (by simp)) hother hput
    rw [← List.singleton_append, ← List.append_assoc] at hnames hstems ⊢
    exact ih ht hnames hstems hrest

/-- The first model finds the folder of base files made, as it makes it itself. -/
theorem putModel_makeFolders (hfs : fs.WellFormed) (ht : emitter.Names t.stem)
    (hput : emitter.putModel fs t = .ok fs') :
    let made := fs.makeFolders emitter.baseFolder
    made.2 = .ok () ∧ emitter.putModel made.1 t = .ok fs' := by
  intro made
  have hparent : (emitter.basePath t.stem).parent = emitter.baseFolder := parent_pathOf ht _
  have hok : made.2 = .ok () := by
    rw [putModel, bind_ok_iff] at hput
    obtain ⟨fs₁, hwrite, -⟩ := hput
    have hok := (write_parts hwrite).1
    rwa [hparent] at hok
  have hagain : made.1.makeFolders emitter.baseFolder = (made.1, .ok ()) :=
    makeFolders_of_folder (makeFolders_later hfs _).wellFormed (makeFolders_find hfs hok)
  have hwrite : made.1.write (emitter.basePath t.stem) t.base =
      fs.write (emitter.basePath t.stem) t.base := by
    simp only [FileSystem.write, hparent, hagain]
    rw [hok]
  refine ⟨hok, ?_⟩
  rw [putModel, hwrite]
  exact hput

theorem filled_of_putModels (hfs : fs.WellFormed)
    (hfolders : Path.placeFrom fs.current emitter.outputFolder ≠
      Path.placeFrom fs.current emitter.baseFolder)
    (hdirect : (fs.makeFolders emitter.baseFolder).1.Direct emitter.outputFolder)
    (hnames : ∀ t ∈ ts, emitter.Names t.stem) (hstems : (ts.map Texts.stem).Nodup)
    (hne : ts ≠ []) (hput : ts.foldlM emitter.putModel fs = .ok fs') :
    emitter.Filled (fs.makeFolders emitter.baseFolder).1 ts ts fs' := by
  obtain ⟨t, rest, rfl⟩ := List.exists_cons_of_ne_nil hne
  have hlater := makeFolders_later hfs emitter.baseFolder
  have hrefl := Later.refl hlater.wellFormed
  rw [List.foldlM_cons, bind_ok_iff] at hput
  obtain ⟨fs₁, hfirst, hrest⟩ := hput
  obtain ⟨hok, hfirst⟩ := putModel_makeFolders hfs (hnames t (by simp)) hfirst
  have hnone : emitter.Filled (fs.makeFolders emitter.baseFolder).1 [] []
      (fs.makeFolders emitter.baseFolder).1 :=
    ⟨hrefl, by simp, by simp, fun _ _ _ => .inl rfl⟩
  rw [← hlater.keeps.current] at hfolders
  refine hnone.putModels hlater.wellFormed hfolders (makeFolders_find hfs hok) hdirect hnames hstems ?_
  rw [List.foldlM_cons, bind_ok_iff]
  exact ⟨fs₁, hfirst, hrest⟩

/-- What the files hold does not depend on the order of the models, but for folders on the way to the
override files. -/
theorem Filled.get?_eq (h : emitter.Filled made ts ts fs) (h' : emitter.Filled made ts' ts' fs')
    (hperm : ts.Perm ts') (hq : ¬ q <+: Path.placeFrom made.current emitter.outputFolder) :
    fs.get? q = fs'.get? q := by
  by_cases hbase : ∃ t ∈ ts, q = Path.placeFrom made.current (emitter.basePath t.stem)
  · obtain ⟨t, ht, rfl⟩ := hbase
    rw [h.base t ht, h'.base t (hperm.mem_iff.mp ht)]
  · by_cases hover : ∃ t ∈ ts, q = Path.placeFrom made.current (emitter.overridePath t.stem) ∧
        made.get? q = none
    · obtain ⟨t, ht, rfl, hnone⟩ := hover
      rw [h.override t ht hnone, h'.override t (hperm.mem_iff.mp ht) hnone]
    · have hsame : ∀ {ts : List Texts} {fs}, emitter.Filled made ts ts fs →
          (∀ t ∈ ts, q ≠ Path.placeFrom made.current (emitter.basePath t.stem)) →
          (∀ t ∈ ts, q = Path.placeFrom made.current (emitter.overridePath t.stem) →
            made.get? q ≠ none) → fs.get? q = made.get? q :=
        fun h hbase hover => (h.other q hbase hover).resolve_right fun hway => hq hway.1
      rw [hsame h, hsame h']
      · exact fun t ht heq => hbase ⟨t, hperm.mem_iff.mpr ht, heq⟩
      · exact fun t ht heq hnone => hover ⟨t, hperm.mem_iff.mpr ht, heq, hnone⟩
      · exact fun t ht heq => hbase ⟨t, ht, heq⟩
      · exact fun t ht heq hnone => hover ⟨t, ht, heq, hnone⟩

/-! ### Names of files -/

theorem putModel_later (hfs : fs.WellFormed) (hput : emitter.putModel fs t = .ok fs') :
    Later fs fs' ∧ ∃ c, fs'.read (emitter.basePath t.stem) = .ok c := by
  rw [putModel, bind_ok_iff] at hput
  obtain ⟨fs₁, hwrite, honce⟩ := hput
  have hlater := later_of_write hfs hwrite
  have hlater' : Later fs₁ fs' := by
    split at honce
    · obtain rfl := Except.ok.inj honce
      exact .refl hlater.wellFormed
    · exact later_of_write hlater.wellFormed honce
  obtain ⟨c, hread, -⟩ := hlater'.keeps.read (read_of_write hwrite)
  exact ⟨hlater.trans hlater', c, hread⟩

theorem putModels_later (hfs : fs.WellFormed) (hput : ts.foldlM emitter.putModel fs = .ok fs') :
    Later fs fs' ∧ ∀ t ∈ ts, ∃ c, fs'.read (emitter.basePath t.stem) = .ok c := by
  induction ts generalizing fs with
  | nil =>
    obtain rfl := (pure_ok_iff _ _).mp hput
    exact ⟨.refl hfs, by simp⟩
  | cons t ts ih =>
    rw [List.foldlM_cons, bind_ok_iff] at hput
    obtain ⟨fs₁, hfirst, hrest⟩ := hput
    obtain ⟨hlater, c, hread⟩ := putModel_later hfs hfirst
    obtain ⟨hlater', hreads⟩ := ih hlater.wellFormed hrest
    obtain ⟨c', hread', -⟩ := hlater'.keeps.read hread
    exact ⟨hlater.trans hlater', List.forall_mem_cons.mpr ⟨⟨c', hread'⟩, hreads⟩⟩

theorem names_of_stem (hext : '/' ∉ emitter.fileExtension.display.toList)
    (hchars : ∀ c ∈ stem.toList, Text.isNameChar c) (hne : stem ≠ "") : emitter.Names stem := by
  have hslash : '/' ∉ stem.toList := fun h => absurd (hchars _ h) (by decide)
  refine names_of_parts hext hslash fun hdots => ?_
  obtain ⟨c, cs, hcs⟩ := List.exists_cons_of_ne_nil (mt String.toList_eq_nil_iff.mp hne)
  have hdot : c = '.' := by
    simp only [String.ext_iff, String.toList_append, hcs, List.mem_cons, List.not_mem_nil,
      or_false] at hdots
    rcases hdots with h | h | h <;> simp_all
  have hname := hchars c (by simp [hcs])
  rw [hdot] at hname
  exact absurd hname (by decide)

/-- A file in a folder has a name of its own. -/
theorem isName_of_read {folder : Path} {c : String}
    (hfolder : fs.find folder = .ok .folder) (hslash : '/' ∉ s.toList)
    (hread : fs.read (folder.child s) = .ok c) : Path.IsName s := by
  have hfind : fs.find (folder.child s) = .ok (.file c) := by
    obtain ⟨place, hplace, hfile⟩ := read_ok.mp hread
    exact find_of_place hplace hfile
  refine ⟨hslash, fun hdots => ?_⟩
  have hchild : folder.child s = folder ∨
      folder.child s = ⟨folder.anchor, folder.names ++ [".."]⟩ := by
    simp only [List.mem_cons, List.not_mem_nil, or_false] at hdots
    rcases hdots with rfl | rfl | rfl
    · exact .inl (by simp [Path.child, show Path.ofText "" = ⟨.here, []⟩ by decide, Path.join,
        Path.isAbsolute])
    · exact .inl (by simp [Path.child, show Path.ofText "." = ⟨.here, []⟩ by decide, Path.join,
        Path.isAbsolute])
    · exact .inr (by simp [Path.child, show Path.ofText ".." = ⟨.here, [".."]⟩ by decide, Path.join,
        Path.isAbsolute])
  rcases hchild with heq | heq
  · rw [heq, hfolder] at hfind
    cases hfind
  · rw [heq, folder_around hfolder] at hfind
    cases hfind

/-- Where several models have been put, each has files of its own. -/
theorem names_of_putModels (hfs : fs.WellFormed) (hext : '/' ∉ emitter.fileExtension.display.toList)
    (hchars : ∀ t ∈ ts, ∀ c ∈ t.stem.toList, Text.isNameChar c)
    (hput : ts.foldlM emitter.putModel fs = .ok fs') (hsome : ∃ t ∈ ts, t.stem ≠ "") :
    ∀ t ∈ ts, emitter.Names t.stem := by
  obtain ⟨hlater, hreads⟩ := putModels_later hfs hput
  obtain ⟨t, ht, hne⟩ := hsome
  have hfolder : fs'.find emitter.baseFolder = .ok .folder := by
    obtain ⟨c, hread⟩ := hreads t ht
    obtain ⟨place, hplace, -⟩ := read_ok.mp hread
    rw [basePath, pathOf, Path.child_of_isName (names_of_stem hext (hchars t ht) hne)] at hplace
    exact folder_before hplace
  intro t' ht'
  obtain ⟨c, hread⟩ := hreads t' ht'
  refine isName_of_read hfolder ?_ hread
  have hslash : '/' ∉ t'.stem.toList := fun h => absurd (hchars t' ht' _ h) (by decide)
  simp [hslash, hext]

/-! ### Two orders -/

/-- The index is put into the folder of override files. -/
theorem Filled.get?_index (h : emitter.Filled made ts ts fs) (hmade : made.WellFormed)
    (hdirect : made.Direct emitter.outputFolder)
    (hext : '/' ∉ emitter.fileExtension.display.toList)
    (hindex : fs.write emitter.indexPath s = .ok fs')
    (hq : q ≠ Path.placeFrom made.current emitter.indexPath) :
    fs'.get? q = if q <+: Path.placeFrom made.current emitter.outputFolder then some .folder
      else fs.get? q := by
  have hchars : ∀ c ∈ "index".toList, Text.isNameChar c := List.all_eq_true.mp rfl
  have hname : emitter.Names "index" := names_of_stem hext hchars (by decide)
  have hget := get?_of_write_override h.later.wellFormed hname (h.later.direct hmade hdirect) hindex q
  rw [h.later.keeps.current] at hget
  exact hget.trans (if_neg hq)

/-- Models of which none has a name for its files are at most one, so that there are no two orders. -/
theorem perm_eq_of_stems (hstems : (ts.map Texts.stem).Nodup) (hempty : ∀ t ∈ ts, t.stem = "")
    (hperm : ts.Perm ts') : ts = ts' := by
  match ts, hstems with
  | [], _ => exact hperm.nil_eq
  | [t], _ => exact List.singleton_perm.mp hperm
  | t :: u :: rest, hstems => simp [hempty t, hempty u] at hstems

theorem putModels_reordered {fs₁ fs₁' fs₂ fs₂' : FileSystem} {s' : String} (hfs : fs.WellFormed)
    (hfolders : Path.placeFrom fs.current emitter.outputFolder ≠
      Path.placeFrom fs.current emitter.baseFolder)
    (hext : '/' ∉ emitter.fileExtension.display.toList)
    (hdirect : (fs.makeFolders emitter.baseFolder).1.Direct emitter.outputFolder)
    (hchars : ∀ t ∈ ts, ∀ c ∈ t.stem.toList, Text.isNameChar c)
    (hstems : (ts.map Texts.stem).Nodup) (hperm : ts.Perm ts')
    (hput : ts.foldlM emitter.putModel fs = .ok fs₁)
    (hput' : ts'.foldlM emitter.putModel fs = .ok fs₁')
    (hindex : fs₁.write emitter.indexPath s = .ok fs₂)
    (hindex' : fs₁'.write emitter.indexPath s' = .ok fs₂')
    (hq : q ≠ Path.placeFrom fs.current emitter.indexPath) : fs₂.get? q = fs₂'.get? q := by
  by_cases hsome : ∃ t ∈ ts, t.stem ≠ ""
  · have hnames := names_of_putModels hfs hext hchars hput hsome
    have hnames' : ∀ t ∈ ts', emitter.Names t.stem := fun t ht => hnames t (hperm.mem_iff.mpr ht)
    have hstems' : (ts'.map Texts.stem).Nodup := (hperm.map _).nodup_iff.mp hstems
    obtain ⟨t, ht, -⟩ := hsome
    have hfilled := filled_of_putModels hfs hfolders hdirect hnames hstems
      (List.ne_nil_of_mem ht) hput
    have hfilled' := filled_of_putModels hfs hfolders hdirect hnames' hstems'
      (List.ne_nil_of_mem (hperm.mem_iff.mp ht)) hput'
    have hmade := makeFolders_later hfs emitter.baseFolder
    rw [← hmade.keeps.current] at hq
    rw [hfilled.get?_index hmade.wellFormed hdirect hext hindex hq,
      hfilled'.get?_index hmade.wellFormed hdirect hext hindex' hq]
    split
    · rfl
    · exact hfilled.get?_eq hfilled' hperm ‹_›
  · have hempty : ∀ t ∈ ts, t.stem = "" := by
      intro t ht
      by_contra hne
      exact hsome ⟨t, ht, hne⟩
    have hlater := (putModels_later hfs hput).1
    obtain rfl := perm_eq_of_stems hstems hempty hperm
    obtain rfl := Except.ok.inj (hput.symm.trans hput')
    rw [get?_of_write hlater.wellFormed hindex, get?_of_write hlater.wellFormed hindex',
      hlater.keeps.current, if_neg hq, if_neg hq]

end Emitter

end ApiRecords
