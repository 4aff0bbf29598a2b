import ApiRecords.Files.System
import ApiRecords.Proofs.Members
import ApiRecords.Proofs.Outcome
import Mathlib.Data.List.Fold
import Mathlib.Data.List.MinMax

/-!
What changes of the files leave: folders stay folders, and every file stays what it was but the one
that is written over.
-/

namespace ApiRecords

namespace Path

/-- Goes from a folder to the one that a name leads to. -/
def enterName (names : List String) (n : String) : List String :=
  if n = ".." then names.dropLast else names ++ [n]

theorem normalNames_append (names more : List String) :
    normalNames (names ++ more) = more.foldl enterName (normalNames names) :=
  List.foldl_append

/-- The place that a path leads to where every folder on the way is there. -/
def placeFrom (current p : Path) : Place := (normal current p).names

end Path

namespace FileSystem

variable {fs fs' fs'' : FileSystem} {place start q : Place} {p path : Path} {names : List String}
  {e : Entry} {content c : String} {overwritten overwritten' : Place → Prop}

/-- Whether all folders around a place are there. -/
def Rooted (fs : FileSystem) (place : Place) : Prop :=
  ∀ q, q <+: place → q ≠ place → fs.get? q = some .folder

theorem rooted_root (fs : FileSystem) : fs.Rooted [] := by
  intro q hq hne
  exact absurd (List.prefix_nil.mp hq) hne

theorem Rooted.of_prefix (h : fs.Rooted place) (hq : q <+: place) : fs.Rooted q := by
  intro r hr hne
  have hlt := Nat.lt_of_le_of_ne hr.length_le fun e => hne (hr.eq_of_length e)
  apply h r (hr.trans hq)
  rintro rfl
  exact absurd hq.length_le (Nat.not_le_of_lt hlt)

theorem Rooted.enterName (h : fs.Rooted place) (hfolder : fs.get? place = some .folder)
    (n : String) : fs.Rooted (Path.enterName place n) := by
  unfold Path.enterName
  split
  · exact h.of_prefix (List.dropLast_prefix place)
  · intro q hq hne
    have hq' := (List.prefix_concat_iff.mp hq).resolve_left hne
    by_cases heq : q = place
    · exact heq ▸ hfolder
    · exact h q hq' heq

/-- Names are followed from folder to folder. -/
theorem follow_cons_ok (n : String) :
    fs.follow start (n :: names) = .ok place ↔
      fs.get? start = some .folder ∧ fs.follow (Path.enterName start n) names = .ok place := by
  rw [follow]
  cases fs.get? start with
  | none => simp
  | some e => cases e <;> simp [Path.enterName]

theorem follow_ok (hstart : fs.Rooted start) (h : fs.follow start names = .ok place) :
    place = names.foldl Path.enterName start ∧ fs.Rooted place := by
  induction names generalizing start with
  | nil =>
    obtain rfl := Except.ok.inj h
    exact ⟨rfl, hstart⟩
  | cons n names ih =>
    obtain ⟨hfolder, h⟩ := (follow_cons_ok n).mp h
    exact ih (hstart.enterName hfolder n) h

theorem place_ok (h : fs.place p = .ok place) :
    place = Path.placeFrom fs.current p ∧ fs.Rooted place := by
  unfold FileSystem.place at h
  split at h
  · cases h
  · exact follow_ok fs.rooted_root h

theorem find_ok : fs.find p = .ok e ↔ ∃ place, fs.place p = .ok place ∧ fs.get? place = some e := by
  rw [find, bind_ok_iff]
  apply exists_congr
  intro place
  cases fs.get? place <;> simp

theorem read_ok : fs.read p = .ok c ↔
    ∃ place, fs.place p = .ok place ∧ fs.get? place = some (.file c) := by
  rw [read, bind_ok_iff]
  simp only [find_ok]
  constructor
  · rintro ⟨e, ⟨place, hplace, he⟩, h⟩
    cases e with
    | folder => cases h
    | file content => exact ⟨place, hplace, Except.ok.inj h ▸ he⟩
  · rintro ⟨place, hplace, he⟩
    exact ⟨_, ⟨place, hplace, he⟩, rfl⟩

theorem exists?_of_read (h : fs.read p = .ok c) : fs.exists? p := by
  obtain ⟨place, hplace, he⟩ := read_ok.mp h
  have hfind : fs.find p = .ok (.file c) := find_ok.mpr ⟨place, hplace, he⟩
  rw [exists?, hfind]
  rfl

/-! ### What is kept -/

/-- Whether what stands in `fs` still stands in `fs'`, where files may be written over at the places
`overwritten`. -/
structure Keeps (overwritten : Place → Prop) (fs fs' : FileSystem) : Prop where
  current : fs'.current = fs.current
  folder : ∀ place, fs.Rooted place → fs.get? place = some .folder → fs'.get? place = some .folder
  file : ∀ place c, fs.Rooted place → fs.get? place = some (.file c) →
    ∃ c', fs'.get? place = some (.file c') ∧ (c' = c ∨ overwritten place)

namespace Keeps

theorem refl (overwritten : Place → Prop) (fs : FileSystem) : Keeps overwritten fs fs where
  current := rfl
  folder _ _ h := h
  file _ c _ h := ⟨c, h, .inl rfl⟩

theorem rooted (h : Keeps overwritten fs fs') (hroot : fs.Rooted place) : fs'.Rooted place :=
  fun q hq hne => h.folder q (hroot.of_prefix hq) (hroot q hq hne)

theorem trans (h : Keeps overwritten fs fs') (h' : Keeps overwritten fs' fs'') : Keeps overwritten fs fs'' where
  current := h'.current.trans h.current
  folder place hroot hfolder := h'.folder place (h.rooted hroot) (h.folder place hroot hfolder)
  file place c hroot hfile := by
    obtain ⟨c', hfile', hc'⟩ := h.file place c hroot hfile
    obtain ⟨c'', hfile'', hc''⟩ := h'.file place c' (h.rooted hroot) hfile'
    refine ⟨c'', hfile'', ?_⟩
    rcases hc'' with rfl | hover
    · exact hc'
    · exact .inr hover

theorem mono (h : Keeps overwritten fs fs') (hover : ∀ place, overwritten place → overwritten' place) :
    Keeps overwritten' fs fs' where
  current := h.current
  folder := h.folder
  file place c hroot hfile := by
    obtain ⟨c', hfile', hc'⟩ := h.file place c hroot hfile
    exact ⟨c', hfile', hc'.imp_right (hover place)⟩

theorem follow (h : Keeps overwritten fs fs') (hstart : fs.Rooted start)
    (hf : fs.follow start names = .ok place) : fs'.follow start names = .ok place := by
  induction names generalizing start with
  | nil => exact hf
  | cons n names ih =>
    obtain ⟨hfolder, hf⟩ := (follow_cons_ok n).mp hf
    exact (follow_cons_ok n).mpr ⟨h.folder start hstart hfolder, ih (hstart.enterName hfolder n) hf⟩

theorem place_eq (h : Keeps overwritten fs fs') (hp : fs.place p = .ok place) :
    fs'.place p = .ok place := by
  unfold FileSystem.place at hp ⊢
  rw [h.current]
  split at hp
  · cases hp
  · rename_i hnames
    rw [if_neg hnames]
    exact h.follow fs.rooted_root hp

/-- A path that leads to a file still does, to the same one unless it was written over. -/
theorem read (h : Keeps overwritten fs fs') (hread : fs.read path = .ok c) :
    ∃ c', fs'.read path = .ok c' ∧ (c' = c ∨ overwritten (Path.placeFrom fs.current path)) := by
  obtain ⟨place, hplace, hfile⟩ := read_ok.mp hread
  obtain ⟨rfl, hroot⟩ := place_ok hplace
  obtain ⟨c', hfile', hc'⟩ := h.file _ c hroot hfile
  exact ⟨c', read_ok.mpr ⟨_, h.place_eq hplace, hfile'⟩, hc'⟩

end Keeps

/-! ### Folders -/

theorem keeps_put_new (hnew : fs.get? place = none) (e : Entry) (overwritten : Place → Prop) :
    Keeps overwritten fs (fs.put place e) := by
  have hkeep : ∀ q e', fs.get? q = some e' → (fs.put place e).get? q = some e' := by
    intro q e' hq
    have hne : q ≠ place := by
      rintro rfl
      simp [hnew] at hq
    rw [get?_put_of_ne fs hne, hq]
  exact ⟨rfl, fun q _ hq => hkeep q _ hq, fun q c _ hq => ⟨c, hkeep q _ hq, .inl rfl⟩⟩

theorem makeFolder_ok (h : fs.makeFolder p = .ok fs') :
    ∃ place, fs.place p = .ok place ∧ fs.get? place = none ∧ fs' = fs.put place .folder := by
  simp only [makeFolder, bind_ok_iff] at h
  obtain ⟨around, -, h⟩ := h
  split at h
  · cases h
  · cases h
  · simp only [bind_ok_iff] at h
    obtain ⟨place, hplace, h⟩ := h
    split at h
    · cases h
    · rename_i hnew
      exact ⟨place, hplace, hnew, (Except.ok.inj h).symm⟩

theorem makeFolder_keeps (h : fs.makeFolder p = .ok fs') (overwritten : Place → Prop) :
    Keeps overwritten fs fs' := by
  obtain ⟨place, -, hnew, rfl⟩ := makeFolder_ok h
  exact keeps_put_new hnew _ overwritten

theorem settleFolder_keeps (fs : FileSystem) (p : Path) (overwritten : Place → Prop) :
    Keeps overwritten fs (fs.settleFolder p).1 := by
  unfold settleFolder
  split
  · rename_i h
    exact makeFolder_keeps h overwritten
  · exact .refl overwritten fs

theorem makeFoldersUp_keeps (anchor : Anchor) (fs : FileSystem) (names : List String)
    (overwritten : Place → Prop) : Keeps overwritten fs (fs.makeFoldersUp anchor names).1 := by
  induction names with
  | nil => exact .refl overwritten fs
  | cons n above ih =>
    simp only [makeFoldersUp]
    split
    · split
      · rename_i h
        exact h ▸ ih
      · rename_i h
        rw [h] at ih
        exact ih.trans (settleFolder_keeps _ _ overwritten)
    · exact settleFolder_keeps _ _ overwritten

theorem makeFolders_keeps (fs : FileSystem) (p : Path) (overwritten : Place → Prop) :
    Keeps overwritten fs (fs.makeFolders p).1 :=
  makeFoldersUp_keeps ..

/-! ### Spare files -/

theorem mem_entries_of_get? (hne : place ≠ []) (h : fs.get? place = some e) :
    (place, e) ∈ fs.entries := by
  rw [get?, if_neg hne] at h
  exact mem_of_lookup h

/-- No place in use ends in the spare name. -/
theorem get?_spare (fs : FileSystem) (folder : Place) (name : String) :
    fs.get? (folder ++ [fs.spareName name]) = none := by
  cases h : fs.get? (folder ++ [fs.spareName name]) with
  | none => rfl
  | some e =>
    let lengths := fs.entries.map fun entry => (entry.1.getLastD "").length
    have hmem : (fs.spareName name).length ∈ lengths :=
      List.mem_map.mpr ⟨_, mem_entries_of_get? (by simp) h, by simp⟩
    have hle : (fs.spareName name).length ≤ lengths.foldl max 0 := by
      rw [List.foldl_eq_foldr]
      exact List.le_max_of_le' 0 hmem (Nat.le_refl _)
    have hlength : (fs.spareName name).length = 1 + name.length + 1 + lengths.foldl max 0 + 4 := by
      simp only [spareName, String.length_append, String.length_ofList, List.length_replicate]
      rfl
    omega

theorem spare_notPrefix (hroot : fs.Rooted place) (h : fs.get? place = some e) (folder : Place)
    (name : String) : ¬ folder ++ [fs.spareName name] <+: place := by
  intro hprefix
  have hnone := fs.get?_spare folder name
  by_cases heq : folder ++ [fs.spareName name] = place
  · rw [heq, h] at hnone
    cases hnone
  · rw [hroot _ hprefix heq] at hnone
    cases hnone

theorem get?_erase_of_notPrefix (h : ¬ q <+: place) : (fs.erase q).get? place = fs.get? place := by
  have hkeep : (!q.isPrefixOf place) = true := by
    rw [Bool.not_eq_true', ← Bool.not_eq_true, List.isPrefixOf_iff_prefix]
    exact h
  have hlookup := lookup_filterKeys fs.entries (fun r => !q.isPrefixOf r) place
  rw [if_pos hkeep] at hlookup
  simp only [get?, erase, hlookup]

/-- Nothing comes to stand where something is taken away. -/
theorem get?_of_get?_erase (h : (fs.erase q).get? place = some e) : fs.get? place = some e := by
  have hlookup := lookup_filterKeys fs.entries (fun r => !q.isPrefixOf r) place
  unfold get? erase at *
  split at h
  · rename_i hroot
    rw [if_pos hroot, h]
  · rename_i hroot
    rw [if_neg hroot]
    rw [hlookup] at h
    split at h
    · exact h
    · cases h

/-! ### Files -/

theorem keeps_spare (fs : FileSystem) (folder : Place) (name content : String)
    (overwritten : Place → Prop) :
    let spare := folder ++ [fs.spareName name]
    Keeps overwritten fs ((fs.put spare (.file content)).erase spare) := by
  intro spare
  have hkeep : ∀ q e, fs.Rooted q → fs.get? q = some e →
      ((fs.put spare (.file content)).erase spare).get? q = some e := by
    intro q e hroot hq
    have hnot : ¬ spare <+: q := spare_notPrefix hroot hq folder name
    have hne : q ≠ spare := fun e => hnot (e ▸ List.prefix_rfl)
    rw [get?_erase_of_notPrefix hnot, get?_put_of_ne fs hne, hq]
  exact ⟨rfl, fun q hroot hq => hkeep q _ hroot hq,
    fun q c hroot hq => ⟨c, hkeep q _ hroot hq, .inl rfl⟩⟩

theorem keeps_put_file (h : fs.get? place ≠ some .folder) (content : String) :
    Keeps (· = place) fs (fs.put place (.file content)) where
  current := rfl
  folder q _ hq := by
    have hne : q ≠ place := by
      rintro rfl
      exact h hq
    rw [get?_put_of_ne fs hne, hq]
  file q c _ hq := by
    by_cases heq : q = place
    · subst heq
      have hroot : q ≠ [] := by
        rintro rfl
        exact h rfl
      exact ⟨content, get?_put_self fs hroot _, .inr rfl⟩
    · exact ⟨c, by rw [get?_put_of_ne fs heq, hq], .inl rfl⟩

theorem follow_put_file (h : (fs.put q (.file content)).follow start names = .ok place) :
    fs.follow start names = .ok place := by
  induction names generalizing start with
  | nil => exact h
  | cons n names ih =>
    obtain ⟨hfolder, h⟩ := (follow_cons_ok n).mp h
    refine (follow_cons_ok n).mpr ⟨?_, ih h⟩
    by_cases hq : start = q
    · subst hq
      by_cases hroot : start = []
      · rw [hroot, get?_root]
      · rw [get?_put_self fs hroot] at hfolder
        cases hfolder
    · rwa [get?_put_of_ne fs hq] at hfolder

theorem place_put_file (h : (fs.put q (.file content)).place p = .ok place) :
    fs.place p = .ok place := by
  unfold FileSystem.place at h ⊢
  split at h
  · cases h
  · rename_i hnames
    rw [if_neg hnames]
    exact follow_put_file h

/-- A file that was put is there, and nothing else is changed. -/
structure Put (p : Path) (content : String) (fs fs' : FileSystem) : Prop where
  keeps : Keeps (· = Path.placeFrom fs.current p) fs fs'
  read : fs'.read p = .ok content

theorem moveOver_ok {folder : Place} {name : String}
    (h : (fs.put (folder ++ [fs.spareName name]) (.file content)).moveOver
      (folder ++ [fs.spareName name]) content p = .ok fs') : Put p content fs fs' := by
  simp only [moveOver, bind_ok_iff] at h
  obtain ⟨target, htarget, h⟩ := h
  obtain ⟨rfl, hroot⟩ := place_ok (place_put_file htarget)
  have hspare := fs.keeps_spare folder name content (· = Path.placeFrom fs.current p)
  split at h
  · simp at h
  · split at h
    · cases h
    · rename_i hnot
      obtain rfl := Except.ok.inj h
      have hfolder : ((fs.put (folder ++ [fs.spareName name]) (.file content)).erase
          (folder ++ [fs.spareName name])).get? (Path.placeFrom fs.current p) ≠ some .folder := by
        intro hfolder
        rw [get?_of_get?_erase hfolder] at hnot
        exact hnot rfl
      have hput := keeps_put_file hfolder content
      have hkeeps := hspare.trans hput
      refine ⟨hkeeps, read_ok.mpr ⟨_, hkeeps.place_eq (place_put_file htarget), ?_⟩⟩
      apply get?_put_self
      rintro hnil
      rw [hnil] at hfolder
      exact hfolder rfl

theorem putFile_keeps (fs : FileSystem) (p : Path) (content : String) :
    Keeps (· = Path.placeFrom fs.current p) fs (fs.putFile p content).1 := by
  unfold putFile
  split
  · exact .refl _ fs
  · rename_i folder _
    dsimp only
    split
    · rename_i h
      exact (moveOver_ok h).keeps
    · exact fs.keeps_spare folder _ content _

theorem putFile_ok (h : (fs.putFile p content).2 = .ok ()) :
    Put p content fs (fs.putFile p content).1 := by
  unfold putFile at h ⊢
  split at h
  · cases h
  · dsimp only at h ⊢
    split at h
    · rename_i h'
      exact moveOver_ok h'
    · cases h

end FileSystem

end ApiRecords
