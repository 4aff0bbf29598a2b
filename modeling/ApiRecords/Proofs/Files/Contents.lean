import ApiRecords.Proofs.Files.Writing

/-!
Contents of files by place: making folders changes none, and what a direct path leads to is what stands
at its normal form.
-/

namespace ApiRecords.FileSystem

variable {fs fs' : FileSystem} {q : Place} {p : Path} {anchor : Anchor} {c : String} {e : Entry}

theorem content?_eq_some : fs.content? q = some c ↔ fs.get? q = some (.file c) := by
  unfold content?
  split <;> simp_all

/-- Files seen from the root are well-formed where each stands in a folder. -/
theorem wellFormed_of_around (hcurrent : fs.current = ⟨.root, []⟩)
    (h : ∀ entry ∈ fs.entries, fs.get? entry.1.dropLast = some .folder) : fs.WellFormed where
  absolute := by simp [hcurrent]
  current := by
    rw [hcurrent, find, place, if_neg (by simp), hcurrent]
    rfl
  rooted q e hq := by
    induction q using List.reverseRecOn generalizing e with
    | nil => exact fs.rooted_root
    | append_singleton q n ih =>
      have haround := h _ (mem_entries_of_get? (by simp) hq)
      rw [List.dropLast_concat] at haround
      intro q' hprefix hne
      by_cases heq : q' = q
      · exact heq ▸ haround
      · exact ih _ haround q' ((List.prefix_concat_iff.mp hprefix).resolve_left hne) heq

/-! ### Folders -/

theorem settleFolder_file (h : (fs.settleFolder p).1.get? q = some (.file c)) :
    fs.get? q = some (.file c) := by
  cases hmake : fs.makeFolder p with
  | error fault => rwa [settleFolder_eq_of_error hmake] at h
  | ok fs' =>
    obtain ⟨place, -, hnone, rfl⟩ := makeFolder_ok hmake
    simp only [settleFolder, hmake] at h
    by_cases hq : q = place
    · rw [hq, get?_put_self fs (ne_root_of_get?_none hnone)] at h
      cases h
    · rwa [get?_put_of_ne fs hq] at h

theorem makeFoldersUp_file {above : List String}
    (h : (fs.makeFoldersUp anchor above).1.get? q = some (.file c)) :
    fs.get? q = some (.file c) := by
  induction above with
  | nil => exact h
  | cons n above ih =>
    simp only [makeFoldersUp] at h
    split at h
    · split at h
      · rename_i hmade
        exact ih (hmade ▸ h)
      · rename_i hmade
        rw [hmade] at ih
        exact ih (settleFolder_file h)
    · exact settleFolder_file h

theorem content?_makeFolders (hfs : fs.WellFormed) (p : Path) (q : Place) :
    (fs.makeFolders p).1.content? q = fs.content? q := by
  apply Option.ext
  intro c
  rw [content?_eq_some, content?_eq_some]
  exact ⟨makeFoldersUp_file, makeFolders_adds hfs p⟩

/-! ### Direct paths -/

theorem get?_of_find (h : fs.find p = .ok e) : fs.get? (Path.placeFrom fs.current p) = some e := by
  obtain ⟨place, hplace, he⟩ := find_ok.mp h
  obtain ⟨rfl, -⟩ := place_ok hplace
  exact he

theorem Direct.find_of_get? (hdirect : fs.Direct p) (hfs : fs.WellFormed) (hname : ¬ Unnameable p)
    (h : fs.get? (Path.placeFrom fs.current p) = some e) : fs.find p = .ok e := by
  obtain ⟨anchor, names⟩ := p
  induction names using List.reverseRecOn generalizing e with
  | nil =>
    have hnil := hfs.find_nil anchor
    obtain rfl : .folder = e := Option.some.inj ((get?_of_find hnil).symm.trans h)
    exact hnil
  | append_singleton names n ih =>
    have hbefore : fs.find ⟨anchor, names⟩ = .ok .folder := by
      by_cases hn : n = ".."
      · exact hdirect names [] (by simp [hn])
      · rw [placeFrom_snoc, Path.enterName, if_neg hn] at h
        exact ih hdirect.before (nameable_before hname)
          (hfs.rooted _ e h _ (List.prefix_append _ _) (by simp))
    refine find_of_place (place_snoc_of_folder hname hbefore) ?_
    rwa [placeFrom_snoc] at h

theorem Direct.exists?_iff (hdirect : fs.Direct p) (hfs : fs.WellFormed) (hname : ¬ Unnameable p) :
    fs.exists? p ↔ ∃ e, fs.get? (Path.placeFrom fs.current p) = some e := by
  rw [FileSystem.exists?_iff]
  exact ⟨fun ⟨e, he⟩ => ⟨e, get?_of_find he⟩,
    fun ⟨e, he⟩ => ⟨e, hdirect.find_of_get? hfs hname he⟩⟩

theorem Direct.read_iff (hdirect : fs.Direct p) (hfs : fs.WellFormed) :
    fs.read p = .ok c ↔ ¬ Unnameable p ∧ fs.content? (Path.placeFrom fs.current p) = some c := by
  rw [content?_eq_some]
  constructor
  · intro h
    obtain ⟨place, hplace, hfile⟩ := read_ok.mp h
    exact ⟨nameable_of_place hplace, get?_of_find (find_of_place hplace hfile)⟩
  · rintro ⟨hname, hfile⟩
    obtain ⟨place, hplace, hfile⟩ := find_ok.mp (hdirect.find_of_get? hfs hname hfile)
    exact read_ok.mpr ⟨place, hplace, hfile⟩

/-! ### Writing a file -/

/-- Where making a folder at a direct path does not fail, there are folders along its way. -/
theorem get?_makeFolders (hfs : fs.WellFormed) (hdirect : fs.Direct p)
    (hok : (fs.makeFolders p).2 = .ok ()) : ∀ q, (fs.makeFolders p).1.get? q =
      if q <+: Path.placeFrom fs.current p then some .folder else fs.get? q := by
  have hlater := makeFolders_later hfs p
  have hmade := makeFolders_find hfs hok
  cases hfind : fs.find p with
  | ok e =>
    cases e with
    | folder =>
      intro q
      rw [makeFolders_of_folder hfs hfind]
      have hfolder := get?_of_find hfind
      split
      · rename_i hway
        by_cases hq : q = Path.placeFrom fs.current p
        · rw [hq, hfolder]
        · exact hfs.rooted _ _ hfolder q hway hq
      · rfl
    | file c =>
      obtain ⟨c', hfile⟩ := hlater.find_file hfs hfind
      cases hfile.symm.trans hmade
  | error fault =>
    by_cases hmissing : fault = .missing
    · exact makeFolders_missing hfs hdirect (hmissing ▸ hfind)
    · cases (hlater.find_error hfs hfind hmissing).symm.trans hmade

/-- The files with one more written, where neither making its folders nor putting it fails. -/
def write (fs : FileSystem) (p : Path) (s : String) : Except FileFault FileSystem := do
  let made := fs.makeFolders p.parent
  made.2
  let put := made.1.putFile p s
  put.2
  return put.1

theorem write_parts {s : String} (h : fs.write p s = .ok fs') :
    (fs.makeFolders p.parent).2 = .ok () ∧ ((fs.makeFolders p.parent).1.putFile p s).2 = .ok () ∧
      fs' = ((fs.makeFolders p.parent).1.putFile p s).1 := by
  simp only [write, bind_ok_iff, pure_ok_iff] at h
  obtain ⟨⟨⟩, hmade, ⟨⟩, hput, hfiles⟩ := h
  exact ⟨hmade, hput, hfiles⟩

theorem read_of_write {s : String} (h : fs.write p s = .ok fs') : fs'.read p = .ok s := by
  obtain ⟨-, hput, rfl⟩ := write_parts h
  exact (putFile_ok hput).read

theorem later_of_write {s : String} (hfs : fs.WellFormed) (h : fs.write p s = .ok fs') :
    Later fs fs' := by
  obtain ⟨-, -, rfl⟩ := write_parts h
  have hlater := makeFolders_later hfs p.parent
  exact hlater.trans (putFile_later hlater.wellFormed p s)

/-- A file that is written is at its place, and folders are made. Nothing else changes. -/
theorem get?_of_write {s : String} (hfs : fs.WellFormed) (h : fs.write p s = .ok fs') (q : Place) :
    fs'.get? q = if q = Path.placeFrom fs.current p then some (.file s)
      else (fs.makeFolders p.parent).1.get? q := by
  obtain ⟨hmade, hput, rfl⟩ := write_parts h
  have hlater := makeFolders_later hfs p.parent
  obtain ⟨houtcome, hget⟩ := putFile_spec hlater.wellFormed (makeFolders_find hfs hmade) s
  rw [hput] at houtcome
  rw [hget, hlater.keeps.current, ← houtcome]
  simp only [true_and]

end ApiRecords.FileSystem
