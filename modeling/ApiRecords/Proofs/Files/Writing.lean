import ApiRecords.Proofs.Files.Ways

/-!
Folders made and files put, for paths that are direct: what comes of either, and that it comes again
from the files that it led to.
-/

namespace ApiRecords.FileSystem

variable {fs fs' g : FileSystem} {place q : Place} {p : Path} {anchor : Anchor}
  {names : List String} {n s : String} {e : Entry} {fault : FileFault}

/-! ### Making one folder -/

theorem isFolder_iff : fs.isFolder p ↔ fs.find p = .ok .folder := by
  unfold isFolder
  split <;> simp_all

/-- What becomes of making a folder, by what the names before the last lead to. -/
theorem makeFolder_snoc : fs.makeFolder ⟨anchor, names ++ [n]⟩ =
    fs.find ⟨anchor, names⟩ >>= fun e =>
      match e with
      | .file _ => .error .notFolder
      | .folder =>
        if Unnameable ⟨anchor, names ++ [n]⟩ then .error .unnameable
        else if (fs.get? (Path.placeFrom fs.current ⟨anchor, names ++ [n]⟩)).isSome then
          .error .present
        else .ok (fs.put (Path.placeFrom fs.current ⟨anchor, names ++ [n]⟩) .folder) := by
  rw [makeFolder, parent_snoc]
  cases haround : fs.place ⟨anchor, names⟩ with
  | error fault =>
    rw [find_of_place_error haround]
    rfl
  | ok around =>
    cases he : fs.get? around with
    | none =>
      rw [find_of_place_missing haround he]
      simp [bind, Except.bind, he]
    | some e =>
      rw [find_of_place haround he]
      cases e with
      | file content => simp [bind, Except.bind, he]
      | folder =>
        by_cases hname : Unnameable ⟨anchor, names ++ [n]⟩
        · simp [bind, Except.bind, he, hname, place_of_unnameable hname]
        · rw [place_snoc_of_folder hname (find_of_place haround he), ← placeFrom_snoc]
          simp only [bind, Except.bind, he, hname, if_false]
          split <;> simp_all

/-- What can be against making a folder. -/
theorem makeFolder_error_iff : fs.makeFolder ⟨anchor, names ++ [n]⟩ = .error fault ↔
    fs.find ⟨anchor, names⟩ = .error fault ∨
    (∃ c, fs.find ⟨anchor, names⟩ = .ok (.file c)) ∧ fault = .notFolder ∨
    fs.find ⟨anchor, names⟩ = .ok .folder ∧
      (Unnameable ⟨anchor, names ++ [n]⟩ ∧ fault = .unnameable ∨
        (∃ e, fs.find ⟨anchor, names ++ [n]⟩ = .ok e) ∧ fault = .present) := by
  rw [makeFolder_snoc, bind_error_iff]
  refine or_congr_right ⟨?_, ?_⟩
  · rintro ⟨e, he, h⟩
    cases e with
    | file c => exact .inl ⟨⟨c, he⟩, (Except.error.inj h).symm⟩
    | folder =>
      refine .inr ⟨he, ?_⟩
      dsimp only at h
      split at h
      · rename_i hname
        exact .inl ⟨hname, (Except.error.inj h).symm⟩
      · rename_i hname
        split at h
        · rename_i hsome
          obtain ⟨e, hget⟩ := Option.isSome_iff_exists.mp hsome
          rw [placeFrom_snoc] at hget
          have hfind := find_of_place (place_snoc_of_folder hname he) hget
          exact .inr ⟨⟨e, hfind⟩, (Except.error.inj h).symm⟩
        · cases h
  · rintro (⟨⟨c, he⟩, rfl⟩ | ⟨he, ⟨hname, rfl⟩ | ⟨⟨e, hfind⟩, rfl⟩⟩)
    · exact ⟨_, he, rfl⟩
    · exact ⟨_, he, if_pos hname⟩
    · obtain ⟨place, hplace, hget⟩ := find_ok.mp hfind
      have hname := nameable_of_place hplace
      obtain ⟨rfl, -⟩ := place_ok hplace
      exact ⟨_, he, by simp [hname, hget]⟩

theorem makeFolder_missing : fs.makeFolder ⟨anchor, names ++ [n]⟩ = .error .missing ↔
    fs.find ⟨anchor, names⟩ = .error .missing := by
  simp [makeFolder_error_iff]

theorem concat_notPrefix (place : Place) (n : String) : ¬ place ++ [n] <+: place :=
  fun h => absurd h.length_le (by simp)

theorem ne_root_of_get?_none (h : fs.get? place = none) : place ≠ [] := by
  rintro rfl
  cases h

theorem makeFolder_find (h : fs.makeFolder p = .ok fs') : fs'.find p = .ok .folder := by
  obtain ⟨place, hplace, hnone, rfl⟩ := makeFolder_ok h
  refine find_of_place ((keeps_put_new hnone _ fun _ => True).place_eq hplace) ?_
  exact get?_put_self fs (ne_root_of_get?_none hnone) _

/-- A folder that is there cannot be made, and need not be. -/
theorem settleFolder_of_folder (h : fs.find ⟨anchor, names ++ [n]⟩ = .ok .folder) :
    fs.makeFolder ⟨anchor, names ++ [n]⟩ = .error .present ∧
      fs.settleFolder ⟨anchor, names ++ [n]⟩ = (fs, .ok ()) := by
  have hmake : fs.makeFolder ⟨anchor, names ++ [n]⟩ = .error .present := by
    obtain ⟨place, hplace, -⟩ := find_ok.mp h
    exact makeFolder_error_iff.mpr (.inr (.inr ⟨folder_before hplace, .inr ⟨⟨_, h⟩, rfl⟩⟩))
  refine ⟨hmake, ?_⟩
  simp [settleFolder, hmake, isFolder_iff.mpr h]

theorem settleFolder_eq_of_error (h : fs.makeFolder p = .error fault) :
    fs.settleFolder p = (fs, if fs.isFolder p then .ok () else .error fault) := by
  simp only [settleFolder, h]

theorem settleFolder_new (hname : ¬ Unnameable ⟨anchor, names ++ [n]⟩)
    (hbefore : fs.find ⟨anchor, names⟩ = .ok .folder)
    (hnone : fs.get? (Path.placeFrom fs.current ⟨anchor, names ++ [n]⟩) = none) :
    fs.settleFolder ⟨anchor, names ++ [n]⟩ =
      (fs.put (Path.placeFrom fs.current ⟨anchor, names ++ [n]⟩) .folder, .ok ()) := by
  have hmake : fs.makeFolder ⟨anchor, names ++ [n]⟩ =
      .ok (fs.put (Path.placeFrom fs.current ⟨anchor, names ++ [n]⟩) .folder) := by
    rw [makeFolder_snoc, hbefore]
    simp [bind, Except.bind, hname, hnone]
  simp only [settleFolder, hmake]

theorem settleFolder_find (h : (fs.settleFolder p).2 = .ok ()) :
    (fs.settleFolder p).1.find p = .ok .folder := by
  cases hmake : fs.makeFolder p with
  | ok fs' =>
    simp only [settleFolder, hmake]
    exact makeFolder_find hmake
  | error fault =>
    rw [settleFolder_eq_of_error hmake] at h ⊢
    dsimp only at h
    split at h
    · rename_i hfolder
      exact isFolder_iff.mp hfolder
    · cases h

theorem makeFolder_present (h : fs.makeFolder ⟨anchor, names ++ [n]⟩ = .error .present) :
    ∃ e, fs.find ⟨anchor, names ++ [n]⟩ = .ok e := by
  rcases makeFolder_error_iff.mp h with hbefore | ⟨-, hfault⟩ | ⟨-, ⟨-, hfault⟩ | ⟨hfind, -⟩⟩
  · have hfault := find_fault hbefore
    simp at hfault
  · cases hfault
  · cases hfault
  · exact hfind

theorem Later.makeFolder_error (h : Later fs g) (hfs : fs.WellFormed)
    (hmake : fs.makeFolder ⟨anchor, names ++ [n]⟩ = .error fault) (hne : fault ≠ .missing) :
    g.makeFolder ⟨anchor, names ++ [n]⟩ = .error fault := by
  rw [makeFolder_error_iff] at hmake ⊢
  rcases hmake with hbefore | ⟨⟨c, hfile⟩, hfault⟩ | ⟨hfolder, hlast⟩
  · exact .inl (h.find_error hfs hbefore hne)
  · exact .inr (.inl ⟨h.find_file hfs hfile, hfault⟩)
  · refine .inr (.inr ⟨h.find_folder hfs hfolder, ?_⟩)
    rcases hlast with hname | ⟨⟨e, hfind⟩, hfault⟩
    · exact .inl hname
    · obtain ⟨e', hfind', -⟩ := h.find_ok hfs hfind
      exact .inr ⟨⟨e', hfind'⟩, hfault⟩

theorem settleFolder_unchanged (h : (fs.settleFolder p).2 = .error fault) :
    (fs.settleFolder p).1 = fs := by
  cases hmake : fs.makeFolder p with
  | ok fs' =>
    rw [settleFolder, hmake] at h
    cases h
  | error fault' => rw [settleFolder_eq_of_error hmake]

/-- Where a folder could not be made for something in the way, it cannot later. -/
theorem Later.settleFolder_error (h : Later fs g) (hfs : fs.WellFormed)
    (hbefore : fs.find ⟨anchor, names⟩ ≠ .error .missing)
    (hsettle : (fs.settleFolder ⟨anchor, names ++ [n]⟩).2 = .error fault) :
    g.settleFolder ⟨anchor, names ++ [n]⟩ = (g, .error fault) := by
  cases hmake : fs.makeFolder ⟨anchor, names ++ [n]⟩ with
  | ok fs' =>
    rw [settleFolder, hmake] at hsettle
    cases hsettle
  | error fault' =>
    rw [settleFolder_eq_of_error hmake] at hsettle
    dsimp only at hsettle
    split at hsettle
    · cases hsettle
    · rename_i hfolder
      obtain rfl := Except.error.inj hsettle
      have hne : fault' ≠ .missing := by
        rintro rfl
        exact hbefore (makeFolder_missing.mp hmake)
      have hmake' := h.makeFolder_error hfs hmake hne
      rw [settleFolder_eq_of_error hmake', if_neg]
      intro hfolder'
      have hfolder' := isFolder_iff.mp hfolder'
      obtain rfl : fault' = .present :=
        Except.error.inj (hmake'.symm.trans (settleFolder_of_folder hfolder').1)
      obtain ⟨e, he⟩ := makeFolder_present hmake
      cases e with
      | folder => exact hfolder (isFolder_iff.mpr he)
      | file content =>
        obtain ⟨content', he'⟩ := h.find_file hfs he
        cases hfolder'.symm.trans he'

/-! ### Making folders -/

theorem makeFoldersUp_snoc (h : fs.find ⟨anchor, names⟩ ≠ .error .missing) :
    fs.makeFoldersUp anchor (names ++ [n]).reverse = fs.settleFolder ⟨anchor, names ++ [n]⟩ := by
  have hmake : fs.makeFolder ⟨anchor, names ++ [n]⟩ ≠ .error .missing := mt makeFolder_missing.mp h
  rw [List.reverse_append, List.reverse_singleton, List.singleton_append, makeFoldersUp,
    List.reverse_cons, List.reverse_reverse]
  split
  · contradiction
  · rfl

theorem makeFoldersUp_snoc_of_missing (h : fs.find ⟨anchor, names⟩ = .error .missing) :
    fs.makeFoldersUp anchor (names ++ [n]).reverse =
      if (fs.makeFoldersUp anchor names.reverse).2 = .ok () then
        (fs.makeFoldersUp anchor names.reverse).1.settleFolder ⟨anchor, names ++ [n]⟩
      else fs.makeFoldersUp anchor names.reverse := by
  rw [List.reverse_append, List.reverse_singleton, List.singleton_append, makeFoldersUp,
    List.reverse_cons, List.reverse_reverse]
  simp only [makeFolder_missing.mpr h]
  obtain ⟨fs', outcome⟩ := fs.makeFoldersUp anchor names.reverse
  cases outcome <;> simp

/-- Folders that are there are left alone. -/
theorem makeFoldersUp_of_folder (h : fs.find ⟨anchor, names⟩ = .ok .folder) :
    fs.makeFoldersUp anchor names.reverse = (fs, .ok ()) := by
  induction names using List.reverseRecOn with
  | nil => rfl
  | append_singleton names n _ =>
    obtain ⟨place, hplace, -⟩ := find_ok.mp h
    rw [makeFoldersUp_snoc (by simp [folder_before hplace])]
    exact (settleFolder_of_folder h).2

theorem makeFoldersUp_find (hfs : fs.WellFormed)
    (h : (fs.makeFoldersUp anchor names.reverse).2 = .ok ()) :
    (fs.makeFoldersUp anchor names.reverse).1.find ⟨anchor, names⟩ = .ok .folder := by
  induction names using List.reverseRecOn with
  | nil => exact hfs.find_nil anchor
  | append_singleton names n _ =>
    by_cases hmissing : fs.find ⟨anchor, names⟩ = .error .missing
    · rw [makeFoldersUp_snoc_of_missing hmissing] at h ⊢
      split at h
      · rename_i hok
        rw [if_pos hok]
        exact settleFolder_find h
      · contradiction
    · rw [makeFoldersUp_snoc hmissing] at h ⊢
      exact settleFolder_find h

/-- Where nothing is in the way, the folders are made: those on the way of the names, and no others. -/
theorem makeFoldersUp_missing (hfs : fs.WellFormed) (hdirect : fs.Direct ⟨anchor, names⟩)
    (h : fs.find ⟨anchor, names⟩ = .error .missing) :
    (fs.makeFoldersUp anchor names.reverse).2 = .ok () ∧
      ∀ q, (fs.makeFoldersUp anchor names.reverse).1.get? q =
        if q <+: Path.placeFrom fs.current ⟨anchor, names⟩ then some .folder else fs.get? q := by
  induction names using List.reverseRecOn with
  | nil =>
    rw [hfs.find_nil] at h
    cases h
  | append_singleton names n ih =>
    obtain ⟨hname, hbefore⟩ := missing_snoc h
    have hnone := hdirect.get?_none hfs h
    have hroot := ne_root_of_get?_none hnone
    rcases hbefore with hfolder | hmissing
    · rw [makeFoldersUp_snoc (by simp [hfolder]), settleFolder_new hname hfolder hnone]
      refine ⟨rfl, fun q => ?_⟩
      by_cases hq : q = Path.placeFrom fs.current ⟨anchor, names ++ [n]⟩
      · rw [if_pos (hq ▸ List.prefix_rfl), hq, get?_put_self fs hroot]
      · rw [get?_put_of_ne fs hq]
        split
        · rename_i hway
          have hplace := place_snoc_of_folder hname hfolder
          rw [← placeFrom_snoc] at hplace
          exact (place_ok hplace).2 q hway hq
        · rfl
    · obtain ⟨hok, hget⟩ := ih hdirect.before hmissing
      have hn : n ≠ ".." := hdirect.last (by simp [hmissing])
      have hcurrent := (makeFoldersUp_keeps anchor fs names.reverse fun _ => True).current
      have hfolder := makeFoldersUp_find hfs hok
      rw [makeFoldersUp_snoc_of_missing hmissing, if_pos hok]
      generalize (fs.makeFoldersUp anchor names.reverse).1 = above at *
      have hplace : Path.placeFrom fs.current ⟨anchor, names ++ [n]⟩ =
          Path.placeFrom fs.current ⟨anchor, names⟩ ++ [n] := by
        rw [placeFrom_snoc, Path.enterName, if_neg hn]
      have hnone' : above.get? (Path.placeFrom above.current ⟨anchor, names ++ [n]⟩) = none := by
        rw [hcurrent, hget, if_neg, hnone]
        rw [hplace]
        exact concat_notPrefix _ n
      rw [settleFolder_new hname hfolder hnone', hcurrent]
      refine ⟨rfl, fun q => ?_⟩
      by_cases hq : q = Path.placeFrom fs.current ⟨anchor, names ++ [n]⟩
      · rw [if_pos (hq ▸ List.prefix_rfl), hq, get?_put_self above hroot]
      · have hway : q <+: Path.placeFrom fs.current ⟨anchor, names ++ [n]⟩ ↔
            q <+: Path.placeFrom fs.current ⟨anchor, names⟩ := by
          rw [hplace, List.prefix_concat_iff, ← hplace, or_iff_right hq]
        rw [get?_put_of_ne above hq, hget]
        simp only [hway]

theorem WellFormed.later_of_keeps {overwritten : Place → Prop} (hfs : fs.WellFormed)
    (hkeeps : Keeps overwritten fs fs') (hrooted : ∀ q e, fs'.get? q = some e → fs.Rooted q) :
    Later fs fs' where
  keeps := hkeeps.mono fun _ _ => trivial
  wellFormed := {
    rooted := fun q e hq => hkeeps.rooted (hrooted q e hq)
    absolute := by
      rw [hkeeps.current]
      exact hfs.absolute
    current := by
      obtain ⟨place, hplace, he⟩ := find_ok.mp hfs.current
      rw [hkeeps.current]
      exact find_of_place (hkeeps.place_eq hplace) (hkeeps.folder place (hfs.rooted _ _ he) he) }

theorem settleFolder_later (hfs : fs.WellFormed) (p : Path) : Later fs (fs.settleFolder p).1 := by
  cases hmake : fs.makeFolder p with
  | error fault =>
    rw [settleFolder_eq_of_error hmake]
    exact .refl hfs
  | ok fs' =>
    obtain ⟨place, hplace, hnone, rfl⟩ := makeFolder_ok hmake
    simp only [settleFolder, hmake]
    refine hfs.later_of_keeps (keeps_put_new hnone _ fun _ => True) fun q e hq => ?_
    by_cases heq : q = place
    · exact heq ▸ (place_ok hplace).2
    · rw [get?_put_of_ne fs heq] at hq
      exact hfs.rooted q e hq

theorem makeFoldersUp_later (hfs : fs.WellFormed) (anchor : Anchor) (above : List String) :
    Later fs (fs.makeFoldersUp anchor above).1 := by
  induction above with
  | nil => exact .refl hfs
  | cons n above ih =>
    simp only [makeFoldersUp]
    split
    · split
      · rename_i h
        exact h ▸ ih
      · rename_i h
        rw [h] at ih
        exact ih.trans (settleFolder_later ih.wellFormed _)
    · exact settleFolder_later hfs _

theorem makeFolders_later (hfs : fs.WellFormed) (p : Path) : Later fs (fs.makeFolders p).1 :=
  makeFoldersUp_later hfs _ _

theorem makeFolders_adds (hfs : fs.WellFormed) (p : Path) (hq : fs.get? q = some e) :
    (fs.makeFolders p).1.get? q = some e := by
  have hkeeps := fs.makeFolders_keeps p fun _ => False
  cases e with
  | folder => exact hkeeps.folder q (hfs.rooted q _ hq) hq
  | file content =>
    obtain ⟨content', hfile, hsame⟩ := hkeeps.file q content (hfs.rooted q _ hq) hq
    exact hsame.resolve_right id ▸ hfile

theorem Later.makeFoldersUp (hfs : fs.WellFormed) (hdirect : fs.Direct ⟨anchor, names⟩)
    (h : Later (fs.makeFoldersUp anchor names.reverse).1 g) :
    g.makeFoldersUp anchor names.reverse = (g, (fs.makeFoldersUp anchor names.reverse).2) := by
  have hmade := makeFoldersUp_later hfs anchor names.reverse
  cases houtcome : (fs.makeFoldersUp anchor names.reverse).2 with
  | ok _ =>
    exact makeFoldersUp_of_folder (h.find_folder hmade.wellFormed (makeFoldersUp_find hfs houtcome))
  | error fault =>
    cases names using List.reverseRecOn with
    | nil => cases houtcome
    | append_singleton names n =>
      -- Folders above that are missing can be made, so that the failure is that of the last folder.
      obtain ⟨fs', hlater, hbefore, heq⟩ : ∃ fs', Later fs fs' ∧
          fs'.find ⟨anchor, names⟩ ≠ .error .missing ∧
          fs.makeFoldersUp anchor (names ++ [n]).reverse =
            fs'.settleFolder ⟨anchor, names ++ [n]⟩ := by
        by_cases hmissing : fs.find ⟨anchor, names⟩ = .error .missing
        · obtain ⟨hok, -⟩ := makeFoldersUp_missing hfs hdirect.before hmissing
          refine ⟨_, makeFoldersUp_later hfs anchor names.reverse, ?_, ?_⟩
          · simp [makeFoldersUp_find hfs hok]
          · rw [makeFoldersUp_snoc_of_missing hmissing, if_pos hok]
        · exact ⟨fs, .refl hfs, hmissing, makeFoldersUp_snoc hmissing⟩
      rw [heq] at h houtcome
      rw [settleFolder_unchanged houtcome] at h
      rw [makeFoldersUp_snoc (h.find_ne_missing hlater.wellFormed hbefore)]
      exact h.settleFolder_error hlater.wellFormed hbefore houtcome

theorem makeFolders_of_folder (hfs : fs.WellFormed) (h : fs.find p = .ok .folder) :
    fs.makeFolders p = (fs, .ok ()) :=
  makeFoldersUp_of_folder ((hfs.find_join p).trans h)

theorem makeFolders_find (hfs : fs.WellFormed) (h : (fs.makeFolders p).2 = .ok ()) :
    (fs.makeFolders p).1.find p = .ok .folder := by
  have hlater := makeFolders_later hfs p
  rw [← hlater.wellFormed.find_join, hlater.keeps.current]
  exact makeFoldersUp_find hfs h

theorem makeFolders_missing (hfs : fs.WellFormed) (hdirect : fs.Direct p)
    (h : fs.find p = .error .missing) :
    ∀ q, (fs.makeFolders p).1.get? q =
      if q <+: Path.placeFrom fs.current p then some .folder else fs.get? q := by
  rw [← hfs.placeFrom_join]
  rw [← hfs.find_join] at h
  exact (makeFoldersUp_missing hfs (hdirect.join hfs) h).2

/-- What was made of folders, and what stood in the way, is so again from any later files. -/
theorem Later.makeFolders (hfs : fs.WellFormed) (hdirect : fs.Direct p)
    (h : Later (fs.makeFolders p).1 g) : g.makeFolders p = (g, (fs.makeFolders p).2) := by
  have hcurrent := ((makeFolders_later hfs p).trans h).keeps.current
  rw [FileSystem.makeFolders] at h ⊢
  rw [FileSystem.makeFolders, hcurrent]
  exact Later.makeFoldersUp hfs (hdirect.join hfs) h

/-! ### Putting a file -/

/-- What comes of putting a file into a folder that is there. -/
def putOutcome (fs : FileSystem) (p : Path) : Except FileFault Unit :=
  if Unnameable p then .error .unnameable
  else if !namesPlace p then .error .busy
  else if fs.get? (Path.placeFrom fs.current p) = some .folder then .error .isFolder
  else .ok ()

theorem get?_erase_self (h : place ≠ []) : (fs.erase place).get? place = none := by
  have hlookup := lookup_filterKeys fs.entries (fun r => !place.isPrefixOf r) place
  have hself : place.isPrefixOf place = true := List.isPrefixOf_iff_prefix.mpr List.prefix_rfl
  rw [get?, if_neg h, erase, hlookup, hself]
  rfl

theorem get?_erase_spare (hfs : fs.WellFormed) (folder : Place) (name s : String) (q : Place) :
    ((fs.put (folder ++ [fs.spareName name]) (.file s)).erase
      (folder ++ [fs.spareName name])).get? q = fs.get? q := by
  cases hq : fs.get? q with
  | some e =>
    have hnot := spare_notPrefix (hfs.rooted q e hq) hq folder name
    rw [get?_erase_of_notPrefix hnot, get?_put_of_ne fs, hq]
    rintro rfl
    exact hnot List.prefix_rfl
  | none =>
    cases hq' : ((fs.put (folder ++ [fs.spareName name]) (.file s)).erase
        (folder ++ [fs.spareName name])).get? q with
    | none => rfl
    | some e =>
      have hne : q ≠ folder ++ [fs.spareName name] := by
        rintro rfl
        rw [get?_erase_self (by simp)] at hq'
        cases hq'
      have hput := get?_of_get?_erase hq'
      rw [get?_put_of_ne fs hne, hq] at hput
      cases hput

theorem length_spareName (fs : FileSystem) (name : String) :
    name.length < (fs.spareName name).length := by
  have hdot : ".".length = 1 := rfl
  simp only [spareName, String.length_append, String.length_ofList, List.length_replicate]
  omega

theorem place_of_parent (hname : ¬ Unnameable p) (h : fs.find p.parent = .ok .folder) :
    fs.place p = .ok (Path.placeFrom fs.current p) := by
  obtain ⟨anchor, names⟩ := p
  induction names using List.reverseRecOn with
  | nil =>
    obtain ⟨place, hplace, -⟩ := find_ok.mp h
    obtain ⟨heq, -⟩ := place_ok hplace
    exact heq ▸ hplace
  | append_singleton names n _ =>
    rw [placeFrom_snoc]
    refine place_snoc_of_folder hname ?_
    rwa [parent_snoc] at h

theorem exists_last (h : namesPlace p) :
    ∃ anchor names n, p = ⟨anchor, names ++ [n]⟩ ∧ n ≠ ".." := by
  obtain ⟨anchor, names⟩ := p
  cases names using List.reverseRecOn with
  | nil => simp [namesPlace] at h
  | append_singleton names n =>
    refine ⟨anchor, names, n, rfl, ?_⟩
    rintro rfl
    simp [namesPlace] at h

theorem placeFrom_ne_spare {folder : Place} (hends : namesPlace p)
    (hplace : fs.place p.parent = .ok folder) :
    Path.placeFrom fs.current p ≠ folder ++ [fs.spareName (p.names.getLastD "")] := by
  obtain ⟨anchor, names, n, rfl, hn⟩ := exists_last hends
  rw [parent_snoc] at hplace
  obtain ⟨rfl, -⟩ := place_ok hplace
  rw [placeFrom_snoc, Path.enterName, if_neg hn]
  intro heq
  have hlast : n = fs.spareName n := by simpa using heq
  have hlength := fs.length_spareName n
  rw [← hlast] at hlength
  exact Nat.lt_irrefl _ hlength

theorem moveOver_of_folder {folder : Place} (hfolder : fs.find p.parent = .ok .folder)
    (hplace : fs.place p.parent = .ok folder) :
    let spare := folder ++ [fs.spareName (p.names.getLastD "")]
    let written := fs.put spare (.file s)
    written.moveOver spare s p = fs.putOutcome p >>= fun _ =>
      .ok ((written.erase spare).put (Path.placeFrom fs.current p) (.file s)) := by
  intro spare written
  have hkeeps : Keeps (fun _ => True) fs written :=
    keeps_put_new (fs.get?_spare folder _) (.file s) _
  by_cases hname : Unnameable p
  · rw [moveOver, place_of_unnameable hname, putOutcome, if_pos hname]
    rfl
  · rw [moveOver, hkeeps.place_eq (place_of_parent hname hfolder), putOutcome, if_neg hname]
    cases hends : namesPlace p with
    | false => rfl
    | true =>
      have hget : written.get? (Path.placeFrom fs.current p) =
          fs.get? (Path.placeFrom fs.current p) :=
        get?_put_of_ne fs (placeFrom_ne_spare hends hplace) _
      simp only [bind, Except.bind, hget]
      cases hat : fs.get? (Path.placeFrom fs.current p) with
      | none => rfl
      | some e => cases e <;> rfl

/-- A file is put unless something about its path is against it, and nothing else is changed. -/
theorem putFile_spec (hfs : fs.WellFormed) (hfolder : fs.find p.parent = .ok .folder) (s : String) :
    (fs.putFile p s).2 = fs.putOutcome p ∧ ∀ q, (fs.putFile p s).1.get? q =
      if fs.putOutcome p = .ok () ∧ q = Path.placeFrom fs.current p then some (.file s)
      else fs.get? q := by
  obtain ⟨folder, hplace, -⟩ := find_ok.mp hfolder
  have hmove := moveOver_of_folder (s := s) hfolder hplace
  simp only [putFile, hplace]
  dsimp only at hmove
  rw [hmove]
  cases houtcome : fs.putOutcome p with
  | error fault =>
    refine ⟨rfl, fun q => ?_⟩
    rw [if_neg (by simp)]
    exact get?_erase_spare hfs folder _ s q
  | ok _ =>
    refine ⟨rfl, fun q => ?_⟩
    have hroot : Path.placeFrom fs.current p ≠ [] := by
      intro hroot
      simp only [putOutcome, hroot, get?_root, if_true] at houtcome
      split at houtcome
      · cases houtcome
      · split at houtcome <;> cases houtcome
    by_cases hq : q = Path.placeFrom fs.current p
    · rw [if_pos ⟨rfl, hq⟩, hq]
      exact get?_put_self _ hroot _
    · rw [if_neg fun h => hq h.2]
      exact (get?_put_of_ne _ hq _).trans (get?_erase_spare hfs folder _ s q)

theorem putFile_rooted (hfs : fs.WellFormed) {e : Entry}
    (hq : (fs.putFile p s).1.get? q = some e) : fs.Rooted q := by
  unfold putFile at hq
  split at hq
  · exact hfs.rooted q e hq
  · rename_i folder _
    dsimp only at hq
    split at hq
    · rename_i h
      simp only [moveOver, bind_ok_iff] at h
      obtain ⟨target, htarget, h⟩ := h
      split at h
      · simp at h
      · split at h
        · cases h
        · obtain rfl := Except.ok.inj h
          by_cases heq : q = target
          · exact heq ▸ (place_ok (place_put_file htarget)).2
          · rw [get?_put_of_ne _ heq, get?_erase_spare hfs] at hq
            exact hfs.rooted q e hq
    · rw [get?_erase_spare hfs] at hq
      exact hfs.rooted q e hq

theorem putFile_later (hfs : fs.WellFormed) (p : Path) (s : String) : Later fs (fs.putFile p s).1 :=
  hfs.later_of_keeps (fs.putFile_keeps p s) fun _ _ => putFile_rooted hfs

theorem Later.putOutcome (hfs : fs.WellFormed) (hfolder : fs.find p.parent = .ok .folder)
    (h : Later (fs.putFile p s).1 g) : g.putOutcome p = fs.putOutcome p := by
  have hlater := (putFile_later hfs p s).trans h
  by_cases hat : fs.get? (Path.placeFrom fs.current p) = some .folder
  · simp only [FileSystem.putOutcome, hlater.keeps.current, hat, hlater.folder hfs hat]
  · have hat' : g.get? (Path.placeFrom fs.current p) ≠ some .folder ∨ fs.putOutcome p ≠ .ok () := by
      by_cases hok : fs.putOutcome p = .ok ()
      · have hfile := (putFile_spec hfs hfolder s).2 (Path.placeFrom fs.current p)
        rw [if_pos ⟨hok, rfl⟩] at hfile
        obtain ⟨c, hc⟩ := h.file (putFile_later hfs p s).wellFormed hfile
        exact .inl (by simp [hc])
      · exact .inr hok
    simp only [FileSystem.putOutcome, hlater.keeps.current, hat, if_false] at hat' ⊢
    split_ifs at hat' ⊢ <;> simp_all

/-! ### Paths that lead to nothing -/

theorem folder_around (h : fs.find ⟨anchor, names⟩ = .ok .folder) :
    fs.find ⟨anchor, names ++ [".."]⟩ = .ok .folder := by
  obtain ⟨place, hplace, hfolder⟩ := find_ok.mp h
  have hname : ¬ Unnameable ⟨anchor, names ++ [".."]⟩ := by
    have hbefore := nameable_of_place hplace
    simp only [Unnameable, List.any_append, Bool.or_eq_true, not_or] at hbefore ⊢
    exact ⟨hbefore, by decide⟩
  obtain ⟨rfl, hroot⟩ := place_ok hplace
  refine find_of_place (place_snoc_of_folder hname h) ?_
  rw [Path.enterName, if_pos rfl]
  by_cases heq : (Path.placeFrom fs.current ⟨anchor, names⟩).dropLast =
      Path.placeFrom fs.current ⟨anchor, names⟩
  · rw [heq, hfolder]
  · exact hroot _ (List.dropLast_prefix _) heq

theorem namesPlace_of_not_exists (hfs : fs.WellFormed) (hdirect : fs.Direct p)
    (hnot : ¬ fs.exists? p) : namesPlace p := by
  obtain ⟨anchor, names⟩ := p
  cases names using List.reverseRecOn with
  | nil => exact absurd (exists?_iff.mpr ⟨_, hfs.find_nil anchor⟩) hnot
  | append_singleton names n =>
    have hn : n ≠ ".." := by
      rintro rfl
      exact hnot (exists?_iff.mpr ⟨_, folder_around (hdirect names [] rfl)⟩)
    simp [namesPlace]

/-- Where a direct path leads to nothing, making the folders around it makes nothing at it. -/
theorem get?_makeFolders_of_not_exists (hfs : fs.WellFormed) (hdirect : fs.Direct p)
    (hname : ¬ Unnameable p) (hnot : ¬ fs.exists? p)
    (hok : (fs.makeFolders p.parent).2 = .ok ()) :
    (fs.makeFolders p.parent).1.get? (Path.placeFrom fs.current p) = none := by
  obtain ⟨anchor, names, n, rfl, hn⟩ := exists_last (namesPlace_of_not_exists hfs hdirect hnot)
  rw [parent_snoc] at hok ⊢
  have hlater := makeFolders_later hfs ⟨anchor, names⟩
  have hmade := makeFolders_find hfs hok
  cases hbefore : fs.find ⟨anchor, names⟩ with
  | ok e =>
    cases e with
    | folder =>
      rw [makeFolders_of_folder hfs hbefore]
      cases hget : fs.get? (Path.placeFrom fs.current ⟨anchor, names ++ [n]⟩) with
      | none => rfl
      | some e =>
        rw [placeFrom_snoc] at hget
        exact absurd
          (exists?_iff.mpr ⟨e, find_of_place (place_snoc_of_folder hname hbefore) hget⟩) hnot
    | file content =>
      obtain ⟨content', hfile⟩ := hlater.find_file hfs hbefore
      cases hfile.symm.trans hmade
  | error fault =>
    by_cases hmissing : fault = .missing
    · subst hmissing
      have hnone : fs.find ⟨anchor, names ++ [n]⟩ = .error .missing := by
        apply find_of_place_error
        rw [place_snoc hname, hbefore]
        rfl
      rw [makeFolders_missing hfs hdirect.before hbefore, if_neg, hdirect.get?_none hfs hnone]
      rw [placeFrom_snoc, Path.enterName, if_neg hn]
      exact concat_notPrefix _ n
    · cases (hlater.find_error hfs hbefore hmissing).symm.trans hmade

end ApiRecords.FileSystem
