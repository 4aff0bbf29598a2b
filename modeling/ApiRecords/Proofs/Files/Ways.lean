import ApiRecords.Proofs.Files
import Mathlib.Data.List.Induction

/-!
Paths through well-formed files: where each leads, what a failure to follow one depends on, and what of
this stays as files and folders are added.
-/

namespace ApiRecords.FileSystem

variable {fs fs' fs'' : FileSystem} {place q : Place} {p : Path} {anchor : Anchor}
  {names : List String} {n : String} {e : Entry} {fault : FileFault}

/-- Whether all that stands in the files stands in folders, and relative paths start at one of these. -/
structure WellFormed (fs : FileSystem) : Prop where
  rooted : ∀ q e, fs.get? q = some e → fs.Rooted q
  absolute : fs.current.anchor ≠ .here
  current : fs.find fs.current = .ok .folder

/-- Whether files are what others may have become by folders and files being made, and files being
written over. -/
structure Later (fs fs' : FileSystem) : Prop where
  wellFormed : fs'.WellFormed
  keeps : Keeps (fun _ => True) fs fs'

theorem Later.refl (h : fs.WellFormed) : Later fs fs := ⟨h, .refl _ fs⟩

theorem Later.trans (h : Later fs fs') (h' : Later fs' fs'') : Later fs fs'' :=
  ⟨h'.wellFormed, h.keeps.trans h'.keeps⟩

theorem Later.folder (h : Later fs fs') (hfs : fs.WellFormed) (hq : fs.get? q = some .folder) :
    fs'.get? q = some .folder :=
  h.keeps.folder q (hfs.rooted q _ hq) hq

theorem Later.file {c : String} (h : Later fs fs') (hfs : fs.WellFormed)
    (hq : fs.get? q = some (.file c)) : ∃ c', fs'.get? q = some (.file c') := by
  obtain ⟨c', hc', -⟩ := h.keeps.file q c (hfs.rooted q _ hq) hq
  exact ⟨c', hc'⟩

/-! ### Names that cannot be used -/

def Unnameable (p : Path) : Prop := p.names.any (·.toList.contains '\x00') = true

instance (p : Path) : Decidable (Unnameable p) := inferInstanceAs (Decidable (_ = true))

theorem place_of_unnameable (h : Unnameable p) : fs.place p = .error .unnameable := if_pos h

theorem follow_fault {start : Place} (h : fs.follow start names = .error fault) :
    fault = .notFolder ∨ fault = .missing := by
  induction names generalizing start with
  | nil => cases h
  | cons n names ih =>
    rw [follow] at h
    split at h
    · exact ih h
    · exact .inl (Except.error.inj h).symm
    · exact .inr (Except.error.inj h).symm

theorem place_of_nameable (h : ¬ Unnameable p) :
    fs.place p = fs.follow [] (fs.current.join p).names := if_neg h

theorem place_fault (h : fs.place p = .error fault) :
    fault = .unnameable ∨ fault = .notFolder ∨ fault = .missing := by
  by_cases hname : Unnameable p
  · rw [place_of_unnameable hname] at h
    exact .inl (Except.error.inj h).symm
  · rw [place_of_nameable hname] at h
    exact .inr (follow_fault h)

theorem nameable_of_place (h : fs.place p = .ok place) : ¬ Unnameable p := by
  intro hname
  rw [place_of_unnameable hname] at h
  cases h

/-! ### What stands at a path -/

theorem find_of_place (h : fs.place p = .ok q) (he : fs.get? q = some e) : fs.find p = .ok e :=
  find_ok.mpr ⟨q, h, he⟩

theorem find_error_iff : fs.find p = .error fault ↔ fs.place p = .error fault ∨
    fault = .missing ∧ ∃ q, fs.place p = .ok q ∧ fs.get? q = none := by
  rw [find, bind_error_iff]
  refine or_congr_right ⟨?_, ?_⟩
  · rintro ⟨q, hplace, h⟩
    cases he : fs.get? q with
    | none =>
      rw [he] at h
      exact ⟨(Except.error.inj h).symm, q, hplace, he⟩
    | some e =>
      rw [he] at h
      cases h
  · rintro ⟨rfl, q, hplace, he⟩
    exact ⟨q, hplace, by rw [he]⟩

theorem find_of_place_error (h : fs.place p = .error fault) : fs.find p = .error fault :=
  find_error_iff.mpr (.inl h)

theorem find_of_place_missing (h : fs.place p = .ok q) (he : fs.get? q = none) :
    fs.find p = .error .missing :=
  find_error_iff.mpr (.inr ⟨rfl, q, h, he⟩)

theorem find_fault (h : fs.find p = .error fault) :
    fault = .unnameable ∨ fault = .notFolder ∨ fault = .missing := by
  rcases find_error_iff.mp h with hplace | ⟨hmissing, -⟩
  · exact place_fault hplace
  · exact .inr (.inr hmissing)

theorem exists?_iff : fs.exists? p ↔ ∃ e, fs.find p = .ok e := by
  unfold exists?
  cases fs.find p <;> simp [Except.toBool]

/-! ### One name more -/

theorem follow_append {start : Place} (more : List String) :
    fs.follow start (names ++ more) = fs.follow start names >>= fun q => fs.follow q more := by
  induction names generalizing start with
  | nil => rfl
  | cons n names ih =>
    simp only [List.cons_append, follow]
    split
    · exact ih
    · rfl
    · rfl

theorem parent_snoc : (⟨anchor, names ++ [n]⟩ : Path).parent = ⟨anchor, names⟩ := by
  simp [Path.parent]

theorem names_join_snoc (current : Path) : (current.join ⟨anchor, names ++ [n]⟩).names =
    (current.join ⟨anchor, names⟩).names ++ [n] := by
  cases anchor <;> simp [Path.join, Path.isAbsolute]

theorem nameable_before (h : ¬ Unnameable ⟨anchor, names ++ [n]⟩) : ¬ Unnameable ⟨anchor, names⟩ := by
  intro hbefore
  apply h
  simp only [Unnameable, List.any_append, Bool.or_eq_true]
  exact .inl hbefore

/-- What a name leads to depends on what stands where the names before it lead. -/
theorem place_snoc (hname : ¬ Unnameable ⟨anchor, names ++ [n]⟩) :
    fs.place ⟨anchor, names ++ [n]⟩ = fs.find ⟨anchor, names⟩ >>= fun e =>
      match e with
      | .folder => .ok (Path.enterName (Path.placeFrom fs.current ⟨anchor, names⟩) n)
      | .file _ => .error .notFolder := by
  have hfollow : fs.place ⟨anchor, names ++ [n]⟩ =
      fs.place ⟨anchor, names⟩ >>= fun q => fs.follow q [n] := by
    rw [place_of_nameable hname, place_of_nameable (nameable_before hname), names_join_snoc,
      follow_append]
  rw [hfollow]
  cases hplace : fs.place ⟨anchor, names⟩ with
  | error fault => rw [find_of_place_error hplace]; rfl
  | ok q =>
    obtain rfl := (place_ok hplace).1
    cases hq : fs.get? (Path.placeFrom fs.current ⟨anchor, names⟩) with
    | none =>
      rw [find_of_place_missing hplace hq]
      simp [bind, Except.bind, follow, hq]
    | some e =>
      rw [find_of_place hplace hq]
      cases e <;> simp [bind, Except.bind, follow, hq, Path.enterName]

theorem place_snoc_of_folder (hname : ¬ Unnameable ⟨anchor, names ++ [n]⟩)
    (h : fs.find ⟨anchor, names⟩ = .ok .folder) : fs.place ⟨anchor, names ++ [n]⟩ =
      .ok (Path.enterName (Path.placeFrom fs.current ⟨anchor, names⟩) n) := by
  rw [place_snoc hname, h]
  rfl

theorem folder_before (h : fs.place ⟨anchor, names ++ [n]⟩ = .ok place) :
    fs.find ⟨anchor, names⟩ = .ok .folder := by
  rw [place_snoc (nameable_of_place h), bind_ok_iff] at h
  obtain ⟨e, he, h⟩ := h
  cases e with
  | folder => exact he
  | file content => cases h

theorem placeFrom_snoc (current : Path) : Path.placeFrom current ⟨anchor, names ++ [n]⟩ =
    Path.enterName (Path.placeFrom current ⟨anchor, names⟩) n := by
  simp only [Path.placeFrom, Path.normal]
  rw [names_join_snoc, Path.normalNames_append]
  rfl

/-- Where a path leads to nothing, the names before its last lead to a folder or to nothing. -/
theorem missing_snoc (h : fs.find ⟨anchor, names ++ [n]⟩ = .error .missing) :
    ¬ Unnameable ⟨anchor, names ++ [n]⟩ ∧
      (fs.find ⟨anchor, names⟩ = .ok .folder ∨ fs.find ⟨anchor, names⟩ = .error .missing) := by
  have hname : ¬ Unnameable ⟨anchor, names ++ [n]⟩ := by
    intro hname
    rw [find_of_place_error (place_of_unnameable hname)] at h
    cases h
  refine ⟨hname, ?_⟩
  rcases find_error_iff.mp h with hplace | ⟨-, place, hplace, -⟩
  · rw [place_snoc hname, bind_error_iff] at hplace
    rcases hplace with hmissing | ⟨e, -, he⟩
    · exact .inr hmissing
    · cases e <;> cases he
  · exact .inl (folder_before hplace)

theorem folder_of_find_more {more : List String} (hmore : more ≠ [])
    (h : fs.find ⟨anchor, names ++ more⟩ = .ok e) : fs.find ⟨anchor, names⟩ = .ok .folder := by
  induction more using List.reverseRecOn generalizing e with
  | nil => exact absurd rfl hmore
  | append_singleton more n ih =>
    rw [← List.append_assoc] at h
    obtain ⟨place, hplace, -⟩ := find_ok.mp h
    have hfolder := folder_before hplace
    by_cases hmore : more = []
    · simpa [hmore] using hfolder
    · exact ih hmore hfolder

/-! ### The folder that relative paths start at -/

namespace WellFormed

variable (h : fs.WellFormed)

include h

theorem isAbsolute : fs.current.isAbsolute := by
  simpa [Path.isAbsolute] using h.absolute

theorem nameable : ¬ Unnameable fs.current := by
  intro hname
  have hcurrent := h.current
  rw [find_of_place_error (place_of_unnameable hname)] at hcurrent
  cases hcurrent

theorem join_join (p : Path) : fs.current.join (fs.current.join p) = fs.current.join p := by
  have hjoin : (fs.current.join p).isAbsolute := by
    by_cases habs : p.isAbsolute
    · rwa [Path.join, if_pos habs]
    · rw [Path.join, if_neg habs]
      exact h.isAbsolute
  conv_lhs => rw [Path.join, if_pos hjoin]

theorem placeFrom_join (p : Path) :
    Path.placeFrom fs.current (fs.current.join p) = Path.placeFrom fs.current p := by
  simp only [Path.placeFrom, Path.normal]
  rw [h.join_join]

theorem place_join (p : Path) : fs.place (fs.current.join p) = fs.place p := by
  by_cases habs : p.isAbsolute
  · rw [Path.join, if_pos habs]
  · have hname : Unnameable (fs.current.join p) ↔ Unnameable p := by
      rw [Path.join, if_neg habs]
      have hcurrent := h.nameable
      simp only [Unnameable, List.any_append, Bool.or_eq_true] at hcurrent ⊢
      exact or_iff_right hcurrent
    by_cases hp : Unnameable p
    · rw [place_of_unnameable hp, place_of_unnameable (hname.mpr hp)]
    · rw [place_of_nameable hp, place_of_nameable (mt hname.mp hp), h.join_join]

theorem find_join (p : Path) : fs.find (fs.current.join p) = fs.find p := by
  rw [find, find, h.place_join]

theorem find_nil (anchor : Anchor) : fs.find ⟨anchor, []⟩ = .ok .folder := by
  have hname : ¬ Unnameable ⟨anchor, []⟩ := by simp [Unnameable]
  by_cases hanchor : anchor = .here
  · subst hanchor
    have hjoin : fs.current.join ⟨.here, []⟩ = fs.current := by
      simp [Path.join, Path.isAbsolute]
    rw [← h.find_join, hjoin]
    exact h.current
  · have hplace : fs.place ⟨anchor, []⟩ = .ok [] := by
      rw [place_of_nameable hname]
      simp [Path.join, Path.isAbsolute, hanchor, follow]
    exact find_of_place hplace rfl

end WellFormed

/-! ### Ways back -/

/-- Whether every double dot of a path leads out of a folder that is there. -/
def Direct (fs : FileSystem) (p : Path) : Prop :=
  ∀ before after, p.names = before ++ ".." :: after → fs.find ⟨p.anchor, before⟩ = .ok .folder

theorem direct_of_notMem (h : ".." ∉ p.names) : fs.Direct p := by
  intro before after heq
  simp [heq] at h

theorem Direct.before (h : fs.Direct ⟨anchor, names ++ [n]⟩) : fs.Direct ⟨anchor, names⟩ := by
  intro before after heq
  have heq : names = before ++ ".." :: after := heq
  exact h before (after ++ [n]) (by simp [heq])

theorem Direct.parent (h : fs.Direct p) : fs.Direct p.parent := by
  obtain ⟨anchor, names⟩ := p
  cases names using List.reverseRecOn with
  | nil => exact h
  | append_singleton names n =>
    rw [parent_snoc]
    exact h.before

theorem Direct.last (h : fs.Direct ⟨anchor, names ++ [n]⟩)
    (hmissing : fs.find ⟨anchor, names⟩ ≠ .ok .folder) : n ≠ ".." := by
  rintro rfl
  exact hmissing (h names [] rfl)

theorem Direct.join (h : fs.Direct p) (hfs : fs.WellFormed) : fs.Direct (fs.current.join p) := by
  by_cases habs : p.isAbsolute
  · rwa [Path.join, if_pos habs]
  · obtain ⟨anchor, names⟩ := p
    obtain rfl : anchor = .here := by simpa [Path.isAbsolute] using habs
    intro before after heq
    have heq : fs.current.names ++ names = before ++ ".." :: after := heq
    have hanchor : (fs.current.join ⟨.here, names⟩).anchor = fs.current.anchor := rfl
    rw [hanchor]
    rcases List.append_eq_append_iff.mp heq with ⟨more, rfl, hnames⟩ | ⟨more, hcurrent, -⟩
    · have hfolder := h more after hnames
      rw [← hfs.find_join] at hfolder
      exact hfolder
    · have hfolder : fs.find ⟨fs.current.anchor, before ++ more⟩ = .ok .folder := by
        rw [← hcurrent]
        exact hfs.current
      by_cases hmore : more = []
      · simpa [hmore] using hfolder
      · exact folder_of_find_more hmore hfolder

/-- Where a direct path leads to nothing, there is nothing at its normal form either. -/
theorem Direct.get?_none (h : fs.Direct p) (hfs : fs.WellFormed)
    (hmissing : fs.find p = .error .missing) : fs.get? (Path.placeFrom fs.current p) = none := by
  obtain ⟨anchor, names⟩ := p
  induction names using List.reverseRecOn with
  | nil =>
    rw [hfs.find_nil] at hmissing
    cases hmissing
  | append_singleton names n ih =>
    obtain ⟨hname, hfolder | hbefore⟩ := missing_snoc hmissing
    · have hplace := place_snoc_of_folder hname hfolder
      obtain ⟨heq, -⟩ := place_ok hplace
      rw [heq] at hplace
      cases hget : fs.get? (Path.placeFrom fs.current ⟨anchor, names ++ [n]⟩) with
      | none => rfl
      | some e =>
        rw [find_of_place hplace hget] at hmissing
        cases hmissing
    · have hnone := ih h.before hbefore
      have hn : n ≠ ".." := h.last (by simp [hbefore])
      cases hget : fs.get? (Path.placeFrom fs.current ⟨anchor, names ++ [n]⟩) with
      | none => rfl
      | some e =>
        rw [placeFrom_snoc, Path.enterName, if_neg hn] at hget
        have hfolder := hfs.rooted _ e hget _ (List.prefix_append _ _) (by simp)
        rw [hnone] at hfolder
        cases hfolder

/-! ### Later files -/

namespace Later

variable (h : Later fs fs') (hfs : fs.WellFormed)

include h hfs

theorem find_ok (hfind : fs.find p = .ok e) :
    ∃ e', fs'.find p = .ok e' ∧ (e = .folder ↔ e' = .folder) := by
  obtain ⟨place, hplace, he⟩ := FileSystem.find_ok.mp hfind
  have hplace' := h.keeps.place_eq hplace
  cases e with
  | folder => exact ⟨.folder, find_of_place hplace' (h.folder hfs he), by simp⟩
  | file c =>
    obtain ⟨c', hc'⟩ := h.file hfs he
    exact ⟨.file c', find_of_place hplace' hc', by simp⟩

theorem find_folder (hfind : fs.find p = .ok .folder) : fs'.find p = .ok .folder := by
  obtain ⟨e', he', hfolder⟩ := h.find_ok hfs hfind
  rwa [hfolder.mp rfl] at he'

theorem find_file {c : String} (hfind : fs.find p = .ok (.file c)) :
    ∃ c', fs'.find p = .ok (.file c') := by
  obtain ⟨e', he', hfolder⟩ := h.find_ok hfs hfind
  cases e' with
  | folder => simp at hfolder
  | file c' => exact ⟨c', he'⟩

theorem follow_error {start : Place} (hf : fs.follow start names = .error fault)
    (hne : fault ≠ .missing) : fs'.follow start names = .error fault := by
  induction names generalizing start with
  | nil => cases hf
  | cons n names ih =>
    rw [follow] at hf ⊢
    cases hstart : fs.get? start with
    | none =>
      rw [hstart] at hf
      exact absurd (Except.error.inj hf).symm hne
    | some e =>
      cases e with
      | folder =>
        rw [hstart] at hf
        rw [h.folder hfs hstart]
        exact ih hf
      | file c =>
        rw [hstart] at hf
        obtain ⟨c', hc'⟩ := h.file hfs hstart
        rw [hc']
        exact hf

/-- What is in the way of a path stays in its way. -/
theorem place_error (hplace : fs.place p = .error fault) (hne : fault ≠ .missing) :
    fs'.place p = .error fault := by
  by_cases hname : Unnameable p
  · rw [place_of_unnameable hname] at hplace ⊢
    exact hplace
  · rw [place_of_nameable hname] at hplace ⊢
    rw [h.keeps.current]
    exact h.follow_error hfs hplace hne

theorem find_error (hfind : fs.find p = .error fault) (hne : fault ≠ .missing) :
    fs'.find p = .error fault := by
  rcases find_error_iff.mp hfind with hplace | ⟨hmissing, -⟩
  · exact find_of_place_error (h.place_error hfs hplace hne)
  · exact absurd hmissing hne

theorem find_ne_missing (hfind : fs.find p ≠ .error .missing) : fs'.find p ≠ .error .missing := by
  cases hcase : fs.find p with
  | ok e =>
    obtain ⟨e', he', -⟩ := h.find_ok hfs hcase
    simp [he']
  | error fault =>
    rw [h.find_error hfs hcase (fun heq => hfind (heq ▸ hcase)), ← hcase]
    exact hfind

theorem direct (hdirect : fs.Direct p) : fs'.Direct p :=
  fun before after heq => h.find_folder hfs (hdirect before after heq)

end Later

end ApiRecords.FileSystem
