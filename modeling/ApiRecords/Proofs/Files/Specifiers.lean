import ApiRecords.Emission.Emitter
import ApiRecords.Proofs.Files
import ApiRecords.Proofs.Words

/-!
The way from the override files to the base files, as it stands in an import: where it leads, and when
it is told apart from the name of a package.
-/

namespace ApiRecords

namespace Text

theorem head?_splitOnChar {sep : Char} {part cs : List Char} (hpart : sep ∉ part) :
    (splitOnChar sep cs).head? = some part ↔ cs = part ∨ part ++ [sep] <+: cs := by
  constructor
  · intro h
    by_cases hmem : sep ∈ cs
    · obtain ⟨before, after, rfl, hbefore⟩ := List.eq_append_cons_of_mem hmem
      rw [splitOnChar_append hbefore, List.head?_cons, Option.some.injEq] at h
      exact .inr ⟨after, by simp [h]⟩
    · rw [splitOnChar_of_notMem hmem, List.head?_cons, Option.some.injEq] at h
      exact .inl h
  · rintro (rfl | ⟨after, rfl⟩)
    · rw [splitOnChar_of_notMem hpart, List.head?_cons]
    · rw [List.append_assoc, List.singleton_append, splitOnChar_append hpart, List.head?_cons]

theorem head?_splitOnChar_append (sep : Char) (cs more : List Char) :
    (splitOnChar sep (cs ++ sep :: more)).head? = (splitOnChar sep cs).head? := by
  by_cases hmem : sep ∈ cs
  · obtain ⟨before, after, rfl, hbefore⟩ := List.eq_append_cons_of_mem hmem
    rw [List.append_assoc, List.cons_append, splitOnChar_append hbefore, splitOnChar_append hbefore]
    rfl
  · rw [splitOnChar_append hmem, splitOnChar_of_notMem hmem]
    rfl

end Text

/-- Whether an import takes a text for a way from the file that it stands in, and not for a package. -/
def IsRelative (specifier : String) : Prop :=
  specifier = "." ∨ specifier = ".." ∨
    "./".toList <+: specifier.toList ∨ "../".toList <+: specifier.toList

instance (specifier : String) : Decidable (IsRelative specifier) :=
  inferInstanceAs (Decidable (_ ∨ _ ∨ _ ∨ _))

theorem isRelative_iff_head (s : String) : IsRelative s ↔
    (Text.splitOnChar '/' s.toList).head? = some ['.'] ∨
      (Text.splitOnChar '/' s.toList).head? = some ['.', '.'] := by
  rw [Text.head?_splitOnChar (by decide), Text.head?_splitOnChar (by decide), IsRelative,
    ← String.toList_inj, ← String.toList_inj]
  tauto

theorem isRelative_append (s file : String) : IsRelative (s ++ "/" ++ file) ↔ IsRelative s := by
  have hparts : (Text.splitOnChar '/' (s ++ "/" ++ file).toList).head? =
      (Text.splitOnChar '/' s.toList).head? := by
    rw [String.toList_append, String.toList_append, List.append_assoc]
    exact Text.head?_splitOnChar_append '/' s.toList file.toList
  rw [isRelative_iff_head, isRelative_iff_head, hparts]

namespace Path

/-- A name that stays as it is when it is written in a path and read again. -/
structure IsPart (n : String) : Prop where
  nonempty : n ≠ ""
  not_dot : n ≠ "."
  no_slash : '/' ∉ n.toList

theorem isPart_ofText (s : String) : ∀ n ∈ (ofText s).names, IsPart n := by
  intro n hn
  obtain ⟨hpart, hkept⟩ := List.mem_filter.mp hn
  obtain ⟨cs, hcs, rfl⟩ := List.mem_map.mp hpart
  simp only [Bool.and_eq_true, decide_eq_true_eq] at hkept
  refine ⟨hkept.1, hkept.2, ?_⟩
  rw [String.toList_ofList]
  exact Text.notMem_of_mem_splitOnChar hcs

theorem isPart_join {p q : Path} (hp : ∀ n ∈ p.names, IsPart n) (hq : ∀ n ∈ q.names, IsPart n) :
    ∀ n ∈ (p.join q).names, IsPart n := by
  unfold join
  split
  · exact hq
  · exact List.forall_mem_append.mpr ⟨hp, hq⟩

theorem isPart_folders (start output : String) (base : Option String) :
    (∀ n ∈ (Folders.ofText start output base).output.names, IsPart n) ∧
      ∀ n ∈ (Folders.ofText start output base).base.names, IsPart n := by
  have hway : ∀ s, ∀ n ∈ ((ofText start).join (ofText s)).names, IsPart n :=
    fun s => isPart_join (isPart_ofText start) (isPart_ofText s)
  refine ⟨hway output, ?_⟩
  unfold Folders.ofText
  split
  · exact isPart_join (hway output) (isPart_ofText _)
  · exact isPart_join (hway output) (isPart_ofText _)
  · exact hway _

/-- Names without double dots, as they are after the path was made normal. -/
theorem mem_normalNames {names : List String} {n : String} (h : n ∈ normalNames names) :
    n ∈ names ∧ n ≠ ".." := by
  induction names using List.reverseRecOn with
  | nil => cases h
  | append_singleton names last ih =>
    rw [normalNames_append, List.foldl_cons, List.foldl_nil, enterName] at h
    split at h
    · obtain ⟨hmem, hne⟩ := ih (List.mem_of_mem_dropLast h)
      exact ⟨List.mem_append_left _ hmem, hne⟩
    · rename_i hlast
      rcases List.mem_append.mp h with h | h
      · obtain ⟨hmem, hne⟩ := ih h
        exact ⟨List.mem_append_left _ hmem, hne⟩
      · rw [List.mem_singleton.mp h]
        exact ⟨by simp, hlast⟩

/-! ### From one folder to another -/

theorem dropShared_append (as rest : List String) : dropShared as (as ++ rest) = ([], rest) := by
  induction as with
  | nil => simp [dropShared]
  | cons a as ih => simpa [dropShared] using ih

theorem dropShared_shared (as bs : List String) : ∃ shared,
    as = shared ++ (dropShared as bs).1 ∧ bs = shared ++ (dropShared as bs).2 := by
  induction as generalizing bs with
  | nil => exact ⟨[], by simp [dropShared]⟩
  | cons a as ih =>
    cases bs with
    | nil => exact ⟨[], by simp [dropShared]⟩
    | cons b bs =>
      by_cases hab : a = b
      · obtain ⟨shared, has, hbs⟩ := ih bs
        refine ⟨a :: shared, ?_, ?_⟩
        · rw [dropShared, if_pos hab, List.cons_append, ← has]
        · rw [dropShared, if_pos hab, List.cons_append, ← hbs, hab]
      · exact ⟨[], by simp [dropShared, hab]⟩

theorem enter_up (shared up : List String) :
    (up.map fun _ => "..").foldl enterName (shared ++ up) = shared := by
  induction up using List.reverseRecOn with
  | nil => simp
  | append_singleton up last ih =>
    have hmap : ((up ++ [last]).map fun _ => "..") = ".." :: up.map fun _ => ".." := by
      rw [List.map_const', List.map_const', List.length_append, List.length_singleton,
        List.replicate_succ]
    rw [hmap, List.foldl_cons, enterName, if_pos rfl, ← List.append_assoc, List.dropLast_concat, ih]

theorem enter_down {names : List String} (h : ∀ n ∈ names, n ≠ "..") (start : List String) :
    names.foldl enterName start = start ++ names := by
  induction names generalizing start with
  | nil => simp
  | cons n names ih =>
    obtain ⟨hn, hnames⟩ := List.forall_mem_cons.mp h
    rw [List.foldl_cons, ih hnames, enterName, if_neg hn, List.append_assoc, List.singleton_append]

/-! ### Ways as texts -/

theorem toList_text {names : List String} (hne : names ≠ []) :
    (text ⟨.here, names⟩).toList = ['/'].intercalate (names.map String.toList) := by
  rw [text, if_neg fun h => hne h.2]
  simp [Anchor.text, String.toList_intercalate]

theorem splitOnChar_text {names : List String} (hne : names ≠ []) (h : ∀ n ∈ names, IsPart n) :
    Text.splitOnChar '/' (text ⟨.here, names⟩).toList = names.map String.toList := by
  rw [toList_text hne, Text.splitOnChar_intercalate (by simpa using hne)]
  intro part hpart
  obtain ⟨n, hn, rfl⟩ := List.mem_map.mp hpart
  exact (h n hn).no_slash

theorem filter_isPart {names : List String} (h : ∀ n ∈ names, IsPart n) :
    (names.filter fun n => n ≠ "" && n ≠ ".") = names := by
  refine List.filter_eq_self.mpr fun n hn => ?_
  simp [(h n hn).nonempty, (h n hn).not_dot]

theorem anchor_ofChars {cs : List Char} (h : cs.head? ≠ some '/') : Anchor.ofChars cs = .here := by
  unfold Anchor.ofChars
  split <;> simp_all

/-- The first character of a way is that of its first name. -/
theorem head?_text {n : String} {names : List String} (hn : IsPart n) :
    (text ⟨.here, n :: names⟩).toList.head? = n.toList.head? := by
  rw [toList_text (List.cons_ne_nil n names)]
  cases hchars : n.toList with
  | nil => exact absurd (String.toList_inj.mp hchars) hn.nonempty
  | cons c cs =>
    cases names <;> simp [hchars, List.intercalate_cons_cons]

theorem ofText_text {names : List String} (h : ∀ n ∈ names, IsPart n) :
    ofText (text ⟨.here, names⟩) = ⟨.here, names⟩ := by
  cases names with
  | nil => decide
  | cons n names =>
    have hn : IsPart n := h n List.mem_cons_self
    have hanchor : Anchor.ofChars (text ⟨.here, n :: names⟩).toList = .here := by
      refine anchor_ofChars fun hhead => hn.no_slash ?_
      rw [head?_text hn] at hhead
      exact List.mem_of_mem_head? hhead
    have hparts : Text.parts '/' (text ⟨.here, n :: names⟩) = n :: names := by
      rw [Text.parts, splitOnChar_text (List.cons_ne_nil n names) h, List.map_map]
      simp
    rw [ofText, hanchor, hparts, filter_isPart h]

theorem ofText_dot_text {n : String} {names : List String} (h : ∀ m ∈ n :: names, IsPart m) :
    ofText ("./" ++ text ⟨.here, n :: names⟩) = ⟨.here, n :: names⟩ := by
  have hparts : Text.parts '/' ("./" ++ text ⟨.here, n :: names⟩) = "." :: n :: names := by
    have hdot : ("./" ++ text ⟨.here, n :: names⟩).toList =
        ['.'] ++ '/' :: (text ⟨.here, n :: names⟩).toList := by simp
    rw [Text.parts, hdot, Text.splitOnChar_append (by decide),
      splitOnChar_text (List.cons_ne_nil n names) h, List.map_cons, List.map_map]
    simp
  have hanchor : Anchor.ofChars ("./" ++ text ⟨.here, n :: names⟩).toList = .here :=
    anchor_ofChars (by simp)
  rw [ofText, hanchor, hparts, List.filter_cons_of_neg (by decide), filter_isPart h]

/-- How a way is written in an import. -/
def specifier (way : Path) : String :=
  if way.text.toList.head? = some '.' then way.text else "./" ++ way.text

theorem ofText_specifier {names : List String} (h : ∀ n ∈ names, IsPart n) :
    ofText (specifier ⟨.here, names⟩) = ⟨.here, names⟩ := by
  unfold specifier
  split
  · exact ofText_text h
  · rename_i hhead
    cases names with
    | nil => exact absurd (by decide) hhead
    | cons n names => exact ofText_dot_text h

/-- A first name with a dot in front stays as it is, and only the double dot is no name of a package. -/
theorem isRelative_specifier_iff {names : List String} (h : ∀ n ∈ names, IsPart n) :
    IsRelative (specifier ⟨.here, names⟩) ↔
      ∀ n, names.head? = some n → n.toList.head? = some '.' → n = ".." := by
  cases names with
  | nil => simpa using (by decide : IsRelative (specifier ⟨.here, []⟩))
  | cons n names =>
    have hn : IsPart n := h n List.mem_cons_self
    simp only [List.head?_cons, Option.some.injEq, forall_eq']
    by_cases hdot : n.toList.head? = some '.'
    · have hwritten : specifier ⟨.here, n :: names⟩ = text ⟨.here, n :: names⟩ :=
        if_pos ((head?_text hn).trans hdot)
      have hnot : n.toList ≠ ['.'] := fun heq => hn.not_dot (String.toList_inj.mp heq)
      rw [hwritten, isRelative_iff_head, splitOnChar_text (List.cons_ne_nil n names) h,
        ← String.toList_inj]
      simp [hdot, hnot]
    · have hwritten : specifier ⟨.here, n :: names⟩ = "./" ++ text ⟨.here, n :: names⟩ :=
        if_neg fun hhead => hdot ((head?_text hn).symm.trans hhead)
      have hrelative : IsRelative (specifier ⟨.here, n :: names⟩) := by
        rw [hwritten]
        exact .inr (.inr (.inl ⟨_, (String.toList_append).symm⟩))
      exact iff_of_true hrelative fun hhead => absurd hhead hdot

/-! ### Where a way leads -/

section

variable {current start target : Path}

theorem relative_eq : relative current start target =
    ⟨.here, (dropShared (normal current start).names (normal current target).names).1.map (fun _ => "..") ++
      (dropShared (normal current start).names (normal current target).names).2⟩ := rfl

theorem join_here (names : List String) : current.join (start.join ⟨.here, names⟩) =
    ⟨(current.join start).anchor, (current.join start).names ++ names⟩ := by
  obtain ⟨anchor, names'⟩ := start
  cases anchor <;> simp [join, isAbsolute]

theorem anchor_normal (hcurrent : current.anchor = .root) (htarget : target.anchor ≠ .doubleRoot) :
    (normal current target).anchor = .root := by
  obtain ⟨anchor, names⟩ := target
  cases anchor <;> simp_all [normal, join, isAbsolute]

theorem normal_relative (hcurrent : current.anchor = .root) (hstart : start.anchor ≠ .doubleRoot)
    (htarget : target.anchor ≠ .doubleRoot) :
    normal current (start.join (relative current start target)) = normal current target := by
  have hanchor : (current.join start).anchor = (normal current target).anchor :=
    (anchor_normal hcurrent hstart).trans (anchor_normal hcurrent htarget).symm
  obtain ⟨shared, hup, hdown⟩ :=
    dropShared_shared (normal current start).names (normal current target).names
  rw [relative_eq, normal, join_here, hanchor]
  generalize (dropShared (normal current start).names (normal current target).names).1 = up at hup
  generalize (dropShared (normal current start).names (normal current target).names).2 = down at hdown
  have hplain : ∀ n ∈ down, n ≠ ".." := fun n hn =>
    (mem_normalNames (show n ∈ (normal current target).names from
      hdown ▸ List.mem_append_right _ hn)).2
  have hnames : normalNames ((current.join start).names ++ (up.map (fun _ => "..") ++ down)) =
      (normal current target).names := calc
    _ = (up.map (fun _ => "..") ++ down).foldl enterName (normal current start).names :=
      normalNames_append _ _
    _ = down.foldl enterName shared := by rw [hup, List.foldl_append, enter_up]
    _ = (normal current target).names := by rw [enter_down hplain, hdown]
  rw [hnames]

theorem isPart_relative (htarget : ∀ n ∈ (current.join target).names, IsPart n) :
    ∀ n ∈ (relative current start target).names, IsPart n := by
  obtain ⟨shared, -, hdown⟩ :=
    dropShared_shared (normal current start).names (normal current target).names
  refine List.forall_mem_append.mpr ⟨fun n hn => ?_, fun n hn => ?_⟩
  · obtain ⟨_, -, rfl⟩ := List.mem_map.mp hn
    exact ⟨by decide, by decide, by decide⟩
  · have hmem : n ∈ (normal current target).names := hdown ▸ List.mem_append_right _ hn
    exact htarget n (mem_normalNames hmem).1

/-- The first name on the way down, where the way does not go up before. -/
theorem isRelative_relative_iff (htarget : ∀ n ∈ (current.join target).names, IsPart n) :
    IsRelative (relative current start target).specifier ↔ ¬ ∃ n rest,
      (normal current target).names = (normal current start).names ++ n :: rest ∧
        n.toList.head? = some '.' := by
  have hway : ∀ n ∈ (relative current start target).names, IsPart n := isPart_relative htarget
  rw [relative_eq] at hway ⊢
  rw [isRelative_specifier_iff hway]
  constructor
  · rintro hhead ⟨n, rest, hnames, hdot⟩
    have hmem : n ∈ normalNames (current.join target).names := by
      change n ∈ (normal current target).names
      simp [hnames]
    have hplain : n ≠ ".." := (mem_normalNames hmem).2
    rw [hnames, dropShared_append] at hhead
    exact hplain (hhead n rfl hdot)
  · intro hnot n hhead hdot
    obtain ⟨shared, hup, hdown⟩ :=
      dropShared_shared (normal current start).names (normal current target).names
    generalize (dropShared (normal current start).names (normal current target).names).1 = up
      at hhead hup
    generalize (dropShared (normal current start).names (normal current target).names).2 = down
      at hhead hdown
    cases up with
    | nil =>
      obtain ⟨rest, rfl⟩ := List.head?_eq_some_iff.mp (hhead : down.head? = some n)
      exact absurd ⟨n, rest, by rw [hdown, hup, List.append_nil], hdot⟩ hnot
    | cons a up => exact (Option.some.inj hhead).symm

end

end Path

namespace Folders

/-- The import path leads from the override files to the base files, and it is a specifier of a way,
with a file at its end as well, unless the base files are in a hidden folder below the override files or
in folders below such a one. -/
theorem importPath_leads (start output cwd : String) (base : Option String)
    (hcwd : (Path.ofText cwd).anchor = .root)
    (houtput : (ofText start output base).output.anchor ≠ .doubleRoot)
    (hbase : (ofText start output base).base.anchor ≠ .doubleRoot) :
    let f := ofText start output base
    let current := Path.ofText cwd
    (IsRelative (f.importPath current) ↔ ¬ ∃ n rest,
      (Path.normal current f.base).names = (Path.normal current f.output).names ++ n :: rest ∧
        n.toList.head? = some '.') ∧
    (∀ file, IsRelative (f.importPath current ++ "/" ++ file) ↔ IsRelative (f.importPath current)) ∧
    Path.normal current (f.output.join (Path.ofText (f.importPath current))) =
      Path.normal current f.base := by
  intro f current
  have hnames : ∀ n ∈ (current.join f.base).names, Path.IsPart n :=
    Path.isPart_join (Path.isPart_ofText cwd) (Path.isPart_folders start output base).2
  have hread : Path.ofText (f.importPath current) = Path.relative current f.output f.base :=
    Path.ofText_specifier (Path.isPart_relative hnames)
  refine ⟨Path.isRelative_relative_iff hnames, isRelative_append _, ?_⟩
  rw [hread, Path.normal_relative hcwd houtput hbase]

theorem importPath_leads_below :
    let f := ofText "" "out" (some "out/gen")
    let current := Path.ofText "/home/work"
    f.importPath current = "./gen" ∧ IsRelative (f.importPath current) ∧
      Path.normal current (f.output.join (Path.ofText (f.importPath current))) =
        Path.normal current f.base := by
  obtain ⟨-, -, hleads⟩ := importPath_leads "" "out" "/home/work" (some "out/gen")
    (by decide) (by decide) (by decide)
  exact ⟨by decide, by decide, hleads⟩

/-- The name of a hidden folder is left alone as if it were a way up, and stands for a package. -/
theorem hidden_base_unmarked :
    (ofText "" "out" (some "out/.gen")).importPath (Path.ofText "/home/work") = ".gen" ∧
      ¬ IsRelative ((ofText "" "out" (some "out/.gen")).importPath (Path.ofText "/home/work")) ∧
      ¬ IsRelative ((ofText "" "out" (some "out/.gen")).importPath (Path.ofText "/home/work") ++
        "/" ++ "pet") := by
  decide

end Folders

end ApiRecords
