import ApiRecords.Proofs.Words.Boundaries

/-!
Names in small letters: runs of small letters or of digits with a separator between them. Every name written
so has this form, and a name of this form is written as itself.
-/

namespace ApiRecords.Text

/-- A run of small letters or of digits. -/
def PlainRun (w : List Char) : Prop := w ≠ [] ∧ ((∀ c ∈ w, c.isLower) ∨ ∀ c ∈ w, c.isDigit)

/-- Whether a text is made of plain runs, a separator between each two of them. The text without any is
empty. -/
def SnakeForm (s : String) : Prop :=
  ∃ ws : List String, (∀ w ∈ ws, PlainRun w.toList) ∧ s = "_".intercalate ws

variable {c : Char} {w rest : List Char}

/-! ### Small letters -/

theorem toLower_of_not_isUpper (h : c.isUpper = false) : c.toLower = c :=
  dif_neg fun hupper => Bool.eq_false_iff.mp h (isUpper_iff.mpr hupper)

theorem isLower_toLower (h : c.isAlpha) : c.toLower.isLower := by
  rw [isAlpha_eq, Bool.or_eq_true] at h
  rcases h with h | h
  · have hascii : ∀ n < 128, (Char.ofNat n).isUpper → (Char.ofNat n).toLower.isLower := by decide
    have hc := hascii c.toNat (toNat_lt_of_isWordChar (by simp [isWordChar, h]))
    rw [Char.ofNat_toNat] at hc
    exact hc h
  · rwa [toLower_of_not_isUpper (isLower_kind h).1]

theorem plainRun_toLower (hne : w ≠ []) (h : OneKind w) : PlainRun (w.map Char.toLower) := by
  refine ⟨by simpa using hne, h.imp (fun h => ?_) fun h => ?_⟩
  · simpa using fun c hc => isLower_toLower (h c hc)
  · intro c hc
    obtain ⟨d, hd, rfl⟩ := List.mem_map.mp hc
    rw [toLower_of_not_isUpper (isDigit_kind (h d hd)).1]
    exact h d hd

theorem map_toLower_of_plainRun (h : PlainRun w) : w.map Char.toLower = w := by
  have hplain : ∀ c ∈ w, c.toLower = c := fun c hc => by
    refine toLower_of_not_isUpper ?_
    rcases h.2 with h | h
    · exact (isLower_kind (h c hc)).1
    · exact (isDigit_kind (h c hc)).1
  simpa using List.map_congr_left hplain

theorem lower_of_plainRun {w : String} (h : PlainRun w.toList) : lower w = w := by
  rw [lower, map_toLower_of_plainRun h, String.ofList_toList]

/-! ### Words of names in this form -/

/-- A plain run is a word, whatever comes after the character that ends it. -/
theorem wordsOf_plainRun_append (hw : PlainRun w) (hrest : ∀ c ∈ rest.head?, ¬ isWordChar c) :
    wordsOf (w ++ rest) = w :: wordsOf rest := by
  obtain ⟨hne, hkind⟩ := hw
  obtain ⟨c, cs, rfl⟩ := List.exists_cons_of_ne_nil hne
  have hend : ∀ p : Char → Bool, (∀ d, p d → isWordChar d) → rest.takeWhile p = [] := by
    intro p hp
    cases rest with
    | nil => rfl
    | cons d rest =>
      have hd : ¬ isWordChar d := hrest d rfl
      rw [List.takeWhile_cons_of_neg fun h => hd (hp d h)]
  have hlength : wordRest c (cs ++ rest) = cs.length := by
    rcases hkind with h | h
    · obtain ⟨hc, hcs⟩ := List.forall_mem_cons.mp h
      rw [wordRest_of_isLower hc, List.takeWhile_append_of_pos hcs,
        hend _ fun d hd => by simp [isWordChar, hd], List.append_nil]
    · obtain ⟨hc, hcs⟩ := List.forall_mem_cons.mp h
      rw [wordRest_of_isDigit hc, List.takeWhile_append_of_pos hcs,
        hend _ fun d hd => by simp [isWordChar, hd], List.append_nil]
  have hc : isWordChar c := by
    rcases hkind with h | h <;> simp [isWordChar, (List.forall_mem_cons.mp h).1]
  rw [List.cons_append, wordsOf_cons, if_pos hc, hlength, List.take_left, List.drop_left]

theorem wordsOf_intercalate {ws : List (List Char)} (h : ∀ w ∈ ws, PlainRun w) :
    wordsOf (['_'].intercalate ws) = ws := by
  induction ws with
  | nil => rfl
  | cons w ws ih =>
    obtain ⟨hw, hws⟩ := List.forall_mem_cons.mp h
    cases ws with
    | nil =>
      have hrest : ∀ c ∈ ([] : List Char).head?, ¬ isWordChar c := by simp
      simpa using wordsOf_plainRun_append hw hrest
    | cons next ws =>
      rw [List.intercalate_cons_cons, List.append_assoc, wordsOf_plainRun_append hw (by simp; decide),
        List.singleton_append, wordsOf_cons_of_not_isWordChar (by decide), ih hws]

/-- A name in this form is written as itself. -/
theorem snakeCase_of_snakeForm {s : String} (h : SnakeForm s) : snakeCase s = s := by
  obtain ⟨ws, hws, rfl⟩ := h
  have hwords : words ("_".intercalate ws) = ws := by
    have hplain : wordsOf (['_'].intercalate (ws.map String.toList)) = ws.map String.toList :=
      wordsOf_intercalate (by simpa using hws)
    rw [words, String.toList_intercalate, show "_".toList = ['_'] from rfl, hplain]
    simp
  rw [snakeCase, hwords, List.map_congr_left fun w hw => lower_of_plainRun (hws w hw), List.map_id']

/-- A name written in small letters has this form. -/
theorem snakeForm_snakeCase (s : String) : SnakeForm (snakeCase s) := by
  refine ⟨(words s).map lower, fun w hw => ?_, rfl⟩
  simp only [words, List.map_map, List.mem_map] at hw
  obtain ⟨cs, hcs, rfl⟩ := hw
  obtain ⟨hne, hkind⟩ := wordsOf_oneKind s.toList cs hcs
  simpa [lower] using plainRun_toLower hne hkind

/-- The words of a name are the maximal runs of letters and digits, cut at their boundaries, so that together
they are the name without its other characters. In small letters the name is empty, or runs of small letters
or of digits with a separator between them, and is written as itself. -/
theorem words_eq_cut_runs (s : String) :
    words s = ((runs s.toList).flatMap cut).map String.ofList ∧
      String.join (words s) = String.ofList (s.toList.filter isWordChar) ∧
      SnakeForm (snakeCase s) ∧ snakeCase (snakeCase s) = snakeCase s := by
  refine ⟨by rw [words, wordsOf_eq_cut_runs], ?_, snakeForm_snakeCase s,
    snakeCase_of_snakeForm (snakeForm_snakeCase s)⟩
  rw [words, ← flatten_wordsOf, ← String.toList_inj, String.toList_join]
  simp [List.flatMap_map]

/-- Capitals in front of a capitalised word, and digits between letters. -/
example : words "XMLHttpRequest2aB_c" = ["XML", "Http", "Request", "2", "a", "B", "c"] := by decide +kernel

end ApiRecords.Text
