import ApiRecords.Proofs.Words

/-!
Words by their boundaries: the runs of word characters, each cut wherever one of three conditions on
neighbouring characters holds. The reader of words, which goes ahead to the end of a word at a time, finds
the same ones.
-/

namespace ApiRecords.Text

/-- Whether a word ends between two neighbouring characters of a run: at a change between letters and digits,
in front of a capital after a small letter, and between two capitals where a small letter follows. `after`
is what stands after them. -/
def boundary (c d : Char) (after : List Char) : Bool :=
  c.isDigit && d.isAlpha || c.isAlpha && d.isDigit || c.isLower && d.isUpper ||
    c.isUpper && d.isUpper && after.head?.any Char.isLower

/-- A run cut at its boundaries. -/
def cut : List Char → List (List Char)
  | [] => []
  | [c] => [[c]]
  | c :: d :: cs =>
    if boundary c d cs then [c] :: cut (d :: cs) else (cut (d :: cs)).modifyHead (c :: ·)

/-- The maximal runs of word characters. -/
def runs (cs : List Char) : List (List Char) :=
  (cs.splitOnP fun c => !isWordChar c).filter (· ≠ [])

variable {c d : Char} {cs : List Char}

/-! ### Kinds of characters -/

theorem isAlpha_eq (c : Char) : c.isAlpha = (c.isUpper || c.isLower) := rfl

theorem isUpper_iff : c.isUpper ↔ 65 ≤ c.toNat ∧ c.toNat ≤ 90 := decide_eq_true_iff

theorem isLower_iff : c.isLower ↔ 97 ≤ c.toNat ∧ c.toNat ≤ 122 :=
  Bool.and_eq_true_iff.trans (and_congr decide_eq_true_iff decide_eq_true_iff)

theorem isDigit_iff : c.isDigit ↔ 48 ≤ c.toNat ∧ c.toNat ≤ 57 :=
  Bool.and_eq_true_iff.trans (and_congr decide_eq_true_iff decide_eq_true_iff)

theorem isUpper_kind (h : c.isUpper) : c.isLower = false ∧ c.isDigit = false := by
  simp only [isUpper_iff, ← Bool.not_eq_true, isLower_iff, isDigit_iff] at *
  omega

theorem isLower_kind (h : c.isLower) : c.isUpper = false ∧ c.isDigit = false := by
  simp only [isUpper_iff, ← Bool.not_eq_true, isLower_iff, isDigit_iff] at *
  omega

theorem isDigit_kind (h : c.isDigit) : c.isUpper = false ∧ c.isLower = false := by
  simp only [isUpper_iff, ← Bool.not_eq_true, isLower_iff, isDigit_iff] at *
  omega

theorem length_takeWhile_cons (p : Char → Bool) (d : Char) (cs : List Char) :
    ((d :: cs).takeWhile p).length = if p d then (cs.takeWhile p).length + 1 else 0 := by
  rw [List.takeWhile_cons]
  split <;> rfl

theorem wordRest_of_isLower (h : c.isLower) (cs : List Char) :
    wordRest c cs = (cs.takeWhile Char.isLower).length := by
  rw [wordRest, if_pos h]

theorem wordRest_of_isDigit (h : c.isDigit) (cs : List Char) :
    wordRest c cs = (cs.takeWhile Char.isDigit).length := by
  rw [wordRest, if_neg (by simp [isDigit_kind h]), if_pos h]

/-- Where the characters after a capital are `caps` capitals and then `small` small letters. -/
theorem wordRest_of_isUpper (h : c.isUpper) (cs : List Char) :
    wordRest c cs =
      match ((cs.drop (cs.takeWhile Char.isUpper).length).takeWhile Char.isLower).length with
      | 0 => (cs.takeWhile Char.isUpper).length
      | small + 1 =>
        if (cs.takeWhile Char.isUpper).length = 0 then small + 1
        else (cs.takeWhile Char.isUpper).length - 1 := by
  obtain ⟨hlower, hdigit⟩ := isUpper_kind h
  exact (if_neg (by simp [hlower])).trans (if_neg (by simp [hdigit]))

/-! ### Where words end -/

/-- Whether the word of a character goes on with what stands after it. -/
def joined (c : Char) : List Char → Bool
  | [] => false
  | d :: cs => isWordChar d && !boundary c d cs

theorem joined_cons (h : joined c (d :: cs)) : isWordChar d ∧ boundary c d cs = false := by
  simpa [joined] using h

theorem joined_of_isLower (h : c.isLower) (d : Char) (cs : List Char) :
    joined c (d :: cs) = d.isLower := by
  obtain ⟨hupper, hdigit⟩ := isLower_kind h
  cases hd : d.isLower with
  | true => simp [joined, boundary, isWordChar, hupper, hdigit, hd, isLower_kind hd]
  | false => cases hd' : d.isUpper <;> simp [joined, boundary, isWordChar, isAlpha_eq, h, hd, hd']

theorem joined_of_isDigit (h : c.isDigit) (d : Char) (cs : List Char) :
    joined c (d :: cs) = d.isDigit := by
  obtain ⟨hupper, hlower⟩ := isDigit_kind h
  cases hd : d.isDigit with
  | true => simp [joined, boundary, isWordChar, isAlpha_eq, hupper, hlower, hd, isDigit_kind hd]
  | false =>
    cases hd' : d.isUpper <;> cases hd'' : d.isLower <;>
      simp [joined, boundary, isWordChar, isAlpha_eq, h, hd, hd', hd'']

theorem joined_of_isUpper (h : c.isUpper) (d : Char) (cs : List Char) :
    joined c (d :: cs) = (d.isLower || d.isUpper && !cs.head?.any Char.isLower) := by
  obtain ⟨hlower, hdigit⟩ := isUpper_kind h
  cases hd : d.isDigit with
  | true => simp [joined, boundary, isAlpha_eq, h, hd, isDigit_kind hd]
  | false =>
    cases hd' : d.isUpper with
    | true => simp [joined, boundary, isWordChar, h, hlower, hdigit, hd, hd', isUpper_kind hd']
    | false => simp [joined, boundary, isWordChar, hlower, hdigit, hd, hd']

/-- Capitals leave the last of them to a small letter that follows, one by one as all at once. -/
theorem wordRest_of_capitals (hc : c.isUpper) (hd : d.isUpper) (cs : List Char) :
    wordRest c (d :: cs) = if cs.head?.any Char.isLower then 0 else wordRest d cs + 1 := by
  rw [wordRest_of_isUpper hc, wordRest_of_isUpper hd, length_takeWhile_cons, if_pos hd,
    List.drop_succ_cons]
  cases cs with
  | nil => rfl
  | cons e cs =>
    rw [List.head?_cons, Option.any_some, length_takeWhile_cons]
    cases he : e.isLower with
    | true => simp [isLower_kind he, he]
    | false =>
      cases he' : e.isUpper with
      | true =>
        simp only [if_true, List.drop_succ_cons]
        split <;> simp
      | false => simp [he]

/-- What belongs to a word after its first character, one character at a time. -/
theorem wordRest_cons (h : isWordChar c) (d : Char) (cs : List Char) :
    wordRest c (d :: cs) = if joined c (d :: cs) then wordRest d cs + 1 else 0 := by
  simp only [isWordChar, Bool.or_eq_true] at h
  rcases h with (hupper | hlower) | hdigit
  · rw [joined_of_isUpper hupper]
    cases hd : d.isUpper with
    | true =>
      rw [wordRest_of_capitals hupper hd, (isUpper_kind hd).1]
      cases cs.head?.any Char.isLower <;> rfl
    | false =>
      rw [wordRest_of_isUpper hupper, length_takeWhile_cons, hd]
      cases hd' : d.isLower with
      | true => simp [wordRest_of_isLower hd', hd']
      | false => simp [hd']
  · rw [joined_of_isLower hlower, wordRest_of_isLower hlower, length_takeWhile_cons]
    by_cases hd : d.isLower
    · rw [if_pos hd, if_pos hd, wordRest_of_isLower hd]
    · rw [if_neg hd, if_neg hd]
  · rw [joined_of_isDigit hdigit, wordRest_of_isDigit hdigit, length_takeWhile_cons]
    by_cases hd : d.isDigit
    · rw [if_pos hd, if_pos hd, wordRest_of_isDigit hd]
    · rw [if_neg hd, if_neg hd]

/-- The words of a text that starts with a word character: it goes in front of the first word after it, or is
a word by itself. -/
theorem wordsOf_cons_of_isWordChar (h : isWordChar c) (cs : List Char) :
    wordsOf (c :: cs) =
      if joined c cs then (wordsOf cs).modifyHead (c :: ·) else [c] :: wordsOf cs := by
  rw [wordsOf_cons, if_pos h]
  cases cs with
  | nil => simp [joined]
  | cons d cs =>
    rw [wordRest_cons h]
    by_cases hjoined : joined c (d :: cs)
    · rw [if_pos hjoined, if_pos hjoined, wordsOf_cons d, if_pos (joined_cons hjoined).1]
      rfl
    · rw [if_neg hjoined, if_neg hjoined]
      rfl

theorem wordsOf_cons_of_not_isWordChar (h : ¬ isWordChar c) (cs : List Char) :
    wordsOf (c :: cs) = wordsOf cs := by
  rw [wordsOf_cons, if_neg h]

/-! ### Runs -/

theorem runs_cons_of_not_isWordChar (h : ¬ isWordChar c) (cs : List Char) :
    runs (c :: cs) = runs cs := by
  simp [runs, List.splitOnP_cons_eq_if_modifyHead, h]

/-- A text split at separators starts with the word characters at its start. -/
theorem exists_splitOnP_eq (cs : List Char) :
    ∃ rest, (cs.splitOnP fun c => !isWordChar c) = cs.takeWhile isWordChar :: rest := by
  induction cs with
  | nil => exact ⟨[], by simp⟩
  | cons c cs ih =>
    obtain ⟨rest, hrest⟩ := ih
    rw [List.splitOnP_cons_eq_if_modifyHead, hrest, List.takeWhile_cons]
    cases isWordChar c with
    | true => exact ⟨rest, rfl⟩
    | false => exact ⟨_, rfl⟩

/-- The first run of a text that starts with a word character, and the others, which do not depend on it. -/
theorem exists_runs_eq (cs : List Char) :
    ∃ rest, (runs cs = if cs.takeWhile isWordChar = [] then rest else cs.takeWhile isWordChar :: rest) ∧
      ∀ c, isWordChar c → runs (c :: cs) = (c :: cs.takeWhile isWordChar) :: rest := by
  obtain ⟨rest, hrest⟩ := exists_splitOnP_eq cs
  refine ⟨rest.filter (· ≠ []), ?_, fun c hc => ?_⟩
  · rw [runs, hrest, List.filter_cons]
    split <;> simp_all
  · rw [runs, List.splitOnP_cons_eq_if_modifyHead, hrest]
    simp [hc]

theorem boundary_takeWhile (c d : Char) (cs : List Char) :
    boundary c d (cs.takeWhile isWordChar) = boundary c d cs := by
  have hhead : (cs.takeWhile isWordChar).head?.any Char.isLower = cs.head?.any Char.isLower := by
    cases cs with
    | nil => rfl
    | cons e cs =>
      rw [List.takeWhile_cons]
      cases he : isWordChar e with
      | true => rfl
      | false => simp_all [isWordChar]
  rw [boundary, boundary, hhead]

theorem cut_ne_nil (c : Char) (cs : List Char) : cut (c :: cs) ≠ [] := by
  cases cs with
  | nil => simp [cut]
  | cons d cs =>
    rw [cut]
    split
    · simp
    · simpa using cut_ne_nil d cs

/-- The words of a text are its runs, cut at their boundaries. -/
theorem wordsOf_eq_cut_runs (cs : List Char) : wordsOf cs = (runs cs).flatMap cut := by
  induction cs with
  | nil => rfl
  | cons c cs ih =>
    by_cases hc : isWordChar c
    · obtain ⟨rest, hruns, hcons⟩ := exists_runs_eq cs
      rw [wordsOf_cons_of_isWordChar hc, hcons c hc, ih, hruns]
      cases cs with
      | nil => simp [joined, cut]
      | cons d cs =>
        rw [List.takeWhile_cons]
        cases hd : isWordChar d with
        | false => simp [joined, hd, cut]
        | true =>
          simp only [if_true, reduceCtorEq, if_false, List.flatMap_cons, cut, boundary_takeWhile]
          cases hboundary : boundary c d cs with
          | true => simp [joined, hd, hboundary]
          | false =>
            obtain ⟨w, ws, hcut⟩ :=
              List.exists_cons_of_ne_nil (cut_ne_nil d (cs.takeWhile isWordChar))
            simp [joined, hd, hboundary, hcut]
    · rw [wordsOf_cons_of_not_isWordChar hc, runs_cons_of_not_isWordChar hc, ih]

/-! ### Characters of words -/

/-- The words of a text hold its word characters, in order. -/
theorem flatten_wordsOf (cs : List Char) : (wordsOf cs).flatten = cs.filter isWordChar := by
  induction cs with
  | nil => rfl
  | cons c cs ih =>
    by_cases hc : isWordChar c
    · rw [wordsOf_cons_of_isWordChar hc, List.filter_cons_of_pos hc, ← ih]
      by_cases hjoined : joined c cs
      · rw [if_pos hjoined]
        cases cs with
        | nil => cases hjoined
        | cons d cs =>
          rw [wordsOf_cons, if_pos (joined_cons hjoined).1]
          rfl
      · rw [if_neg hjoined]
        rfl
    · rw [wordsOf_cons_of_not_isWordChar hc, List.filter_cons_of_neg hc, ih]

/-- Letters, or digits, and not both. -/
def OneKind (w : List Char) : Prop := (∀ c ∈ w, c.isAlpha) ∨ ∀ c ∈ w, c.isDigit

theorem oneKind_cons_cons (hc : isWordChar c) (hboundary : boundary c d cs = false) {w : List Char}
    (hw : OneKind (d :: w)) : OneKind (c :: d :: w) := by
  have hkind : c.isAlpha ∨ c.isDigit := by simpa [isWordChar, isAlpha_eq] using hc
  simp only [boundary, Bool.or_eq_false_iff, Bool.and_eq_false_iff] at hboundary
  refine hw.imp (fun h => ?_) fun h => ?_
  · have hd := (List.forall_mem_cons.mp h).1
    exact List.forall_mem_cons.mpr ⟨hkind.resolve_right (by simp_all), h⟩
  · have hd := (List.forall_mem_cons.mp h).1
    exact List.forall_mem_cons.mpr ⟨hkind.resolve_left (by simp_all), h⟩

/-- A word is of one kind. -/
theorem wordsOf_oneKind (cs : List Char) : ∀ w ∈ wordsOf cs, w ≠ [] ∧ OneKind w := by
  induction cs with
  | nil => simp
  | cons c cs ih =>
    by_cases hc : isWordChar c
    · rw [wordsOf_cons_of_isWordChar hc]
      by_cases hjoined : joined c cs
      · rw [if_pos hjoined]
        cases cs with
        | nil => cases hjoined
        | cons d cs =>
          obtain ⟨hd, hboundary⟩ := joined_cons hjoined
          rw [wordsOf_cons, if_pos hd] at ih ⊢
          obtain ⟨hw, hws⟩ := List.forall_mem_cons.mp ih
          exact List.forall_mem_cons.mpr ⟨⟨by simp, oneKind_cons_cons hc hboundary hw.2⟩, hws⟩
      · rw [if_neg hjoined]
        refine List.forall_mem_cons.mpr ⟨⟨by simp, ?_⟩, ih⟩
        simpa [OneKind, isWordChar, isAlpha_eq] using hc
    · rw [wordsOf_cons_of_not_isWordChar hc]
      exact ih

end ApiRecords.Text
