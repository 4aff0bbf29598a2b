import ApiRecords.Proofs.Objects.Parsing
import ApiRecords.Proofs.Objects.Words

/-!
Names and numbers among the tokens. A name has the characters of names, a number is written as numbers are
shown. So a text without its quotes is the name or the number that it is in quotes just when it is a name
of 16-bit characters, or a number written as it is shown.
-/

namespace ApiRecords.ObjectNotation

open Text

variable {chars : NameChars} {l l' : Lexing} {ts : List Token} {c : Char}

/-! ### Numbers as they are shown -/

/-- Characters of numbers. -/
def IsShown (cs : List Char) : Prop := ∀ c ∈ cs, c.toNat < 127 ∧ isClean asciiNames c

theorem isShown_toDigits (n : Nat) : IsShown (Nat.toDigits 10 n) := fun c hc => by
  have hc : c.isDigit := Nat.isDigit_of_mem_toDigits (by decide) (by decide) hc
  have h9 : '9'.toNat = 57 := rfl
  have hle := (Char.isDigit_iff_toNat.mp hc).2
  exact ⟨by omega, by simp [isClean, asciiNames, hc]⟩

theorem isShown_significantDigits (n : Nat) : IsShown (significantDigits n) := fun c hc =>
  isShown_toDigits n c (List.mem_reverse.mp ((List.dropWhile_sublist _).mem (List.mem_reverse.mp hc)))

theorem isShown_shownDigits {digits : List Char} (h : IsShown digits) (leading : Int) :
    IsShown (shownDigits digits leading) := by
  intro c hc
  have hsign : IsShown ['0', '.', 'e', '-', '+'] := forall_of_all (by decide)
  unfold shownDigits at hc
  split at hc
  · simp only [List.mem_append, List.mem_replicate] at hc
    rcases hc with hc | ⟨-, rfl⟩
    · exact h c hc
    · exact hsign _ (by decide)
  · split at hc
    · simp only [List.mem_append, List.mem_cons] at hc
      rcases hc with hc | rfl | hc
      · exact h c (List.mem_of_mem_take hc)
      · exact hsign _ (by decide)
      · exact h c (List.mem_of_mem_drop hc)
    · split at hc
      · simp only [List.cons_append, List.mem_append, List.mem_cons, List.mem_replicate] at hc
        rcases hc with rfl | rfl | ⟨-, rfl⟩ | hc
        · exact hsign _ (by decide)
        · exact hsign _ (by decide)
        · exact hsign _ (by decide)
        · exact h c hc
      · simp only [List.mem_append, List.mem_cons] at hc
        rcases hc with (hc | hc) | rfl | rfl | hc
        · exact h c (List.mem_of_mem_take hc)
        · split at hc
          · cases hc
          · rcases List.mem_cons.mp hc with rfl | hc
            · exact hsign _ (by decide)
            · exact h c (List.mem_of_mem_drop hc)
        · exact hsign _ (by decide)
        · split <;> exact hsign _ (by decide)
        · exact isShown_toDigits _ c hc

theorem isShown_numberName (x : Double) : IsShown (numberName x).toList := by
  unfold numberName
  split
  · exact forall_of_all (by decide)
  · exact forall_of_all (by decide)
  · split
    · exact forall_of_all (by decide)
    · simpa using isShown_shownDigits (isShown_significantDigits _) _

theorem IsShown.clean {s : String} (h : IsShown s.toList) : Clean chars s := fun c hc => by
  obtain ⟨hascii, hclean⟩ := h c hc
  rw [isClean_ascii (by omega)]
  exact hclean

/-- Characters of numbers stand for themselves. -/
theorem bare_of_isShown {s : String} (h : IsShown s.toList) : bare s = s.toList := by
  have hself : ∀ c ∈ s.toList, bareChar c = [c] := fun c hc => by
    obtain ⟨hascii, hclean⟩ := h c hc
    obtain ⟨hquote, hbackslash, hcontrol⟩ := plain_of_isClean hclean
    have hb := bareChar_cases c
    generalize bareChar c = cs at hb
    cases hb with
    | quote hc => exact absurd hc hquote
    | backslash hc => exact absurd hc hbackslash
    | self => rfl
    | _ => omega
  rw [bare, List.flatMap_def, List.map_congr_left hself, ← List.flatMap_def, List.flatMap_singleton']

/-! ### The tokens of any text -/

theorem clean_of_spellName {s : String} (h : chars.spellName s.toList) : Clean chars s := by
  intro c hc
  unfold NameChars.spellName at h
  split at h
  · cases h
  · next d ds hs =>
    simp only [Bool.and_eq_true, List.all_eq_true] at h
    rw [hs] at hc
    rcases List.mem_cons.mp hc with rfl | hc
    · exact isClean_of_part (chars.part_of_start _ h.1)
    · exact isClean_of_part (h.2 c hc)

theorem spellName_append {cs : List Char} (h : chars.spellName cs) (hc : chars.part c) :
    chars.spellName (cs ++ [c]) := by
  cases cs with
  | nil => cases h
  | cons d ds =>
    simp only [NameChars.spellName, Bool.and_eq_true, List.all_eq_true] at h
    simpa [NameChars.spellName, h.1, hc] using h.2

/-- A name that has been begun is one so far. -/
def Lexing.Spelled (chars : NameChars) : Lexing → Prop
  | .name read => chars.spellName read
  | .nameEscape read _ => read = [] ∨ chars.spellName read
  | _ => True

/-- A token with the text of a name is one, and a number has a text as numbers are shown. -/
def Token.Spelled (chars : NameChars) : Token → Prop
  | .name s => chars.spellName s.toList
  | .number s => IsShown s.toList
  | _ => True

theorem spelled_finish (hl : l.Spelled chars) (h : finish l = some ts) : ∀ tok ∈ ts, tok.Spelled chars := by
  cases l with
  | name read =>
    cases h
    simpa [Token.Spelled, Lexing.Spelled] using hl
  | number read =>
    obtain ⟨x, -, rfl⟩ := Option.map_eq_some_iff.mp h
    simpa [Token.Spelled] using isShown_numberName x
  | between => cases h; simp
  | line => cases h; simp
  | _ => cases h

theorem spelled_start (h : start chars c = some (ts, l')) :
    (∀ tok ∈ ts, tok.Spelled chars) ∧ l'.Spelled chars := by
  unfold start at h
  iterate 6
    split at h
    · cases h
      simp [Token.Spelled, Lexing.Spelled]
  split at h
  · next hc =>
    cases h
    simpa [Lexing.Spelled, NameChars.spellName] using hc
  · cases h

theorem spelled_finishAt (hl : l.Spelled chars) (h : finishAt chars l c = some (ts, l')) :
    (∀ tok ∈ ts, tok.Spelled chars) ∧ l'.Spelled chars := by
  obtain ⟨us, hus, h⟩ := Option.bind_eq_some_iff.mp h
  obtain ⟨r, hstart, h⟩ := Option.map_eq_some_iff.mp h
  cases h
  obtain ⟨hr, hl'⟩ := spelled_start hstart
  exact ⟨List.forall_mem_append.mpr ⟨spelled_finish hl hus, hr⟩, hl'⟩

theorem spelled_extended {quote : Char} {units : List Nat}
    (h : extended quote units c = some (ts, l')) :
    (∀ tok ∈ ts, tok.Spelled chars) ∧ l'.Spelled chars := by
  unfold extended at h
  split at h
  · cases h
    simp [Token.Spelled, Lexing.Spelled]
  · split at h
    · cases h
      simp [Lexing.Spelled]
    · split at h <;> cases h
      simp [Lexing.Spelled]

theorem spelled_addToName {read : List Char} {n : Nat} (hread : read = [] ∨ chars.spellName read)
    (h : addToName chars read n = some l') : l'.Spelled chars := by
  simp only [addToName, Option.ite_none_right_eq_some] at h
  obtain ⟨⟨-, hc⟩, h⟩ := h
  cases h
  split at hc
  · next hnil =>
    subst hnil
    simpa [Lexing.Spelled, NameChars.spellName] using hc
  · next hne => exact spellName_append (hread.resolve_left hne) hc

theorem spelled_next (hl : l.Spelled chars) (h : next chars l c = some (ts, l')) :
    (∀ tok ∈ ts, tok.Spelled chars) ∧ l'.Spelled chars := by
  cases advance_of_next h with
  | start h => exact spelled_start h
  | outside h => cases l' <;> first | exact ⟨by simp, trivial⟩ | cases h
  | name hpart => exact ⟨by simp, spellName_append hl hpart⟩
  | nameBackslash => exact ⟨by simp, .inr hl⟩
  | nameEscape => exact ⟨by simp, hl⟩
  | addToName hadd => exact ⟨by simp, spelled_addToName hl hadd⟩
  | finishAt h => exact spelled_finishAt hl h
  | text h | textZero h => exact spelled_extended h
  | escaped hescaped =>
    unfold escaped at hescaped
    refine ⟨by simp, ?_⟩
    repeat' split at hescaped
    all_goals cases hescaped <;> trivial
  | number | textEscape | unit => exact ⟨by simp, trivial⟩

theorem spelled_run {cs : List Char} (hl : l.Spelled chars) (h : run chars l cs = some (ts, l')) :
    (∀ tok ∈ ts, tok.Spelled chars) ∧ l'.Spelled chars := by
  induction cs generalizing l ts with
  | nil =>
    cases h
    exact ⟨by simp, hl⟩
  | cons c cs ih =>
    obtain ⟨us, l₁, vs, hnext, hrun, rfl⟩ := run_cons_eq_some.mp h
    obtain ⟨hus, hl₁⟩ := spelled_next hl hnext
    obtain ⟨hvs, hl'⟩ := ih hl₁ hrun
    exact ⟨List.forall_mem_append.mpr ⟨hus, hvs⟩, hl'⟩

/-- The names and the numbers of a text are spelled so, whatever the text is. -/
theorem spelled_tokens {cs : List Char} (h : tokens chars cs = some ts) :
    ∀ tok ∈ ts, tok.Spelled chars := by
  obtain ⟨⟨us, l⟩, hrun, h⟩ := Option.bind_eq_some_iff.mp h
  obtain ⟨vs, hvs, rfl⟩ := Option.map_eq_some_iff.mp h
  have hbetween : Lexing.between.Spelled chars := trivial
  obtain ⟨hus, hl⟩ := spelled_run hbetween hrun
  exact List.forall_mem_append.mpr ⟨hus, spelled_finish hl hvs⟩

/-! ### Texts that are names or numbers -/

section

variable (chars : NameChars) (s : String)

/-- Whether a text is a name of 16-bit characters. -/
def isName : Bool := chars.spellName s.toList && s.toList.all (·.toNat < 0x10000)

/-- Whether a text is a number, written as it is shown. -/
def isNumber : Bool := tokens chars s.toList = some [.number s]

/-- Whether a text is the same key with its quotes and without. -/
def isKey : Bool := isName chars s || isNumber chars s

/-- Whether a text is the name of a variable. -/
def isLeaf : Bool := isName chars s && s ∉ reserved

end

theorem addToName_toNat (read : List Char)
    (h : (if read = [] then chars.start c else chars.part c : Bool)) :
    addToName chars read c.toNat = some (.name (read ++ [c])) := by
  have hvalid : c.toNat.isValidChar := c.valid
  simp only [addToName, Char.ofNat_toNat, hvalid, true_and]
  exact if_pos h

/-- A character of 16 bits as the next of a name. -/
theorem run_bareChar_name (read : List Char) (hsmall : c.toNat < 0x10000)
    (hpart : (if read = [] then chars.start c else chars.part c : Bool))
    (hself : c ≠ '\\' → c.toNat < 127 → next chars l c = some ([], .name (read ++ [c])))
    (hescape : next chars l '\\' = some ([], .nameEscape read .start)) :
    run chars l (bareChar c) = some ([], .name (read ++ [c])) := by
  have hclean : isClean chars c := by
    split at hpart
    · exact isClean_of_part (chars.part_of_start c hpart)
    · exact isClean_of_part hpart
  obtain ⟨hquote, hbackslash, hcontrol⟩ := plain_of_isClean hclean
  have hc := bareChar_cases c
  generalize bareChar c = cs at hc
  cases hc with
  | quote hc => exact absurd hc hquote
  | backslash hc => exact absurd hc hbackslash
  | letter hc => omega
  | code =>
    rw [run_cons hescape, run_nameEscape chars hsmall, addToName_toNat read hpart]
    rfl
  | codes => omega
  | self hc => rw [run_singleton, hself hbackslash hc.2]

theorem run_name {cs read : List Char} (hsmall : ∀ c ∈ cs, c.toNat < 0x10000) (hread : read ≠ [])
    (hpart : ∀ c ∈ cs, chars.part c) :
    run chars (.name read) (cs.flatMap bareChar) = some ([], .name (read ++ cs)) := by
  induction cs generalizing read with
  | nil => simp [run]
  | cons c cs ih =>
    obtain ⟨hc, hcs⟩ := List.forall_mem_cons.mp hpart
    obtain ⟨hsmallc, hsmallcs⟩ := List.forall_mem_cons.mp hsmall
    have hfirst : run chars (.name read) (bareChar c) = some ([], .name (read ++ [c])) :=
      run_bareChar_name read hsmallc (by rwa [if_neg hread])
        (fun hne _ => by rw [next, if_neg hne, if_pos hc]) (by rw [next, if_pos rfl])
    have hrest := ih hsmallcs (List.append_ne_nil_of_right_ne_nil read (List.cons_ne_nil c [])) hcs
    rw [List.flatMap_cons, run_append, hfirst]
    simp [hrest]

theorem tokens_bare_name_iff {s : String} :
    tokens chars (bare s) = some [.name s] ↔ isName chars s := by
  simp only [isName, Bool.and_eq_true, List.all_eq_true, decide_eq_true_eq]
  constructor
  · intro h
    have hs : chars.spellName s.toList := spelled_tokens h _ List.mem_cons_self
    exact ⟨hs, (tokens_of_clean (clean_of_spellName hs) h).1⟩
  · rintro ⟨hs, hsmall⟩
    unfold NameChars.spellName at hs
    split at hs
    · cases hs
    · next c cs hcs =>
      rw [hcs] at hsmall
      simp only [Bool.and_eq_true, List.all_eq_true] at hs
      obtain ⟨hsmallc, hsmallcs⟩ := List.forall_mem_cons.mp hsmall
      have hstart (hascii : c.toNat < 127) : start chars c = some ([], .name [c]) := by
        have hc := hs.1
        rw [ObjectNotation.start_ascii (by omega)] at hc
        rw [start_eq_ascii (by omega)]
        exact of_ascii (P := fun c => asciiNames.start c → start asciiNames c = some ([], .name [c]))
          (by decide +kernel) (by omega) hc
      have hfirst : run chars .between (bareChar c) = some ([], .name [c]) :=
        run_bareChar_name [] hsmallc hs.1 (fun _ hascii => hstart hascii) start_backslash
      have hrun : run chars .between (bare s) = some ([], .name s.toList) := by
        have hrest := run_name hsmallcs (List.cons_ne_nil c []) hs.2
        rw [bare, hcs, List.flatMap_cons, run_append, hfirst]
        simp [hrest]
      simp [tokens, tokensFrom, hrun, finish]

theorem tokens_bare_number_iff {s : String} :
    tokens chars (bare s) = some [.number s] ↔ isNumber chars s := by
  rw [isNumber, decide_eq_true_eq]
  constructor
  · intro h
    have hs : IsShown s.toList := spelled_tokens h _ List.mem_cons_self
    rwa [bare_of_isShown hs] at h
  · intro h
    have hs : IsShown s.toList := spelled_tokens h _ List.mem_cons_self
    rwa [bare_of_isShown hs]

/-- What is put after a name adds nothing to the question whether it is one. -/
theorem isName_append {s t : String} (hs : s ≠ "")
    (ht : ∀ c ∈ t.toList, chars.part c ∧ c.toNat < 0x10000) :
    isName chars (s ++ t) = isName chars s := by
  have hparts : t.toList.all chars.part := List.all_eq_true.mpr fun c hc => (ht c hc).1
  have hsmall : t.toList.all (·.toNat < 0x10000) := by simpa using fun c hc => (ht c hc).2
  have hne : s.toList ≠ [] := mt String.toList_eq_nil_iff.mp hs
  obtain ⟨c, cs, hcs⟩ := List.exists_cons_of_ne_nil hne
  rw [isName, isName, String.toList_append, List.all_append, hsmall, Bool.and_true, hcs,
    List.cons_append, NameChars.spellName, NameChars.spellName, List.all_append, hparts, Bool.and_true]

end ApiRecords.ObjectNotation
