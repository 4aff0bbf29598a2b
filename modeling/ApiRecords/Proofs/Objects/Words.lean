import ApiRecords.Document.Json.Writer
import ApiRecords.Proofs.Objects.Lexing

/-!
Texts that stand in a literal without quotes. JSON escapes stay, the quotes go, and what is left is cut
into tokens like everything around it. A text of the characters that names and numbers have is cut by
itself: what follows has no part in its tokens.
-/

namespace ApiRecords

/-! ### Digits of an escape -/

namespace Text

theorem hexValue?_hexDigit : ∀ d < 16, hexValue? (hexDigit d) = some d := by decide

theorem hexDigit_ne : ∀ d < 16, hexDigit d ≠ '\x7b' ∧ hexDigit d ≠ '"' := by decide

theorem hex_four (n : Nat) :
    hex 4 n = [hexDigit (n / 0x1000 % 16), hexDigit (n / 0x100 % 16), hexDigit (n / 0x10 % 16),
      hexDigit (n % 16)] := by
  simp [hex, Nat.div_div_eq_div_mul]

end Text

namespace ObjectNotation

open Text

/-- The code of an escape is put together from its digits. -/
theorem value_hex_four {n : Nat} (h : n < 0x10000) :
    16 * (16 * (16 * (n / 0x1000 % 16) + n / 0x100 % 16) + n / 0x10 % 16) + n % 16 = n := by
  omega

section

variable (chars : NameChars) {n : Nat}

theorem run_nameEscape (h : n < 0x10000) (read : List Char) :
    run chars (.nameEscape read .start) ('u' :: hex 4 n) = (addToName chars read n).map ([], ·) := by
  have hdigit := fun k => hexValue?_hexDigit (k % 16) (Nat.mod_lt _ (by decide))
  have hne := fun k => (hexDigit_ne (k % 16) (Nat.mod_lt _ (by decide))).1
  simp only [hex_four, run, next, Escape.next, hdigit, hne, false_and, if_true, if_false, Option.bind_some,
    Option.map_some, Nat.mul_zero, Nat.zero_add, Nat.reduceAdd, Nat.reduceEqDiff, after_nil, Option.map_id,
    value_hex_four h]
  cases addToName chars read n <;> simp [after]

theorem run_textEscape (h : n < 0x10000) (quote : Char) (units : List Nat) :
    run chars (.textEscape quote units .start) ('u' :: hex 4 n) = some ([], .text quote (units ++ [n])) := by
  have hdigit := fun k => hexValue?_hexDigit (k % 16) (Nat.mod_lt _ (by decide))
  have hne := fun k => (hexDigit_ne (k % 16) (Nat.mod_lt _ (by decide))).1
  simp [hex_four, run, next, escaped, Escape.next, hdigit, hne, value_hex_four h, unitsOf, h]

end

/-! ### Texts without their quotes -/

def bareChar (c : Char) : List Char := (Json.escapeChar true c).filter (· ≠ '"')

/-- A text as JSON has it, without any quotes. -/
def bare (s : String) : List Char := s.toList.flatMap bareChar

/-- What a character becomes. -/
inductive BareChar (c : Char) : List Char → Prop
  | quote (h : c = '"') : BareChar c ['\\']
  | backslash (h : c = '\\') : BareChar c ['\\', '\\']
  | letter (h : c.toNat < 0x20) {d : Char} (hd : d ∈ ['n', 'r', 't', 'b', 'f']) : BareChar c ['\\', d]
  | code (h : c.toNat < 0x20 ∨ 0x7f ≤ c.toNat) (hsmall : c.toNat < 0x10000) :
    BareChar c ('\\' :: 'u' :: hex 4 c.toNat)
  | codes (h : 0x10000 ≤ c.toNat) {high low : Nat} (hhigh : 0xd800 ≤ high ∧ high < 0xdc00)
    (hlow : 0xdc00 ≤ low ∧ low < 0xe000) :
    BareChar c ('\\' :: 'u' :: hex 4 high ++ '\\' :: 'u' :: hex 4 low)
  | self (h : 0x20 ≤ c.toNat ∧ c.toNat < 0x7f) (hquote : c ≠ '"') (hbackslash : c ≠ '\\') : BareChar c [c]

theorem toNat_lt (c : Char) : c.toNat < 0x110000 := by
  have h := c.valid
  simp only [UInt32.isValidChar, Nat.isValidChar] at h
  change c.val.toNat < 0x110000
  omega

theorem filter_hex (n : Nat) : (hex 4 n).filter (fun d => !decide (d = '"')) = hex 4 n := by
  have hne := fun k => (hexDigit_ne (k % 16) (Nat.mod_lt _ (by decide))).2
  simp [hex_four, hne]

theorem bareChar_cases (c : Char) : BareChar c (bareChar c) := by
  unfold bareChar Json.escapeChar
  split
  · next h =>
    rcases h with rfl | rfl
    · exact .quote rfl
    · exact .backslash rfl
  · next h =>
    obtain ⟨hquote, hbackslash⟩ := not_or.mp h
    iterate 5
      split
      · next h => subst h; exact .letter (by decide) (by decide)
    split
    · next h =>
      unfold Json.unicodeEscape
      have hlt := toNat_lt c
      simp only
      split
      · next hsmall =>
        simpa [filter_hex] using BareChar.code (h.imp_right And.right) hsmall
      · next hlarge =>
        have hhigh : 0xd800 ≤ 0xd800 + (c.toNat - 0x10000) / 0x400 ∧
            0xd800 + (c.toNat - 0x10000) / 0x400 < 0xdc00 := by omega
        have hlow : 0xdc00 ≤ 0xdc00 + (c.toNat - 0x10000) % 0x400 ∧
            0xdc00 + (c.toNat - 0x10000) % 0x400 < 0xe000 := by omega
        simpa [filter_hex] using BareChar.codes (Nat.not_lt.mp hlarge) hhigh hlow
    · next h =>
      have h : 0x20 ≤ c.toNat ∧ c.toNat < 0x7f := by simpa using h
      simpa [hquote] using BareChar.self h hquote hbackslash

/-! ### Characters of names and numbers -/

/-- Whether a token is a name or a number. -/
def Token.isWord : Token → Bool
  | .name _ | .number _ => true
  | _ => false

/-- Whether a text is in the middle of a name or of a number. -/
def Lexing.inWord : Lexing → Bool
  | .name _ | .number _ => true
  | _ => false

section

variable (chars : NameChars)

/-- Whether a character can be one of a name or of a number. -/
def isClean (c : Char) : Bool := chars.part c || c = '.' || c = '+' || c = '-'

def Clean (s : String) : Prop := ∀ c ∈ s.toList, isClean chars c

end

variable {chars : NameChars} {l l' : Lexing} {ts : List Token} {c : Char}

theorem forall_of_all {cs : List Char} {P : Char → Prop} [DecidablePred P]
    (h : cs.all fun c => decide (P c)) : ∀ c ∈ cs, P c := by
  simpa using h

theorem of_ascii {P : Char → Prop} (h : ∀ n < 128, P (Char.ofNat n)) (hc : c.toNat < 128) : P c :=
  Char.ofNat_toNat c ▸ h _ hc

theorem start_ascii (hc : c.toNat < 128) : chars.start c = asciiNames.start c :=
  chars.start_ascii c hc

theorem part_ascii (hc : c.toNat < 128) : chars.part c = asciiNames.part c := by
  rw [chars.part_ascii c hc, start_ascii hc, asciiNames.part_ascii c hc]

theorem isClean_ascii (hc : c.toNat < 128) : isClean chars c = isClean asciiNames c := by
  rw [isClean, isClean, part_ascii hc]

theorem start_eq_ascii (hc : c.toNat < 128) : start chars c = start asciiNames c := by
  rw [start, start, start_ascii hc]

theorem start_of_isClean (hc : c.toNat < 128) (hclean : isClean chars c)
    (h : start chars c = some (ts, l')) : ts = [] ∧ l'.inWord := by
  have hall : isClean asciiNames c → (start asciiNames c).all fun r => r.1 = [] && r.2.inWord :=
    of_ascii (P := fun c => isClean asciiNames c →
      (start asciiNames c).all fun r => r.1 = [] && r.2.inWord) (by decide +kernel) hc
  rw [← isClean_ascii hc, ← start_eq_ascii hc, h] at hall
  simpa using hall hclean

theorem start_backslash : start chars '\\' = some ([], .nameEscape [] .start) := by
  rw [start_eq_ascii (by decide)]
  rfl

theorem isClean_of_part (h : chars.part c) : isClean chars c := by simp [isClean, h]

theorem plain_of_isClean (h : isClean chars c) : c ≠ '"' ∧ c ≠ '\\' ∧ 0x20 ≤ c.toNat := by
  by_cases hc : c.toNat < 128
  · rw [isClean_ascii hc] at h
    exact of_ascii (P := fun c => isClean asciiNames c → c ≠ '"' ∧ c ≠ '\\' ∧ 0x20 ≤ c.toNat)
      (by decide +kernel) hc h
  · refine ⟨?_, ?_, by omega⟩ <;>
    · rintro rfl
      exact hc (by decide)

theorem finish_of_inWord (hl : l.inWord) (h : finish l = some ts) : ∃ tok, tok.isWord ∧ ts = [tok] := by
  cases l with
  | name read => exact ⟨_, rfl, (Option.some.inj h).symm⟩
  | number read =>
    obtain ⟨x, -, rfl⟩ := Option.map_eq_some_iff.mp h
    exact ⟨_, rfl, rfl⟩
  | _ => cases hl

theorem next_of_isClean (hc : c.toNat < 128) (hclean : isClean chars c) (hl : l = .between ∨ l.inWord)
    (h : next chars l c = some (ts, l')) : (∀ tok ∈ ts, tok.isWord) ∧ l'.inWord := by
  have hend (hl : l.inWord) (h : finishAt chars l c = some (ts, l')) :
      (∀ tok ∈ ts, tok.isWord) ∧ l'.inWord := by
    obtain ⟨us, hus, h⟩ := Option.bind_eq_some_iff.mp h
    obtain ⟨⟨vs, l₁⟩, hstart, h⟩ := Option.map_eq_some_iff.mp h
    obtain ⟨rfl, hl₁⟩ := start_of_isClean hc hclean hstart
    obtain ⟨tok, htok, rfl⟩ := finish_of_inWord hl hus
    cases h
    exact ⟨by simpa using htok, hl₁⟩
  have hbackslash := (plain_of_isClean hclean).2.1
  cases l with
  | between =>
    obtain ⟨rfl, hl'⟩ := start_of_isClean hc hclean h
    exact ⟨by simp, hl'⟩
  | name read =>
    rw [next, if_neg hbackslash] at h
    split at h
    · cases h
      exact ⟨by simp, rfl⟩
    · exact hend rfl h
  | number read =>
    rw [next] at h
    split at h
    · cases h
      exact ⟨by simp, rfl⟩
    · split at h
      · cases h
      · exact hend rfl h
  | _ => simp [Lexing.inWord] at hl

/-- An escape in a name, or where a name may begin. -/
theorem run_escape {n : Nat} (hn : n < 0x10000) (hl : l = .between ∨ l.inWord)
    (h : run chars l ('\\' :: 'u' :: hex 4 n) = some (ts, l')) :
    n.isValidChar ∧ ts = [] ∧ l'.inWord := by
  have hadd {read : List Char} (hnext : next chars l '\\' = some ([], .nameEscape read .start)) :
      n.isValidChar ∧ ts = [] ∧ l'.inWord := by
    rw [run_cons hnext, run_nameEscape chars hn] at h
    obtain ⟨r, hr, h⟩ := Option.map_eq_some_iff.mp h
    obtain ⟨l₁, hl₁, rfl⟩ := Option.map_eq_some_iff.mp hr
    cases h
    simp only [addToName, Option.ite_none_right_eq_some] at hl₁
    obtain ⟨⟨hvalid, -⟩, hl₁⟩ := hl₁
    cases hl₁
    exact ⟨hvalid, rfl, rfl⟩
  cases l with
  | between => exact hadd start_backslash
  | name read => exact hadd (by rw [next, if_pos rfl])
  | number read =>
    have hnone : next chars (.number read) '\\' = none := by
      rw [next, if_neg (by simp [continuesNumber]), if_pos (.inl rfl)]
    rw [run, hnone] at h
    cases h
  | _ => simp [Lexing.inWord] at hl

theorem run_bareChar (hclean : isClean chars c) (hl : l = .between ∨ l.inWord)
    (h : run chars l (bareChar c) = some (ts, l')) :
    c.toNat < 0x10000 ∧ (∀ tok ∈ ts, tok.isWord) ∧ l'.inWord := by
  obtain ⟨hquote, hbackslash, hcontrol⟩ := plain_of_isClean hclean
  have hc := bareChar_cases c
  generalize bareChar c = cs at h hc
  cases hc with
  | quote hc => exact absurd hc hquote
  | backslash hc => exact absurd hc hbackslash
  | letter hc => omega
  | code _ hsmall =>
    obtain ⟨-, rfl, hl'⟩ := run_escape hsmall hl h
    exact ⟨hsmall, by simp, hl'⟩
  | codes _ hhigh =>
    -- a half of a character is no character of a name
    obtain ⟨_, _, _, h, -, -⟩ := run_append_eq_some.mp h
    obtain ⟨hvalid, -, -⟩ := run_escape (by omega) hl h
    simp only [Nat.isValidChar] at hvalid
    omega
  | self hc =>
    rw [run_singleton] at h
    exact ⟨by omega, next_of_isClean (by omega) hclean hl h⟩

/-- A text of such characters that can be read has none beyond 16 bits. Each of its tokens is a name or a
number, and the last of them goes on to its end. -/
theorem run_clean {cs : List Char} (hclean : ∀ c ∈ cs, isClean chars c) (hl : l = .between ∨ l.inWord)
    (h : run chars l (cs.flatMap bareChar) = some (ts, l')) :
    (∀ c ∈ cs, c.toNat < 0x10000) ∧ (∀ tok ∈ ts, tok.isWord) ∧ (cs = [] ∧ l' = l ∨ l'.inWord) := by
  induction cs generalizing l ts with
  | nil =>
    cases h
    exact ⟨by simp, by simp, .inl ⟨rfl, rfl⟩⟩
  | cons c cs ih =>
    obtain ⟨us, l₁, vs, hus, hvs, rfl⟩ := run_append_eq_some.mp h
    obtain ⟨hc, husWord, hl₁⟩ := run_bareChar (hclean c List.mem_cons_self) hl hus
    obtain ⟨hcs, hvsWord, hl'⟩ := ih (fun d hd => hclean d (List.mem_cons_of_mem _ hd)) (.inr hl₁) hvs
    refine ⟨List.forall_mem_cons.mpr ⟨hc, hcs⟩, List.forall_mem_append.mpr ⟨husWord, hvsWord⟩, .inr ?_⟩
    rcases hl' with ⟨-, rfl⟩ | hl'
    · exact hl₁
    · exact hl'

/-! ### What follows a text -/

/-- Whether a text goes on as a literal does after a key or a leaf. -/
def Ends (cs : List Char) : Prop := ∀ c ∈ cs.head?, c ∈ [':', ',', '\n']

theorem next_of_mem (hc : c ∈ [':', ',', '\n']) (hl : l = .between ∨ l.inWord) :
    next chars l c = finishAt chars l c := by
  have hascii : c.toNat < 128 := (forall_of_all (by decide) : ∀ c ∈ [':', ',', '\n'], c.toNat < 128) c hc
  have hpart : chars.part c = false := by
    rw [part_ascii hascii]
    exact (forall_of_all (by decide) : ∀ c ∈ [':', ',', '\n'], asciiNames.part c = false) c hc
  have hstart : chars.start c = false :=
    Bool.eq_false_iff.mpr fun h => by simp [chars.part_of_start c h] at hpart
  have hne : c ≠ '\\' := (forall_of_all (by decide) : ∀ c ∈ [':', ',', '\n'], c ≠ '\\') c hc
  cases l with
  | between =>
    cases h : start chars c <;> simp [next, finishAt, finish, h]
  | name read => rw [next, if_neg hne, if_neg (by simp [hpart])]
  | number read =>
    have hcontinues : continuesNumber read c = false := by
      simp only [List.mem_cons, List.not_mem_nil, or_false] at hc
      rcases hc with rfl | rfl | rfl <;> rfl
    rw [next, hcontinues, if_neg (by simp), if_neg (by simp [hne, hstart])]
  | _ => simp [Lexing.inWord] at hl

theorem tokensFrom_of_ends {rest : List Char} (hrest : Ends rest) (hl : l = .between ∨ l.inWord) :
    tokensFrom chars l rest =
      (finish l).bind fun ts => (tokensFrom chars .between rest).map (ts ++ ·) := by
  cases rest with
  | nil =>
    have hbetween : finish .between = some [] := rfl
    cases h : finish l <;> simp [h, hbetween]
  | cons c rest =>
    have hc := hrest c rfl
    rw [tokensFrom, run, next_of_mem hc hl, finishAt, tokensFrom, run, next]
    cases finish l with
    | none => rfl
    | some ts =>
      cases start chars c with
      | none => rfl
      | some r =>
        simp only [Option.bind_some, Option.map_some, after]
        cases run chars r.2 rest with
        | none => rfl
        | some r' => cases h : finish r'.2 <;> simp [after, h]

/-- The tokens of a text end where the literal goes on. -/
theorem tokensFrom_bare {s : String} (hs : Clean chars s) {rest : List Char} (hrest : Ends rest) :
    tokensFrom chars .between (bare s ++ rest) =
      (tokens chars (bare s)).bind fun ts => (tokensFrom chars .between rest).map (ts ++ ·) := by
  rw [tokensFrom_append, tokens, tokensFrom]
  cases h : run chars .between (bare s) with
  | none => rfl
  | some r =>
    have hl : r.2 = .between ∨ r.2.inWord := (run_clean hs (.inl rfl) h).2.2.imp_left And.right
    simp only [Option.bind_some, tokensFrom_of_ends hrest hl]
    cases finish r.2 with
    | none => rfl
    | some ts => simp [Function.comp_def]

/-- A text of such characters is cut into names and numbers, at least one where it is not empty. -/
theorem tokens_of_clean {s : String} (hs : Clean chars s) (h : tokens chars (bare s) = some ts) :
    (∀ c ∈ s.toList, c.toNat < 0x10000) ∧ (∀ tok ∈ ts, tok.isWord) ∧ (s ≠ "" → ts ≠ []) := by
  obtain ⟨⟨us, l⟩, hrun, h⟩ := Option.bind_eq_some_iff.mp h
  obtain ⟨vs, hvs, rfl⟩ := Option.map_eq_some_iff.mp h
  obtain ⟨hsmall, hus, hl⟩ := run_clean hs (.inl rfl) hrun
  refine ⟨hsmall, ?_⟩
  rcases hl with ⟨hnil, rfl⟩ | hl
  · cases hvs
    exact ⟨by simpa using hus, fun hne => absurd (String.toList_eq_nil_iff.mp hnil) hne⟩
  · obtain ⟨tok, htok, rfl⟩ := finish_of_inWord hl hvs
    exact ⟨List.forall_mem_append.mpr ⟨hus, by simpa using htok⟩, fun _ => by simp⟩

end ObjectNotation

end ApiRecords
