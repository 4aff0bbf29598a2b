import ApiRecords.Proofs.Json.Readable
import ApiRecords.Proofs.Objects.Words
import ApiRecords.Proofs.Types.Literals

/-!
JSON text cut into tokens. A text is one token, its escapes undone; a value without parts is one when
something follows that stands in no word, or nothing does; and a container has the tokens of its parts
between its brackets.
-/

namespace ApiRecords

namespace Json

/-! ### Texts -/

section

variable {ts : List Token} {taken : List Char} {high : Option Nat}

theorem cut_digit (k value : Nat) {count : Nat} (hcount : count ≠ 3) :
    cutChar (ts, .code taken high count value) (Text.hexDigit (k % 16)) =
      some (ts, .code taken high (count + 1) (16 * value + k % 16)) := by
  rw [cutChar, Text.hexValue?_hexDigit _ (Nat.mod_lt _ (by decide)), Option.map_some]
  simp only [if_neg hcount]

theorem cut_lastDigit (k value : Nat) :
    cutChar (ts, .code taken high 3 value) (Text.hexDigit (k % 16)) =
      some (ts, .text (addUnit taken high (16 * value + k % 16)).1
        (addUnit taken high (16 * value + k % 16)).2) := by
  rw [cutChar, Text.hexValue?_hexDigit _ (Nat.mod_lt _ (by decide)), Option.map_some]
  rfl

theorem cut_code {n : Nat} (h : n < 0x10000) :
    ('\\' :: 'u' :: Text.hex 4 n).foldlM cutChar (ts, .text taken high) =
      some (ts, .text (addUnit taken high n).1 (addUnit taken high n).2) := by
  have hopen : cutChar (ts, .text taken high) '\\' = some (ts, .escape taken high) := rfl
  have hcode : cutChar (ts, .escape taken high) 'u' = some (ts, .code taken high 0 0) := rfl
  have hvalue := ObjectNotation.value_hex_four h
  rw [Text.hex_four]
  simp only [List.foldlM_cons, List.foldlM_nil, hopen, hcode, Option.bind_eq_bind, Option.bind_some,
    cut_digit _ _ (by decide : 0 ≠ 3), cut_digit _ _ (by decide : 1 ≠ 3), cut_digit _ _ (by decide : 2 ≠ 3),
    cut_lastDigit, Nat.reduceAdd, Nat.mul_zero, Nat.zero_add, hvalue]
  rfl

theorem cut_unicodeEscape (c : Char) :
    (unicodeEscape c).foldlM cutChar (ts, .text taken none) = some (ts, .text (c :: taken) none) := by
  have hlt := ObjectNotation.toNat_lt c
  unfold unicodeEscape
  simp only
  split
  · rename_i hsmall
    have hvalid := c.valid
    simp only [UInt32.isValidChar, Nat.isValidChar] at hvalid
    change c.toNat < 0xd800 ∨ 0xdfff < c.toNat ∧ c.toNat < 0x110000 at hvalid
    rw [cut_code hsmall, addUnit, if_neg (by omega), if_neg (by omega), Char.ofNat_toNat]
    rfl
  · rename_i hlarge
    have hhigh : addUnit taken none (0xd800 + (c.toNat - 0x10000) / 0x400) =
        (taken, some (0xd800 + (c.toNat - 0x10000) / 0x400)) := by
      rw [addUnit, if_neg (by omega), if_pos (by omega)]
      rfl
    have hcode : 0x10000 + (0xd800 + (c.toNat - 0x10000) / 0x400 - 0xd800) * 0x400 +
        (0xdc00 + (c.toNat - 0x10000) % 0x400 - 0xdc00) = c.toNat := by omega
    rw [List.foldlM_append, cut_code (by omega), hhigh, Option.bind_eq_bind, Option.bind_some,
      cut_code (by omega), addUnit, if_pos (by omega)]
    simp only [hcode, Char.ofNat_toNat]

theorem cut_escapeChar (asciiOnly : Bool) (c : Char) :
    (escapeChar asciiOnly c).foldlM cutChar (ts, .text taken none) = some (ts, .text (c :: taken) none) := by
  unfold escapeChar
  split
  · next h => rcases h with rfl | rfl <;> rfl
  · next h =>
    obtain ⟨hquote, hbackslash⟩ := not_or.mp h
    iterate 5
      split
      · next h => subst h; rfl
    split
    · exact cut_unicodeEscape c
    · next h =>
      have hcontrol : ¬ c.toNat < 0x20 := fun hlt => h (.inl hlt)
      simp [cutChar, hquote, hbackslash, hcontrol, settle]

theorem cut_chars (asciiOnly : Bool) (cs : List Char) :
    (cs.flatMap (escapeChar asciiOnly)).foldlM cutChar (ts, .text taken none) =
      some (ts, .text (cs.reverse ++ taken) none) := by
  induction cs generalizing taken with
  | nil => rfl
  | cons c cs ih =>
    rw [List.flatMap_cons, List.foldlM_append, cut_escapeChar]
    refine ih.trans ?_
    rw [List.reverse_cons, List.append_assoc, List.singleton_append]

end

/-! ### Pieces of text -/

/-- The tokens of a text that ends here. -/
def ended : Cut → Option (List Token)
  | (ts, .between) => some ts
  | (ts, .word taken) => endWord ts taken
  | _ => none

/-- What the characters give between tokens. -/
def Reads (cs : List Char) (toks : List Token) : Prop :=
  ∀ ts, ∃ cut, cs.foldlM cutChar (ts, .between) = some cut ∧ ended cut = some (toks.reverse ++ ts)

/-- What the characters give wherever a token may end. -/
def Follows (cs : List Char) (toks : List Token) : Prop :=
  ∀ cut ts, ended cut = some ts →
    ∃ cut', cs.foldlM cutChar cut = some cut' ∧ ended cut' = some (toks.reverse ++ ts)

variable {cs cs' : List Char} {toks toks' : List Token}

theorem Follows.reads (h : Follows cs toks) : Reads cs toks := fun ts => h (ts, .between) ts rfl

theorem Follows.nil : Follows [] [] := fun cut _ h => ⟨cut, rfl, h⟩

theorem Reads.append (h : Reads cs toks) (h' : Follows cs' toks') : Reads (cs ++ cs') (toks ++ toks') := by
  intro ts
  obtain ⟨cut, hcut, hended⟩ := h ts
  obtain ⟨cut', hcut', hended'⟩ := h' cut _ hended
  refine ⟨cut', ?_, ?_⟩
  · rw [List.foldlM_append, hcut]
    exact hcut'
  · rw [hended', List.reverse_append, List.append_assoc]

theorem Follows.append (h : Follows cs toks) (h' : Follows cs' toks') :
    Follows (cs ++ cs') (toks ++ toks') := by
  intro cut ts hended
  obtain ⟨cut₁, hcut₁, hended₁⟩ := h cut ts hended
  obtain ⟨cut₂, hcut₂, hended₂⟩ := h' cut₁ _ hended₁
  refine ⟨cut₂, ?_, ?_⟩
  · rw [List.foldlM_append, hcut₁]
    exact hcut₂
  · rw [hended₂, List.reverse_append, List.append_assoc]

theorem startToken_mark {c : Char} {tok : Token} (h : punctuation? c = some tok) (ts : List Token) :
    startToken ts c = (tok :: ts, .between) := by
  have hspace : isSpace c = false := by
    unfold punctuation? at h
    split at h <;> first | rfl | cases h
  rw [startToken, if_neg (by simp [hspace]), h]

theorem cutChar_mark {c : Char} {tok : Token} (h : punctuation? c = some tok) {cut : Cut} {ts : List Token}
    (hended : ended cut = some ts) : cutChar cut c = some (tok :: ts, .between) := by
  obtain ⟨ts', mode⟩ := cut
  cases mode with
  | between =>
    cases hended
    rw [cutChar, startToken_mark h]
  | word taken =>
    have hword : endWord ts' taken = some ts := hended
    rw [cutChar, if_pos (by simp [h]), hword, Option.map_some, startToken_mark h]
  | _ => cases hended

/-- After a mark any token may begin. -/
theorem Reads.mark {c : Char} {tok : Token} (hc : punctuation? c = some tok) (h : Reads cs toks) :
    Follows (c :: cs) (tok :: toks) := by
  intro cut ts hended
  obtain ⟨cut', hcut', hended'⟩ := h (tok :: ts)
  refine ⟨cut', ?_, ?_⟩
  · rw [List.foldlM_cons, cutChar_mark hc hended]
    exact hcut'
  · rw [hended', List.reverse_cons, List.append_assoc, List.singleton_append]

theorem Reads.space (h : Reads cs toks) : Reads (' ' :: cs) toks := h

theorem reads_text (asciiOnly : Bool) (s : String) :
    Reads (writeText asciiOnly s).toList [.scalar (.text s)] := by
  intro ts
  refine ⟨(.scalar (.text s) :: ts, .between), ?_, rfl⟩
  have hopen : cutChar (ts, .between) '"' = some (ts, .text [] none) := rfl
  rw [writeText, String.toList_ofList, List.cons_append, List.foldlM_cons, hopen]
  refine (List.foldlM_append ..).trans ?_
  rw [cut_chars]
  simp [cutChar, settle]

/-- A word is not a token before it has ended. -/
theorem reads_word {w : String} {s : Scalar} (hw : ApiRecords.Token.IsWord w) (h : readWord w = some s) :
    Reads w.toList [.scalar s] := by
  have hplain : ∀ c, ApiRecords.Token.isPlain c →
      isSpace c = false ∧ punctuation? c = none ∧ c ≠ '"' := by
    intro c hc
    simp only [ApiRecords.Token.isPlain, ApiRecords.Token.marks, ApiRecords.Token.quotes,
      ApiRecords.Token.blanks, List.mem_cons, List.not_mem_nil, or_false, not_or, decide_eq_true_eq] at hc
    refine ⟨by simp [isSpace, hc], ?_, hc.2.1.2⟩
    unfold punctuation?
    split <;> simp_all
  have hgo : ∀ (cs : List Char) (ts : List Token) (taken : List Char), (∀ c ∈ cs, ApiRecords.Token.isPlain c) →
      cs.foldlM cutChar (ts, .word taken) = some (ts, .word (cs.reverse ++ taken)) := by
    intro cs ts
    induction cs with
    | nil => exact fun _ _ => rfl
    | cons c cs ih =>
      intro taken hcs
      obtain ⟨hc, hcs⟩ := List.forall_mem_cons.mp hcs
      obtain ⟨hspace, hmark, hquote⟩ := hplain c hc
      have hnext : cutChar (ts, .word taken) c = some (ts, .word (c :: taken)) := by
        simp [cutChar, hspace, hmark, hquote]
      rw [List.foldlM_cons, hnext]
      refine (ih (c :: taken) hcs).trans ?_
      rw [List.reverse_cons, List.append_assoc, List.singleton_append]
  obtain ⟨hne, hall⟩ := hw
  intro ts
  refine ⟨(ts, .word w.toList.reverse), ?_, ?_⟩
  · cases hchars : w.toList with
    | nil => exact absurd (String.toList_eq_nil_iff.mp hchars) hne
    | cons c cs =>
      rw [hchars, List.all_eq_true] at hall
      obtain ⟨hc, hcs⟩ := List.forall_mem_cons.mp hall
      obtain ⟨hspace, hmark, hquote⟩ := hplain c hc
      have hfirst : cutChar (ts, .between) c = some (ts, .word [c]) := by
        simp [cutChar, startToken, hspace, hmark, hquote]
      rw [List.foldlM_cons, hfirst, List.reverse_cons]
      exact hgo cs ts [c] hcs
  · simp [ended, endWord, h]

theorem reads_scalar {s : Scalar} (h : s.HasForm) : Reads (writeScalar true s).toList [.scalar s] := by
  cases s with
  | text s => exact reads_text true s
  | null => exact reads_word (by decide) rfl
  | bool b => cases b <;> exact reads_word (by decide) rfl
  | int n => exact reads_word (isWord_toString n) (readWord_toString n)
  | double x =>
    exact reads_word (NumberLayout.isWord_write (by decide) (by decide) x)
      (readWord_writeScalar h nofun)

end Json

end ApiRecords
