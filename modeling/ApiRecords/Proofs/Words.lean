import ApiRecords.Text.Split
import ApiRecords.Text.Words
import Mathlib.Data.List.TakeWhile
import Mathlib.Data.List.Infix

/-!
The characters of words, and of names made of them: which words a name is made of can be read off it.
-/

namespace ApiRecords.Text

theorem mem_take_of_le_takeWhile {α : Type} {p : α → Bool} {xs : List α} {n : Nat} {x : α}
    (h : n ≤ (xs.takeWhile p).length) (hx : x ∈ xs.take n) : p x := by
  have htake : xs.takeWhile p = xs.take (xs.takeWhile p).length :=
    List.prefix_iff_eq_take.mp (List.takeWhile_prefix p)
  apply List.mem_takeWhile_imp (l := xs)
  rw [htake]
  exact (List.take_prefix_take_left h).subset hx

/-- What belongs to a word after its first character are word characters. -/
theorem wordRest_chars (c : Char) (cs : List Char) :
    ∀ d ∈ cs.take (wordRest c cs), isWordChar d := by
  have hkind : ∀ (p : Char → Bool) (n : Nat), (∀ d, p d → isWordChar d) →
      n ≤ (cs.takeWhile p).length → ∀ d ∈ cs.take n, isWordChar d :=
    fun p n hp hn d hd => hp d (mem_take_of_le_takeWhile hn hd)
  have hlower : ∀ d : Char, d.isLower → isWordChar d := fun d hd => by simp [isWordChar, hd]
  have hupper : ∀ d : Char, d.isUpper → isWordChar d := fun d hd => by simp [isWordChar, hd]
  have hdigit : ∀ d : Char, d.isDigit → isWordChar d := fun d hd => by simp [isWordChar, hd]
  unfold wordRest
  split
  · exact hkind _ _ hlower (Nat.le_refl _)
  · split
    · exact hkind _ _ hdigit (Nat.le_refl _)
    · dsimp only
      split
      · exact hkind _ _ hupper (Nat.le_refl _)
      · rename_i small hsmall
        split
        · rename_i hcaps
          rw [hcaps, List.drop_zero] at hsmall
          exact hkind _ _ hlower (Nat.le_of_eq hsmall.symm)
        · exact hkind _ _ hupper (Nat.sub_le _ 1)

theorem wordsOf_chars (cs : List Char) : ∀ w ∈ wordsOf cs, ∀ c ∈ w, isWordChar c := by
  induction h : cs.length using Nat.strongRecOn generalizing cs with
  | ind n ih =>
    cases cs with
    | nil => simp
    | cons c cs =>
      subst h
      rw [wordsOf_cons]
      split
      · rename_i hc
        intro w hw
        cases List.mem_cons.mp hw with
        | inl hself =>
          subst hself
          exact List.forall_mem_cons.mpr ⟨hc, wordRest_chars c cs⟩
        | inr hw =>
          have hlt : (cs.drop (wordRest c cs)).length < (c :: cs).length := by
            rw [List.length_drop, List.length_cons]
            omega
          exact ih _ hlt _ rfl w hw
      · exact ih _ (by simp) cs rfl

/-- Small letters, digits and the separator. -/
def isNameChar (c : Char) : Bool := c.isLower || c.isDigit || c = '_'

theorem toNat_lt_of_isWordChar {c : Char} (h : isWordChar c) : c.toNat < 128 := by
  have hupper : c.isUpper = decide (c.val ≥ 'A'.val ∧ c.val ≤ 'Z'.val) := rfl
  have hlower : c.isLower = (decide (c.val ≥ 'a'.val) && decide (c.val ≤ 'z'.val)) := rfl
  have hdigit : c.isDigit = (decide (c.val ≥ '0'.val) && decide (c.val ≤ '9'.val)) := rfl
  simp only [isWordChar, hupper, hlower, hdigit, Bool.or_eq_true, Bool.and_eq_true,
    decide_eq_true_eq] at h
  have hval : c.toNat ≤ 'z'.val.toNat := by
    rcases h with (⟨-, h⟩ | ⟨-, h⟩) | ⟨-, h⟩
    · exact Nat.le_trans (UInt32.le_iff_toNat_le.mp h) (by decide)
    · exact UInt32.le_iff_toNat_le.mp h
    · exact Nat.le_trans (UInt32.le_iff_toNat_le.mp h) (by decide)
  exact Nat.lt_of_le_of_lt hval (by decide)

theorem isNameChar_toLower {c : Char} (h : isWordChar c) : isNameChar c.toLower := by
  have hascii : ∀ n < 128, isWordChar (Char.ofNat n) → isNameChar (Char.ofNat n).toLower := by
    decide
  have hc := hascii c.toNat (toNat_lt_of_isWordChar h)
  rw [Char.ofNat_toNat] at hc
  exact hc h

theorem mem_intercalate {α : Type} {sep : List α} {xss : List (List α)} {x : α}
    (h : x ∈ sep.intercalate xss) : x ∈ sep ∨ ∃ xs ∈ xss, x ∈ xs := by
  induction xss with
  | nil => simp at h
  | cons xs rest ih =>
    cases rest with
    | nil => exact .inr ⟨xs, by simp, by simpa using h⟩
    | cons ys rest =>
      rw [List.intercalate_cons_cons, List.mem_append, List.mem_append] at h
      rcases h with (h | h) | h
      · exact .inr ⟨xs, by simp, h⟩
      · exact .inl h
      · exact (ih h).imp_right fun ⟨zs, hzs, hx⟩ => ⟨zs, List.mem_cons_of_mem _ hzs, hx⟩

theorem snakeCase_chars (s : String) : ∀ c ∈ (snakeCase s).toList, isNameChar c := by
  intro c hc
  rw [snakeCase, String.toList_intercalate] at hc
  rcases mem_intercalate hc with hsep | ⟨w, hw, hc⟩
  · obtain rfl := List.mem_singleton.mp hsep
    rfl
  · simp only [words, List.map_map, List.mem_map] at hw
    obtain ⟨w, hw, rfl⟩ := hw
    simp [lower] at hc
    obtain ⟨d, hd, rfl⟩ := hc
    exact isNameChar_toLower (wordsOf_chars _ w hw d hd)

/-! ### The words of a name -/

theorem splitOnChar_intercalate {sep : Char} {parts : List (List Char)} (hne : parts ≠ [])
    (h : ∀ part ∈ parts, sep ∉ part) : splitOnChar sep ([sep].intercalate parts) = parts := by
  induction parts with
  | nil => exact absurd rfl hne
  | cons part rest ih =>
    obtain ⟨hpart, hrest⟩ := List.forall_mem_cons.mp h
    cases rest with
    | nil => simpa using splitOnChar_of_notMem hpart
    | cons next rest =>
      rw [List.intercalate_cons_cons, List.append_assoc, List.singleton_append,
        splitOnChar_append hpart, ih (by simp) hrest]

theorem notMem_of_mem_splitOnChar {sep : Char} {cs part : List Char}
    (h : part ∈ splitOnChar sep cs) : sep ∉ part := by
  induction cs generalizing part with
  | nil =>
    rw [splitOnChar, List.mem_singleton] at h
    simp [h]
  | cons c cs ih =>
    by_cases hc : c = sep
    · rw [splitOnChar, if_pos hc] at h
      rcases List.mem_cons.mp h with rfl | h
      · exact List.not_mem_nil
      · exact ih h
    · rw [splitOnChar, if_neg hc] at h
      split at h
      · rw [List.mem_singleton.mp h]
        simpa using Ne.symm hc
      · rename_i p ps hps
        rcases List.mem_cons.mp h with rfl | h
        · have hp : sep ∉ p := ih (hps ▸ List.mem_cons_self)
          simpa [Ne.symm hc] using hp
        · exact ih (hps ▸ List.mem_cons_of_mem _ h)

/-- The parts, joined again. -/
theorem intercalate_splitOnChar (sep : Char) (cs : List Char) :
    [sep].intercalate (splitOnChar sep cs) = cs := by
  induction cs with
  | nil => rfl
  | cons c cs ih =>
    obtain ⟨part, rest, hparts⟩ := List.exists_cons_of_ne_nil (splitOnChar_ne_nil sep cs)
    rw [hparts] at ih
    by_cases hc : c = sep
    · rw [splitOnChar, if_pos hc, hparts, List.intercalate_cons_cons, ih, hc]
      rfl
    · rw [splitOnChar, if_neg hc, hparts]
      cases rest with
      | nil => simpa using ih
      | cons next rest =>
        rw [List.intercalate_cons_cons] at ih ⊢
        simpa using ih

/-- Texts joined by a character that none of them holds: the parts can be told from the whole. -/
theorem intercalate_inj {sep : Char} {as bs : List String} (has : as ≠ []) (hbs : bs ≠ [])
    (ha : ∀ s ∈ as, sep ∉ s.toList) (hb : ∀ s ∈ bs, sep ∉ s.toList) :
    (String.singleton sep).intercalate as = (String.singleton sep).intercalate bs ↔ as = bs := by
  refine ⟨fun h => ?_, congrArg _⟩
  rw [← String.toList_inj, String.toList_intercalate, String.toList_intercalate,
    String.toList_singleton] at h
  have h := congrArg (splitOnChar sep) h
  rw [splitOnChar_intercalate (by simpa using has) (by simpa using ha),
    splitOnChar_intercalate (by simpa using hbs) (by simpa using hb)] at h
  exact (List.map_injective_iff.mpr fun _ _ => String.toList_inj.mp) h

theorem toUpper_ne_separator {c : Char} (h : isWordChar c) : c.toUpper ≠ '_' := by
  have hascii : ∀ n < 128, isWordChar (Char.ofNat n) → (Char.ofNat n).toUpper ≠ '_' := by decide
  have hc := hascii c.toNat (toNat_lt_of_isWordChar h)
  rw [Char.ofNat_toNat] at hc
  exact hc h

/-- The words of a name in capitals; a name without words counts as a blank one. -/
def constantWords (s : String) : List String :=
  if words s = [] then [""] else (words s).map upper

theorem constantWords_ne_nil (s : String) : constantWords s ≠ [] := by
  unfold constantWords
  split <;> simp_all

theorem constantCase_eq (s : String) : constantCase s = "_".intercalate (constantWords s) := by
  unfold constantCase constantWords
  split
  · rename_i h
    rw [h]
    rfl
  · rfl

theorem separator_notMem_constantWords (s : String) : ∀ w ∈ constantWords s, '_' ∉ w.toList := by
  intro w hw
  unfold constantWords at hw
  split at hw
  · obtain rfl := List.mem_singleton.mp hw
    simp
  · simp only [words, List.map_map, List.mem_map] at hw
    obtain ⟨cs, hcs, rfl⟩ := hw
    intro hmem
    simp only [Function.comp, upper, String.toList_ofList, List.mem_map] at hmem
    obtain ⟨c, hc, heq⟩ := hmem
    exact toUpper_ne_separator (wordsOf_chars _ cs hcs c hc) heq

end ApiRecords.Text
