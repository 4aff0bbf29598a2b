import ApiRecords.Document.Json.Reader
import ApiRecords.Document.Json.Writer
import ApiRecords.Proofs.Numbers.Shortest
import Mathlib.Data.Nat.Multiplicity

/-!
Numbers as JSON has them, read back. The digits that are written are those of the shortest decimal; where
the point stands among them, and in which way the power of ten is given, does not matter.
-/

namespace ApiRecords

namespace Json

/-! ### Digits -/

theorem digitsValue_eq (cs : List Char) : digitsValue cs = Nat.ofDigitChars 10 cs 0 := rfl

theorem digitsValue_toDigits (n : ℕ) : digitsValue (Nat.toDigits 10 n) = n :=
  Nat.ofDigitChars_ten_toDigits

theorem ofDigitChars_eq (cs : List Char) (n : ℕ) :
    Nat.ofDigitChars 10 cs n = n * 10 ^ cs.length + digitsValue cs := by
  induction cs generalizing n with
  | nil => simp [Nat.ofDigitChars, digitsValue]
  | cons c cs ih =>
    have hcons : ∀ k, Nat.ofDigitChars 10 (c :: cs) k =
        Nat.ofDigitChars 10 cs (10 * k + (c.toNat - 48)) := fun _ => rfl
    rw [digitsValue_eq, hcons, hcons, ih, ih, List.length_cons]
    ring

theorem digitsValue_append (cs ds : List Char) :
    digitsValue (cs ++ ds) = digitsValue cs * 10 ^ ds.length + digitsValue ds := by
  rw [digitsValue_eq, Nat.ofDigitChars_append, ofDigitChars_eq, ← digitsValue_eq]

@[simp] theorem digitsValue_zeros (count : ℕ) : digitsValue (List.replicate count '0') = 0 := by
  induction count with
  | zero => rfl
  | succ count ih =>
    rw [List.replicate_succ', digitsValue_append, ih]
    rfl

theorem isDigit_toDigits (n : ℕ) : ∀ c ∈ Nat.toDigits 10 n, c.isDigit := fun _ hc =>
  Nat.isDigit_of_mem_toDigits (by decide) (by decide) hc

theorem wholeDigits_cons {c : Char} {cs : List Char} (hc : c ≠ '0') (h : ∀ d ∈ c :: cs, d.isDigit) :
    wholeDigits (c :: cs) := by
  obtain ⟨hdigit, hcs⟩ := List.forall_mem_cons.mp h
  unfold wholeDigits
  split
  · contradiction
  · rfl
  · rename_i heq
    obtain ⟨rfl, rfl⟩ := List.cons.inj heq
    simpa [hc, hdigit] using hcs

/-- A number other than zero has another digit in front. -/
theorem toDigits_cons {n : ℕ} (hn : n ≠ 0) : ∃ c cs, c ≠ '0' ∧ Nat.toDigits 10 n = c :: cs := by
  induction n using Nat.strongRecOn with
  | ind n ih =>
    by_cases hlt : n < 10
    · have hall : ∀ k < 10, k ≠ 0 → k.digitChar ≠ '0' := by decide
      exact ⟨_, [], hall n hlt hn, Nat.toDigits_of_lt_base hlt⟩
    · obtain ⟨c, cs, hc, hcs⟩ := ih (n / 10) (by omega) (by omega)
      refine ⟨c, cs ++ [(n % 10).digitChar], hc, ?_⟩
      rw [Nat.toDigits_of_base_le (by decide) (by omega), hcs, List.cons_append]

theorem wholeDigits_toDigits (n : ℕ) : wholeDigits (Nat.toDigits 10 n) := by
  by_cases hn : n = 0
  · subst hn
    rfl
  · have hdigits := isDigit_toDigits n
    obtain ⟨c, cs, hc, hcs⟩ := toDigits_cons hn
    rw [hcs] at hdigits ⊢
    exact wholeDigits_cons hc hdigits

end Json

/-- Without the zeros at its end, a number has the digits of another one. -/
theorem significantDigits_eq {n : ℕ} (hn : n ≠ 0) : ∃ s count, s ≠ 0 ∧ n = s * 10 ^ count ∧
    significantDigits n = Nat.toDigits 10 s := by
  obtain ⟨count, s, hdvd, rfl⟩ := Nat.exists_eq_pow_mul_and_not_dvd hn 10 (by decide)
  have hs : s ≠ 0 := by
    rintro rfl
    simp at hdvd
  refine ⟨s, count, hs, Nat.mul_comm _ _, ?_⟩
  have hlast : ∃ cs c, c ≠ '0' ∧ Nat.toDigits 10 s = cs ++ [c] := by
    have hall : ∀ k < 10, k ≠ 0 → k.digitChar ≠ '0' := by decide
    by_cases hlt : s < 10
    · exact ⟨[], _, hall s hlt hs, Nat.toDigits_of_lt_base hlt⟩
    · exact ⟨_, _, hall (s % 10) (by omega) (by omega), Nat.toDigits_of_base_le (by decide) (by omega)⟩
  obtain ⟨cs, c, hc, hdigits⟩ := hlast
  rw [significantDigits, Nat.mul_comm, Double.toDigits_shift hs, hdigits, List.reverse_append,
    List.reverse_replicate, List.dropWhile_append_of_pos (by simp), List.reverse_append]
  simp [hc]

namespace Json

/-! ### Parts of a number -/

variable {whole places tail : List Char}

theorem span_digits {cs : List Char} (hcs : ∀ c ∈ cs, c.isDigit)
    (htail : ∀ c ∈ tail.head?, c.isDigit = false) : (cs ++ tail).span Char.isDigit = (cs, tail) := by
  have hend : tail.takeWhile Char.isDigit = [] ∧ tail.dropWhile Char.isDigit = tail := by
    cases tail with
    | nil => exact ⟨rfl, rfl⟩
    | cons c tail =>
      have hc := htail c rfl
      exact ⟨List.takeWhile_cons_of_neg (by simp [hc]), List.dropWhile_cons_of_neg (by simp [hc])⟩
  rw [List.span_eq_takeWhile_dropWhile, List.takeWhile_append_of_pos hcs,
    List.dropWhile_append_of_pos hcs, hend.1, hend.2, List.append_nil]

theorem span_all_digits {cs : List Char} (hcs : ∀ c ∈ cs, c.isDigit) :
    cs.span Char.isDigit = (cs, []) := by
  have h : (cs ++ []).span Char.isDigit = (cs, []) := span_digits hcs nofun
  rwa [List.append_nil] at h

theorem span_digits_cons {cs : List Char} (hcs : ∀ c ∈ cs, c.isDigit) {c : Char}
    (hc : c.isDigit = false) (tail : List Char) :
    (cs ++ c :: tail).span Char.isDigit = (cs, c :: tail) :=
  span_digits hcs fun _ hd => Option.some.inj hd ▸ hc

theorem isDigit_of_wholeDigits (h : wholeDigits whole) : ∀ c ∈ whole, c.isDigit := by
  unfold wholeDigits at h
  split at h
  · cases h
  · exact List.forall_mem_singleton.mpr rfl
  · rw [Bool.and_eq_true, Bool.and_eq_true, List.all_eq_true] at h
    exact List.forall_mem_cons.mpr ⟨h.1.2, h.2⟩

theorem readUnsigned_whole (neg : Bool) (h : wholeDigits whole) : readUnsigned neg whole =
    some (.int (if neg then -(digitsValue whole : Int) else digitsValue whole)) := by
  simp only [readUnsigned, span_all_digits (isDigit_of_wholeDigits h), h, Bool.not_true,
    Bool.false_eq_true, if_false]

theorem readUnsigned_point (neg : Bool) (h : wholeDigits whole) (hne : places ≠ [])
    (hplaces : ∀ c ∈ places, c.isDigit) : readUnsigned neg (whole ++ '.' :: places) =
      some (.double (.ofDecimal neg (digitsValue (whole ++ places)) (-(places.length : Int)))) := by
  have hspan := span_digits_cons (isDigit_of_wholeDigits h) (c := '.') rfl places
  simp only [readUnsigned, hspan, span_all_digits hplaces, h, hne, Bool.not_true, Bool.false_eq_true,
    if_false]

theorem readUnsigned_power (neg : Bool) (h : wholeDigits whole) (power : List Char) :
    readUnsigned neg (whole ++ 'e' :: power) =
      (readExponent power).map fun x => .double (.ofDecimal neg (digitsValue whole) x) := by
  have hspan := span_digits_cons (isDigit_of_wholeDigits h) (c := 'e') rfl power
  simp only [readUnsigned, hspan, h, Bool.not_true, Bool.false_eq_true, if_false]
  rfl

theorem readUnsigned_point_power (neg : Bool) (h : wholeDigits whole) (hne : places ≠ [])
    (hplaces : ∀ c ∈ places, c.isDigit) (power : List Char) :
    readUnsigned neg (whole ++ '.' :: (places ++ 'e' :: power)) =
      (readExponent power).map fun x =>
        .double (.ofDecimal neg (digitsValue (whole ++ places)) (x - places.length)) := by
  have hspan := span_digits_cons (isDigit_of_wholeDigits h) (c := '.') rfl (places ++ 'e' :: power)
  have hmore := span_digits_cons hplaces (c := 'e') rfl power
  simp only [readUnsigned, hspan, hmore, h, hne, Bool.not_true, Bool.false_eq_true, if_false, true_or,
    if_true]

/-- An exponent with its sign, and with zeros in front. -/
theorem readExponent_padded (count : ℕ) (x : ℤ) :
    readExponent ((if x < 0 then '-' else '+') ::
      (List.replicate count '0' ++ Nat.toDigits 10 x.natAbs)) = some x := by
  have hvalue : digitsValue (List.replicate count '0' ++ Nat.toDigits 10 x.natAbs) = x.natAbs := by
    rw [digitsValue_append, digitsValue_zeros, digitsValue_toDigits, Nat.zero_mul, Nat.zero_add]
  have hdigits : ∀ c ∈ List.replicate count '0' ++ Nat.toDigits 10 x.natAbs, c.isDigit := by
    refine List.forall_mem_append.mpr ⟨fun c hc => ?_, isDigit_toDigits _⟩
    rw [List.eq_of_mem_replicate hc]
    rfl
  have hne : List.replicate count '0' ++ Nat.toDigits 10 x.natAbs ≠ [] :=
    List.append_ne_nil_of_right_ne_nil _ Nat.toDigits_ne_nil
  generalize List.replicate count '0' ++ Nat.toDigits 10 x.natAbs = cs at hvalue hdigits hne ⊢
  obtain ⟨c, cs, rfl⟩ := List.exists_cons_of_ne_nil hne
  have hall : (c :: cs).all Char.isDigit := List.all_eq_true.mpr hdigits
  by_cases hx : x < 0
  · rw [if_pos hx, readExponent, if_pos hall, hvalue]
    congr 1
    omega
  · rw [if_neg hx, readExponent, if_pos hall, hvalue]
    congr 1
    omega

/-! ### Written numbers -/

section

variable {s : ℕ} (hs : s ≠ 0) (neg : Bool) (leading : ℤ)

include hs

theorem readUnsigned_positional :
    readUnsigned neg (NumberLayout.positional (Nat.toDigits 10 s) leading) =
      some (.double (.ofDecimal neg s (leading - (Nat.toDigits 10 s).length + 1))) := by
  have hdigits := isDigit_toDigits s
  have hvalue := digitsValue_toDigits s
  unfold NumberLayout.positional
  split
  · rename_i hleading
    obtain ⟨n, rfl⟩ := Int.eq_ofNat_of_zero_le hleading
    simp only [Int.toNat_natCast]
    by_cases hlen : (Nat.toDigits 10 s).length ≤ n + 1
    · obtain ⟨count, hcount⟩ := Nat.exists_eq_add_of_le hlen
      have hshift := Double.toDigits_shift hs count
      have hpoint := readUnsigned_point neg (wholeDigits_toDigits (s * 10 ^ count))
        (List.cons_ne_nil '0' []) (List.forall_mem_singleton.mpr rfl)
      rw [List.take_of_length_le hlen, List.drop_of_length_le hlen, if_pos rfl, hcount,
        Nat.add_sub_cancel_left, ← hshift, hpoint, digitsValue_append, digitsValue_toDigits]
      have hzero : digitsValue ['0'] = 0 := rfl
      have hexponent : -((1 : ℕ) : ℤ) = (n - (Nat.toDigits 10 s).length + 1 : ℤ) - (count + 1 : ℕ) := by
        omega
      rw [hzero, Nat.add_zero, Nat.mul_assoc, List.length_singleton, ← Nat.pow_add, hexponent,
        Double.ofDecimal_shift]
    · have hsplit := List.take_append_drop (n + 1) (Nat.toDigits 10 s)
      have hdrop : (Nat.toDigits 10 s).drop (n + 1) ≠ [] := by simpa using hlen
      have htake : wholeDigits ((Nat.toDigits 10 s).take (n + 1)) := by
        have htaken : ∀ c ∈ (Nat.toDigits 10 s).take (n + 1), c.isDigit :=
          fun c hc => hdigits c (List.mem_of_mem_take hc)
        obtain ⟨c, cs, hc, hcs⟩ := toDigits_cons hs
        rw [hcs, List.take_succ_cons] at htaken ⊢
        exact wholeDigits_cons hc htaken
      have hpoint := readUnsigned_point neg htake hdrop fun c hc => hdigits c (List.mem_of_mem_drop hc)
      rw [Nat.sub_eq_zero_of_le (by omega), List.replicate_zero, List.append_nil, if_neg hdrop, hpoint,
        hsplit, hvalue, List.length_drop]
      congr 3
      omega
  · have hzeros : ∀ c ∈ List.replicate ((-leading).toNat - 1) '0' ++ Nat.toDigits 10 s, c.isDigit := by
      refine List.forall_mem_append.mpr ⟨fun c hc => ?_, hdigits⟩
      rw [List.eq_of_mem_replicate hc]
      rfl
    have hne : List.replicate ((-leading).toNat - 1) '0' ++ Nat.toDigits 10 s ≠ [] :=
      List.append_ne_nil_of_right_ne_nil _ Nat.toDigits_ne_nil
    have hpoint := readUnsigned_point neg (show wholeDigits ['0'] from rfl) hne hzeros
    have hall : digitsValue (['0'] ++ (List.replicate ((-leading).toNat - 1) '0' ++ Nat.toDigits 10 s)) =
        s := by
      have hzero : digitsValue ['0'] = 0 := rfl
      rw [digitsValue_append, digitsValue_append, digitsValue_zeros, hvalue, hzero]
      simp
    rw [hall] at hpoint
    refine hpoint.trans ?_
    rw [List.length_append, List.length_replicate]
    congr 3
    omega

theorem readUnsigned_scientific (layout : NumberLayout) :
    readUnsigned neg (layout.scientific (Nat.toDigits 10 s) leading) =
      some (.double (.ofDecimal neg s (leading - (Nat.toDigits 10 s).length + 1))) := by
  have hdigits := isDigit_toDigits s
  have hvalue := digitsValue_toDigits s
  obtain ⟨c, cs, hc, hcs⟩ := toDigits_cons hs
  rw [hcs] at hdigits hvalue ⊢
  have hwhole : wholeDigits [c] := wholeDigits_cons hc (by simpa using hdigits c List.mem_cons_self)
  obtain ⟨power, hpower, hscientific⟩ : ∃ power, readExponent power = some leading ∧
      ∀ digits : List Char, layout.scientific digits leading =
        digits.take 1 ++ ((if digits.length ≤ 1 then [] else '.' :: digits.drop 1) ++ 'e' :: power) :=
    ⟨_, readExponent_padded (layout.exponentDigits - (Nat.toDigits 10 leading.natAbs).length) leading,
      fun _ => by simp [NumberLayout.scientific]⟩
  rw [hscientific]
  cases cs with
  | nil =>
    have hread := readUnsigned_power neg hwhole power
    rw [hpower, hvalue] at hread
    simpa using hread
  | cons d ds =>
    have hread := readUnsigned_point_power neg hwhole (List.cons_ne_nil d ds)
      (fun d hd => hdigits d (List.mem_cons_of_mem _ hd)) power
    have hexponent : leading - ((d :: ds).length : ℤ) = leading - (c :: d :: ds).length + 1 := by
      simp only [List.length_cons]
      omega
    rw [hpower, Option.map_some, hexponent] at hread
    simpa [hvalue] using hread

end

/-- A finite double is written in digits that read back as it. -/
theorem readUnsigned_finite {m : ℕ} {e : ℤ} (h : Double.Formed m e) (neg : Bool) : ∃ cs,
    jsonNumber.write (.finite neg m e) = (if neg then "-" else "") ++ String.ofList cs ∧
      readUnsigned neg cs = some (.double (.finite neg m e)) := by
  refine ⟨_, rfl, ?_⟩
  simp only
  split
  · rename_i hm
    obtain rfl := h.full.resolve_left (by omega)
    subst hm
    cases neg <;> rfl
  · rename_i hm
    have hreads := Double.shortest_reads h hm
    have hdigits : (Double.shortest m e).digits ≠ 0 := by
      intro hzero
      rw [hzero] at hreads
      exact hm (Double.finite.inj hreads).2.1.symm
    obtain ⟨s, count, hs, hshift, hsignificant⟩ := significantDigits_eq hdigits
    have hvalue (leading : ℤ) (hleading : leading =
        (Double.shortest m e).exponent + ((Nat.toDigits 10 (Double.shortest m e).digits).length - 1 : ℕ)) :
        Double.ofDecimal neg s (leading - (Nat.toDigits 10 s).length + 1) = .finite neg m e := by
      have hexponent : (Double.shortest m e).exponent =
          leading - (Nat.toDigits 10 s).length + 1 - count := by
        have hpos : 0 < (Nat.toDigits 10 s).length := Nat.length_toDigits_pos
        rw [hleading, hshift, Double.toDigits_shift hs, List.length_append, List.length_replicate]
        omega
      rw [← Double.ofDecimal_of_pos hreads neg, hshift, hexponent, Double.ofDecimal_shift]
    rw [hsignificant]
    split
    · rw [readUnsigned_positional hs, hvalue _ rfl]
    · rw [readUnsigned_scientific hs, hvalue _ rfl]

/-- Digits are no name of a value. -/
theorem readWord_of_readUnsigned {neg : Bool} {cs : List Char} {s : Scalar}
    (h : readUnsigned neg cs = some s) :
    readWord ((if neg then "-" else "") ++ String.ofList cs) = some s := by
  obtain ⟨c, rest, hc, rfl⟩ : ∃ c rest, c.isDigit ∧ cs = c :: rest := by
    cases cs with
    | nil => cases h
    | cons c rest =>
      refine ⟨c, rest, ?_, rfl⟩
      by_contra hc
      have hspan := span_digits (List.forall_mem_nil _)
        (fun d hd => Option.some.inj hd ▸ Bool.eq_false_iff.mpr hc : ∀ d ∈ (c :: rest).head?, d.isDigit = false)
      rw [List.nil_append] at hspan
      simp [readUnsigned, -List.span_eq_takeWhile_dropWhile, hspan, wholeDigits] at h
  have hchars : ((if neg then "-" else "") ++ String.ofList (c :: rest)).toList =
      if neg then '-' :: c :: rest else c :: rest := by
    cases neg <;> simp
  generalize (if neg then "-" else "") ++ String.ofList (c :: rest) = w at hchars
  have hword : ∀ t : String, t.toList.all (! Char.isDigit ·) → w ≠ t := by
    rintro t ht rfl
    cases neg <;> simp [hchars, hc] at ht
  have hne : c ≠ '-' := by
    rintro rfl
    cases hc
  unfold readWord
  split
  iterate 6 exact absurd rfl (hword _ (by decide))
  · rw [hchars]
    cases neg with
    | false =>
      split
      · rename_i heq
        exact absurd (List.cons.inj heq).1 hne
      · exact h
    | true => exact h

theorem readWord_toString (n : ℤ) : readWord (toString n) = some (.int n) := by
  cases n with
  | ofNat n =>
    have hread := readUnsigned_whole false (wholeDigits_toDigits n)
    rw [digitsValue_toDigits] at hread
    have hword := readWord_of_readUnsigned hread
    have hchars : toString (Int.ofNat n) = "" ++ String.ofList (Nat.toDigits 10 n) := by
      rw [String.empty_append]
      rfl
    rw [hchars]
    exact hword
  | negSucc n =>
    have hread := readUnsigned_whole true (wholeDigits_toDigits (n + 1))
    rw [digitsValue_toDigits] at hread
    exact readWord_of_readUnsigned hread

end Json

/-- Whether the numbers of a value without parts are in their one form. -/
def Scalar.HasForm : Scalar → Prop
  | .double x => x.HasForm
  | _ => True

instance : DecidablePred Scalar.HasForm
  | .double x => inferInstanceAs (Decidable x.HasForm)
  | .null | .bool _ | .int _ | .text _ => .isTrue trivial

namespace Json

/-- A value without parts reads back, texts apart. -/
theorem readWord_writeScalar {s : Scalar} (h : s.HasForm) (htext : ∀ t, s ≠ .text t) :
    readWord (writeScalar true s) = some s := by
  cases s with
  | null => rfl
  | bool b => cases b <;> rfl
  | int n => exact readWord_toString n
  | text t => exact absurd rfl (htext t)
  | double x =>
    cases x with
    | nan => rfl
    | infinite neg => cases neg <;> rfl
    | finite neg m e =>
      obtain ⟨cs, hwrite, hread⟩ := readUnsigned_finite h neg
      rw [writeScalar, hwrite]
      exact readWord_of_readUnsigned hread

end Json

end ApiRecords
