import ApiRecords.Number.Double
import Mathlib.Algebra.Order.Field.Power
import Mathlib.Algebra.Order.Floor.Semifield
import Mathlib.Data.Int.Log
import Mathlib.Data.Rat.Floor
import Mathlib.Tactic.FieldSimp
import Mathlib.Tactic.Linarith
import Mathlib.Tactic.NormNum
import Mathlib.Tactic.Positivity
import Mathlib.Tactic.Ring

/-!
What rounding to a double depends on: the rational number alone, however it is written. A number near
enough to a double is rounded to it.
-/

namespace ApiRecords.Double

/-- The whole number nearest to `r`, a half going to the even neighbour. -/
def nearest (r : ℚ) : ℕ :=
  if 2 * (r - ⌊r⌋₊) < 1 ∨ (2 * (r - ⌊r⌋₊) = 1 ∧ ⌊r⌋₊ % 2 = 0) then ⌊r⌋₊ else ⌊r⌋₊ + 1

/-- The exponent at which `r` has a significand of full precision, or the least exponent. -/
def exponentAt (r : ℚ) : ℤ := max (Int.log 2 r - 52) minExponent

/-- The double nearest to ± `r`. -/
def round (neg : Bool) (r : ℚ) : Double :=
  if r = 0 then zero neg else carried neg (nearest (r / 2 ^ exponentAt r)) (exponentAt r)

theorem roundHalfEven_eq (num : ℕ) {den : ℕ} (hden : 0 < den) :
    roundHalfEven num den = nearest (num / den) := by
  have hden' : (0 : ℚ) < den := by exact_mod_cast hden
  have hrest : (num : ℚ) / den - ↑(num / den) = ↑(num % den) / den := by
    have hsum : (num : ℚ) = den * ↑(num / den) + ↑(num % den) := by
      exact_mod_cast (Nat.div_add_mod num den).symm
    field_simp
    linarith
  have hlt : 2 * ((num : ℚ) / den - ↑(num / den)) < 1 ↔ 2 * (num % den) < den := by
    rw [hrest, ← mul_div_assoc, div_lt_one hden']
    exact_mod_cast Iff.rfl
  have heq : 2 * ((num : ℚ) / den - ↑(num / den)) = 1 ↔ 2 * (num % den) = den := by
    rw [hrest, ← mul_div_assoc, div_eq_one_iff_eq hden'.ne']
    exact_mod_cast Iff.rfl
  simp only [roundHalfEven, nearest, Nat.floor_div_eq_div, hlt, heq]

theorem nearest_eq {r : ℚ} {m : ℕ} (hr : 0 ≤ r) (h : |r - m| < 1 / 2) : nearest r = m := by
  obtain ⟨hlow, hhigh⟩ := abs_lt.mp h
  by_cases hm : (m : ℚ) ≤ r
  · have hfloor : ⌊r⌋₊ = m := (Nat.floor_eq_iff hr).mpr ⟨hm, by linarith⟩
    rw [nearest, hfloor, if_pos (.inl (by linarith))]
  · cases m with
    | zero => exact absurd (by simpa using hr) hm
    | succ k =>
      push_cast at hlow hm
      have hfloor : ⌊r⌋₊ = k := (Nat.floor_eq_iff hr).mpr ⟨by linarith, by linarith⟩
      rw [nearest, hfloor, if_neg]
      rintro (hlt | ⟨heq, -⟩) <;> linarith

/-! ### Scales -/

theorem scale_pos {num den : ℕ} (hden : 0 < den) (e : ℤ) : 0 < (scale num den e).2 := by
  unfold scale
  split
  · exact Nat.mul_pos hden (Nat.pow_pos (by decide))
  · exact hden

theorem scale_eq (num den : ℕ) (e : ℤ) :
    ((scale num den e).1 : ℚ) / (scale num den e).2 = num / den / 2 ^ e := by
  unfold scale
  split
  · rename_i he
    obtain ⟨n, rfl⟩ := Int.eq_ofNat_of_zero_le he
    simp [div_div]
  · rename_i he
    obtain ⟨n, hn⟩ := Int.eq_ofNat_of_zero_le (show 0 ≤ -e by omega)
    obtain rfl : e = -n := by omega
    simp only [neg_neg, Int.toNat_natCast, zpow_neg, zpow_natCast, div_inv_eq_mul, Nat.pow_eq,
      Nat.cast_mul, Nat.cast_pow, Nat.cast_ofNat]
    ring

/-! ### Exponents -/

theorem log2_bounds {n : ℕ} (h : n ≠ 0) : (2 : ℚ) ^ (n.log2 : ℤ) ≤ n ∧ (n : ℚ) < 2 ^ (n.log2 + 1 : ℤ) := by
  have hlow : 2 ^ n.log2 ≤ n := Nat.log2_self_le h
  have hhigh : n < 2 ^ (n.log2 + 1) := Nat.lt_log2_self
  constructor
  · exact_mod_cast hlow
  · exact_mod_cast hhigh

theorem log_eq {r : ℚ} {k : ℤ} (hlow : 2 ^ k ≤ r) (hhigh : r < 2 ^ (k + 1)) : Int.log 2 r = k := by
  have hr : 0 < r := lt_of_lt_of_le (by positivity) hlow
  have hle : k ≤ Int.log 2 r := (Int.zpow_le_iff_le_log (by decide) hr).mp (by exact_mod_cast hlow)
  have hlt : Int.log 2 r < k + 1 := (Int.lt_zpow_iff_log_lt (by decide) hr).mp (by exact_mod_cast hhigh)
  omega

theorem exponentOf_eq {num den : ℕ} (hnum : num ≠ 0) (hden : 0 < den) :
    exponentOf num den = exponentAt (num / den) := by
  have hden' : (0 : ℚ) < den := by exact_mod_cast hden
  have htwo : (2 : ℚ) ≠ 0 := by norm_num
  obtain ⟨hnumlow, hnumhigh⟩ := log2_bounds hnum
  obtain ⟨hdenlow, hdenhigh⟩ := log2_bounds hden.ne'
  obtain ⟨e, he⟩ : ∃ e : ℤ, e = num.log2 - den.log2 - 52 := ⟨_, rfl⟩
  have hhigh : (num : ℚ) / den < 2 ^ (e + 52 + 1) := by
    rw [div_lt_iff₀ hden']
    calc (num : ℚ) < 2 ^ (num.log2 + 1 : ℤ) := hnumhigh
      _ = 2 ^ (e + 52 + 1) * 2 ^ (den.log2 : ℤ) := by rw [← zpow_add₀ htwo]; congr 1; omega
      _ ≤ 2 ^ (e + 52 + 1) * den := by gcongr
  have hlow : (2 : ℚ) ^ (e + 51) ≤ num / den := by
    rw [le_div_iff₀ hden']
    calc (2 : ℚ) ^ (e + 51) * den ≤ 2 ^ (e + 51) * 2 ^ (den.log2 + 1 : ℤ) := by gcongr
      _ = 2 ^ (num.log2 : ℤ) := by rw [← zpow_add₀ htwo]; congr 1; omega
      _ ≤ num := hnumlow
  have hsmall : (scale num den e).1 < (scale num den e).2 * .pow 2 52 ↔
      (num : ℚ) / den < 2 ^ (e + 51 + 1) := by
    have hd : (0 : ℚ) < (scale num den e).2 := by exact_mod_cast scale_pos hden e
    calc _ ↔ ((scale num den e).1 : ℚ) < 2 ^ 52 * (scale num den e).2 := by
          rw [mul_comm]
          exact_mod_cast Iff.rfl
      _ ↔ (num : ℚ) / den / 2 ^ e < 2 ^ 52 := by rw [← div_lt_iff₀ hd, scale_eq]
      _ ↔ (num : ℚ) / den < 2 ^ (e + 51 + 1) := by
          rw [div_lt_iff₀ (by positivity), ← zpow_natCast, ← zpow_add₀ htwo]
          congr! 2
          omega
  simp only [exponentOf, exponentAt, precision, Nat.add_one_sub_one, Nat.cast_ofNat, ← he, hsmall]
  congr 1
  split
  · rename_i hlt
    rw [log_eq hlow hlt]
    omega
  · rename_i hge
    have hfull : (2 : ℚ) ^ (e + 52) ≤ num / den := by
      rw [show e + 52 = e + 51 + 1 by omega]
      exact not_lt.mp hge
    rw [log_eq hfull hhigh]
    omega

/-! ### Rounding -/

/-- How the ratio is written does not matter. -/
theorem ofRatio_eq (neg : Bool) (num : ℕ) {den : ℕ} (hden : 0 < den) :
    ofRatio neg num den = round neg (num / den) := by
  by_cases hnum : num = 0
  · simp [ofRatio, round, hnum]
  · have hne : (num : ℚ) / den ≠ 0 :=
      div_ne_zero (by exact_mod_cast hnum) (by exact_mod_cast hden.ne')
    rw [ofRatio, round, if_neg hnum, if_neg hne, exponentOf_eq hnum hden]
    generalize exponentAt (num / den) = e
    change carried neg (roundHalfEven (scale num den e).1 (scale num den e).2) e = _
    rw [roundHalfEven_eq _ (scale_pos hden e), scale_eq]

/-- The number of digits tells what is far out of the range. -/
def size (digits : ℕ) (exponent : ℤ) : ℤ := (Nat.toDigits 10 digits).length + exponent

theorem ofDecimal_eq {digits : ℕ} {exponent : ℤ} (hdigits : digits ≠ 0)
    (hlow : -400 ≤ size digits exponent) (hhigh : size digits exponent ≤ 400) (neg : Bool) :
    ofDecimal neg digits exponent = round neg (digits * 10 ^ exponent) := by
  unfold size at hlow hhigh
  rw [ofDecimal, if_neg (by omega), if_neg (by omega)]
  split
  · rename_i hexponent
    obtain ⟨n, rfl⟩ := Int.eq_ofNat_of_zero_le hexponent
    rw [ofRatio_eq _ _ (by decide)]
    simp
  · obtain ⟨n, hn⟩ := Int.eq_ofNat_of_zero_le (show 0 ≤ -exponent by omega)
    obtain rfl : exponent = -n := by omega
    have hpow : 0 < Nat.pow 10 (- -(n : ℤ)).toNat := Nat.pow_pos (by decide)
    rw [ofRatio_eq _ _ hpow]
    simp [div_eq_mul_inv]

theorem toDigits_shift {n : ℕ} (hn : n ≠ 0) (count : ℕ) :
    Nat.toDigits 10 (n * 10 ^ count) = Nat.toDigits 10 n ++ List.replicate count '0' := by
  induction count with
  | zero => simp
  | succ count ih =>
    have hpos : 0 < n * 10 ^ count := by positivity
    have hstep := Nat.toDigits_append_toDigits (by decide : 1 < 10) hpos (by decide : 0 < 10)
    rw [show n * 10 ^ (count + 1) = 10 * (n * 10 ^ count) + 0 by ring, ← hstep, ih, List.append_assoc,
      Nat.toDigits_zero, List.replicate_succ']

/-- Zeros at the end of the digits can be given to the power of ten instead. -/
theorem ofDecimal_shift (neg : Bool) (digits count : ℕ) (exponent : ℤ) :
    ofDecimal neg (digits * 10 ^ count) (exponent - count) = ofDecimal neg digits exponent := by
  by_cases hdigits : digits = 0
  · simp [ofDecimal, hdigits]
  · have hshifted : digits * 10 ^ count ≠ 0 := by positivity
    have hsize : size (digits * 10 ^ count) (exponent - count) = size digits exponent := by
      rw [size, size, toDigits_shift hdigits, List.length_append, List.length_replicate]
      push_cast
      ring
    by_cases hlow : -400 ≤ size digits exponent
    · by_cases hhigh : size digits exponent ≤ 400
      · rw [ofDecimal_eq hshifted (hsize ▸ hlow) (hsize ▸ hhigh), ofDecimal_eq hdigits hlow hhigh]
        congr 1
        push_cast
        rw [mul_assoc, ← zpow_natCast, ← zpow_add₀ (by norm_num)]
        congr 2
        omega
      · unfold size at hlow hhigh hsize
        rw [ofDecimal, ofDecimal, if_neg (by omega), if_pos (by omega), if_neg (by omega),
          if_pos (by omega)]
    · unfold size at hlow hsize
      rw [ofDecimal, ofDecimal, if_pos (by omega), if_pos (by omega)]

/-! ### Numbers near a double -/

/-- Whether a significand and an exponent are the one form of a double. -/
structure Formed (m : ℕ) (e : ℤ) : Prop where
  below : m < 2 ^ 53
  least : minExponent ≤ e
  most : e ≤ maxExponent
  full : 2 ^ 52 ≤ m ∨ e = minExponent

instance (m : ℕ) (e : ℤ) : Decidable (Formed m e) :=
  decidable_of_iff (m < 2 ^ 53 ∧ minExponent ≤ e ∧ e ≤ maxExponent ∧ (2 ^ 52 ≤ m ∨ e = minExponent))
    ⟨fun ⟨hbelow, hleast, hmost, hfull⟩ => ⟨hbelow, hleast, hmost, hfull⟩,
      fun h => ⟨h.below, h.least, h.most, h.full⟩⟩

theorem carried_of_lt {m : ℕ} {e : ℤ} (hm : m < 2 ^ 53) (he : e ≤ maxExponent) (neg : Bool) :
    carried neg m e = .finite neg m e := by
  have hne : m ≠ .pow 2 precision := Nat.ne_of_lt hm
  rw [carried, if_neg hne, bounded, if_neg (not_lt.mpr he)]

theorem carried_full {e : ℤ} (he : e + 1 ≤ maxExponent) (neg : Bool) :
    carried neg (2 ^ 53) e = .finite neg (2 ^ 52) (e + 1) := by
  have hfull : 2 ^ 53 = Nat.pow 2 precision := by decide
  rw [carried, if_pos hfull, bounded, if_neg (not_lt.mpr he)]
  rfl

/-- A number whose distance from a double is less than one part in 2^54 is rounded to it. -/
theorem round_near {m : ℕ} {e : ℤ} {r : ℚ} (h : Formed m e) (hm : m ≠ 0)
    (hnear : |r - m * 2 ^ e| * 2 ^ 54 < m * 2 ^ e) (neg : Bool) : round neg r = .finite neg m e := by
  have htwo : (2 : ℚ) ≠ 0 := by norm_num
  have hscale : (0 : ℚ) < 2 ^ e := by positivity
  obtain ⟨y, rfl⟩ : ∃ y : ℚ, r = y * 2 ^ e := ⟨r / 2 ^ e, by field_simp⟩
  have hy : |y - m| < m / 2 ^ 54 := by
    rw [← sub_mul, abs_mul, abs_of_pos hscale] at hnear
    rw [lt_div_iff₀ (by positivity)]
    nlinarith
  have hone : (1 : ℚ) ≤ m := by exact_mod_cast Nat.one_le_iff_ne_zero.mpr hm
  have hbelow : (m : ℚ) + 1 ≤ 2 ^ 53 := by exact_mod_cast h.below
  obtain ⟨hlow, hhigh⟩ := abs_lt.mp hy
  have hypos : 0 < y := by linarith
  have hr : y * 2 ^ e ≠ 0 := by positivity
  have hpower : ∀ k : ℕ, (2 : ℚ) ^ k * 2 ^ e = 2 ^ (e + k) := fun k => by
    rw [← zpow_natCast, ← zpow_add₀ htwo, add_comm]
  -- Below the power of two at which the significands begin, the numbers are rounded twice as finely.
  by_cases hfull : e = minExponent ∨ 2 ^ 52 ≤ y
  · have hexponent : exponentAt (y * 2 ^ e) = e := by
      have hless : y * 2 ^ e < 2 ^ (e + 52 + 1) := by
        rw [show e + 52 + 1 = e + (53 : ℕ) by norm_num; ring, ← hpower]
        exact mul_lt_mul_of_pos_right (by linarith) hscale
      rcases hfull with heq | hle
      · have hlog : Int.log 2 (y * 2 ^ e) < e + 52 + 1 :=
          (Int.lt_zpow_iff_log_lt (by decide) (by positivity)).mp (by exact_mod_cast hless)
        rw [exponentAt, ← heq]
        omega
      · have hmore : (2 : ℚ) ^ (e + 52) ≤ y * 2 ^ e := by
          rw [show e + 52 = e + (52 : ℕ) by norm_num, ← hpower]
          exact mul_le_mul_of_nonneg_right hle hscale.le
        rw [exponentAt, log_eq hmore hless, add_sub_cancel_right]
        exact max_eq_left h.least
    have hnearest : nearest y = m := nearest_eq hypos.le (by linarith)
    rw [round, if_neg hr, hexponent, mul_div_cancel_right₀ y hscale.ne', hnearest,
      carried_of_lt h.below h.most]
  · obtain ⟨hleast, hsmall⟩ := not_or.mp hfull
    have hsmall : y < 2 ^ 52 := not_le.mp hsmall
    obtain rfl : m = 2 ^ 52 := by
      have hge := h.full.resolve_right hleast
      have hle : (m : ℚ) < 2 ^ 52 + 1 := by linarith
      have hle : m < 2 ^ 52 + 1 := by exact_mod_cast hle
      omega
    push_cast at hlow hhigh
    have hexponent : exponentAt (y * 2 ^ e) = e - 1 := by
      have hless : y * 2 ^ e < 2 ^ (e + 51 + 1) := by
        rw [show e + 51 + 1 = e + (52 : ℕ) by norm_num; ring, ← hpower]
        exact mul_lt_mul_of_pos_right hsmall hscale
      have hmore : (2 : ℚ) ^ (e + 51) ≤ y * 2 ^ e := by
        rw [show e + 51 = e + (51 : ℕ) by norm_num, ← hpower]
        exact mul_le_mul_of_nonneg_right (by linarith) hscale.le
      rw [exponentAt, log_eq hmore hless]
      have := h.least
      omega
    have hhalf : y * 2 ^ e / 2 ^ (e - 1) = 2 * y := by
      rw [zpow_sub_one₀ htwo]
      field_simp
    have hnearest : nearest (2 * y) = 2 ^ 53 := by
      refine nearest_eq (by linarith) (abs_lt.mpr ⟨?_, ?_⟩)
      · push_cast
        linarith
      · push_cast
        linarith
    have hmost : e - 1 + 1 ≤ maxExponent := by
      have := h.most
      omega
    rw [round, if_neg hr, hexponent, hhalf, hnearest, carried_full hmost, sub_add_cancel]

/-- Whether a double is in its one form. -/
def HasForm : Double → Prop
  | .finite _ m e => Formed m e
  | _ => True

instance : DecidablePred HasForm
  | .finite _ m e => inferInstanceAs (Decidable (Formed m e))
  | .infinite _ => .isTrue trivial
  | .nan => .isTrue trivial

theorem nearest_le {r : ℚ} {n : ℕ} (hr : 0 ≤ r) (h : r < n) : nearest r ≤ n := by
  have hfloor : ⌊r⌋₊ < n := (Nat.floor_lt hr).mpr h
  unfold nearest
  split <;> omega

theorem le_nearest {r : ℚ} {n : ℕ} (h : n ≤ r) : n ≤ nearest r := by
  have hfloor : n ≤ ⌊r⌋₊ := Nat.le_floor h
  unfold nearest
  split <;> omega

theorem hasForm_bounded {m : ℕ} {e : ℤ} (hm : m < 2 ^ 53) (he : minExponent ≤ e)
    (hfull : 2 ^ 52 ≤ m ∨ e = minExponent) (neg : Bool) : (bounded neg m e).HasForm := by
  unfold bounded
  split
  · trivial
  · rename_i hmost
    exact ⟨hm, he, not_lt.mp hmost, hfull⟩

/-- What is rounded is in its one form. -/
theorem hasForm_round {r : ℚ} (hr : 0 ≤ r) (neg : Bool) : (round neg r).HasForm := by
  unfold round
  split
  · exact ⟨by decide, le_rfl, by decide, .inr rfl⟩
  rename_i hne
  have htwo : (2 : ℚ) ≠ 0 := by norm_num
  have hpos : 0 < r := lt_of_le_of_ne hr (Ne.symm hne)
  obtain ⟨e, he⟩ : ∃ e, e = exponentAt r := ⟨_, rfl⟩
  have hscale : (0 : ℚ) < 2 ^ e := by positivity
  have hleast : minExponent ≤ e := he ▸ le_max_right _ _
  have hlog : Int.log 2 r - 52 ≤ e := he ▸ le_max_left _ _
  have hbelow : r / 2 ^ e < (2 ^ 53 : ℕ) := by
    rw [div_lt_iff₀ hscale]
    calc r < 2 ^ (Int.log 2 r + 1) := by exact_mod_cast Int.lt_zpow_succ_log_self (by decide) r
      _ ≤ 2 ^ (53 + e) := zpow_le_zpow_right₀ (by norm_num) (by omega)
      _ = (2 ^ 53 : ℕ) * 2 ^ e := by rw [zpow_add₀ htwo]; norm_cast
  have hfull : 2 ^ 52 ≤ nearest (r / 2 ^ e) ∨ e = minExponent := by
    by_cases hmin : e = minExponent
    · exact .inr hmin
    · have hexponent : e = Int.log 2 r - 52 := by
        unfold exponentAt at he
        omega
      refine .inl (le_nearest ?_)
      rw [le_div_iff₀ hscale]
      calc ((2 ^ 52 : ℕ) : ℚ) * 2 ^ e = 2 ^ (52 + e) := by rw [zpow_add₀ htwo]; norm_cast
        _ = 2 ^ Int.log 2 r := by rw [hexponent]; ring_nf
        _ ≤ r := by exact_mod_cast Int.zpow_log_le_self (by decide) hpos
  have hle : nearest (r / 2 ^ e) ≤ 2 ^ 53 := nearest_le (by positivity) hbelow
  rw [← he]
  unfold carried
  split
  · exact hasForm_bounded (by decide) (by omega) (.inl le_rfl) neg
  · rename_i hne
    exact hasForm_bounded (lt_of_le_of_ne hle hne) hleast hfull neg

theorem hasForm_ofDecimal (neg : Bool) (digits : ℕ) (exponent : ℤ) :
    (ofDecimal neg digits exponent).HasForm := by
  have hzero : (zero neg).HasForm := ⟨by decide, le_rfl, by decide, .inr rfl⟩
  by_cases hdigits : digits = 0
  · rw [ofDecimal, if_pos (.inl hdigits)]
    exact hzero
  by_cases hlow : -400 ≤ size digits exponent
  · by_cases hhigh : size digits exponent ≤ 400
    · rw [ofDecimal_eq hdigits hlow hhigh]
      exact hasForm_round (by positivity) neg
    · unfold size at hlow hhigh
      rw [ofDecimal, if_neg (by omega), if_pos (by omega)]
      trivial
  · unfold size at hlow
    rw [ofDecimal, if_pos (by omega)]
    exact hzero

/-! ### Signs -/

theorem bounded_of_pos {k m : ℕ} {x e : ℤ} (h : bounded false k x = .finite false m e) (neg : Bool) :
    bounded neg k x = .finite neg m e := by
  unfold bounded at h ⊢
  split at h
  · cases h
  · rename_i hx
    cases h
    rw [if_neg hx]

theorem carried_of_pos {k m : ℕ} {x e : ℤ} (h : carried false k x = .finite false m e) (neg : Bool) :
    carried neg k x = .finite neg m e := by
  unfold carried at h ⊢
  split at h
  · rename_i hk
    rw [if_pos hk]
    exact bounded_of_pos h neg
  · rename_i hk
    rw [if_neg hk]
    exact bounded_of_pos h neg

theorem ofRatio_of_pos {num den m : ℕ} {e : ℤ} (h : ofRatio false num den = .finite false m e)
    (neg : Bool) : ofRatio neg num den = .finite neg m e := by
  unfold ofRatio at h ⊢
  split at h
  · rename_i hnum
    cases h
    rw [if_pos hnum]
    rfl
  · rename_i hnum
    rw [if_neg hnum]
    exact carried_of_pos h neg

/-- The sign has no part in rounding. -/
theorem ofDecimal_of_pos {digits m : ℕ} {exponent e : ℤ}
    (h : ofDecimal false digits exponent = .finite false m e) (neg : Bool) :
    ofDecimal neg digits exponent = .finite neg m e := by
  unfold ofDecimal at h ⊢
  simp only at h ⊢
  split at h
  · rename_i hzero
    cases h
    rw [if_pos hzero]
    rfl
  · rename_i hzero
    rw [if_neg hzero]
    split at h
    · cases h
    · rename_i hlarge
      rw [if_neg hlarge]
      split at h
      · rename_i hexponent
        rw [if_pos hexponent]
        exact ofRatio_of_pos h neg
      · rename_i hexponent
        rw [if_neg hexponent]
        exact ofRatio_of_pos h neg

end ApiRecords.Double
