import ApiRecords.Number.Shortest
import ApiRecords.Proofs.Numbers.Rounding

/-!
The shortest decimal of a double reads back as the double. Seventeen digits are always enough: on the
grid of so many digits there is a number within one part in 2^54.
-/

namespace ApiRecords.Double

/-! ### Grids of powers of ten -/

/-- A number over a power of ten: the point of the grid below it, and the rest. -/
theorem gridPoint_eq (num : ℕ) {den : ℕ} (hden : 0 < den) (u : ℤ) :
    0 < (gridPoint num den u).2.2 ∧ (gridPoint num den u).2.1 < (gridPoint num den u).2.2 ∧
      (num : ℚ) / den / 10 ^ u =
        (gridPoint num den u).1 + ((gridPoint num den u).2.1 : ℚ) / (gridPoint num den u).2.2 := by
  have hsplit : ∀ n d : ℕ, 0 < d → (n : ℚ) / d = ↑(n / d) + (↑(n % d) : ℚ) / d := fun n d hd => by
    have hd' : (d : ℚ) ≠ 0 := by exact_mod_cast hd.ne'
    have hsum : (n : ℚ) = d * ↑(n / d) + ↑(n % d) := by exact_mod_cast (Nat.div_add_mod n d).symm
    field_simp
    linarith
  by_cases hu : 0 ≤ u
  · obtain ⟨n, rfl⟩ := Int.eq_ofNat_of_zero_le hu
    have hd : 0 < den * 10 ^ n := by positivity
    rw [gridPoint, if_pos hu]
    refine ⟨hd, Nat.mod_lt _ hd, Eq.trans ?_ (hsplit num (den * 10 ^ n) hd)⟩
    simp [div_div]
  · obtain ⟨n, hn⟩ := Int.eq_ofNat_of_zero_le (show 0 ≤ -u by omega)
    have hnat : (-u).toNat = n := by omega
    rw [gridPoint, if_neg hu, hnat]
    obtain rfl : u = -n := by omega
    refine ⟨hden, Nat.mod_lt _ hden, Eq.trans ?_ (hsplit (num * 10 ^ n) den hden)⟩
    push_cast
    rw [zpow_neg, zpow_natCast, div_inv_eq_mul]
    ring

theorem pow_le_of_gridPoint {num den : ℕ} (hden : 0 < den) {u : ℤ} (h : (gridPoint num den u).1 ≠ 0) :
    (10 : ℚ) ^ u ≤ num / den := by
  obtain ⟨-, -, heq⟩ := gridPoint_eq num hden u
  have hone : (1 : ℚ) ≤ (gridPoint num den u).1 := by exact_mod_cast Nat.one_le_iff_ne_zero.mpr h
  have hrest : (0 : ℚ) ≤ ((gridPoint num den u).2.1 : ℚ) / (gridPoint num den u).2.2 := by positivity
  have hle : 1 ≤ (num : ℚ) / den / 10 ^ u := by linarith
  rwa [le_div_iff₀ (by positivity), one_mul] at hle

/-! ### The leading digit -/

/-- The estimate of the leading exponent is never too large by more than one. -/
theorem estimate_le {x : ℤ} (hlow : -1074 ≤ x) (hhigh : x ≤ 1023) :
    (10 : ℚ) ^ (x * 30103 / 100000 - 1) ≤ 2 ^ (x - 1) := by
  have hup : ∀ n < 1024, 10 ^ (n * 30103 / 100000) * 2 ≤ 2 ^ n * 10 := by decide +kernel
  have hdown : ∀ n < 1075, 2 ^ (n + 1) ≤ 10 ^ ((n * 30103 + 99999) / 100000 + 1) := by decide +kernel
  rcases le_total 0 x with hx | hx
  · obtain ⟨n, rfl⟩ := Int.eq_ofNat_of_zero_le hx
    have hn : (10 : ℚ) ^ (n * 30103 / 100000) * 2 ≤ 2 ^ n * 10 := by
      exact_mod_cast hup n (by omega)
    have hcast : (n : ℤ) * 30103 / 100000 = ↑(n * 30103 / 100000) := by omega
    rw [hcast, zpow_sub_one₀ (by norm_num), zpow_sub_one₀ (by norm_num), zpow_natCast, zpow_natCast]
    linarith
  · obtain ⟨n, hn⟩ := Int.eq_ofNat_of_zero_le (show 0 ≤ -x by omega)
    obtain rfl : x = -n := by omega
    have hcast : -(n : ℤ) * 30103 / 100000 - 1 = -↑((n * 30103 + 99999) / 100000 + 1) := by omega
    have hcast' : -(n : ℤ) - 1 = -↑(n + 1) := by omega
    rw [hcast, hcast', zpow_neg, zpow_neg, zpow_natCast, zpow_natCast]
    exact inv_anti₀ (by positivity) (by exact_mod_cast hdown n (by omega))

theorem pow_leadingExponent_le {num den : ℕ} (hnum : num ≠ 0) (hden : 0 < den)
    (hlow : -1074 ≤ (num.log2 : ℤ) - den.log2) (hhigh : (num.log2 : ℤ) - den.log2 ≤ 1023) :
    (10 : ℚ) ^ leadingExponent num den ≤ num / den := by
  unfold leadingExponent
  simp only
  split
  · rename_i h
    exact pow_le_of_gridPoint hden h
  · split
    · rename_i h
      exact pow_le_of_gridPoint hden h
    · obtain ⟨hnumlow, -⟩ := log2_bounds hnum
      obtain ⟨-, hdenhigh⟩ := log2_bounds hden.ne'
      refine (estimate_le hlow hhigh).trans ?_
      rw [le_div_iff₀ (by exact_mod_cast hden)]
      calc (2 : ℚ) ^ ((num.log2 : ℤ) - den.log2 - 1) * den
          ≤ 2 ^ ((num.log2 : ℤ) - den.log2 - 1) * 2 ^ (den.log2 + 1 : ℤ) := by gcongr
        _ = 2 ^ (num.log2 : ℤ) := by rw [← zpow_add₀ (by norm_num)]; congr 1; omega
        _ ≤ num := hnumlow

/-! ### The decimals of a double -/

theorem decimalOf?_reads {m count : ℕ} {e : ℤ} {d : Decimal} (h : decimalOf? m e count = some d) :
    ofDecimal false d.digits d.exponent = .finite false m e := by
  simp only [decimalOf?, Option.map_eq_some_iff] at h
  obtain ⟨k, hk, rfl⟩ := h
  simpa using List.find?_some hk

/-- The significand and the exponent as a ratio. -/
theorem ratio_eq (m : ℕ) (e : ℤ) :
    0 < (ratio m e).2 ∧ ((ratio m e).1 : ℚ) / (ratio m e).2 = m * 2 ^ e := by
  by_cases he : 0 ≤ e
  · obtain ⟨n, rfl⟩ := Int.eq_ofNat_of_zero_le he
    simp [ratio]
  · obtain ⟨n, hn⟩ := Int.eq_ofNat_of_zero_le (show 0 ≤ -e by omega)
    obtain rfl : e = -n := by omega
    rw [ratio, if_neg he]
    refine ⟨Nat.pow_pos (by decide), ?_⟩
    simp [div_eq_mul_inv]

theorem log2_ratio {m : ℕ} {e : ℤ} (h : Formed m e) (hm : m ≠ 0) : (ratio m e).1 ≠ 0 ∧
    -1074 ≤ ((ratio m e).1.log2 : ℤ) - (ratio m e).2.log2 ∧
      ((ratio m e).1.log2 : ℤ) - (ratio m e).2.log2 ≤ 1023 := by
  have hleast : -1074 ≤ e := h.least
  have hmost : e ≤ 971 := h.most
  by_cases he : 0 ≤ e
  · obtain ⟨n, rfl⟩ := Int.eq_ofNat_of_zero_le he
    have hnum : m * 2 ^ n ≠ 0 := by positivity
    have hlog : (m * 2 ^ n).log2 < 53 + n := by
      rw [Nat.log2_lt hnum, pow_add]
      exact Nat.mul_lt_mul_of_pos_right h.below (by positivity)
    have hone : Nat.log2 1 = 0 := by decide
    rw [ratio, if_pos he]
    refine ⟨hnum, ?_, ?_⟩
    all_goals
      simp only [hone, Int.toNat_natCast, Nat.pow_eq]
      omega
  · obtain ⟨n, hn⟩ := Int.eq_ofNat_of_zero_le (show 0 ≤ -e by omega)
    have hnat : (-e).toNat = n := by omega
    have hlog : m.log2 < 53 := (Nat.log2_lt hm).mpr h.below
    rw [ratio, if_neg he, hnat]
    refine ⟨hm, ?_, ?_⟩
    all_goals
      simp only [Nat.pow_eq, Nat.log2_two_pow]
      omega

/-- One of the two neighbours on the grid is nearest, and the search begins with it. -/
theorem decimalOf?_isSome {m count : ℕ} {e u : ℤ}
    (hu : u = leadingExponent (ratio m e).1 (ratio m e).2 - count + 1)
    (hnear : ∀ k : ℕ, |(m : ℚ) * 2 ^ e / 10 ^ u - k| ≤ 1 / 2 → ofDecimal false k u = .finite false m e) :
    (decimalOf? m e count).isSome := by
  obtain ⟨hden, hratio⟩ := ratio_eq m e
  obtain ⟨hd, hlt, hpoint⟩ := gridPoint_eq (ratio m e).1 hden u
  rw [hratio] at hpoint
  simp only [decimalOf?, ← hu, Option.isSome_map, List.find?_isSome]
  generalize gridPoint (ratio m e).1 (ratio m e).2 u = point at hd hlt hpoint
  obtain ⟨low, rest, d⟩ := point
  simp only at hd hlt hpoint ⊢
  have hd' : (0 : ℚ) < d := by exact_mod_cast hd
  by_cases horder : 2 * rest < d ∨ 2 * rest = d ∧ low % 2 = 0
  · have hrest : (rest : ℚ) / d ≤ 1 / 2 := by
      have hle : 2 * (rest : ℚ) ≤ d := by exact_mod_cast horder.elim Nat.le_of_lt (·.1.le)
      rw [div_le_iff₀ hd']
      linarith
    have hpos : (0 : ℚ) ≤ rest / d := by positivity
    rw [if_pos horder]
    refine ⟨low, List.mem_cons_self, decide_eq_true (hnear low ?_)⟩
    rw [hpoint, add_sub_cancel_left, abs_of_nonneg hpos]
    exact hrest
  · have hrest : (1 : ℚ) / 2 ≤ rest / d := by
      have hle : (d : ℚ) ≤ 2 * rest := by exact_mod_cast Nat.not_lt.mp (not_or.mp horder).1
      rw [le_div_iff₀ hd']
      linarith
    have hone : (rest : ℚ) / d ≤ 1 := by
      have hlt : (rest : ℚ) ≤ d := by exact_mod_cast hlt.le
      rwa [div_le_one hd']
    rw [if_neg horder]
    refine ⟨low + 1, List.mem_cons_self, decide_eq_true (hnear (low + 1) ?_)⟩
    rw [hpoint, abs_le]
    push_cast
    constructor <;> linarith

theorem formed_bounds {m : ℕ} {e : ℤ} (h : Formed m e) (hm : m ≠ 0) :
    (2 : ℚ) ^ (-1074 : ℤ) ≤ m * 2 ^ e ∧ (m : ℚ) * 2 ^ e < 2 ^ (1024 : ℤ) := by
  have hone : (1 : ℚ) ≤ m := by exact_mod_cast Nat.one_le_iff_ne_zero.mpr hm
  have hbelow : (m : ℚ) < 2 ^ (53 : ℤ) := by exact_mod_cast h.below
  constructor
  · calc (2 : ℚ) ^ (-1074 : ℤ) ≤ 2 ^ e := zpow_le_zpow_right₀ (by norm_num) h.least
      _ ≤ m * 2 ^ e := le_mul_of_one_le_left (by positivity) hone
  · calc (m : ℚ) * 2 ^ e < 2 ^ (53 : ℤ) * 2 ^ e := by gcongr
      _ = 2 ^ (53 + e) := (zpow_add₀ (by norm_num) 53 e).symm
      _ ≤ 2 ^ (1024 : ℤ) := zpow_le_zpow_right₀ (by norm_num) (by have : e ≤ 971 := h.most; omega)

theorem digits_bounds {k : ℕ} (hk : k ≠ 0) : (10 : ℚ) ^ ((Nat.toDigits 10 k).length - 1 : ℤ) ≤ k ∧
    (k : ℚ) < 10 ^ ((Nat.toDigits 10 k).length : ℤ) := by
  have hpos : 0 < (Nat.toDigits 10 k).length := Nat.length_toDigits_pos
  obtain ⟨n, hn⟩ : ∃ n, (Nat.toDigits 10 k).length = n + 1 := Nat.exists_eq_add_one_of_ne_zero hpos.ne'
  have hhigh : k < 10 ^ (n + 1) :=
    (Nat.length_toDigits_le_iff (by decide) (Nat.succ_pos n)).mp hn.le
  have hlow : 10 ^ n ≤ k := by
    cases n with
    | zero => exact Nat.one_le_iff_ne_zero.mpr hk
    | succ n =>
      have hiff := Nat.length_toDigits_le_iff (n := k) (by decide : 1 < 10) (Nat.succ_pos n)
      exact Nat.not_lt.mp fun hlt => absurd (hiff.mpr hlt) (by omega)
  rw [hn]
  push_cast
  rw [add_sub_cancel_right]
  exact ⟨by exact_mod_cast hlow, by exact_mod_cast hhigh⟩

theorem two_pow_le : (2 : ℚ) ^ (1075 : ℤ) ≤ 10 ^ (400 : ℤ) := by
  have hle : 2 ^ 1075 ≤ 10 ^ 400 := by decide +kernel
  exact_mod_cast hle

/-- Numbers of the size of doubles are not taken for ones out of the range. -/
theorem size_bounds {k : ℕ} {u : ℤ} (hk : k ≠ 0) (hlow : (2 : ℚ) ^ (-1074 : ℤ) / 2 ≤ k * 10 ^ u)
    (hhigh : (k : ℚ) * 10 ^ u < 2 ^ (1024 : ℤ) * 2) : -400 ≤ size k u ∧ size k u ≤ 400 := by
  obtain ⟨hfirst, hlast⟩ := digits_bounds hk
  have hten : (10 : ℚ) ≠ 0 := by norm_num
  have htwo : (2 : ℚ) ≠ 0 := by norm_num
  have hpos : (0 : ℚ) < 10 ^ u := by positivity
  constructor
  · by_contra hsize
    refine absurd hlow (not_le.mpr ?_)
    calc (k : ℚ) * 10 ^ u < 10 ^ ((Nat.toDigits 10 k).length : ℤ) * 10 ^ u := by gcongr
      _ = 10 ^ size k u := (zpow_add₀ hten _ _).symm
      _ ≤ 10 ^ (-400 : ℤ) := zpow_le_zpow_right₀ (by norm_num) (by omega)
      _ ≤ 2 ^ (-1075 : ℤ) := by
        rw [zpow_neg, zpow_neg]
        exact inv_anti₀ (by positivity) two_pow_le
      _ = 2 ^ (-1074 : ℤ) / 2 := by rw [div_eq_mul_inv, ← zpow_sub_one₀ htwo]; rfl
  · by_contra hsize
    refine absurd hhigh (not_lt.mpr ?_)
    calc (2 : ℚ) ^ (1024 : ℤ) * 2 = 2 ^ (1025 : ℤ) := by rw [← zpow_add_one₀ htwo]; rfl
      _ ≤ 2 ^ (1075 : ℤ) := zpow_le_zpow_right₀ (by norm_num) (by decide)
      _ ≤ 10 ^ (400 : ℤ) := two_pow_le
      _ ≤ 10 ^ (((Nat.toDigits 10 k).length - 1 : ℤ) + u) :=
        zpow_le_zpow_right₀ (by norm_num) (by unfold size at hsize; omega)
      _ = 10 ^ ((Nat.toDigits 10 k).length - 1 : ℤ) * 10 ^ u := zpow_add₀ hten _ _
      _ ≤ k * 10 ^ u := by gcongr

/-- Seventeen digits are enough. -/
theorem decimalOf?_seventeen {m : ℕ} {e : ℤ} (h : Formed m e) (hm : m ≠ 0) :
    (decimalOf? m e 17).isSome := by
  obtain ⟨hden, hratio⟩ := ratio_eq m e
  obtain ⟨hnum, hlow, hhigh⟩ := log2_ratio h hm
  have hleading := pow_leadingExponent_le hnum hden hlow hhigh
  rw [hratio] at hleading
  obtain ⟨hleast, hmost⟩ := formed_bounds h hm
  obtain ⟨u, hu⟩ : ∃ u : ℤ, u = leadingExponent (ratio m e).1 (ratio m e).2 - (17 : ℕ) + 1 := ⟨_, rfl⟩
  have hgrid : (10 : ℚ) ^ u * 10 ^ 16 ≤ m * 2 ^ e := by
    rw [← zpow_natCast, ← zpow_add₀ (by norm_num)]
    convert hleading using 2
    omega
  have hpos : (0 : ℚ) < 10 ^ u := by positivity
  refine decimalOf?_isSome hu fun k hk => ?_
  have hnear : |(k : ℚ) * 10 ^ u - m * 2 ^ e| ≤ 10 ^ u / 2 := calc
    |(k : ℚ) * 10 ^ u - m * 2 ^ e| = |(m : ℚ) * 2 ^ e / 10 ^ u - k| * 10 ^ u := by
      rw [abs_sub_comm, ← abs_of_pos hpos, ← abs_mul, abs_of_pos hpos, sub_mul,
        div_mul_cancel₀ _ hpos.ne']
    _ ≤ 1 / 2 * 10 ^ u := by gcongr
    _ = 10 ^ u / 2 := by ring
  obtain ⟨hbelow, habove⟩ := abs_le.mp hnear
  have hleast' : (0 : ℚ) < 2 ^ (-1074 : ℤ) := by positivity
  have hk : k ≠ 0 := by
    rintro rfl
    push_cast at hbelow
    linarith
  have hmost' : (k : ℚ) * 10 ^ u < 2 ^ (1024 : ℤ) * 2 := by
    generalize (2 : ℚ) ^ (1024 : ℤ) = bound at hmost ⊢
    linarith
  obtain ⟨hsmall, hlarge⟩ := size_bounds hk (by linarith) hmost'
  rw [ofDecimal_eq hk hsmall hlarge]
  refine round_near h hm ?_ false
  linarith

/-- The shortest decimal reads back. -/
theorem shortest_reads {m : ℕ} {e : ℤ} (h : Formed m e) (hm : m ≠ 0) :
    ofDecimal false (shortest m e).digits (shortest m e).exponent = .finite false m e := by
  have hsome : ((List.range 17).findSome? fun k => decimalOf? m e (k + 1)).isSome := by
    rw [List.isSome_findSome?, List.any_eq_true]
    exact ⟨16, by decide, decimalOf?_seventeen h hm⟩
  obtain ⟨d, hd⟩ := Option.isSome_iff_exists.mp hsome
  obtain ⟨k, -, hk⟩ := List.exists_of_findSome?_eq_some hd
  rw [shortest, hd]
  exact decimalOf?_reads hk

end ApiRecords.Double
