/-
Rounding to `double`: a real number becomes the nearest one of 53 binary digits, on a tie the one
whose last digit is even (`round`). It is found by its distance (`round_eq`), numbers of 53 digits
stay as they are (`round_of_isDouble`), the order is kept (`round_mono`), and a number changes by at
most one part in `2 ^ 53` (`abs_round_sub_le`). An integer is reached from half a unit below it and no
farther (`round_lt_intCast_iff`). Exponents are unbounded.
-/
import Mathlib

namespace Binary64

/-! ## Nearest integers -/

/-- The nearest integer, the even one of two. -/
noncomputable def nearestEven (r : ℝ) : ℤ :=
  if Int.fract r < 1 - Int.fract r then ⌊r⌋
  else if 1 - Int.fract r < Int.fract r then ⌊r⌋ + 1
  else if Even ⌊r⌋ then ⌊r⌋ else ⌊r⌋ + 1

/-- `n` is nearest to `r`, and even if another integer is as near. -/
def IsNearest (r : ℝ) (n : ℤ) : Prop := |r - n| < 1 / 2 ∨ |r - n| = 1 / 2 ∧ Even n

theorem IsNearest.dist_le {r : ℝ} {n : ℤ} (h : IsNearest r n) : |r - n| ≤ 1 / 2 := by
  rcases h with h | ⟨h, -⟩
  exacts [h.le, h.le]

theorem IsNearest.unique {r : ℝ} {n m : ℤ} (hn : IsNearest r n) (hm : IsNearest r m) : n = m := by
  obtain ⟨n1, n2⟩ := abs_le.1 hn.dist_le
  obtain ⟨m1, m2⟩ := abs_le.1 hm.dist_le
  by_contra hne
  wlog hlt : n < m generalizing n m
  · exact this hm hn m1 m2 n1 n2 (Ne.symm hne) (by omega)
  have hle : (n : ℝ) + 1 ≤ m := by exact_mod_cast hlt
  -- they are a unit apart with `r` in the middle, so both would have to be even
  have hmid : r - n = 1 / 2 := by linarith
  have hmid' : r - m = -(1 / 2) := by linarith
  have hsucc : m = n + 1 := by
    have : (m : ℝ) = n + 1 := by linarith
    exact_mod_cast this
  have heven : ∀ k : ℤ, IsNearest r k → |r - k| = 1 / 2 → Even k := fun k hk hdist =>
    (hk.resolve_left hdist.not_lt).2
  have h1 := heven n hn (by rw [hmid]; norm_num)
  have h2 := heven m hm (by rw [hmid']; norm_num)
  rw [hsucc, Int.even_add_one] at h2
  exact h2 h1

theorem isNearest_nearestEven (r : ℝ) : IsNearest r (nearestEven r) := by
  have hr := Int.floor_add_fract r
  have h0 := Int.fract_nonneg r
  have h1 := Int.fract_lt_one r
  unfold nearestEven IsNearest
  split_ifs with hlow hhigh heven
  · left
    rw [abs_lt]
    constructor <;> linarith
  · left
    push_cast
    rw [abs_lt]
    constructor <;> linarith
  · right
    refine ⟨?_, heven⟩
    rw [show r - ⌊r⌋ = 1 / 2 by linarith]
    norm_num
  · right
    refine ⟨?_, by rwa [Int.even_add_one]⟩
    push_cast
    rw [show r - (⌊r⌋ + 1) = -(1 / 2) by linarith]
    norm_num

theorem nearestEven_eq_iff {r : ℝ} {n : ℤ} : nearestEven r = n ↔ IsNearest r n :=
  ⟨fun h => h ▸ isNearest_nearestEven r, fun h => (isNearest_nearestEven r).unique h⟩

@[simp] theorem nearestEven_intCast (n : ℤ) : nearestEven n = n := nearestEven_eq_iff.2 (.inl (by simp))

theorem nearestEven_two_pow (n : ℕ) : nearestEven (2 ^ n) = 2 ^ n := by exact_mod_cast nearestEven_intCast (2 ^ n)

theorem nearestEven_neg (r : ℝ) : nearestEven (-r) = -nearestEven r := by
  have h := isNearest_nearestEven r
  rw [nearestEven_eq_iff]
  unfold IsNearest at h ⊢
  rwa [Int.cast_neg, ← neg_sub', abs_neg, even_neg]

theorem nearestEven_mono : Monotone nearestEven := by
  intro r s hrs
  by_contra hlt
  push Not at hlt
  have hle : (nearestEven s : ℝ) + 1 ≤ nearestEven r := by exact_mod_cast hlt
  have hr := (abs_le.1 (isNearest_nearestEven r).dist_le).1
  have hs := (abs_le.1 (isNearest_nearestEven s).dist_le).2
  have heq : r = s := by linarith
  rw [heq] at hlt
  exact lt_irrefl _ hlt

/-! ## Rounding -/

/-- The value of the last of 53 digits. -/
noncomputable def ulp (r : ℝ) : ℝ := ((2 : ℕ) : ℝ) ^ (Int.log 2 |r| - 52)

/-- A real number as a `double`. -/
noncomputable def round (r : ℝ) : ℝ := nearestEven (r / ulp r) * ulp r

/-- A number of 53 binary digits. -/
def IsDouble (r : ℝ) : Prop := ∃ m e : ℤ, |m| ≤ 2 ^ 53 ∧ r = m * 2 ^ e

theorem two_zpow_add (e : ℤ) (n : ℕ) : (2 : ℝ) ^ (e + n) = 2 ^ n * 2 ^ e := by
  rw [zpow_add₀ two_ne_zero, zpow_natCast, mul_comm]

theorem ulp_pos (r : ℝ) : 0 < ulp r := zpow_pos (by norm_num) _

theorem ulp_neg (r : ℝ) : ulp (-r) = ulp r := by
  rw [ulp, abs_neg, ulp]

/-- The size of a number in units of its last digit. -/
theorem le_div_ulp {r : ℝ} (hr : r ≠ 0) : 2 ^ 52 ≤ |r / ulp r| ∧ |r / ulp r| < 2 ^ 53 := by
  have hpos := abs_pos.2 hr
  have h1 := Int.zpow_log_le_self one_lt_two hpos
  have h2 := Int.lt_zpow_succ_log_self one_lt_two |r|
  have hulp : ulp r = 2 ^ (Int.log 2 |r| - 52) := by rw [ulp, Nat.cast_ofNat]
  rw [Nat.cast_ofNat] at h1 h2
  rw [abs_div, abs_of_pos (ulp_pos r), le_div_iff₀ (ulp_pos r), div_lt_iff₀ (ulp_pos r), hulp, ← two_zpow_add, ← two_zpow_add]
  constructor
  · rwa [show Int.log 2 |r| - 52 + (52 : ℕ) = Int.log 2 |r| by push_cast; ring]
  · rwa [show Int.log 2 |r| - 52 + (53 : ℕ) = Int.log 2 |r| + 1 by push_cast; ring]

theorem ulp_eq {r : ℝ} {e : ℤ} (hlo : 2 ^ (e + 52) ≤ |r|) (hhi : |r| < 2 ^ (e + 53)) : ulp r = 2 ^ e := by
  have hpos : 0 < |r| := lt_of_lt_of_le (zpow_pos two_pos _) hlo
  have h1 : e + 52 ≤ Int.log 2 |r| := (Int.zpow_le_iff_le_log one_lt_two hpos).1 (by simpa using hlo)
  have h2 : Int.log 2 |r| < e + 53 := (Int.lt_zpow_iff_log_lt one_lt_two hpos).1 (by simpa using hhi)
  rw [ulp, Nat.cast_ofNat, show Int.log 2 |r| - 52 = e by omega]

@[simp] theorem round_zero : round 0 = 0 := by
  have h : nearestEven 0 = 0 := by simpa using nearestEven_intCast 0
  rw [round, zero_div, h, Int.cast_zero, zero_mul]

theorem round_neg (r : ℝ) : round (-r) = -round r := by
  rw [round, ulp_neg, neg_div, nearestEven_neg, Int.cast_neg, neg_mul, round]

/-- Rounding, by the distance in units of the last digit. -/
theorem round_eq {r : ℝ} {e n : ℤ} (hlo : 2 ^ (e + 52) ≤ |r|) (hhi : |r| < 2 ^ (e + 53)) (h : IsNearest (r / 2 ^ e) n) :
    round r = n * 2 ^ e := by
  rw [round, ulp_eq hlo hhi, nearestEven_eq_iff.2 h]

theorem round_of_isDouble {r : ℝ} (h : IsDouble r) : round r = r := by
  obtain ⟨m, e, hm, rfl⟩ := h
  rcases eq_or_ne ((m : ℝ) * 2 ^ e) 0 with h0 | h0
  · rw [h0, round_zero]
  -- the last digit's value divides `2 ^ e`, or `2 ^ (e + 1)` where all digits are used up
  suffices h : ∃ n : ℤ, (m : ℝ) * 2 ^ e / ulp (m * 2 ^ e) = n by
    obtain ⟨n, hn⟩ := h
    rw [round, hn, nearestEven_intCast, ← hn, div_mul_cancel₀ _ (ulp_pos _).ne']
  have hm' : |(m : ℝ)| ≤ 2 ^ 53 := by exact_mod_cast hm
  have hpow : (0 : ℝ) < 2 ^ e := zpow_pos two_pos e
  have hpos : 0 < |(m : ℝ) * 2 ^ e| := abs_pos.2 h0
  have hlog := Int.zpow_log_le_self (R := ℝ) one_lt_two hpos
  rw [Nat.cast_ofNat] at hlog
  have habs : |(m : ℝ) * 2 ^ e| = |(m : ℝ)| * 2 ^ e := by rw [abs_mul, abs_of_pos hpow]
  have hle : Int.log 2 |(m : ℝ) * 2 ^ e| ≤ e + 53 := by
    have hbound : |(m : ℝ) * 2 ^ e| ≤ 2 ^ (e + (53 : ℕ)) := by
      rw [habs, two_zpow_add]
      gcongr
    exact (zpow_le_zpow_iff_right₀ one_lt_two).1 (hlog.trans hbound)
  have hulp : ulp ((m : ℝ) * 2 ^ e) = 2 ^ (Int.log 2 |(m : ℝ) * 2 ^ e| - 52) := by rw [ulp, Nat.cast_ofNat]
  rcases hle.lt_or_eq with hlt | heq
  · obtain ⟨k, hk⟩ : ∃ k : ℕ, e = Int.log 2 |(m : ℝ) * 2 ^ e| - 52 + k :=
      ⟨(e + 52 - Int.log 2 |(m : ℝ) * 2 ^ e|).toNat, by omega⟩
    refine ⟨m * 2 ^ k, ?_⟩
    rw [hulp, div_eq_iff (zpow_pos two_pos _).ne']
    conv_lhs => rw [hk, zpow_add₀ two_ne_zero, zpow_natCast]
    push_cast
    ring
  · have hfull : |(m : ℝ)| = 2 ^ 53 := by
      rw [heq, habs, show e + 53 = e + (53 : ℕ) by rfl, two_zpow_add] at hlog
      exact le_antisymm hm' (le_of_mul_le_mul_right hlog hpow)
    have hone : (2 : ℝ) ^ (Int.log 2 |(m : ℝ) * 2 ^ e| - 52) = 2 * 2 ^ e := by
      rw [heq, show e + 53 - 52 = e + (1 : ℕ) by push_cast; ring, two_zpow_add, pow_one]
    rw [hulp, hone]
    rcases abs_choice (m : ℝ) with hm1 | hm1
    · refine ⟨2 ^ 52, ?_⟩
      rw [← hm1, hfull]
      push_cast
      field_simp
      norm_num
    · refine ⟨-2 ^ 52, ?_⟩
      rw [← neg_neg (m : ℝ), ← hm1, hfull]
      push_cast
      field_simp
      norm_num

/-- What rounding gives has 53 digits. -/
theorem isDouble_round (r : ℝ) : IsDouble (round r) := by
  rcases eq_or_ne r 0 with rfl | hr
  · exact ⟨0, 0, by norm_num, by simp⟩
  refine ⟨nearestEven (r / ulp r), Int.log 2 |r| - 52, ?_, by rw [round, ulp, Nat.cast_ofNat]⟩
  have hlt := abs_lt.1 (le_div_ulp hr).2
  have hpow : nearestEven (-(2 ^ 53)) = -2 ^ 53 := by rw [nearestEven_neg, nearestEven_two_pow]
  rw [abs_le, ← hpow, ← nearestEven_two_pow 53]
  exact ⟨nearestEven_mono hlt.1.le, nearestEven_mono hlt.2.le⟩

@[simp] theorem round_round (r : ℝ) : round (round r) = round r := round_of_isDouble (isDouble_round r)

/-- Integers of 53 digits are doubles. -/
theorem round_intCast {n : ℤ} (h : |n| ≤ 2 ^ 53) : round n = n := round_of_isDouble ⟨n, 0, h, by simp⟩

theorem abs_round_sub_le (r : ℝ) : |round r - r| ≤ |r| / 2 ^ 53 := by
  rcases eq_or_ne r 0 with rfl | hr
  · simp
  have hpos := ulp_pos r
  have hnear := (isNearest_nearestEven (r / ulp r)).dist_le
  have hsize := (le_div_ulp hr).1
  have hscale : round r - r = (nearestEven (r / ulp r) - r / ulp r) * ulp r := by
    rw [round, sub_mul, div_mul_cancel₀ _ hpos.ne']
  rw [hscale, abs_mul, abs_of_pos hpos, abs_sub_comm]
  calc |r / ulp r - nearestEven (r / ulp r)| * ulp r
    _ ≤ |r / ulp r| / 2 ^ 53 * ulp r := by
      gcongr
      linarith
    _ = |r| / 2 ^ 53 := by
      rw [abs_div, abs_of_pos hpos]
      field_simp

/-- A number between two powers of two stays between them. -/
theorem round_mem {r : ℝ} {k : ℤ} (hlo : 2 ^ k ≤ r) (hhi : r < 2 ^ (k + 1)) : 2 ^ k ≤ round r ∧ round r ≤ 2 ^ (k + 1) := by
  have hpos : 0 < r := lt_of_lt_of_le (zpow_pos two_pos _) hlo
  have hulp : ulp r = 2 ^ (k - 52) := ulp_eq (by rwa [abs_of_pos hpos, sub_add_cancel])
    (by rwa [abs_of_pos hpos, show k - 52 + 53 = k + 1 by ring])
  have h1 : (2 : ℝ) ^ k = 2 ^ 52 * ulp r := by rw [hulp, ← two_zpow_add, show k - 52 + (52 : ℕ) = k by push_cast; ring]
  have h2 : (2 : ℝ) ^ (k + 1) = 2 ^ 53 * ulp r := by
    rw [hulp, ← two_zpow_add, show k - 52 + (53 : ℕ) = k + 1 by push_cast; ring]
  rw [h1] at hlo ⊢
  rw [h2] at hhi ⊢
  rw [round]
  constructor <;> apply mul_le_mul_of_nonneg_right _ (ulp_pos r).le
  · have hmono := nearestEven_mono ((le_div_iff₀ (ulp_pos r)).2 hlo)
    rw [nearestEven_two_pow] at hmono
    exact_mod_cast hmono
  · have hmono := nearestEven_mono ((div_lt_iff₀ (ulp_pos r)).2 hhi).le
    rw [nearestEven_two_pow] at hmono
    exact_mod_cast hmono

theorem round_nonneg {r : ℝ} (h : 0 ≤ r) : 0 ≤ round r := by
  have hle := nearestEven_mono (div_nonneg h (ulp_pos r).le)
  rw [show nearestEven 0 = 0 by simpa using nearestEven_intCast 0] at hle
  exact mul_nonneg (by exact_mod_cast hle) (ulp_pos r).le

theorem round_le_round {r s : ℝ} (hr : 0 < r) (h : r ≤ s) : round r ≤ round s := by
  have hs := hr.trans_le h
  have hpow : ∀ x : ℝ, 0 < x → 2 ^ Int.log 2 x ≤ x ∧ x < 2 ^ (Int.log 2 x + 1) := fun x hx => by
    have h1 := Int.zpow_log_le_self one_lt_two hx
    have h2 := Int.lt_zpow_succ_log_self one_lt_two x
    rw [Nat.cast_ofNat] at h1 h2
    exact ⟨h1, h2⟩
  rcases (Int.log_mono_right (b := 2) hr h).eq_or_lt with heq | hlt
  · have hulp : ulp r = ulp s := by rw [ulp, ulp, abs_of_pos hr, abs_of_pos hs, heq]
    rw [round, round, hulp]
    have hmono := nearestEven_mono (div_le_div_of_nonneg_right h (ulp_pos s).le)
    exact mul_le_mul_of_nonneg_right (by exact_mod_cast hmono) (ulp_pos s).le
  · -- a power of two lies between
    calc round r
      _ ≤ 2 ^ (Int.log 2 r + 1) := (round_mem (hpow r hr).1 (hpow r hr).2).2
      _ ≤ 2 ^ Int.log 2 s := zpow_le_zpow_right₀ one_le_two hlt
      _ ≤ round s := (round_mem (hpow s hs).1 (hpow s hs).2).1

theorem round_mono : Monotone round := by
  intro r s h
  rcases lt_trichotomy r 0 with hr | rfl | hr
  · rcases lt_or_ge s 0 with hs | hs
    · have hneg := round_le_round (neg_pos.2 hs) (neg_le_neg h)
      rw [round_neg, round_neg] at hneg
      linarith
    · have h1 := round_nonneg (neg_pos.2 hr).le
      rw [round_neg] at h1
      linarith [round_nonneg hs]
  · rw [round_zero]
    exact round_nonneg h
  · exact round_le_round hr h

/-! ## Near an integer -/

section NearInteger

variable {n k : ℤ} {r s : ℝ}

/-- An integer is an even number of units of the last digit. -/
theorem exists_even_units (hk : k ≤ 51) (n : ℤ) : ∃ m : ℤ, Even m ∧ (n : ℝ) = m * 2 ^ (k - 52) := by
  obtain ⟨j, hj⟩ : ∃ j : ℕ, 52 - k = j + 1 := ⟨(51 - k).toNat, by omega⟩
  refine ⟨n * 2 ^ (j + 1), Int.even_mul.2 (.inr (by simp [pow_succ])), ?_⟩
  have hone : (2 : ℝ) ^ (j + 1) * 2 ^ (k - 52) = 1 := by
    rw [← zpow_natCast, ← zpow_add₀ two_ne_zero, show ((j + 1 : ℕ) : ℤ) + (k - 52) = 0 by push_cast; omega, zpow_zero]
  push_cast
  rw [mul_assoc, hone, mul_one]

/-- Half a unit of the last digit. -/
theorem two_zpow_half (k : ℤ) : (2 : ℝ) ^ (k - 52) = 2 * 2 ^ (k - 53) := by
  rw [show k - 52 = k - 53 + (1 : ℕ) by push_cast; ring, two_zpow_add, pow_one]

/-- A number near an integer is rounded by its distance from the integer. -/
theorem round_add_units {j : ℤ} (hk : k ≤ 51) (hlo : 2 ^ k ≤ n + s) (hhi : n + s < 2 ^ (k + 1))
    (h : IsNearest (s / 2 ^ (k - 52)) j) : round (n + s) = n + j * 2 ^ (k - 52) := by
  obtain ⟨m, hm, hn⟩ := exists_even_units hk n
  have hpos : (0 : ℝ) < 2 ^ (k - 52) := zpow_pos two_pos _
  have hsum : |(n : ℝ) + s| = n + s := abs_of_pos (lt_of_lt_of_le (zpow_pos two_pos k) hlo)
  have hrest : ((n : ℝ) + s) / 2 ^ (k - 52) - (m + j : ℤ) = s / 2 ^ (k - 52) - j := by
    rw [hn]
    push_cast
    field_simp
    ring
  have hround : round (n + s) = (m + j : ℤ) * 2 ^ (k - 52) := by
    refine round_eq ?_ ?_ ?_
    · rwa [hsum, show k - 52 + 52 = k by ring]
    · rwa [hsum, show k - 52 + 53 = k + 1 by ring]
    · -- the integer's units are even in number, so the tie falls as it does for the distance
      rw [IsNearest, hrest, Int.even_add, iff_true_left hm]
      exact h
  rw [hround, hn]
  push_cast
  ring

/-- Of a number at most half a unit away from an integer only the integer is left. -/
theorem round_near (hk : k ≤ 51) (hlo : 2 ^ k ≤ n + s) (hhi : n + s < 2 ^ (k + 1)) (h : |s| ≤ 2 ^ (k - 53)) :
    round (n + s) = n := by
  have hpos : (0 : ℝ) < 2 ^ (k - 52) := zpow_pos two_pos _
  have hnear : IsNearest (s / 2 ^ (k - 52)) 0 := by
    rw [IsNearest, Int.cast_zero, sub_zero, abs_div, abs_of_pos hpos, div_lt_iff₀ hpos, div_eq_iff hpos.ne', two_zpow_half]
    rcases h.lt_or_eq with h | h
    · exact .inl (by linarith)
    · exact .inr ⟨by linarith, Even.zero⟩
  rw [round_add_units hk hlo hhi hnear, Int.cast_zero, zero_mul, add_zero]

/-- An integer is reached from half a unit below it, and from no farther. -/
theorem round_lt_intCast_iff (hk : k ≤ 51) (hn : (2 : ℝ) ^ k < n) (hn' : (n : ℝ) ≤ 2 ^ (k + 1)) :
    round r < n ↔ r < n - 2 ^ (k - 53) := by
  obtain ⟨m, hm, hunits⟩ := exists_even_units hk n
  have hpos : (0 : ℝ) < 2 ^ (k - 52) := zpow_pos two_pos _
  have hhalf := two_zpow_half k
  have hlow : (2 : ℝ) ^ k = 2 ^ 52 * 2 ^ (k - 52) := by
    rw [← two_zpow_add, show k - 52 + (52 : ℕ) = k by push_cast; ring]
  have hhigh : (2 : ℝ) ^ (k + 1) = 2 ^ 53 * 2 ^ (k - 52) := by
    rw [← two_zpow_add, show k - 52 + (53 : ℕ) = k + 1 by push_cast; ring]
  -- the integer is at least a unit above the power of two
  have hm1 : 2 ^ 52 + 1 ≤ m := by
    rw [hlow, hunits, mul_lt_mul_iff_left₀ hpos] at hn
    exact_mod_cast hn
  have hm2 : m ≤ 2 ^ 53 := by
    rw [hhigh, hunits, mul_le_mul_iff_left₀ hpos] at hn'
    exact_mod_cast hn'
  have hpred : (2 : ℝ) ^ k ≤ n - 2 ^ (k - 52) := by
    have hle : (2 ^ 52 + 1 : ℝ) ≤ m := by exact_mod_cast hm1
    rw [hlow, hunits]
    nlinarith
  constructor
  · intro hlt
    by_contra hle
    refine hlt.not_ge ?_
    have hnear : round (n + -2 ^ (k - 53)) = n :=
      round_near hk (by linarith) (by linarith) (by rw [abs_neg, abs_of_pos (by linarith)])
    rw [← hnear]
    exact round_mono (by linarith)
  · intro hlt
    rcases le_or_gt r (n - 2 ^ (k - 52)) with hr | hr
    · have hdouble : round (n - 2 ^ (k - 52)) = n - 2 ^ (k - 52) := by
        refine round_of_isDouble ⟨m - 1, k - 52, by rw [abs_le]; constructor <;> omega, ?_⟩
        rw [hunits]
        push_cast
        ring
      have := round_mono hr
      linarith
    · have hbelow : IsNearest ((r - n) / 2 ^ (k - 52)) (-1) := by
        have hsub : (r - n) / 2 ^ (k - 52) - (-1 : ℤ) = (r - (n - 2 ^ (k - 52))) / 2 ^ (k - 52) := by
          push_cast
          field_simp
          ring
        left
        rw [hsub, abs_of_pos (div_pos (by linarith) hpos), div_lt_iff₀ hpos]
        linarith
      have hround := @round_add_units n k (r - n) (-1) hk (by linarith) (by linarith) hbelow
      rw [add_sub_cancel] at hround
      rw [hround]
      push_cast
      linarith

end NearInteger

/-! ## Lengths -/

/-- Rounding does not cross an integer of 53 digits. -/
theorem intCast_le_round {n : ℤ} {r : ℝ} (hn : |n| ≤ 2 ^ 53) (h : (n : ℝ) ≤ r) : (n : ℝ) ≤ round r :=
  round_intCast hn ▸ round_mono h

theorem round_le_intCast {n : ℤ} {r : ℝ} (hn : |n| ≤ 2 ^ 53) (h : r ≤ n) : round r ≤ n := round_intCast hn ▸ round_mono h

/-- The length of a vector, with every operation rounded. -/
noncomputable def hypot (x y : ℝ) : ℝ := round (Real.sqrt (round (round (x * x) + round (y * y))))

theorem round_le {r : ℝ} (h : 0 ≤ r) : round r ≤ (1 + 1 / 2 ^ 53) * r := by
  have hle := (abs_le.1 (abs_round_sub_le r)).2
  rw [abs_of_nonneg h] at hle
  linarith

theorem le_round {r : ℝ} (h : 0 ≤ r) : (1 - 1 / 2 ^ 53) * r ≤ round r := by
  have hle := (abs_le.1 (abs_round_sub_le r)).1
  rw [abs_of_nonneg h] at hle
  linarith

/-- Two roundings are left of three: the root halves those before it. -/
theorem hypot_le (x y : ℝ) : hypot x y ≤ (1 + 1 / 2 ^ 53) ^ 2 * Real.sqrt (x ^ 2 + y ^ 2) := by
  have hx := round_le (mul_self_nonneg x)
  have hy := round_le (mul_self_nonneg y)
  have hsum := round_le (add_nonneg (round_nonneg (mul_self_nonneg x)) (round_nonneg (mul_self_nonneg y)))
  have hroot : Real.sqrt (round (round (x * x) + round (y * y))) ≤ (1 + 1 / 2 ^ 53) * Real.sqrt (x ^ 2 + y ^ 2) := by
    rw [Real.sqrt_le_left (by positivity), mul_pow, Real.sq_sqrt (by positivity)]
    nlinarith
  calc hypot x y
    _ ≤ (1 + 1 / 2 ^ 53) * Real.sqrt (round (round (x * x) + round (y * y))) := round_le (Real.sqrt_nonneg _)
    _ ≤ (1 + 1 / 2 ^ 53) * ((1 + 1 / 2 ^ 53) * Real.sqrt (x ^ 2 + y ^ 2)) := by gcongr
    _ = (1 + 1 / 2 ^ 53) ^ 2 * Real.sqrt (x ^ 2 + y ^ 2) := by ring

theorem le_hypot (x y : ℝ) : (1 - 1 / 2 ^ 53) ^ 2 * Real.sqrt (x ^ 2 + y ^ 2) ≤ hypot x y := by
  have hu : (0 : ℝ) ≤ 1 - 1 / 2 ^ 53 := by norm_num
  have hx := le_round (mul_self_nonneg x)
  have hy := le_round (mul_self_nonneg y)
  have hsum := le_round (add_nonneg (round_nonneg (mul_self_nonneg x)) (round_nonneg (mul_self_nonneg y)))
  have hroot : (1 - 1 / 2 ^ 53) * Real.sqrt (x ^ 2 + y ^ 2) ≤ Real.sqrt (round (round (x * x) + round (y * y))) := by
    apply Real.le_sqrt_of_sq_le
    rw [mul_pow, Real.sq_sqrt (by positivity)]
    nlinarith
  calc (1 - 1 / 2 ^ 53) ^ 2 * Real.sqrt (x ^ 2 + y ^ 2)
    _ = (1 - 1 / 2 ^ 53) * ((1 - 1 / 2 ^ 53) * Real.sqrt (x ^ 2 + y ^ 2)) := by ring
    _ ≤ (1 - 1 / 2 ^ 53) * Real.sqrt (round (round (x * x) + round (y * y))) := by gcongr
    _ ≤ hypot x y := le_round (Real.sqrt_nonneg _)

@[simp] theorem hypot_zero : hypot 0 0 = 0 := by simp [hypot]

theorem hypot_pos {x y : ℝ} (h : x ≠ 0 ∨ y ≠ 0) : 0 < hypot x y := by
  have hsum : 0 < x ^ 2 + y ^ 2 := by
    rcases h with h | h
    exacts [add_pos_of_pos_of_nonneg (by positivity) (sq_nonneg y), add_pos_of_nonneg_of_pos (sq_nonneg x) (by positivity)]
  exact lt_of_lt_of_le (mul_pos (by norm_num) (Real.sqrt_pos.2 hsum)) (le_hypot x y)

section Integers

variable {m n m' n' : ℤ}

/-- Squares of 53 digits are computed exactly. -/
theorem hypot_intCast (h : m ^ 2 + n ^ 2 ≤ 2 ^ 53) : hypot m n = round (Real.sqrt (m ^ 2 + n ^ 2 : ℤ)) := by
  have hm := sq_nonneg m
  have hn := sq_nonneg n
  have hround : ∀ k : ℤ, 0 ≤ k → k ≤ 2 ^ 53 → round (k : ℝ) = k := fun k h0 h1 => round_intCast (by rwa [abs_of_nonneg h0])
  have h1 := hround (m ^ 2) hm (by omega)
  have h2 := hround (n ^ 2) hn (by omega)
  have h3 := hround (m ^ 2 + n ^ 2) (by omega) h
  push_cast at h1 h2 h3 ⊢
  rw [hypot, ← sq, ← sq, h1, h2, h3]

theorem round_sqrt_lt {a b : ℤ} (ha : 0 ≤ a) (hab : a < b) (hb : b ≤ 2 ^ 51) :
    round (Real.sqrt a) < round (Real.sqrt b) := by
  have ha' : (0 : ℝ) ≤ a := by exact_mod_cast ha
  have hab' : (a : ℝ) + 1 ≤ b := by exact_mod_cast hab
  have hb' : (b : ℝ) ≤ 2 ^ 51 := by exact_mod_cast hb
  have hsa := Real.sq_sqrt ha'
  have hsb := Real.sq_sqrt (ha'.trans (by linarith : (a : ℝ) ≤ b))
  have hlt : Real.sqrt a < Real.sqrt b := Real.sqrt_lt_sqrt ha' (by linarith)
  have ha0 := Real.sqrt_nonneg (a : ℝ)
  -- the roots are `1` by their sum apart, and the sum is less than `2 ^ 27`
  have hsum : (Real.sqrt a + Real.sqrt b) ^ 2 < 2 ^ 53 := by nlinarith
  have hgap : 1 / 2 ^ 53 * (Real.sqrt a + Real.sqrt b) < Real.sqrt b - Real.sqrt a := by
    have hpos : 0 < Real.sqrt a + Real.sqrt b := by linarith
    refine lt_of_mul_lt_mul_right ?_ hpos.le
    nlinarith
  have h1 := round_le ha0
  have h2 := le_round (Real.sqrt_nonneg (b : ℝ))
  linarith

/-- Up to `2 ^ 51`, different squares of lengths have different lengths. -/
theorem hypot_lt_hypot (h : m ^ 2 + n ^ 2 < m' ^ 2 + n' ^ 2) (hle : m' ^ 2 + n' ^ 2 ≤ 2 ^ 51) :
    hypot m n < hypot m' n' := by
  rw [hypot_intCast (by omega), hypot_intCast (by omega)]
  exact round_sqrt_lt (by positivity) h hle

theorem hypot_lt_hypot_iff (h : m ^ 2 + n ^ 2 ≤ 2 ^ 51) (h' : m' ^ 2 + n' ^ 2 ≤ 2 ^ 51) :
    hypot m n < hypot m' n' ↔ m ^ 2 + n ^ 2 < m' ^ 2 + n' ^ 2 := by
  refine ⟨fun hlt => ?_, fun hlt => hypot_lt_hypot hlt h'⟩
  by_contra hle
  push Not at hle
  rcases hle.lt_or_eq with hlt' | heq
  · exact lt_asymm hlt (hypot_lt_hypot hlt' h)
  · rw [hypot_intCast (by omega), hypot_intCast (by omega), heq] at hlt
    exact lt_irrefl _ hlt

theorem hypot_self_zero {k : ℤ} (h0 : 0 ≤ k) (hk : k ^ 2 ≤ 2 ^ 51) : hypot k 0 = k := by
  have h := @hypot_intCast k 0 (by omega)
  have hle : k ≤ 2 ^ 53 := by nlinarith
  rw [Int.cast_zero] at h
  rw [h, zero_pow two_ne_zero, add_zero]
  push_cast
  rw [Real.sqrt_sq (by exact_mod_cast h0)]
  exact round_intCast (by rwa [abs_of_nonneg h0])

/-- Comparing a length with an integer is comparing squares, however long the vector is. -/
theorem hypot_lt_intCast_iff {k : ℤ} (h0 : 0 ≤ k) (hk : k ^ 2 ≤ 2 ^ 51) : hypot m n < k ↔ m ^ 2 + n ^ 2 < k ^ 2 := by
  have hm := sq_nonneg m
  have hn := sq_nonneg n
  rw [← hypot_self_zero h0 hk]
  constructor
  · intro hlt
    by_contra hle
    push Not at hle
    refine absurd hlt (not_lt.2 ?_)
    rw [hypot_self_zero h0 hk]
    have hk' : (0 : ℝ) ≤ k := by exact_mod_cast h0
    have hround : round ((k : ℝ) ^ 2) = (k : ℝ) ^ 2 := by
      have := @round_intCast (k ^ 2) (by rw [abs_of_nonneg (sq_nonneg k)]; omega)
      exact_mod_cast this
    -- one of the squares, or their exact sum, reaches `k ^ 2`
    have hsum : (k : ℝ) ^ 2 ≤ round (m * m) + round (n * n) := by
      have h1 := round_nonneg (mul_self_nonneg (m : ℝ))
      have h2 := round_nonneg (mul_self_nonneg (n : ℝ))
      have hlong : ∀ j : ℤ, k ^ 2 ≤ j ^ 2 → (k : ℝ) ^ 2 ≤ round (j * j) := fun j hj => by
        rw [← hround]
        exact round_mono (by rw [← sq]; exact_mod_cast hj)
      have hshort : ∀ j : ℤ, j ^ 2 < k ^ 2 → round ((j : ℝ) * j) = (j : ℝ) ^ 2 := fun j hj => by
        have := @round_intCast (j ^ 2) (by rw [abs_of_nonneg (sq_nonneg j)]; omega)
        rw [← sq]
        exact_mod_cast this
      rcases lt_or_ge (m ^ 2) (k ^ 2) with hmk | hmk
      · rcases lt_or_ge (n ^ 2) (k ^ 2) with hnk | hnk
        · rw [hshort m hmk, hshort n hnk]
          exact_mod_cast hle
        · linarith [hlong n hnk]
      · linarith [hlong m hmk]
    have hroot : (k : ℝ) ≤ Real.sqrt (round (round (m * m) + round (n * n))) := by
      apply Real.le_sqrt_of_sq_le
      rw [← hround]
      exact round_mono hsum
    calc (k : ℝ)
      _ = round k := (round_intCast (by rw [abs_of_nonneg h0]; nlinarith)).symm
      _ ≤ hypot m n := round_mono hroot
  · intro hlt
    have h := @hypot_lt_hypot m n k 0 (by omega) (by omega)
    simpa using h

end Integers

end Binary64
