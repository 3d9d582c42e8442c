/-
Coordinates in `double`s, where the cast lines are vertical. A coordinate is a difference of two rounded
distances, and the conversion to `int` cuts its fraction off: where rounding took more from the farther point
than from the nearer one the coordinate comes out one too short (`toInt_round_add`). Along the shared axis
this depends on the place of the axis line (`toInt_yLineOf`), and does not occur where that is a multiple of
`2 ^ -38` (`roundOff_eq_zero`).
-/
import DetailIdentifier.Lib.Binary64
import DetailIdentifier.Interpreter.Directions

namespace DetailIdentifier.Interpreter

open Binary64 hiding round

/-! ## Truncated differences -/

/-- Half the gap between an integer and the next `double` towards 0. -/
noncomputable def halfGap (n : ℤ) : ℝ := ((2 : ℕ) : ℝ) ^ ((Nat.clog 2 n.natAbs : ℤ) - 54)

/-- How much of an integer, off by `δ`, is lost where it is rounded and cut to `int`: it gets one nearer to 0
if `δ` is on that side and goes beyond half the gap. -/
noncomputable def slip (n : ℤ) (δ : ℝ) : ℤ := if n.sign * δ < -halfGap n then n.sign else 0

theorem halfGap_pos (n : ℤ) : 0 < halfGap n := zpow_pos (by norm_num) _

@[simp] theorem slip_zero (n : ℤ) : slip n 0 = 0 := by
  rw [slip, mul_zero, if_neg (by linarith [halfGap_pos n])]

theorem slip_neg (n : ℤ) (δ : ℝ) : slip (-n) (-δ) = -slip n δ := by
  have hgap : halfGap (-n) = halfGap n := by rw [halfGap, Int.natAbs_neg, halfGap]
  rw [slip, slip, hgap, Int.sign_neg, Int.cast_neg, neg_mul_neg]
  split
  · rfl
  · rw [neg_zero]

theorem toInt_neg (r : ℝ) : toInt (-r) = -toInt r := by
  unfold toInt
  rcases lt_trichotomy r 0 with hr | rfl | hr
  · rw [if_pos (by linarith), if_neg (by linarith), Int.floor_neg]
  · simp
  · rw [if_neg (by linarith), if_pos hr.le, Int.ceil_neg]

/-- The powers of two around a positive integer tell the gap below it. -/
theorem exists_halfGap {n : ℤ} (hn : 0 < n) (hle : n ≤ 2 ^ 20) : ∃ k : ℤ, k ≤ 51 ∧ (2 : ℝ) ^ k < n ∧
    (n : ℝ) ≤ 2 ^ (k + 1) ∧ halfGap n = 2 ^ (k - 53) := by
  obtain ⟨m, rfl⟩ := Int.eq_ofNat_of_zero_le hn.le
  have hm : 0 < m := by exact_mod_cast hn
  have hclog : Nat.clog 2 m ≤ 20 := Nat.clog_le_of_le_pow (by exact_mod_cast hle)
  refine ⟨(Nat.clog 2 m : ℤ) - 1, by omega, ?_, ?_, ?_⟩
  · have hlow := Int.zpow_pred_clog_lt_self (R := ℝ) one_lt_two (show (0 : ℝ) < m by exact_mod_cast hm)
    rw [Int.clog_natCast, Nat.cast_ofNat] at hlow
    exact_mod_cast hlow
  · have hhigh := Int.self_le_zpow_clog (R := ℝ) one_lt_two m
    rw [Int.clog_natCast, Nat.cast_ofNat] at hhigh
    rw [sub_add_cancel]
    exact_mod_cast hhigh
  · rw [halfGap, Int.natAbs_natCast, Nat.cast_ofNat, sub_sub]
    norm_num

theorem toInt_round_add_pos {n : ℤ} {δ : ℝ} (hn : 0 < n) (hle : n ≤ 2 ^ 20) (hδ : |δ| ≤ 1 / 4) :
    toInt (Binary64.round (n + δ)) = n - slip n δ := by
  obtain ⟨k, hk, hlow, hhigh, hgap⟩ := exists_halfGap hn hle
  have hone : (1 : ℝ) ≤ n := by exact_mod_cast hn
  have hle' : (n : ℝ) ≤ 2 ^ 20 := by exact_mod_cast hle
  have hδ' := abs_le.1 hδ
  -- the rounded number is near the integer, so it is cut to the integer or the one before
  have hnear := abs_le.1 (abs_round_sub_le (n + δ))
  rw [abs_of_pos (by linarith)] at hnear
  have hslip : slip n δ = if Binary64.round (n + δ) < n then 1 else 0 := by
    have hiff := round_lt_intCast_iff (r := n + δ) hk hlow hhigh
    simp only [slip, Int.sign_eq_one_of_pos hn, hiff, hgap, Int.cast_one, one_mul]
    congr 1
    rw [eq_iff_iff]
    constructor <;> intro h <;> linarith
  rw [toInt, if_pos (by linarith), hslip]
  split
  · rw [Int.floor_eq_iff]
    push_cast
    constructor <;> linarith
  · rw [Int.floor_eq_iff]
    push_cast
    constructor <;> linarith

/-- An integer that is off by a little, rounded and cut to `int`. -/
theorem toInt_round_add {n : ℤ} {δ : ℝ} (hn : |n| ≤ 2 ^ 20) (hδ : |δ| ≤ 1 / 4) : toInt (Binary64.round (n + δ)) = n - slip n δ := by
  rcases lt_trichotomy n 0 with hneg | rfl | hpos
  · have h := @toInt_round_add_pos (-n) (-δ) (by omega) (by rwa [abs_of_neg hneg] at hn) (by rwa [abs_neg])
    rw [Int.cast_neg, ← neg_add, round_neg, toInt_neg, slip_neg, neg_sub_neg, ← neg_sub] at h
    exact neg_injective h
  · have hnear := abs_le.1 (abs_round_sub_le δ)
    have hδ' := abs_le.1 hδ
    have hzero : toInt (Binary64.round δ) = 0 := by
      refine le_antisymm ((toInt_le_iff 0 _).2 ?_) ((le_toInt_iff 0 _).2 ?_)
      · rw [if_neg (lt_irrefl 0)]
        push_cast
        linarith
      · rw [if_neg (lt_irrefl 0)]
        push_cast
        linarith
    rw [Int.cast_zero, zero_add, hzero, slip, Int.sign_zero, Int.cast_zero, zero_mul,
      if_neg (by linarith [halfGap_pos 0]), sub_zero]
  · exact toInt_round_add_pos hpos (by rwa [abs_of_pos hpos] at hn) hδ

/-! ## Along the shared axis -/

@[simp] theorem round_one : Binary64.round 1 = 1 := by exact_mod_cast round_intCast (n := 1) (by norm_num)

variable {c : ℝ} {u z : Point2i}

theorem InImage.abs_x_le (hu : InImage u) : |u.x| ≤ 9999 := by
  rw [abs_of_nonneg hu.x_nonneg]
  exact hu.x_le

theorem InImage.abs_y_le (hu : InImage u) : |u.y| ≤ 9999 := by
  rw [abs_of_nonneg hu.y_nonneg]
  exact hu.y_le

theorem InImage.abs_x_sub_le (hu : InImage u) (hz : InImage z) : |u.x - z.x| ≤ 9999 := by
  have := hu.x_nonneg
  have := hu.x_le
  have := hz.x_nonneg
  have := hz.x_le
  rw [abs_le]
  constructor <;> omega

theorem InImage.abs_y_sub_le (hu : InImage u) (hz : InImage z) : |u.y - z.y| ≤ 9999 := by
  have := hu.y_nonneg
  have := hu.y_le
  have := hz.y_nonneg
  have := hz.y_le
  rw [abs_le]
  constructor <;> omega

/-- Places in an image and their differences are doubles. -/
theorem round_place {n : ℤ} (hn : |n| ≤ 9999) : Binary64.round n = n := round_intCast (by omega)

/-- How far the axis line is moved away from the image. -/
noncomputable def reach (c : ℝ) : ℝ := -Binary64.round (c - (10000 : ℤ))

/-- The rounding error of a distance from the line. -/
noncomputable def roundOff (c : ℝ) (x : ℤ) : ℝ := Binary64.round (x + reach c) - (x + reach c)

theorem reach_mem (hc0 : 0 ≤ c) (hc : c ≤ 9999) : 1 ≤ reach c ∧ reach c ≤ 10000 := by
  have h1 := @round_le_intCast (-1) (c - (10000 : ℤ)) (by norm_num) (by push_cast; linarith)
  have h2 := @intCast_le_round (-10000) (c - (10000 : ℤ)) (by norm_num) (by push_cast; linarith)
  rw [reach]
  push_cast at h1 h2 ⊢
  constructor <;> linarith

theorem abs_roundOff_le (hc0 : 0 ≤ c) (hc : c ≤ 9999) {x : ℤ} (hx0 : 0 ≤ x) (hx : x ≤ 9999) :
    |roundOff c x| ≤ 1 / 8 := by
  have hx0' : (0 : ℝ) ≤ x := by exact_mod_cast hx0
  have hx' : (x : ℝ) ≤ 9999 := by exact_mod_cast hx
  obtain ⟨h1, h2⟩ := reach_mem hc0 hc
  have h := abs_round_sub_le (x + reach c)
  rw [abs_of_nonneg (by linarith : 0 ≤ x + reach c)] at h
  rw [roundOff]
  linarith

/-- On a grid of `2 ^ -38` nothing is rounded. -/
theorem roundOff_eq_zero (hc0 : 0 ≤ c) (hc : c ≤ 9999) {m : ℤ} (hm : c = m * 2 ^ (-38 : ℤ)) {x : ℤ} (hx0 : 0 ≤ x)
    (hx : x ≤ 9999) : roundOff c x = 0 := by
  have hm0 : 0 ≤ m := by
    by_contra hneg
    have hle : (m : ℝ) ≤ -1 := by exact_mod_cast (by omega : m ≤ -1)
    norm_num at hm
    linarith
  have hm1 : m ≤ 9999 * 2 ^ 38 := by
    have hle : (m : ℝ) ≤ 9999 * 2 ^ 38 := by
      norm_num at hm ⊢
      linarith
    exact_mod_cast hle
  have hreach : reach c = (10000 * 2 ^ 38 - m : ℤ) * 2 ^ (-38 : ℤ) := by
    have hdouble : Binary64.round (c - (10000 : ℤ)) = c - (10000 : ℤ) := by
      refine round_of_isDouble ⟨m - 10000 * 2 ^ 38, -38, by rw [abs_le]; constructor <;> omega, ?_⟩
      rw [hm]
      push_cast
      norm_num
      ring
    rw [reach, hdouble, hm]
    push_cast
    norm_num
    ring
  have hdouble : Binary64.round (x + reach c) = x + reach c := by
    refine round_of_isDouble ⟨x * 2 ^ 38 + (10000 * 2 ^ 38 - m), -38, by rw [abs_le]; constructor <;> omega, ?_⟩
    rw [hreach]
    push_cast
    norm_num
    ring
  rw [roundOff, hdouble, sub_self]

theorem getDistanceTo_yLineOf (hc0 : 0 ≤ c) (hc : c ≤ 9999) (hu : InImage u) :
    Rounded.getDistanceTo Binary64.round (Rounded.yLineOf Binary64.round ⟨0, c⟩) u = Binary64.round (u.x + reach c) := by
  have hx0 : (0 : ℝ) ≤ u.x := by exact_mod_cast hu.x_nonneg
  have hpos := round_nonneg (add_nonneg hx0 (zero_le_one.trans (reach_mem hc0 hc).1))
  simp only [Rounded.getDistanceTo, Rounded.yLineOf, Real.cos_zero, Real.sin_zero, round_one, round_zero, one_mul, zero_mul,
    add_zero, round_place hu.abs_x_le]
  rw [← abs_of_nonneg hpos, reach, ← sub_eq_add_neg]
  norm_num

theorem toInt_yLineOf (hc0 : 0 ≤ c) (hc : c ≤ 9999) (hu : InImage u) (hz : InImage z) :
    toInt (Binary64.round (Rounded.getDistanceTo Binary64.round (Rounded.yLineOf Binary64.round ⟨0, c⟩) u -
        Rounded.getDistanceTo Binary64.round (Rounded.yLineOf Binary64.round ⟨0, c⟩) z)) =
      u.x - z.x - slip (u.x - z.x) (roundOff c u.x - roundOff c z.x) := by
  have h1 := abs_le.1 (abs_roundOff_le hc0 hc hu.x_nonneg hu.x_le)
  have h2 := abs_le.1 (abs_roundOff_le hc0 hc hz.x_nonneg hz.x_le)
  have hdiff : Binary64.round (u.x + reach c) - Binary64.round (z.x + reach c) =
      ((u.x - z.x : ℤ) : ℝ) + (roundOff c u.x - roundOff c z.x) := by
    rw [roundOff, roundOff]
    push_cast
    ring
  rw [getDistanceTo_yLineOf hc0 hc hu, getDistanceTo_yLineOf hc0 hc hz, hdiff]
  apply toInt_round_add
  · exact (hu.abs_x_sub_le hz).trans (by norm_num)
  · rw [abs_le]
    constructor <;> linarith

end DetailIdentifier.Interpreter
