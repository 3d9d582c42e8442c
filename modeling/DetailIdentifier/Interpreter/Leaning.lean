/-
Coordinates across the shared axis, in `double`s. `CV_PI / 2` falls short of a right angle, so the distance
from the axis line grows with `x`, by too little to show (`lean_le`). After the two roundings nothing of it
is left except in two regions of the image, where it makes a unit (`round_leant_eq`). A coordinate measured
from a zero point outside them comes out one too short there (`toInt_xLineOf`).
-/
import DetailIdentifier.Lib.HalfPi
import DetailIdentifier.Interpreter.Doubles

namespace DetailIdentifier.Interpreter

open Binary64 hiding round

variable {c : ℝ} {u z : Point2i}

/-! ## Leaning -/

/-- What the cosine adds to the distance from the axis line. -/
noncomputable def lean (x : ℤ) : ℝ := Binary64.round (Binary64.round (Real.cos halfPi) * x)

theorem round_cos_halfPi_mem :
    6.12295e-17 < Binary64.round (Real.cos halfPi) ∧ Binary64.round (Real.cos halfPi) < 6.123382e-17 := by
  obtain ⟨h1, h2⟩ := cos_halfPi_mem
  have hpos : 0 ≤ Real.cos halfPi := le_trans (by norm_num) h1.le
  have h3 := round_le hpos
  have h4 := le_round hpos
  constructor <;> norm_num at * <;> linarith

theorem lean_nonneg {x : ℤ} (hx : 0 ≤ x) : 0 ≤ lean x :=
  round_nonneg (mul_nonneg (le_trans (by norm_num) round_cos_halfPi_mem.1.le) (by exact_mod_cast hx))

/-- Where the leaning passes a double can be told from both sides of the cosine. -/
theorem lean_le_iff {x n m e : ℤ} (hx : 0 ≤ x) (hm : |m| ≤ 2 ^ 53) (hlow : 6.123382e-17 * (n : ℝ) ≤ m * 2 ^ e)
    (hhigh : m * 2 ^ e < 6.1229e-17 * ((n : ℝ) + 1)) : lean x ≤ m * 2 ^ e ↔ x ≤ n := by
  obtain ⟨h1, h2⟩ := round_cos_halfPi_mem
  have hx' : (0 : ℝ) ≤ x := by exact_mod_cast hx
  constructor
  · intro hle
    by_contra hlt
    have hlt' : (n : ℝ) + 1 ≤ x := by exact_mod_cast not_le.1 hlt
    have hpos : (0 : ℝ) ≤ 1 - 1 / 2 ^ 53 := by norm_num
    apply hle.not_gt
    calc (m : ℝ) * 2 ^ e
      _ < 6.1229e-17 * ((n : ℝ) + 1) := hhigh
      _ ≤ 6.1229e-17 * x := mul_le_mul_of_nonneg_left hlt' (by norm_num)
      _ ≤ (1 - 1 / 2 ^ 53) * (6.12295e-17 * x) := by
        rw [← mul_assoc]
        exact mul_le_mul_of_nonneg_right (by norm_num) hx'
      _ ≤ (1 - 1 / 2 ^ 53) * (Binary64.round (Real.cos halfPi) * x) := by gcongr
      _ ≤ lean x := le_round (mul_nonneg (le_trans (by norm_num) h1.le) hx')
  · intro hle
    have hle' : (x : ℝ) ≤ n := by exact_mod_cast hle
    rw [lean, ← round_of_isDouble ⟨m, e, hm, rfl⟩]
    apply round_mono
    calc Binary64.round (Real.cos halfPi) * x
      _ ≤ 6.123382e-17 * x := mul_le_mul_of_nonneg_right h2.le hx'
      _ ≤ 6.123382e-17 * n := mul_le_mul_of_nonneg_left hle' (by norm_num)
      _ ≤ m * 2 ^ e := hlow

/-- The vertices whose distance from the axis line comes out a unit too long: the unit is the one of numbers
from 4096 to 8191. -/
def Drifts (u : Point2i) : Prop :=
  4097 ≤ u.y ∧ u.y ≤ 8192 ∧ 7427 ≤ u.x ∨ 1809 ≤ u.y ∧ u.y ≤ 2048 ∧ 9284 ≤ u.x

instance (u : Point2i) : Decidable (Drifts u) := inferInstanceAs (Decidable (_ ∨ _))

noncomputable def drift (u : Point2i) : ℝ := if Drifts u then ((2 : ℕ) : ℝ) ^ (-40 : ℤ) else 0

section Leaning

variable {x y : ℤ}

theorem lean_le (h0 : 0 ≤ x) (hx : x ≤ 9999) : lean x ≤ 11 * 2 ^ (-44 : ℤ) := by
  have hle : lean x ≤ (705990 : ℤ) * 2 ^ (-60 : ℤ) :=
    (lean_le_iff (n := 10000) h0 (by norm_num) (by norm_num) (by norm_num)).2 (by omega)
  norm_num at hle ⊢
  linarith

theorem lean_le_half_iff (h0 : 0 ≤ x) : lean x ≤ 2 ^ (-41 : ℤ) ↔ x ≤ 7426 := by
  have h := lean_le_iff (x := x) (n := 7426) (m := 1) (e := -41) h0 (by norm_num) (by norm_num) (by norm_num)
  rwa [Int.cast_one, one_mul] at h

theorem lean_le_five_iff (h0 : 0 ≤ x) : lean x ≤ 5 * 2 ^ (-43 : ℤ) ↔ x ≤ 9283 :=
  lean_le_iff (x := x) (n := 9283) (m := 5) (e := -43) h0 (by norm_num) (by norm_num) (by norm_num)

/-- What is left of the leaning once the height has been taken off. -/
noncomputable def remnant (x y : ℤ) : ℝ := y - Binary64.round (y - lean x)

theorem remnant_nonneg (hx : 0 ≤ x) (hy0 : 0 ≤ y) (hy : y ≤ 9999) : 0 ≤ remnant x y := by
  have h := @round_le_intCast y (y - lean x) (by rw [abs_of_nonneg hy0]; omega) (by linarith [lean_nonneg hx])
  rw [remnant]
  linarith

/-- No more is left than of a longer leaning. -/
theorem remnant_le {b : ℝ} {k j : ℤ} (hle : lean x ≤ b) (hk : k ≤ 51) (hlo : 2 ^ k ≤ y - b) (hhi : y - b < 2 ^ (k + 1))
    (h : IsNearest (-b / 2 ^ (k - 52)) (-j)) : remnant x y ≤ j * 2 ^ (k - 52) := by
  have hround := @round_add_units y k (-b) (-j) hk (by linarith) (by linarith) h
  have hmono := round_mono (show (y : ℝ) + -b ≤ y - lean x by linarith)
  rw [remnant]
  push_cast at hround
  linarith

theorem remnant_eq {k j : ℤ} (hk : k ≤ 51) (hlo : 2 ^ k ≤ y - lean x) (hhi : y - lean x < 2 ^ (k + 1))
    (h : IsNearest (-lean x / 2 ^ (k - 52)) (-j)) : remnant x y = j * 2 ^ (k - 52) := by
  have hround := @round_add_units y k (-lean x) (-j) hk (by linarith) (by linarith) h
  rw [remnant, sub_eq_add_neg (y : ℝ) (lean x), hround]
  push_cast
  ring

theorem round_leant (x y : ℤ) :
    Binary64.round (Binary64.round (lean x - y) + 10000) = Binary64.round ((10000 - y : ℤ) + remnant x y) := by
  rw [← neg_sub, round_neg, remnant]
  push_cast
  congr 1
  ring

theorem remnant_le_of_low (hx0 : 0 ≤ x) (hx : x ≤ 9999) (hy0 : 0 ≤ y) (hy : y ≤ 1808) : remnant x y ≤ 2 ^ (-40 : ℤ) := by
  have hy0' : (0 : ℝ) ≤ y := by exact_mod_cast hy0
  have hy' : (y : ℝ) ≤ 1808 := by exact_mod_cast hy
  have hlean := lean_le hx0 hx
  have hlean0 := lean_nonneg hx0
  have hclose := (abs_le.1 (abs_round_sub_le (y - lean x))).1
  have habs : |(y : ℝ) - lean x| ≤ 1809 := by
    rw [abs_le]
    norm_num at hlean
    constructor <;> linarith
  rw [remnant]
  norm_num at hlean hclose ⊢
  linarith

/-- From 1809 to 2048 the unit is `2 ^ -42`: of two and a half of them two are left. -/
theorem remnant_le_of_narrow (hx0 : 0 ≤ x) (hx : x ≤ 9283) (hy0 : 1809 ≤ y) (hy : y ≤ 2048) : remnant x y ≤ 2 ^ (-41 : ℤ) := by
  have hy0' : (1809 : ℝ) ≤ y := by exact_mod_cast hy0
  have hy' : (y : ℝ) ≤ 2048 := by exact_mod_cast hy
  have hle := remnant_le (y := y) (k := 10) (j := 2) ((lean_le_five_iff hx0).2 hx) (by norm_num) (by norm_num; linarith)
    (by norm_num; linarith) (.inr ⟨by norm_num [abs_div], by decide⟩)
  norm_num at hle ⊢
  exact hle

theorem remnant_eq_of_narrow (hx0 : 9284 ≤ x) (hx : x ≤ 9999) (hy0 : 1809 ≤ y) (hy : y ≤ 2048) :
    remnant x y = 3 * 2 ^ (-42 : ℤ) := by
  have hy0' : (1809 : ℝ) ≤ y := by exact_mod_cast hy0
  have hy' : (y : ℝ) ≤ 2048 := by exact_mod_cast hy
  have hlean := lean_le (by omega) hx
  have hfive := mt (lean_le_five_iff (x := x) (by omega)).1 (by omega)
  norm_num at hlean hfive
  have heq := remnant_eq (x := x) (y := y) (k := 10) (j := 3) (by norm_num) (by norm_num; linarith) (by norm_num; linarith)
    (.inl (by norm_num [abs_lt]; constructor <;> linarith))
  norm_num at heq ⊢
  exact heq

theorem remnant_le_of_mid (hx0 : 0 ≤ x) (hx : x ≤ 9999) (hy0 : 2049 ≤ y) (hy : y ≤ 4096) : remnant x y ≤ 2 ^ (-41 : ℤ) := by
  have hy0' : (2049 : ℝ) ≤ y := by exact_mod_cast hy0
  have hy' : (y : ℝ) ≤ 4096 := by exact_mod_cast hy
  have hle := remnant_le (y := y) (k := 11) (j := 1) (lean_le hx0 hx) (by norm_num) (by norm_num; linarith)
    (by norm_num; linarith) (.inl (by norm_num [abs_lt]))
  norm_num at hle ⊢
  exact hle

/-- From 4097 to 8192 the unit is `2 ^ -40`: half of it is lost, more of it is made whole. -/
theorem remnant_le_of_high (hx0 : 0 ≤ x) (hx : x ≤ 7426) (hy0 : 4097 ≤ y) (hy : y ≤ 8192) : remnant x y ≤ 0 := by
  have hy0' : (4097 : ℝ) ≤ y := by exact_mod_cast hy0
  have hy' : (y : ℝ) ≤ 8192 := by exact_mod_cast hy
  have hle := remnant_le (y := y) (k := 12) (j := 0) ((lean_le_half_iff hx0).2 hx) (by norm_num) (by norm_num; linarith)
    (by norm_num; linarith) (.inr ⟨by norm_num [abs_div], by decide⟩)
  norm_num at hle ⊢
  exact hle

theorem remnant_eq_of_high (hx0 : 7427 ≤ x) (hx : x ≤ 9999) (hy0 : 4097 ≤ y) (hy : y ≤ 8192) :
    remnant x y = 2 ^ (-40 : ℤ) := by
  have hy0' : (4097 : ℝ) ≤ y := by exact_mod_cast hy0
  have hy' : (y : ℝ) ≤ 8192 := by exact_mod_cast hy
  have hlean := lean_le (by omega) hx
  have hhalf := mt (lean_le_half_iff (x := x) (by omega)).1 (by omega)
  norm_num at hlean hhalf
  have heq := remnant_eq (x := x) (y := y) (k := 12) (j := 1) (by norm_num) (by norm_num; linarith) (by norm_num; linarith)
    (.inl (by norm_num [abs_lt]; constructor <;> linarith))
  norm_num at heq ⊢
  exact heq

theorem remnant_le_of_far (hx0 : 0 ≤ x) (hx : x ≤ 9999) (hy0 : 8193 ≤ y) (hy : y ≤ 9999) : remnant x y ≤ 0 := by
  have hy0' : (8193 : ℝ) ≤ y := by exact_mod_cast hy0
  have hy' : (y : ℝ) ≤ 9999 := by exact_mod_cast hy
  have hle := remnant_le (y := y) (k := 13) (j := 0) (lean_le hx0 hx) (by norm_num) (by norm_num; linarith)
    (by norm_num; linarith) (.inl (by norm_num [abs_lt]))
  norm_num at hle ⊢
  exact hle

/-- Half a unit is lost when the line's distance is added. -/
theorem round_add_remnant {k : ℤ} (hk : k ≤ 51) (hlo : (2 : ℝ) ^ k ≤ 10000 - y) (hhi : 10000 - y + (2 : ℝ) ^ (k - 53) < 2 ^ (k + 1))
    (h0 : 0 ≤ remnant x y) (h : remnant x y ≤ 2 ^ (k - 53)) :
    Binary64.round ((10000 - y : ℤ) + remnant x y) = (10000 - y : ℤ) := by
  refine round_near hk ?_ ?_ (by rwa [abs_of_nonneg h0])
  · push_cast
    linarith
  · push_cast
    linarith

theorem round_add_remnant_of_half (hy0 : 1809 ≤ y) (hy : y ≤ 4096) (h0 : 0 ≤ remnant x y) (h : remnant x y ≤ 2 ^ (-41 : ℤ)) :
    Binary64.round ((10000 - y : ℤ) + remnant x y) = (10000 - y : ℤ) := by
  have hy0' : (1809 : ℝ) ≤ y := by exact_mod_cast hy0
  have hy' : (y : ℝ) ≤ 4096 := by exact_mod_cast hy
  exact round_add_remnant (k := 12) (by norm_num) (by norm_num; linarith) (by norm_num; linarith) h0 h

theorem round_add_three_quarters (hy0 : 1809 ≤ y) (hy : y ≤ 2048) :
    Binary64.round ((10000 - y : ℤ) + 3 * 2 ^ (-42 : ℤ)) = (10000 - y : ℤ) + 2 ^ (-40 : ℤ) := by
  have hy0' : (1809 : ℝ) ≤ y := by exact_mod_cast hy0
  have hy' : (y : ℝ) ≤ 2048 := by exact_mod_cast hy
  have hround := @round_add_units (10000 - y) 12 (3 * 2 ^ (-42 : ℤ)) 1 (by norm_num) (by push_cast; norm_num; linarith)
    (by push_cast; norm_num; linarith) (.inl (by norm_num [abs_lt]))
  rw [hround, Int.cast_one, one_mul]
  norm_num

theorem round_add_unit (hy0 : 4097 ≤ y) (hy : y ≤ 8192) :
    Binary64.round ((10000 - y : ℤ) + 2 ^ (-40 : ℤ)) = (10000 - y : ℤ) + 2 ^ (-40 : ℤ) := by
  refine round_of_isDouble ⟨(10000 - y) * 2 ^ 40 + 1, -40, by rw [abs_le]; constructor <;> omega, ?_⟩
  push_cast
  norm_num
  ring

/-- The distance from the axis line: the height, with a little more at the vertices that drift. -/
theorem round_leant_eq {u : Point2i} (hu : InImage u) :
    Binary64.round (Binary64.round (lean u.x - u.y) + 10000) = (10000 - u.y : ℤ) + drift u := by
  obtain ⟨hx0, hx, hy0, hy⟩ := hu
  have hrest := remnant_nonneg hx0 hy0 hy
  have hdouble : Binary64.round ((10000 - u.y : ℤ) : ℝ) = (10000 - u.y : ℤ) := round_intCast (by rw [abs_le]; omega)
  rw [round_leant, drift]
  by_cases hlow : u.y ≤ 1808
  · have hy' : (u.y : ℝ) ≤ 1808 := by exact_mod_cast hlow
    have hy0' : (0 : ℝ) ≤ u.y := by exact_mod_cast hy0
    rw [if_neg (by unfold Drifts; omega), add_zero]
    exact round_add_remnant (k := 13) (by norm_num) (by norm_num; linarith) (by norm_num; linarith) hrest
      (remnant_le_of_low hx0 hx hy0 hlow)
  by_cases hnarrow : u.y ≤ 2048
  · by_cases hnear : u.x ≤ 9283
    · rw [if_neg (by unfold Drifts; omega), add_zero]
      exact round_add_remnant_of_half (by omega) (by omega) hrest (remnant_le_of_narrow hx0 hnear (by omega) hnarrow)
    · rw [if_pos (.inr ⟨by omega, hnarrow, by omega⟩), remnant_eq_of_narrow (by omega) hx (by omega) hnarrow, Nat.cast_ofNat]
      exact round_add_three_quarters (by omega) hnarrow
  by_cases hmid : u.y ≤ 4096
  · rw [if_neg (by unfold Drifts; omega), add_zero]
    exact round_add_remnant_of_half (by omega) hmid hrest (remnant_le_of_mid hx0 hx (by omega) hmid)
  by_cases hhigh : u.y ≤ 8192
  · by_cases hnear : u.x ≤ 7426
    · rw [if_neg (by unfold Drifts; omega), le_antisymm (remnant_le_of_high hx0 hnear (by omega) hhigh) hrest, add_zero, hdouble]
    · rw [if_pos (.inl ⟨by omega, hhigh, by omega⟩), remnant_eq_of_high (by omega) hx (by omega) hhigh, Nat.cast_ofNat]
      exact round_add_unit (by omega) hhigh
  · rw [if_neg (by unfold Drifts; omega), le_antisymm (remnant_le_of_far hx0 hx (by omega) hy) hrest, add_zero, hdouble]

end Leaning

theorem getDistanceTo_xLineOf (c : ℝ) (hu : InImage u) :
    Rounded.getDistanceTo Binary64.round (Rounded.xLineOf Binary64.round ⟨0, c⟩) u = (10000 - u.y : ℤ) + drift u := by
  have hy := hu.y_le
  have hround : Binary64.round ((-u.y : ℤ) : ℝ) = (-u.y : ℤ) := round_place (by rw [abs_neg]; exact hu.abs_y_le)
  have hangle : Binary64.round (0 - Binary64.round (Binary64.round Real.pi / (2 : ℤ))) = -halfPi := by
    rw [Int.cast_ofNat, round_pi_div_two, zero_sub, round_neg, round_halfPi]
  have hpos : (0 : ℝ) ≤ (10000 - u.y : ℤ) + drift u := by
    have hdist : (0 : ℝ) ≤ (10000 - u.y : ℤ) := by exact_mod_cast (by omega : (0 : ℤ) ≤ 10000 - u.y)
    unfold drift
    split
    exacts [add_nonneg hdist (zpow_nonneg (by norm_num) _), add_nonneg hdist le_rfl]
  simp only [Rounded.getDistanceTo, Rounded.xLineOf, Rounded.yLineOf, hangle, Real.cos_neg, Real.sin_neg, round_neg,
    round_sin_halfPi, neg_one_mul, ← Int.cast_neg, hround]
  rw [← lean, Int.cast_neg, ← sub_eq_add_neg, sub_neg_eq_add, round_leant_eq hu, abs_of_nonneg hpos]

/-- How much is lost of a height over the zero point: one, towards 0, where the lower of both points drifts
and the upper one does not. -/
def lag (z u : Point2i) : ℤ :=
  if z.y < u.y ∧ Drifts u ∧ ¬Drifts z then -1 else if u.y < z.y ∧ Drifts z ∧ ¬Drifts u then 1 else 0

-- from `y = 100` down to `y = 8000` it is 7899
example : lag ⟨9000, 100⟩ ⟨9000, 8000⟩ = -1 := by decide

theorem halfGap_lt {n : ℤ} (hn : |n| ≤ 8192) : halfGap n < ((2 : ℕ) : ℝ) ^ (-40 : ℤ) := by
  have habs : n.natAbs ≤ 2 ^ 13 := by zify; exact hn
  have hclog : Nat.clog 2 n.natAbs ≤ 13 := Nat.clog_le_of_le_pow habs
  exact zpow_lt_zpow_right₀ (by norm_num) (by omega)

/-- A vertex that drifts is at a height where a unit is more than half the gap. -/
theorem Drifts.abs_sub_le (h : Drifts u) (hz : InImage z) : |z.y - u.y| ≤ 8192 := by
  have hz0 := hz.y_nonneg
  have hz1 := hz.y_le
  rw [abs_le]
  rcases h with h | h
  · constructor <;> omega
  · constructor <;> omega

/-- More than half the gap is lost of a number it is added to on the side of 0. -/
theorem slip_of_halfGap_lt {n : ℤ} {δ : ℝ} (h : halfGap n < δ) : slip n δ = if n < 0 then -1 else 0 := by
  have hgap := halfGap_pos n
  rcases lt_trichotomy n 0 with hn | rfl | hn
  · rw [slip, Int.sign_eq_neg_one_of_neg hn, if_pos (by push_cast; linarith), if_pos hn]
  · rw [slip, Int.sign_zero, if_neg (by push_cast; linarith), if_neg (lt_irrefl 0)]
  · rw [slip, Int.sign_eq_one_of_pos hn, if_neg (by push_cast; linarith), if_neg (by omega)]

theorem slip_drift (hu : InImage u) (hz : InImage z) : slip (z.y - u.y) (drift u - drift z) = lag z u := by
  by_cases h1 : Drifts u
  · by_cases h2 : Drifts z
    · simp [lag, drift, h1, h2]
    · rw [drift, drift, if_pos h1, if_neg h2, sub_zero, slip_of_halfGap_lt (halfGap_lt (h1.abs_sub_le hz))]
      simp [lag, h1, h2]
  · by_cases h2 : Drifts z
    · have hlt := halfGap_lt (h2.abs_sub_le hu)
      rw [drift, drift, if_neg h1, if_pos h2, zero_sub, ← neg_sub, slip_neg, slip_of_halfGap_lt hlt]
      by_cases hy : u.y < z.y <;> simp [lag, h1, h2, hy]
    · simp [lag, drift, h1, h2]

theorem toInt_xLineOf (c : ℝ) (hu : InImage u) (hz : InImage z) :
    toInt (Binary64.round (Rounded.getDistanceTo Binary64.round (Rounded.xLineOf Binary64.round ⟨0, c⟩) u -
        Rounded.getDistanceTo Binary64.round (Rounded.xLineOf Binary64.round ⟨0, c⟩) z)) =
      z.y - u.y - lag z u := by
  have hdiff : (10000 - u.y : ℤ) + drift u - ((10000 - z.y : ℤ) + drift z) = ((z.y - u.y : ℤ) : ℝ) + (drift u - drift z) := by
    push_cast
    ring
  rw [getDistanceTo_xLineOf c hu, getDistanceTo_xLineOf c hz, hdiff, ← slip_drift hu hz]
  apply toInt_round_add
  · exact (hz.abs_y_sub_le hu).trans (by norm_num)
  · have hsmall : ∀ w : Point2i, 0 ≤ drift w ∧ drift w ≤ 1 / 4 := fun w => by
      unfold drift
      split <;> norm_num
    obtain ⟨hu0, hu1⟩ := hsmall u
    obtain ⟨hz0, hz1⟩ := hsmall z
    rw [abs_le]
    constructor <;> linarith

/-! ## The systems of two views -/

theorem getLocationOf_mainSystem (hc0 : 0 ≤ c) (hc : c ≤ 9999) (hu : InImage u) (hz : InImage z) :
    Rounded.getLocationOf Binary64.round (Rounded.mainSystem Binary64.round ⟨0, c⟩ z) u =
      ⟨z.y - u.y - lag z u, u.x - z.x - slip (u.x - z.x) (roundOff c u.x - roundOff c z.x), 0⟩ := by
  rw [Rounded.getLocationOf_mainSystem, toInt_xLineOf c hu hz, toInt_yLineOf hc0 hc hu hz]

theorem getLocationOf_sideSystem (hc0 : 0 ≤ c) (hc : c ≤ 9999) (hu : InImage u) (hz : InImage z) :
    Rounded.getLocationOf Binary64.round (Rounded.sideSystem Binary64.round ⟨0, c⟩ z) u =
      ⟨0, u.x - z.x - slip (u.x - z.x) (roundOff c u.x - roundOff c z.x), z.y - u.y - lag z u⟩ := by
  rw [Rounded.getLocationOf_sideSystem, toInt_xLineOf c hu hz, toInt_yLineOf hc0 hc hu hz]

/-- Along vertical lines the distance is the difference of the heights, with nothing to round. -/
theorem calculateDistance_round_vertical (c : ℝ) (hu : InImage u) (hz : InImage z) :
    Rounded.calculateDistance Binary64.round z ⟨0, c⟩ u = (|u.y - z.y| : ℤ) := by
  have hdiff := round_place (hu.abs_y_sub_le hz)
  push_cast at hdiff
  simp only [Rounded.calculateDistance, Real.sin_zero, Real.cos_zero, round_zero, round_one, neg_zero, zero_mul, one_mul, zero_add,
    round_place hu.abs_y_le, round_place hz.abs_y_le, hdiff]
  push_cast
  rfl

end DetailIdentifier.Interpreter
