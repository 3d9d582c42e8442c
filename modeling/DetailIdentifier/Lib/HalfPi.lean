/-
The double next to `π / 2`, and its cosine. It lies a little below `π / 2`, so the cosine is not 0: it is as
small as the double's distance from `π / 2`, about `6.1 * 10 ^ -17` (`cos_halfPi_mem`). The sine rounds to 1.
-/
import DetailIdentifier.Lib.Binary64

namespace Binary64

open Real (pi)

/-- `π` from above, farther than to the 20 digits there are: what the cosine depends on begins after the 16th. -/
theorem pi_lt : pi < 3.1415926535897932384655 := by
  pi_upper_bound [
    367296043199/259717522849, 2797026028813/1513739578801, 2163925202952/1103159501977, 5112156841985/2568446191432,
    2-30751370322/12764737344565, 2-8138663315/13511235943979, 2-2848072649/18911966883674, 2-2342824876/62227358487257,
    2-525991838/55882974405029, 2-359193284/152647062846077, 2-107177363/182189456075138, 2-123726535/841284713635612,
    2-104590117/2844662733686815, 2-5138131/558991620323500, 2-13773391/5993782679356380, 2-5378217/9361779940986287,
    2-3095546/21553478000727605, 2-1291667/35974159348322942, 2-459878/51232165729250441, 2-353399/157479993707385168,
    2-61730/110031324497868109, 2-118832/847253675861344867, 2-121631/3468840441924408717, 2-5281/602443336774432909,
    2-11593/5290002350483618169, 2-2104/3840305337847849945, 2-3803/27765553611854320990, 2-885/25845400942930395862,
    2-335/39133149450312689696, 2-341/159336166717094055871, 2-181/338297315845091191892, 2-98/732666010007048327167,
    2-26/777523112660541081885, 2-25/2990473510232850314936, 2-2/956951523274512100779]

/-- The double next to `π / 2`. -/
noncomputable def halfPi : ℝ := (884279719003555 : ℤ) / ((2 : ℤ) : ℝ) ^ 49

theorem round_pi : round pi = 2 * halfPi := by
  have h1 := Real.pi_gt_d20
  have h2 := pi_lt
  have habs : |pi| = pi := abs_of_pos Real.pi_pos
  have hround : round pi = (7074237752028440 : ℤ) * 2 ^ (-51 : ℤ) := by
    refine round_eq ?_ ?_ (.inl ?_)
    · rw [habs]
      norm_num
      linarith
    · rw [habs]
      norm_num
      linarith
    · rw [abs_lt]
      norm_num
      constructor <;> linarith
  rw [hround, halfPi]
  norm_num

theorem round_halfPi : round halfPi = halfPi :=
  round_of_isDouble ⟨884279719003555, -49, by norm_num, by norm_num [halfPi]⟩

/-- `π / 2` in doubles. -/
theorem round_pi_div_two : round (round pi / 2) = halfPi := by
  rw [round_pi, mul_div_cancel_left₀ _ two_ne_zero, round_halfPi]

theorem pi_div_two_sub_halfPi : 6.1231e-17 < pi / 2 - halfPi ∧ pi / 2 - halfPi < 6.12338e-17 := by
  have h1 := Real.pi_gt_d20
  have h2 := pi_lt
  rw [halfPi]
  constructor <;> norm_num <;> linarith

theorem cos_halfPi_mem : 6.123e-17 < Real.cos halfPi ∧ Real.cos halfPi < 6.12338e-17 := by
  obtain ⟨h1, h2⟩ := pi_div_two_sub_halfPi
  have hpos : 0 < pi / 2 - halfPi := lt_trans (by norm_num) h1
  rw [← Real.sin_pi_div_two_sub]
  refine ⟨?_, (Real.sin_lt hpos).trans h2⟩
  have hcube := Real.sin_gt_sub_cube hpos
  have hpow : (pi / 2 - halfPi) ^ 3 ≤ 6.12338e-17 ^ 3 := pow_le_pow_left₀ hpos.le h2.le 3
  norm_num at hpow h1 ⊢
  linarith

theorem round_sin_halfPi : round (Real.sin halfPi) = 1 := by
  obtain ⟨h1, h2⟩ := pi_div_two_sub_halfPi
  have hpos : 0 < pi / 2 - halfPi := lt_trans (by norm_num) h1
  have hone : round ((1 : ℤ) : ℝ) = (1 : ℤ) := round_intCast (by norm_num)
  rw [Int.cast_one] at hone
  rw [← Real.cos_pi_div_two_sub]
  apply le_antisymm
  · rw [← hone]
    exact round_mono (Real.cos_le_one _)
  · have hiff := @round_lt_intCast_iff 1 (-1) (Real.cos (pi / 2 - halfPi)) (by norm_num) (by norm_num) (by norm_num)
    rw [Int.cast_one] at hiff
    rw [← not_lt, hiff, not_lt]
    refine le_trans ?_ (Real.one_sub_sq_div_two_le_cos)
    have hsq : (pi / 2 - halfPi) ^ 2 ≤ 6.12338e-17 ^ 2 := pow_le_pow_left₀ hpos.le h2.le 2
    norm_num at hsq ⊢
    linarith

end Binary64
