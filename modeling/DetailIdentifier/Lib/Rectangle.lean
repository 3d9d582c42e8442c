/-
Rectangles of the plane: the coordinates of a vector in a turned frame (`turn`), the inside of a
turned rectangle as the interior of the hull of its corners (`mem_interior_corners`), and the turns
that carry a rectangle onto itself (`box_turn_iff`).
-/
import Mathlib

namespace Rectangle

open Real

/-! ## Turned frames -/

/-- The coordinates of a vector along the directions `t` and `t + π / 2`. -/
noncomputable def turn (t : ℝ) (v : ℝ × ℝ) : ℝ × ℝ := (v.1 * cos t + v.2 * sin t, -v.1 * sin t + v.2 * cos t)

@[simp] theorem turn_zero (v : ℝ × ℝ) : turn 0 v = v := by
  simp [turn]

@[simp] theorem turn_turn (s t : ℝ) (v : ℝ × ℝ) : turn s (turn t v) = turn (s + t) v := by
  simp only [turn, cos_add, sin_add, Prod.mk.injEq]
  constructor <;> ring

/-- Turning a frame, as an equivalence of the plane. -/
noncomputable def turnEquiv (t : ℝ) : (ℝ × ℝ) ≃ₗ[ℝ] ℝ × ℝ where
  toFun := turn t
  invFun := turn (-t)
  map_add' v w := by
    simp only [turn, Prod.fst_add, Prod.snd_add, Prod.mk_add_mk, Prod.mk.injEq]
    constructor <;> ring
  map_smul' r v := by
    simp only [turn, Prod.smul_fst, Prod.smul_snd, Prod.smul_mk, smul_eq_mul, RingHom.id_apply, Prod.mk.injEq]
    constructor <;> ring
  left_inv v := by simp
  right_inv v := by simp

/-! ## Rectangles and their corners -/

/-- The inside of the rectangle around the origin with the half sides `a` and `b`. -/
def box (a b : ℝ) : Set (ℝ × ℝ) := {v | |v.1| < a ∧ |v.2| < b}

@[simp] theorem mem_box {a b : ℝ} {v : ℝ × ℝ} : v ∈ box a b ↔ |v.1| < a ∧ |v.2| < b := Iff.rfl

/-- The corners of the rectangle around `c` with the half sides `a` and `b`, turned by `t`. -/
noncomputable def corners (c : ℝ × ℝ) (t a b : ℝ) : Set (ℝ × ℝ) := (fun v => c + turn (-t) v) '' ({-a, a} ×ˢ {-b, b})

theorem interior_convexHull_box {a b : ℝ} (ha : 0 ≤ a) (hb : 0 ≤ b) :
    interior (convexHull ℝ (({-a, a} : Set ℝ) ×ˢ {-b, b})) = box a b := by
  rw [convexHull_prod, convexHull_pair, convexHull_pair, segment_eq_Icc (by linarith), segment_eq_Icc (by linarith),
    interior_prod_eq, interior_Icc, interior_Icc]
  ext v
  simp only [mem_box, Set.mem_prod, Set.mem_Ioo, abs_lt]

/-- A point is strictly inside a turned rectangle when its coordinates in the turned frame are. -/
theorem mem_interior_corners {c : ℝ × ℝ} {t a b : ℝ} (ha : 0 ≤ a) (hb : 0 ≤ b) {p : ℝ × ℝ} :
    p ∈ interior (convexHull ℝ (corners c t a b)) ↔ turn t (p - c) ∈ box a b := by
  obtain ⟨place, hplace⟩ : ∃ place : (ℝ × ℝ) ≃ᵃ[ℝ] ℝ × ℝ, ∀ v, place v = c + turn (-t) v :=
    ⟨(turnEquiv (-t)).toAffineEquiv.trans (AffineEquiv.constVAdd ℝ (ℝ × ℝ) c), fun v => rfl⟩
  have hcorners : corners c t a b = place '' ({-a, a} ×ˢ {-b, b}) := by
    simp only [corners, ← hplace]
  have himage : interior (convexHull ℝ (corners c t a b)) = place '' box a b := by
    rw [hcorners, ← interior_convexHull_box ha hb]
    have hhull := place.toAffineMap.image_convexHull (({-a, a} : Set ℝ) ×ˢ {-b, b})
    have hinterior := place.toContinuousAffineEquiv.toHomeomorph.image_interior
      (convexHull ℝ (({-a, a} : Set ℝ) ×ˢ {-b, b}))
    exact (hinterior.trans (congrArg interior hhull)).symm
  rw [himage]
  constructor
  · rintro ⟨v, hv, rfl⟩
    rw [hplace, add_sub_cancel_left, turn_turn, add_neg_cancel, turn_zero]
    exact hv
  · intro h
    refine ⟨_, h, ?_⟩
    rw [hplace, turn_turn, neg_add_cancel, turn_zero, add_sub_cancel]

/-! ## Rectangles carried onto themselves -/

/-- A bound on all smaller multiples of a number bounds the number. -/
theorem le_of_forall_scaled {x a : ℝ} (ha : 0 ≤ a) (h : ∀ r, 0 ≤ r → r < 1 → r * x < a) : x ≤ a := by
  by_contra hlt
  have hx : 0 < x := by linarith
  have hr := h (a / x) (div_nonneg ha hx.le) ((div_lt_one hx).2 (not_le.1 hlt))
  rw [div_mul_cancel₀ a hx.ne'] at hr
  exact lt_irrefl a hr

/-- The sign that makes a number nonnegative. -/
theorem exists_sign (x : ℝ) : ∃ s : ℝ, |s| ≤ 1 ∧ s * x = |x| := by
  rcases le_total 0 x with h | h
  · exact ⟨1, by simp, by rw [one_mul, abs_of_nonneg h]⟩
  · exact ⟨-1, by simp, by rw [neg_one_mul, abs_of_nonpos h]⟩

section Turned

variable {a b δ : ℝ}

/-- A rectangle turned over itself reaches no farther than before, on either side. -/
theorem extent_le (ha : 0 < a) (hb : 0 < b) (h : ∀ v ∈ box a b, turn δ v ∈ box a b) :
    a * |cos δ| + b * |sin δ| ≤ a ∧ a * |sin δ| + b * |cos δ| ≤ b := by
  have hscaled : ∀ x y r : ℝ, |x| ≤ 1 → |y| ≤ 1 → 0 ≤ r → r < 1 → (r * a * x, r * b * y) ∈ box a b := by
    intro x y r hx hy hr hr1
    have hra : r * a < a := mul_lt_of_lt_one_left ha hr1
    have hrb : r * b < b := mul_lt_of_lt_one_left hb hr1
    constructor
    · rw [abs_mul, abs_of_nonneg (by positivity)]
      exact (mul_le_of_le_one_right (by positivity) hx).trans_lt hra
    · rw [abs_mul, abs_of_nonneg (by positivity)]
      exact (mul_le_of_le_one_right (by positivity) hy).trans_lt hrb
  obtain ⟨x, hx, hxc⟩ := exists_sign (cos δ)
  obtain ⟨y, hy, hys⟩ := exists_sign (sin δ)
  constructor
  · -- the corner that is turned farthest to the right
    apply le_of_forall_scaled ha.le
    intro r hr hr1
    have hlt := lt_of_abs_lt (h _ (hscaled x y r hx hy hr hr1)).1
    calc r * (a * |cos δ| + b * |sin δ|) = (turn δ (r * a * x, r * b * y)).1 := by
          rw [← hxc, ← hys]; simp only [turn]; ring
      _ < a := hlt
  · apply le_of_forall_scaled hb.le
    intro r hr hr1
    have hlt := lt_of_abs_lt (h _ (hscaled (-y) x r (by rwa [abs_neg]) hx hr hr1)).2
    calc r * (a * |sin δ| + b * |cos δ|) = (turn δ (r * a * -y, r * b * x)).2 := by
          rw [← hxc, ← hys]; simp only [turn]; ring
      _ < b := hlt

theorem sin_eq_zero_or (ha : 0 < a) (hb : 0 < b) (h : ∀ v ∈ box a b, turn δ v ∈ box a b) :
    sin δ = 0 ∨ a = b ∧ cos δ = 0 := by
  obtain ⟨h1, h2⟩ := extent_le ha hb h
  have hc := abs_cos_le_one δ
  have hsq : |sin δ| ^ 2 + |cos δ| ^ 2 = 1 := by rw [sq_abs, sq_abs, sin_sq_add_cos_sq]
  have hs0 := abs_nonneg (sin δ)
  have hc0 := abs_nonneg (cos δ)
  -- both extents together leave no room between the two
  have hle : |sin δ| ^ 2 ≤ (1 - |cos δ|) ^ 2 := by
    have hmul : (b * |sin δ|) * (a * |sin δ|) ≤ (a * (1 - |cos δ|)) * (b * (1 - |cos δ|)) := by
      apply mul_le_mul <;> nlinarith
    have hab : 0 < a * b := mul_pos ha hb
    have : a * b * |sin δ| ^ 2 ≤ a * b * (1 - |cos δ|) ^ 2 := by linarith
    exact le_of_mul_le_mul_left this hab
  have hcos : |cos δ| * (1 - |cos δ|) ≤ 0 := by nlinarith
  rcases eq_or_lt_of_le hc0 with h0 | hpos
  · right
    have hs1 : |sin δ| = 1 := by nlinarith
    rw [← h0, hs1] at h1 h2
    exact ⟨by linarith, abs_eq_zero.1 h0.symm⟩
  · left
    have hone : |cos δ| = 1 := by nlinarith
    rw [hone] at hsq
    exact abs_eq_zero.1 (pow_eq_zero_iff two_ne_zero |>.1 (by linarith))

/-- A turn carries a rectangle onto itself exactly when it is by half turns, or by quarter turns for a
square. -/
theorem box_turn_iff (ha : 0 < a) (hb : 0 < b) : (∀ v, turn δ v ∈ box a b ↔ v ∈ box a b) ↔
    (∃ k : ℤ, δ = k * π) ∨ a = b ∧ ∃ k : ℤ, δ = k * (π / 2) := by
  constructor
  · intro h
    rcases sin_eq_zero_or ha hb fun v hv => (h v).2 hv with hs | ⟨hab, hc⟩
    · obtain ⟨k, hk⟩ := sin_eq_zero_iff.1 hs
      exact .inl ⟨k, hk.symm⟩
    · obtain ⟨k, hk⟩ := cos_eq_zero_iff.1 hc
      exact .inr ⟨hab, 2 * k + 1, by rw [hk]; push_cast; ring⟩
  · have half : ∀ {a b : ℝ}, sin δ = 0 → ∀ v, turn δ v ∈ box a b ↔ v ∈ box a b := by
      intro a b hs v
      have hc : |cos δ| = 1 := by
        rw [← sq_eq_sq₀ (abs_nonneg _) zero_le_one, sq_abs, cos_sq', hs]
        norm_num
      simp only [mem_box, turn, hs, mul_zero, add_zero, zero_add, abs_mul, hc, mul_one]
    rintro (⟨k, rfl⟩ | ⟨rfl, k, rfl⟩)
    · exact half (sin_int_mul_pi k)
    · rcases Int.even_or_odd' k with ⟨n, rfl | rfl⟩
      · apply half
        rw [show ((2 * n : ℤ) : ℝ) * (π / 2) = n * π by push_cast; ring]
        exact sin_int_mul_pi n
      · intro v
        have hcos : cos (((2 * n + 1 : ℤ) : ℝ) * (π / 2)) = 0 := by
          rw [cos_eq_zero_iff]
          exact ⟨n, by push_cast; ring⟩
        have hsin : |sin (((2 * n + 1 : ℤ) : ℝ) * (π / 2))| = 1 := by
          rw [← sq_eq_sq₀ (abs_nonneg _) zero_le_one, sq_abs, sin_sq, hcos]
          norm_num
        simp only [mem_box, turn, hcos, mul_zero, add_zero, zero_add, abs_mul, abs_neg, hsin, mul_one]
        exact and_comm

end Turned

end Rectangle
