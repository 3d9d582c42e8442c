/-
The box that is drawn against the box that `inside` tests. OpenCV keeps the angle of a rotated
rectangle in degrees and draws it so, `inside` hands it to the sine and cosine as it is; the two boxes
are one exactly when the angle in degrees and the same number in radians differ by half turns, or by
quarter turns for a square (`inside_iff_drawn`). Among rational angles that is angle 0 only
(`inside_iff_drawn_rational`).
-/
import DetailIdentifier.Lib.Rectangle
import DetailIdentifier.Interpreter.Box

namespace DetailIdentifier.Interpreter

open Rectangle

/-! ## The corners -/

/-- The angle in radians. -/
noncomputable def RotatedRect.radians (rect : RotatedRect) : ℝ := rect.angle * Real.pi / 180

/-- `RotatedRect::points`: half the width along the angle, half the height across it. -/
noncomputable def RotatedRect.points (rect : RotatedRect) : List (ℝ × ℝ) :=
  let t := rect.radians
  let along : ℝ × ℝ := (rect.width / (2 : ℤ) * Real.cos t, rect.width / (2 : ℤ) * Real.sin t)
  let across : ℝ × ℝ := (rect.height / (2 : ℤ) * -Real.sin t, rect.height / (2 : ℤ) * Real.cos t)
  [rect.center - along + across, rect.center - along - across, rect.center + along - across,
    rect.center + along + across]

/-- Strictly inside the rectangle with the corners of `points`. -/
def RotatedRect.Encloses (rect : RotatedRect) (p : ℝ × ℝ) : Prop :=
  p ∈ interior (convexHull ℝ {q | q ∈ rect.points})

theorem RotatedRect.points_eq (rect : RotatedRect) :
    rect.points = [(-(rect.width / 2), rect.height / 2), (-(rect.width / 2), -(rect.height / 2)),
      (rect.width / 2, -(rect.height / 2)), (rect.width / 2, rect.height / 2)].map
        fun v => rect.center + turn (-rect.radians) v := by
  simp only [RotatedRect.points, turn, List.map_cons, List.map_nil, List.cons.injEq, and_true, Real.cos_neg, Real.sin_neg]
  refine ⟨?_, ?_, ?_, ?_⟩ <;> ext <;> simp <;> ring

theorem RotatedRect.points_eq_corners (rect : RotatedRect) :
    {q | q ∈ rect.points} = corners rect.center rect.radians (rect.width / 2) (rect.height / 2) := by
  ext q
  rw [RotatedRect.points_eq]
  simp only [corners, Set.mem_ofPred_eq, List.mem_map, Set.mem_image, Set.mem_prod, Set.mem_insert_iff,
    Set.mem_singleton_iff, List.mem_cons, List.not_mem_nil, or_false, Prod.ext_iff]
  apply exists_congr
  intro v
  apply and_congr_left
  intro _
  tauto

/-! ## Two frames -/

section Frames

variable {rect : RotatedRect} {p : ℝ × ℝ}

theorem encloses_iff (hw : 0 < rect.width) (hh : 0 < rect.height) :
    rect.Encloses p ↔ turn rect.radians (p - rect.center) ∈ box (rect.width / 2) (rect.height / 2) := by
  rw [RotatedRect.Encloses, rect.points_eq_corners]
  exact mem_interior_corners (by linarith) (by linarith)

/-- `inside` reads the coordinates in the frame of the angle as radians. -/
theorem inside_iff : inside rect p ↔ turn rect.angle (p - rect.center) ∈ box (rect.width / 2) (rect.height / 2) := by
  have htwice : ∀ x w : ℝ, |(2 : ℤ) * x| < w ↔ |x| < w / 2 := by
    intro x w
    rw [abs_mul, lt_div_iff₀ two_pos, mul_comm]
    norm_num
  simp only [inside, htwice]
  rfl

/-- The two boxes are one when turning by the difference of the two angles carries the box onto itself. -/
theorem forall_inside_iff_encloses (hw : 0 < rect.width) (hh : 0 < rect.height) :
    (∀ p, inside rect p ↔ rect.Encloses p) ↔
      ∀ v, turn (rect.angle - rect.radians) v ∈ box (rect.width / 2) (rect.height / 2) ↔
        v ∈ box (rect.width / 2) (rect.height / 2) := by
  simp only [encloses_iff hw hh, inside_iff]
  constructor
  · intro h v
    have hv := h (rect.center + turn (-rect.radians) v)
    rwa [add_sub_cancel_left, turn_turn, turn_turn, ← sub_eq_add_neg, add_neg_cancel, turn_zero] at hv
  · intro h p
    have hp := h (turn rect.radians (p - rect.center))
    rwa [turn_turn, sub_add_cancel] at hp

end Frames

/-! ## Angles -/

/-- `inside` agrees with the box drawn exactly when the angle in degrees and in radians differ by half
turns, or by quarter turns for a square. -/
theorem inside_iff_drawn (rect : RotatedRect) (hw : 0 < rect.width) (hh : 0 < rect.height) :
    (∀ p, inside rect p ↔ rect.Encloses p) ↔
      (∃ k : ℤ, rect.angle - rect.angle * Real.pi / 180 = k * Real.pi) ∨
        rect.width = rect.height ∧ ∃ k : ℤ, rect.angle - rect.angle * Real.pi / 180 = k * (Real.pi / 2) := by
  rw [forall_inside_iff_encloses hw hh, box_turn_iff (by linarith) (by linarith), div_left_inj' two_ne_zero]
  rfl

/-- A view 800 pixels wide and 100 high, its box turned by a right angle. -/
noncomputable def sidewaysRect : RotatedRect :=
  { UprightRect.toRotated ⟨(500, 500), 100, 800⟩ with angle := (-90 : ℤ) }

theorem sidewaysRect_width_pos : 0 < sidewaysRect.width := by
  norm_num [sidewaysRect, UprightRect.toRotated]

theorem sidewaysRect_height_pos : 0 < sidewaysRect.height := by
  norm_num [sidewaysRect, UprightRect.toRotated]

theorem sidewaysRect_agrees_iff : (∀ p, inside sidewaysRect p ↔ sidewaysRect.Encloses p) ↔
    (∃ k : ℤ, sidewaysRect.angle - sidewaysRect.angle * Real.pi / 180 = k * Real.pi) ∨
      sidewaysRect.width = sidewaysRect.height ∧
        ∃ k : ℤ, sidewaysRect.angle - sidewaysRect.angle * Real.pi / 180 = k * (Real.pi / 2) :=
  inside_iff_drawn sidewaysRect sidewaysRect_width_pos sidewaysRect_height_pos

/-- 90 radians are 14 turns, a right angle and some more. -/
theorem cos_ninety : Real.cos 90 ≤ -(1 / 7) := by
  have h1 := Real.pi_gt_d4
  have h2 := Real.pi_lt_d4
  have hcos : Real.cos 90 = -Real.sin (90 - 57 / 2 * Real.pi) := by
    rw [← Real.cos_add_pi_div_two, ← Real.cos_sub_nat_mul_two_pi 90 14]
    congr 1
    push_cast
    ring
  have hsin := Real.mul_le_sin (x := 90 - 57 / 2 * Real.pi) (by linarith) (by linarith)
  have hlow : 1 / 7 ≤ 2 / Real.pi * (90 - 57 / 2 * Real.pi) := by
    rw [div_mul_eq_mul_div, le_div_iff₀ Real.pi_pos]
    linarith
  linarith

/-- A point of the view, 350 pixels to the right of its center, is found outside. -/
theorem sidewaysRect_misses : sidewaysRect.Encloses (850, 500) ∧ ¬inside sidewaysRect (850, 500) := by
  constructor
  · rw [encloses_iff sidewaysRect_width_pos sidewaysRect_height_pos]
    have hradians : sidewaysRect.radians = -(Real.pi / 2) := by
      rw [RotatedRect.radians, sidewaysRect]
      ring
    rw [hradians]
    norm_num [sidewaysRect, UprightRect.toRotated, turn]
  · rintro ⟨h, -⟩
    have hcos := cos_ninety
    norm_num [sidewaysRect, UprightRect.toRotated] at h
    linarith [neg_abs_le (Real.cos 90)]

/-! ## Rational angles -/

/-- A number and the same number of degrees differ by quarter turns for no rational but 0. -/
theorem degrees_ne_quarter_turns {q : ℚ} (hq : q ≠ 0) (k : ℤ) : (q : ℝ) - q * Real.pi / 180 ≠ k * (Real.pi / 2) := by
  intro h
  have hprod : ((q / 180 + k / 2 : ℚ) : ℝ) * Real.pi = q := by
    push_cast
    linarith
  have hne : (q / 180 + k / 2 : ℚ) ≠ 0 := by
    intro h0
    rw [h0, Rat.cast_zero, zero_mul] at hprod
    exact hq (by exact_mod_cast hprod.symm)
  have hirr := irrational_pi.ratCast_mul hne
  rw [hprod] at hirr
  exact hirr ⟨q, rfl⟩

/-- With a rational angle, as every `float` is, the two agree at angle 0 only. -/
theorem inside_iff_drawn_rational {rect : RotatedRect} {q : ℚ} (hangle : rect.angle = q) (hw : 0 < rect.width)
    (hh : 0 < rect.height) : (∀ p, inside rect p ↔ rect.Encloses p) ↔ rect.angle = 0 := by
  rw [forall_inside_iff_encloses hw hh, box_turn_iff (by linarith) (by linarith)]
  constructor
  · intro h
    obtain ⟨k, hk⟩ : ∃ k : ℤ, rect.angle - rect.radians = k * (Real.pi / 2) := by
      rcases h with ⟨k, hk⟩ | ⟨-, h⟩
      · exact ⟨2 * k, by rw [hk]; push_cast; ring⟩
      · exact h
    rw [RotatedRect.radians, hangle] at hk
    rw [hangle, Rat.cast_eq_zero]
    by_contra hq
    exact degrees_ne_quarter_turns hq k hk
  · intro h
    exact .inl ⟨0, by rw [RotatedRect.radians, h]; simp⟩

end DetailIdentifier.Interpreter
