/-
The cast line of two views as a line of the image: `calculate_direction` puts it through the first
center and less than a pixel off the second (`calculateDirection_near`), and `far_behind` and
`far_before` are its ends far to the left and to the right. They divide by the sine of its angle,
which is not zero exactly when the centers are a pixel apart across the image
(`sin_calculateDirection_ne_zero`).
-/
import DetailIdentifier.Interpreter.Box
import DetailIdentifier.Interpreter.Directions

namespace DetailIdentifier.Interpreter

/-! ## The line and the two centers -/

/-- How far a place lies beyond a line, along the line's normal. -/
noncomputable def ProjectionDirection.beyond (d : ProjectionDirection) (c : ℝ × ℝ) : ℝ :=
  Real.cos d.alpha * c.1 + Real.sin d.alpha * c.2 - d.p

/-- Views a pixel apart are joined by their line, for both orders of the pair. -/
theorem calculateDirection_near {ps : List (Projection RotatedRect)} {i k : ℕ} {c1 c2 : Projection RotatedRect}
    (hik : i < k) (hi : ps[i]? = some c1) (hk : ps[k]? = some c2)
    (hfar : 1 ≤ |c1.boundingBox.center.1 - c2.boundingBox.center.1| ∨
      1 ≤ |c1.boundingBox.center.2 - c2.boundingBox.center.2|) :
    (calculateDirection c1 c2).beyond c1.boundingBox.center = 0 ∧
      |(calculateDirection c1 c2).beyond c2.boundingBox.center| < 1 ∧
      fetchDirection (calculateProjectionDirections ps) i k = .ok (calculateDirection c1 c2) ∧
      fetchDirection (calculateProjectionDirections ps) k i = .ok (calculateDirection c1 c2) := by
  refine ⟨?_, ?_, ?_, ?_⟩
  · rcases calculateDirection_cases c1 c2 with ⟨h1, h2, -⟩ | ⟨-, -, h⟩ | ⟨-, -, h⟩ | ⟨-, -, ang, -, -, h⟩
    · rcases hfar with hfar | hfar <;> linarith
    · simp [h, ProjectionDirection.beyond]
    · simp [h, ProjectionDirection.beyond]
    · rw [h, ProjectionDirection.beyond]
      ring
  · rcases calculateDirection_cases c1 c2 with ⟨h1, h2, -⟩ | ⟨h1, -, h⟩ | ⟨-, h2, h⟩ | ⟨-, h2, ang, htan, hcos, h⟩
    · rcases hfar with hfar | hfar <;> linarith
    · simpa [h, ProjectionDirection.beyond, abs_sub_comm] using h1
    · simpa [h, ProjectionDirection.beyond, abs_sub_comm] using h2
    · -- the second center lies on the line too
      have hy : c1.boundingBox.center.2 - c2.boundingBox.center.2 ≠ 0 := abs_pos.1 (by linarith)
      have hsin : Real.sin ang * (c1.boundingBox.center.2 - c2.boundingBox.center.2) =
          -(c1.boundingBox.center.1 - c2.boundingBox.center.1) * Real.cos ang := by
        rw [← Real.tan_mul_cos hcos, htan]
        field_simp
      have hzero : (calculateDirection c1 c2).beyond c2.boundingBox.center = 0 := by
        rw [h, ProjectionDirection.beyond]
        linear_combination -hsin
      rw [hzero, abs_zero]
      exact one_pos
  · rw [fetchDirection_table hi hk, if_neg hik.ne, if_pos hik]
  · rw [fetchDirection_table hk hi, if_neg hik.ne', if_neg hik.not_gt]

noncomputable def upperLeftView : Projection RotatedRect :=
  ⟨[⟨50, 100⟩, ⟨150, 100⟩], [], [(0, 1)], UprightRect.toRotated ⟨(100, 100), 100, 0⟩, none⟩

noncomputable def lowerRightView : Projection RotatedRect :=
  ⟨[⟨350, 500⟩, ⟨450, 500⟩], [], [(0, 1)], UprightRect.toRotated ⟨(400, 500), 100, 0⟩, none⟩

theorem calculateDirection_near_lowerRight :
    (calculateDirection upperLeftView lowerRightView).beyond upperLeftView.boundingBox.center = 0 ∧
      |(calculateDirection upperLeftView lowerRightView).beyond lowerRightView.boundingBox.center| < 1 ∧
      fetchDirection (calculateProjectionDirections [upperLeftView, lowerRightView]) 0 1 =
        .ok (calculateDirection upperLeftView lowerRightView) ∧
      fetchDirection (calculateProjectionDirections [upperLeftView, lowerRightView]) 1 0 =
        .ok (calculateDirection upperLeftView lowerRightView) :=
  calculateDirection_near Nat.zero_lt_one rfl rfl (by norm_num [upperLeftView, lowerRightView, UprightRect.toRotated])

/-! ## Far ends -/

/-- The point of `far_behind` and `far_before` in the column `x`, on the line through `center` in the
direction `dir`. The quotient by the tangent is the cosine times `x` by the sine, also where there is
no tangent. -/
noncomputable def farPoint (x : ℤ) (center : Point2i) (dir : ProjectionDirection) : Point2i :=
  let p := center.x * Real.cos dir.alpha + center.y * Real.sin dir.alpha
  ⟨x, toInt (p / Real.sin dir.alpha - x / Real.tan dir.alpha)⟩

/-- `far_behind` of the interpreter. -/
noncomputable def farBehind (center : Point2i) (dir : ProjectionDirection) : Point2i := farPoint (-2000) center dir

/-- `far_before` of the interpreter. -/
noncomputable def farBefore (center : Point2i) (dir : ProjectionDirection) : Point2i := farPoint 20000 center dir

/-- Less than a pixel off the line through `center` with the normal of the direction. -/
def OnCastLine (center : Point2i) (dir : ProjectionDirection) (pt : Point2i) : Prop :=
  |Real.cos dir.alpha * (pt.x - center.x) + Real.sin dir.alpha * (pt.y - center.y)| < 1

/-- Where the sine can be divided by, only the fraction cut off is lost. -/
theorem farPoint_onCastLine (x : ℤ) (center : Point2i) {dir : ProjectionDirection} (h : Real.sin dir.alpha ≠ 0) :
    OnCastLine center dir (farPoint x center dir) := by
  have hcut := abs_toInt_sub_lt ((center.x * Real.cos dir.alpha + center.y * Real.sin dir.alpha) / Real.sin dir.alpha -
    x / Real.tan dir.alpha)
  have hexact : Real.cos dir.alpha * (x - center.x) + Real.sin dir.alpha *
      ((center.x * Real.cos dir.alpha + center.y * Real.sin dir.alpha) / Real.sin dir.alpha -
        x / Real.tan dir.alpha - center.y) = 0 := by
    rw [Real.tan_eq_sin_div_cos, div_div_eq_mul_div]
    field_simp
    ring
  have hsplit : Real.cos dir.alpha * ((farPoint x center dir).x - center.x) +
      Real.sin dir.alpha * ((farPoint x center dir).y - center.y) =
      Real.sin dir.alpha * ((farPoint x center dir).y -
        ((center.x * Real.cos dir.alpha + center.y * Real.sin dir.alpha) / Real.sin dir.alpha -
          x / Real.tan dir.alpha)) := by
    show Real.cos dir.alpha * (x - center.x) + _ = _
    linear_combination hexact
  unfold OnCastLine
  rw [hsplit, abs_mul]
  exact (mul_le_of_le_one_left (abs_nonneg _) (Real.abs_sin_le_one _)).trans_lt hcut

/-- The direction's sine is zero exactly for centers one above the other. -/
theorem sin_calculateDirection_ne_zero (c1 c2 : Projection RotatedRect) :
    Real.sin (calculateDirection c1 c2).alpha ≠ 0 ↔
      1 ≤ |c1.boundingBox.center.1 - c2.boundingBox.center.1| := by
  rcases calculateDirection_cases c1 c2 with ⟨h1, -, h⟩ | ⟨h1, -, h⟩ | ⟨h1, -, h⟩ | ⟨h1, h2, ang, htan, hcos, h⟩
  · exact iff_of_false (by simp [h]) (not_le.2 h1)
  · exact iff_of_false (by simp [h]) (not_le.2 h1)
  · exact iff_of_true (by simp [h]) h1
  · refine iff_of_true (fun hsin => ?_) h1
    have hx : c1.boundingBox.center.1 - c2.boundingBox.center.1 ≠ 0 := abs_pos.1 (by linarith)
    have hy : c1.boundingBox.center.2 - c2.boundingBox.center.2 ≠ 0 := abs_pos.1 (by linarith)
    rw [h] at hsin
    rw [Real.tan_eq_sin_div_cos, hsin, zero_div] at htan
    exact div_ne_zero (neg_ne_zero.2 hx) hy htan.symm

/-! ## The lines drawn -/

/-- A line drawn from `far_behind` to `far_before`. -/
structure CastLine where
  behind : Point2i
  before : Point2i

/-- `cv::line` between the far ends of a line. Where there is no sine to divide by, or an `int` does not
hold a row, the conversion of the row is undefined. -/
noncomputable def drawLine (dir : ProjectionDirection) (behind before : Point2i) : Except Fault CastLine :=
  if Real.sin dir.alpha ≠ 0 ∧ IsInt behind.y ∧ IsInt before.y then .ok ⟨behind, before⟩ else .error .undefined

/-- The ends of the line through `center` can be computed. -/
def LineFits (center : Point2i) (dir : ProjectionDirection) : Prop :=
  Real.sin dir.alpha ≠ 0 ∧ IsInt (farBehind center dir).y ∧ IsInt (farBefore center dir).y

theorem drawLine_eq {center : Point2i} {dir : ProjectionDirection} (h : LineFits center dir) :
    drawLine dir (farBehind center dir) (farBefore center dir) = .ok ⟨farBehind center dir, farBefore center dir⟩ :=
  if_pos h

theorem drawLine_error_iff {center : Point2i} {dir : ProjectionDirection} {f : Fault} :
    drawLine dir (farBehind center dir) (farBefore center dir) = .error f ↔ ¬LineFits center dir ∧ f = .undefined := by
  by_cases h : LineFits center dir
  · simp [drawLine_eq h, h]
  · simp [show drawLine dir (farBehind center dir) (farBefore center dir) = .error .undefined from if_neg h, h, eq_comm]

/-- A row on the line, by the slope. -/
theorem farPoint_eq (x : ℤ) (center : Point2i) {dir : ProjectionDirection} (h : Real.sin dir.alpha ≠ 0) :
    farPoint x center dir =
      ⟨x, toInt (center.y + (center.x - x) * (Real.cos dir.alpha / Real.sin dir.alpha))⟩ := by
  have hrow : (center.x * Real.cos dir.alpha + center.y * Real.sin dir.alpha) / Real.sin dir.alpha -
      x / Real.tan dir.alpha = center.y + (center.x - x) * (Real.cos dir.alpha / Real.sin dir.alpha) := by
    rw [Real.tan_eq_sin_div_cos, div_div_eq_mul_div]
    field_simp
    ring
  rw [farPoint, hrow]

/-- Over a pixel the line rises no more than from one center to the other. -/
theorem abs_cos_div_sin_le (c1 c2 : Projection RotatedRect)
    (h : 1 ≤ |c1.boundingBox.center.1 - c2.boundingBox.center.1|) :
    |Real.cos (calculateDirection c1 c2).alpha / Real.sin (calculateDirection c1 c2).alpha| ≤
      |c1.boundingBox.center.2 - c2.boundingBox.center.2| := by
  rcases calculateDirection_cases c1 c2 with ⟨h1, -, -⟩ | ⟨h1, -, -⟩ | ⟨-, -, hd⟩ | ⟨-, h2, ang, htan, hcos, hd⟩
  · exact absurd h1 (not_lt.2 h)
  · exact absurd h1 (not_lt.2 h)
  · simp [hd]
  · have hinv : Real.cos ang / Real.sin ang = (Real.tan ang)⁻¹ := by rw [Real.tan_eq_sin_div_cos, inv_div]
    rw [hd, hinv, htan, inv_div, abs_div, abs_neg]
    exact div_le_self (abs_nonneg _) h

/-- On sheets of any usual size only the sine decides. -/
theorem lineFits_iff {c1 c2 : Projection RotatedRect} {center : Point2i} (hx : |center.x| ≤ 20000)
    (hy : |center.y| ≤ 20000) (hrows : |c1.boundingBox.center.2 - c2.boundingBox.center.2| ≤ 20000) :
    LineFits center (calculateDirection c1 c2) ↔ 1 ≤ |c1.boundingBox.center.1 - c2.boundingBox.center.1| := by
  rw [← sin_calculateDirection_ne_zero]
  refine and_iff_left_of_imp fun hsin => ?_
  have hslope := (abs_cos_div_sin_le c1 c2 ((sin_calculateDirection_ne_zero c1 c2).1 hsin)).trans hrows
  have hrow : ∀ x : ℤ, |x| ≤ 20000 → IsInt (farPoint x center (calculateDirection c1 c2)).y := by
    intro x hx20000
    rw [farPoint_eq x center hsin]
    have hwide : |(center.x - x : ℝ)| ≤ 40000 := by
      have : |center.x - x| ≤ 40000 := by rw [abs_le] at *; omega
      exact_mod_cast this
    have hy' : |(center.y : ℝ)| ≤ 20000 := by exact_mod_cast hy
    have hprod := mul_le_mul hwide hslope (abs_nonneg _) (by norm_num)
    rw [← abs_mul] at hprod
    have hsum := (abs_toInt_le _).trans (add_le_add_left ((abs_add_le _ _).trans (add_le_add hy' hprod)) 1)
    rw [abs_le] at hsum
    have h1 : ((-2 ^ 31 : ℤ) : ℝ) ≤ toInt (center.y + (center.x - x) *
      (Real.cos (calculateDirection c1 c2).alpha / Real.sin (calculateDirection c1 c2).alpha)) := by
      push_cast
      linarith [hsum.1]
    have h2 : (toInt (center.y + (center.x - x) *
      (Real.cos (calculateDirection c1 c2).alpha / Real.sin (calculateDirection c1 c2).alpha)) : ℝ) < ((2 ^ 31 : ℤ) : ℝ) := by
      push_cast
      linarith [hsum.2]
    exact ⟨Int.cast_le.1 h1, Int.cast_lt.1 h2⟩
  exact ⟨hrow (-2000) (by decide), hrow 20000 (by decide)⟩

section Drawing

variable (toPoint : ℝ × ℝ → Point2i) (ps : List (Projection RotatedRect))

/-- The pairs of views the loops over `i` and the later `k` run through, with their indices. -/
def viewPairs : List ((Projection RotatedRect × ℕ) × (Projection RotatedRect × ℕ)) :=
  ps.zipIdx.flatMap fun a => (ps.zipIdx.drop (a.2 + 1)).map fun b => (a, b)

/-- What `calculate_projection_directions` draws: for every pair of views its line through the first
center. The conversion of a center to a pixel is OpenCV's. -/
noncomputable def drawDirections : Except Fault (List CastLine) :=
  (viewPairs ps).mapM fun m =>
    let center := toPoint m.1.1.boundingBox.center
    let d := calculateDirection m.1.1 m.2.1
    drawLine d (farBehind center d) (farBefore center d)

variable {ps}

theorem mem_viewPairs {m : (Projection RotatedRect × ℕ) × (Projection RotatedRect × ℕ)} :
    m ∈ viewPairs ps ↔ m.1.2 < m.2.2 ∧ ps[m.1.2]? = some m.1.1 ∧ ps[m.2.2]? = some m.2.1 := by
  obtain ⟨⟨c1, i⟩, c2, k⟩ := m
  simp only [viewPairs, List.mem_flatMap, List.mem_map, Prod.mk.injEq, Prod.exists, List.mem_drop_zipIdx,
    List.mk_mem_zipIdx_iff_getElem?]
  constructor
  · rintro ⟨c, j, hc, c', n, ⟨hn, hc'⟩, ⟨rfl, rfl⟩, rfl, rfl⟩
    exact ⟨hn, hc, hc'⟩
  · rintro ⟨hik, hc1, hc2⟩
    exact ⟨c1, i, hc1, c2, k, ⟨hik, hc2⟩, ⟨rfl, rfl⟩, rfl, rfl⟩

/-- What holds of all pairs holds pairwise. -/
theorem forall_viewPairs {P : Projection RotatedRect → Projection RotatedRect → Prop} :
    (∀ m ∈ viewPairs ps, P m.1.1 m.2.1) ↔ ps.Pairwise P := by
  rw [List.pairwise_iff_getElem]
  constructor
  · intro h i k hi hk hik
    exact h ((ps[i], i), (ps[k], k)) (mem_viewPairs.2 ⟨hik, List.getElem?_eq_getElem hi, List.getElem?_eq_getElem hk⟩)
  · intro h m hm
    obtain ⟨hik, h1, h2⟩ := mem_viewPairs.1 hm
    obtain ⟨hi, e1⟩ := List.getElem?_eq_some_iff.1 h1
    obtain ⟨hk, e2⟩ := List.getElem?_eq_some_iff.1 h2
    rw [← e1, ← e2]
    exact h _ _ hi hk hik

/-- The lines between the views can all be drawn. -/
def LinesFit (toPoint : ℝ × ℝ → Point2i) (ps : List (Projection RotatedRect)) : Prop :=
  ps.Pairwise fun c1 c2 => LineFits (toPoint c1.boundingBox.center) (calculateDirection c1 c2)

variable {toPoint}

theorem drawDirections_eq (h : LinesFit toPoint ps) : ∃ lines, drawDirections toPoint ps = .ok lines :=
  ⟨_, List.mapM_eq_map fun m hm => drawLine_eq (forall_viewPairs.2 h m hm)⟩

theorem drawDirections_undefined (h : ¬LinesFit toPoint ps) : drawDirections toPoint ps = .error .undefined := by
  rw [LinesFit, ← forall_viewPairs] at h
  push Not at h
  obtain ⟨m, hm, hfit⟩ := h
  exact List.mapM_eq_error ⟨m, hm, drawLine_error_iff.2 ⟨hfit, rfl⟩⟩ fun _ _ _ hf => (drawLine_error_iff.1 hf).2

end Drawing

end DetailIdentifier.Interpreter
