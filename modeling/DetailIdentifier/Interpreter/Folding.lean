/-
Signed coordinates out of unsigned distances. `get_location_of` subtracts two distances to an axis
line that was moved 10000 pixels away. The difference is the displacement from the zero point as
long as everything lies on the near side of that line; what lies `depth` beyond it is folded back
(`coordinate_eq`), and `coordinates_unfolded_iff` says when the truncation to `int` hides that.
-/
import DetailIdentifier.Interpreter.Directions

namespace DetailIdentifier.Interpreter

/-! ## Truncation -/

/-- An error of `δ` on `r` that does not leave the numbers cut to the same `int`. -/
def Hidden (r δ : ℝ) : Prop :=
  if 1 ≤ r then -Int.fract r ≤ δ ∧ δ < 1 - Int.fract r
  else if r ≤ -1 then Int.fract (-r) - 1 < δ ∧ δ ≤ Int.fract (-r)
  else |r + δ| < 1

theorem toInt_add_eq_iff (r δ : ℝ) : toInt (r + δ) = toInt r ↔ Hidden r δ := by
  rw [le_antisymm_iff, toInt_le_iff, le_toInt_iff, Hidden]
  by_cases h1 : 1 ≤ r
  · have hn : toInt r = ⌊r⌋ := by rw [toInt, if_pos (by linarith)]
    have hpos : 0 < ⌊r⌋ := Int.floor_pos.2 h1
    have hfract := Int.floor_add_fract r
    rw [hn, if_neg (by omega), if_pos hpos, if_pos h1]
    constructor <;> rintro ⟨h2, h3⟩ <;> constructor <;> linarith
  · by_cases h2 : r ≤ -1
    · have hn : toInt r = -⌊-r⌋ := by rw [toInt, if_neg (by linarith), Int.floor_neg, neg_neg]
      have hpos : 0 < ⌊-r⌋ := Int.floor_pos.2 (by linarith)
      have hfract := Int.floor_add_fract (-r)
      rw [hn, if_pos (by omega), if_neg (by omega), if_neg h1, if_pos h2]
      push_cast
      constructor <;> rintro ⟨h3, h4⟩ <;> constructor <;> linarith
    · have hn : toInt r = 0 := by
        refine le_antisymm ((toInt_le_iff 0 r).2 ?_) ((le_toInt_iff 0 r).2 ?_)
        · simpa using h1
        · simpa using h2
      rw [hn, if_neg (lt_irrefl 0), if_neg (lt_irrefl 0), if_neg h1, if_neg h2, abs_lt]
      push_cast
      constructor <;> rintro ⟨h3, h4⟩ <;> constructor <;> linarith

theorem hidden_zero (r : ℝ) : Hidden r 0 := by
  rw [← toInt_add_eq_iff, add_zero]

/-! ## Sides of a line -/

namespace ProjectionDirection

/-- Where a point lies along the normal, seen from the line. -/
noncomputable def offset (d : ProjectionDirection) (pt : Point2i) : ℝ :=
  Real.cos d.alpha * pt.x + Real.sin d.alpha * pt.y - d.p

/-- How far a point lies beyond the line. -/
noncomputable def depth (d : ProjectionDirection) (pt : Point2i) : ℝ := max (-d.offset pt) 0

/-- The displacement of a point from `z` along the normal. -/
noncomputable def displacement (d : ProjectionDirection) (z pt : Point2i) : ℝ :=
  Real.cos d.alpha * (pt.x - z.x) + Real.sin d.alpha * (pt.y - z.y)

variable (d : ProjectionDirection)

theorem getDistanceTo_eq (pt : Point2i) : d.getDistanceTo pt = d.offset pt + 2 * d.depth pt := by
  show |d.offset pt| = d.offset pt + 2 * max (-d.offset pt) 0
  rcases le_total 0 (d.offset pt) with h | h
  · rw [abs_of_nonneg h, max_eq_right (by linarith)]
    ring
  · rw [abs_of_nonpos h, max_eq_left (by linarith)]
    ring

theorem depth_eq_zero_iff (pt : Point2i) : d.depth pt = 0 ↔ 0 ≤ d.offset pt := by
  rw [depth, max_eq_right_iff, neg_nonpos]

/-- The difference of two distances is the displacement and what is folded back. -/
theorem getDistanceTo_sub (z pt : Point2i) :
    d.getDistanceTo pt - d.getDistanceTo z = d.displacement z pt + 2 * (d.depth pt - d.depth z) := by
  rw [getDistanceTo_eq, getDistanceTo_eq, displacement, offset, offset]
  ring

end ProjectionDirection

/-! ## Axes -/

/-- `has_x`, `has_y`, `has_z`. -/
def CoordinateSystem.has (s : CoordinateSystem) : Axis → Bool
  | .x => s.hasX
  | .y => s.hasY
  | .z => s.hasZ

/-- `x_line`, `y_line`, `z_line`. -/
def CoordinateSystem.line (s : CoordinateSystem) : Axis → ProjectionDirection
  | .x => s.xLine
  | .y => s.yLine
  | .z => s.zLine

theorem get_getLocationOf (s : CoordinateSystem) (p : Point2i) (a : Axis) :
    a.get (s.getLocationOf p) = toInt (s.coordinate (s.has a) (s.line a) p) := by
  cases a <;> rfl

/-- What a vertex is folded by, against the zero point. -/
noncomputable def CoordinateSystem.fold (s : CoordinateSystem) (a : Axis) (p : Point2i) : ℝ :=
  (2 : ℤ) * ((s.line a).depth p - (s.line a).depth s.zeroPointImageLocation)

theorem coordinate_eq (s : CoordinateSystem) {a : Axis} (ha : s.has a = true) (p : Point2i) :
    s.coordinate (s.has a) (s.line a) p = (s.line a).displacement s.zeroPointImageLocation p + s.fold a p := by
  rw [CoordinateSystem.coordinate_def, if_pos ha, ProjectionDirection.getDistanceTo_sub, CoordinateSystem.fold]
  push_cast
  ring

/-- A coordinate is the truncated displacement exactly when the truncation hides the fold. -/
theorem unfolded_iff (s : CoordinateSystem) {a : Axis} (ha : s.has a = true) (p : Point2i) :
    a.get (s.getLocationOf p) = toInt ((s.line a).displacement s.zeroPointImageLocation p) ↔
      Hidden ((s.line a).displacement s.zeroPointImageLocation p) (s.fold a p) := by
  rw [get_getLocationOf, coordinate_eq s ha, toInt_add_eq_iff]

/-- On the near side of the line nothing is folded. -/
theorem fold_of_near (s : CoordinateSystem) {a : Axis} {p : Point2i} (hp : 0 ≤ (s.line a).offset p)
    (hz : 0 ≤ (s.line a).offset s.zeroPointImageLocation) : s.fold a p = 0 := by
  rw [CoordinateSystem.fold, ((s.line a).depth_eq_zero_iff _).2 hp, ((s.line a).depth_eq_zero_iff _).2 hz, sub_zero,
    mul_zero]

/-! ## Assigned systems -/

theorem mainSystem_line {d : ProjectionDirection} {z : Point2i} {a : Axis} (ha : (mainSystem d z).has a = true) :
    (mainSystem d z).line a = xLineOf d ∨ (mainSystem d z).line a = yLineOf d := by
  cases a with
  | x => exact .inl rfl
  | y => exact .inr rfl
  | z => cases ha

theorem sideSystem_line {d : ProjectionDirection} {z : Point2i} {a : Axis} (ha : (sideSystem d z).has a = true) :
    (sideSystem d z).line a = xLineOf d ∨ (sideSystem d z).line a = yLineOf d := by
  cases a with
  | x => cases ha
  | y => exact .inr rfl
  | z => exact .inl rfl

/-- What the views are assigned: a zero point among their own vertices, and the two axis lines. -/
theorem assigned_lines {β : Type} {projections views : List (Projection β)} {directions : List (List ProjectionDirection)}
    {mainProjection : ℕ} (h : assignCoordinateSystems projections directions mainProjection = .ok views) :
    ∃ d, fetchDirection directions 0 1 = .ok d ∧ ∀ view ∈ views, ∃ s, view.s = some s ∧
      s.zeroPointImageLocation ∈ view.vertices ∧ ∀ a, s.has a = true → s.line a = xLineOf d ∨ s.line a = yLineOf d := by
  obtain ⟨d, hd, hviews⟩ := assignCoordinateSystems_systems h
  refine ⟨d, hd, fun view hview => ?_⟩
  obtain ⟨z, hz, hs | hs⟩ := hviews view hview
  · exact ⟨_, hs, hz, fun a ha => mainSystem_line ha⟩
  · exact ⟨_, hs, hz, fun a ha => sideSystem_line ha⟩

/-- In the systems assigned to the views, a coordinate is the signed displacement from the zero point,
truncated, exactly when the truncation hides what is folded at the axis line. -/
theorem coordinates_unfolded_iff {β : Type} {projections views : List (Projection β)}
    {directions : List (List ProjectionDirection)} {mainProjection : ℕ}
    (h : assignCoordinateSystems projections directions mainProjection = .ok views) :
    ∃ d, fetchDirection directions 0 1 = .ok d ∧ ∀ view ∈ views, ∃ s, view.s = some s ∧
      s.zeroPointImageLocation ∈ view.vertices ∧ ∀ a, s.has a = true →
        (s.line a = xLineOf d ∨ s.line a = yLineOf d) ∧ ∀ p : Point2i,
          (a.get (s.getLocationOf p) = toInt (Real.cos (s.line a).alpha * (p.x - s.zeroPointImageLocation.x) +
              Real.sin (s.line a).alpha * (p.y - s.zeroPointImageLocation.y)) ↔
            Hidden ((s.line a).displacement s.zeroPointImageLocation p) (s.fold a p)) := by
  obtain ⟨d, hd, hviews⟩ := assigned_lines h
  refine ⟨d, hd, fun view hview => ?_⟩
  obtain ⟨s, hs, hz, hline⟩ := hviews view hview
  exact ⟨s, hs, hz, fun a ha => ⟨hline a ha, unfolded_iff s ha⟩⟩

/-! ## Drawings that fit -/

/-- A place in an image of sides `w` and `h`. -/
structure InFrame (w h : ℝ) (pt : ℝ × ℝ) : Prop where
  x : 0 ≤ pt.1 ∧ pt.1 ≤ w
  y : 0 ≤ pt.2 ∧ pt.2 ≤ h

theorem neg_le_normal (α a b : ℝ) : -(|a| + |b|) ≤ Real.cos α * a + Real.sin α * b := by
  have ha : |Real.cos α * a| ≤ |a| := by
    rw [abs_mul]
    exact mul_le_of_le_one_left (abs_nonneg a) (Real.abs_cos_le_one α)
  have hb : |Real.sin α * b| ≤ |b| := by
    rw [abs_mul]
    exact mul_le_of_le_one_left (abs_nonneg b) (Real.abs_sin_le_one α)
  linarith [neg_abs_le (Real.cos α * a), neg_abs_le (Real.sin α * b)]

variable {w h : ℝ} (hwh : w + h ≤ 10000)

include hwh in
theorem near_xLineOf (d : ProjectionDirection) {pt : Point2i} (hpt : InFrame w h (pt.x, pt.y)) :
    0 ≤ (xLineOf d).offset pt := by
  have hx := abs_of_nonneg hpt.x.1
  have hy := abs_of_nonneg hpt.y.1
  have hn := neg_le_normal (xLineOf d).alpha pt.x pt.y
  show 0 ≤ Real.cos (xLineOf d).alpha * pt.x + Real.sin (xLineOf d).alpha * pt.y - -10000
  simp only at hx hy
  linarith [hpt.x.2, hpt.y.2]

include hwh in
/-- The cast line goes through the first view's center, or is upright at the left edge. -/
theorem near_yLineOf {p q : Projection RotatedRect} (hc : InFrame w h p.boundingBox.center) {pt : Point2i}
    (hpt : InFrame w h (pt.x, pt.y)) : 0 ≤ (yLineOf (calculateDirection p q)).offset pt := by
  obtain ⟨hx, hy⟩ := hpt
  obtain ⟨hcx, hcy⟩ := hc
  simp only at hx hy
  have hdx : |(pt.x : ℝ) - p.boundingBox.center.1| ≤ w := abs_le.2 ⟨by linarith, by linarith⟩
  have hdy : |(pt.y : ℝ) - p.boundingBox.center.2| ≤ h := abs_le.2 ⟨by linarith, by linarith⟩
  have hn := fun α => neg_le_normal α (pt.x - p.boundingBox.center.1) (pt.y - p.boundingBox.center.2)
  rcases calculateDirection_cases p q with ⟨-, -, h⟩ | ⟨-, -, h⟩ | ⟨-, -, h⟩ | ⟨-, -, ang, -, -, h⟩
  · simp only [h, yLineOf_def, ProjectionDirection.offset, Real.cos_zero, Real.sin_zero]
    linarith
  · simp only [h, yLineOf_def, ProjectionDirection.offset, Real.cos_zero, Real.sin_zero]
    linarith
  · simp only [h, yLineOf_def, ProjectionDirection.offset, Real.cos_pi_div_two, Real.sin_pi_div_two]
    linarith
  · simp only [h, yLineOf_def, ProjectionDirection.offset]
    linarith [hn ang]

include hwh in
/-- In a drawing whose sides add up to at most 10000 pixels no coordinate is folded. -/
theorem unfolded_of_small {p q p' q' : Projection RotatedRect} (hc : InFrame w h p.boundingBox.center)
    (hp : ∀ v ∈ p'.vertices, InFrame w h (v.x, v.y)) (hq : ∀ v ∈ q'.vertices, InFrame w h (v.x, v.y))
    (ha : assignCoordinateSystems [p, q] (calculateProjectionDirections [p, q]) 0 = .ok [p', q']) :
    ∀ view ∈ [p', q'], ∃ s, view.s = some s ∧ ∀ v ∈ view.vertices, ∀ a, s.has a = true →
      a.get (s.getLocationOf v) = toInt ((s.line a).displacement s.zeroPointImageLocation v) := by
  obtain ⟨d, hd, hviews⟩ := assigned_lines ha
  rw [fetchDirection_two] at hd
  cases hd
  intro view hview
  have hframe : ∀ v ∈ view.vertices, InFrame w h (v.x, v.y) := by
    rcases List.mem_pair.1 hview with rfl | rfl
    exacts [hp, hq]
  obtain ⟨s, hs, hz, hline⟩ := hviews view hview
  refine ⟨s, hs, fun v hv a ha => (unfolded_iff s ha v).2 ?_⟩
  have hnear : ∀ u ∈ view.vertices, 0 ≤ (s.line a).offset u := by
    intro u hu
    rcases hline a ha with hl | hl <;> rw [hl]
    exacts [near_xLineOf hwh _ (hframe u hu), near_yLineOf hwh hc (hframe u hu)]
  rw [fold_of_near s (hnear v hv) (hnear _ hz)]
  exact hidden_zero _

/-! ## A drawing that does not fit -/

/-- A view higher than the 10000 pixels the axis lines are moved away, and one below it. -/
def tallView : Projection RotatedRect := ⟨[⟨50, 100⟩, ⟨50, 12000⟩], [], [(0, 1)], ⟨(50, 6050), 0, 0, 0⟩, none⟩

def belowView : Projection RotatedRect := ⟨[⟨50, 12500⟩, ⟨50, 12600⟩], [], [(0, 1)], ⟨(50, 12550), 0, 0, 0⟩, none⟩

theorem assign_tallView :
    assignCoordinateSystems [tallView, belowView] (calculateProjectionDirections [tallView, belowView]) 0 =
      .ok [{ tallView with s := some (mainSystem ⟨0, 50⟩ ⟨50, 100⟩) },
        { belowView with s := some (sideSystem ⟨0, 50⟩ ⟨50, 12500⟩) }] := by
  refine assignCoordinateSystems_two ?_ rfl ?_
  · rw [fetchDirection_two]
    norm_num [calculateDirection, tallView, belowView]
  · norm_num [belowView, List.argmin, List.argAux, calculateDistance_def]

theorem coordinates_unfolded_iff_tallView :
    ∃ d, fetchDirection (calculateProjectionDirections [tallView, belowView]) 0 1 = .ok d ∧
      ∀ view ∈ [{ tallView with s := some (mainSystem ⟨0, 50⟩ ⟨50, 100⟩) },
        { belowView with s := some (sideSystem ⟨0, 50⟩ ⟨50, 12500⟩) }], ∃ s, view.s = some s ∧
          s.zeroPointImageLocation ∈ view.vertices ∧ ∀ a, s.has a = true →
            (s.line a = xLineOf d ∨ s.line a = yLineOf d) ∧ ∀ p : Point2i,
              (a.get (s.getLocationOf p) = toInt (Real.cos (s.line a).alpha * (p.x - s.zeroPointImageLocation.x) +
                  Real.sin (s.line a).alpha * (p.y - s.zeroPointImageLocation.y)) ↔
                Hidden ((s.line a).displacement s.zeroPointImageLocation p) (s.fold a p)) :=
  coordinates_unfolded_iff assign_tallView

/-- The lower end of the tall view lies 11900 below its zero point, and is reported 7900 below it. -/
theorem tallView_folded : ∃ p' q' s, assignCoordinateSystems [tallView, belowView]
      (calculateProjectionDirections [tallView, belowView]) 0 = .ok [p', q'] ∧ p'.s = some s ∧ s.has .x = true ∧
    ⟨50, 12000⟩ ∈ p'.vertices ∧ Axis.get .x (s.getLocationOf ⟨50, 12000⟩) = -7900 ∧
    toInt (Real.cos (s.line .x).alpha * (((50 : ℤ) : ℝ) - s.zeroPointImageLocation.x) +
      Real.sin (s.line .x).alpha * (((12000 : ℤ) : ℝ) - s.zeroPointImageLocation.y)) = -11900 := by
  refine ⟨_, _, _, assign_tallView, rfl, rfl, by simp [tallView], ?_, ?_⟩
  · rw [← toInt_intCast (R := ℝ) (-7900), get_getLocationOf]
    congr 1
    norm_num [CoordinateSystem.coordinate_def, CoordinateSystem.has, CoordinateSystem.line, Rounded.mainSystem, xLineOf_def,
      yLineOf_def, ProjectionDirection.getDistanceTo_def, Real.cos_neg, Real.sin_neg]
  · rw [← toInt_intCast (R := ℝ) (-11900)]
    congr 1
    norm_num [CoordinateSystem.line, Rounded.mainSystem, xLineOf_def, yLineOf_def, Real.cos_neg, Real.sin_neg]

end DetailIdentifier.Interpreter
