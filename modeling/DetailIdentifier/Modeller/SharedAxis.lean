/-
The axis two views share: how far the y coordinates of two matched vertices can be apart. Each view
measures from its own zero vertex, and the two zero vertices are matched no better than others.
-/
import DetailIdentifier.Modeller.Build

namespace DetailIdentifier.Modeller

open Interpreter

/-! ## Cutting fractions off -/

/-- Cutting the fractions off moves two numbers apart by less than one. -/
theorem abs_toInt_sub_toInt_lt (r t : ℝ) : |((toInt r - toInt t : ℤ) : ℝ)| < |r - t| + 1 := by
  unfold toInt
  have hr := Int.floor_le r
  have ht := Int.floor_le t
  have hr' := Int.lt_floor_add_one r
  have ht' := Int.lt_floor_add_one t
  have cr := Int.le_ceil r
  have ct := Int.le_ceil t
  have cr' := Int.ceil_lt_add_one r
  have ct' := Int.ceil_lt_add_one t
  have h1 := le_abs_self (r - t)
  have h2 := neg_abs_le (r - t)
  rw [abs_lt]
  push_cast
  split
  · have hr0 : (0 : ℝ) ≤ ⌊r⌋ := by exact_mod_cast Int.floor_nonneg.2 ‹0 ≤ r›
    split
    · constructor <;> linarith
    · -- both fractions are cut towards zero, which lies between
      have ht0 : (⌈t⌉ : ℝ) ≤ 0 := by exact_mod_cast Int.ceil_le.2 (by push_cast; linarith)
      constructor <;> linarith
  · have hr0 : (⌈r⌉ : ℝ) ≤ 0 := by exact_mod_cast Int.ceil_le.2 (by push_cast; linarith)
    split
    · have ht0 : (0 : ℝ) ≤ ⌊t⌋ := by exact_mod_cast Int.floor_nonneg.2 ‹0 ≤ t›
      constructor <;> linarith
    · constructor <;> linarith

theorem abs_toInt_sub_toInt_le {r t bound : ℝ} (h : |r - t| < maxDiff + bound) :
    |toInt r - toInt t| ≤ maxDiff + ⌈bound⌉ := by
  have hlt := abs_toInt_sub_toInt_lt r t
  have hceil := Int.le_ceil bound
  have hcast : ((|toInt r - toInt t| : ℤ) : ℝ) < ((maxDiff + ⌈bound⌉ + 1 : ℤ) : ℝ) := by
    push_cast at hlt ⊢
    linarith
  have := Int.cast_lt.1 hcast
  omega

/-! ## Two views -/

variable (p q : Projection RotatedRect)

/-- The distance to the line the shared axis is measured from. -/
noncomputable def height (u : Point2i) : ℝ := (yLineOf (calculateDirection p q)).getDistanceTo u

/-- A vertex is not farther from the axis' line than the modeller's distance to another says. -/
theorem abs_height_sub_le (v w : Point2i) :
    |height p q w - height p q v| ≤ calculateDistance v (calculateDirection p q) w := by
  rw [height, height, ProjectionDirection.getDistanceTo_def, ProjectionDirection.getDistanceTo_def, yLineOf_def,
    calculateDistance_def]
  refine (abs_abs_sub_abs_le _ _).trans (le_of_eq ?_)
  congr 1
  ring

/-- The y coordinate in either view. -/
theorem getLocationOf_y_main (z v : Point2i) :
    ((mainSystem (calculateDirection p q) z).getLocationOf v).y = toInt (height p q v - height p q z) := rfl

theorem getLocationOf_y_side (z' w : Point2i) :
    ((sideSystem (calculateDirection p q) z').getLocationOf w).y = toInt (height p q w - height p q z') := rfl

/-- The distance of two matched vertices adds to that of the vertices they are measured from. -/
theorem abs_y_sub_le (z z' : Point2i) {v w : Point2i}
    (h : calculateDistance v (calculateDirection p q) w < maxDiff) :
    |((mainSystem (calculateDirection p q) z).getLocationOf v).y -
        ((sideSystem (calculateDirection p q) z').getLocationOf w).y| ≤
      maxDiff + ⌈calculateDistance z (calculateDirection p q) z'⌉ := by
  rw [getLocationOf_y_main, getLocationOf_y_side]
  apply abs_toInt_sub_toInt_le
  have hvw := (abs_height_sub_le p q v w).trans_lt h
  have hzero := abs_height_sub_le p q z z'
  calc |height p q v - height p q z - (height p q w - height p q z')|
      = |(height p q z' - height p q z) - (height p q w - height p q v)| := by congr 1; ring
    _ ≤ |height p q z' - height p q z| + |height p q w - height p q v| := abs_sub _ _
    _ < maxDiff + calculateDistance z (calculateDirection p q) z' := by linarith

/-- Matched vertices agree on the shared axis as well as they and the zero vertices lie on one cast
line each. With both zero vertices on one cast line `merge_points` has nothing to say about y. -/
theorem y_agree (p q p' q' : Projection RotatedRect)
    (h : assignCoordinateSystems [p, q] (calculateProjectionDirections [p, q]) 0 = .ok [p', q']) :
    ∃ s s', p'.s = some s ∧ q'.s = some s' ∧
      ∀ j l v w, p'.vertices[j]? = some v → q'.vertices[l]? = some w →
        calculateDistance v (calculateDirection p q) w < maxDiff →
        |(s.getLocationOf v).y - (s'.getLocationOf w).y| ≤
            maxDiff + ⌈calculateDistance s.zeroPointImageLocation (calculateDirection p q) s'.zeroPointImageLocation⌉ ∧
          (calculateDistance s.zeroPointImageLocation (calculateDirection p q) s'.zeroPointImageLocation = 0 →
            |(s.getLocationOf v).y - (s'.getLocationOf w).y| ≤ maxDiff ∧
              ∃ point warnings, coordsPoint p' j q' l = .ok (point, warnings) ∧ .differentY ∉ warnings) := by
  obtain ⟨d, z, z', hd, -, -, hviews⟩ := Rounded.assignCoordinateSystems_two_inv h
  rw [fetchDirection_two] at hd
  cases hd
  cases hviews
  refine ⟨_, _, rfl, rfl, fun j l v w hv hw hvw => ?_⟩
  have hy := abs_y_sub_le p q z z' hvw
  refine ⟨hy, fun hzero => ?_⟩
  have hle : |((mainSystem (calculateDirection p q) z).getLocationOf v).y -
      ((sideSystem (calculateDirection p q) z').getLocationOf w).y| ≤ maxDiff := by
    change calculateDistance z (calculateDirection p q) z' = 0 at hzero
    rwa [hzero, Int.ceil_zero, add_zero] at hy
  -- the bound on the difference is what keeps `merge_points` silent about y
  have hwarn : Warning.differentY ∉
      (mergePoints ((mainSystem (calculateDirection p q) z).getLocationOf v) (mainSystem (calculateDirection p q) z)
        ((sideSystem (calculateDirection p q) z').getLocationOf w) (sideSystem (calculateDirection p q) z')).2 := by
    rw [differentY_mem_iff]
    exact fun hd => absurd hd.2.2 (not_lt.2 hle)
  exact ⟨hle, _, _, Rounded.coordsPoint_systems rfl rfl hv hw, hwarn⟩

/-! ## Level strokes

A level stroke, and below it one drawn a little shorter. Both zero vertices are left ends, 5 apart on
the shared axis, and the matched vertices are 29 apart the other way.
-/

def levelView : Projection RotatedRect := ⟨[⟨100, 100⟩, ⟨200, 100⟩], [], [(0, 1)], ⟨(150, 100), 0, 0, 0⟩, none⟩

def shorterView : Projection RotatedRect :=
  ⟨[⟨105, 300⟩, ⟨171, 300⟩, ⟨195, 300⟩], [], [(0, 1), (1, 2)], ⟨(150, 300), 0, 0, 0⟩, none⟩

theorem calculateDirection_level : calculateDirection levelView shorterView = ⟨0, 150⟩ := by
  norm_num [calculateDirection, levelView, shorterView]

theorem assign_level :
    assignCoordinateSystems [levelView, shorterView] (calculateProjectionDirections [levelView, shorterView]) 0 =
      .ok [{ levelView with s := some (mainSystem ⟨0, 150⟩ ⟨100, 100⟩) },
        { shorterView with s := some (sideSystem ⟨0, 150⟩ ⟨105, 300⟩) }] := by
  refine assignCoordinateSystems_two ?_ rfl ?_
  · rw [fetchDirection_two, calculateDirection_level]
  · norm_num [shorterView, List.argmin, List.argAux, Interpreter.calculateDistance_def]

/-- Here the bound of the theorem is 35, for every two matched vertices. -/
theorem y_agree_level :
    ∃ s s', { levelView with s := some (mainSystem ⟨0, 150⟩ ⟨100, 100⟩) }.s = some s ∧
      { shorterView with s := some (sideSystem ⟨0, 150⟩ ⟨105, 300⟩) }.s = some s' ∧
      ∀ j l v w, levelView.vertices[j]? = some v → shorterView.vertices[l]? = some w →
        calculateDistance v (calculateDirection levelView shorterView) w < maxDiff →
        |(s.getLocationOf v).y - (s'.getLocationOf w).y| ≤ maxDiff + ⌈calculateDistance s.zeroPointImageLocation
            (calculateDirection levelView shorterView) s'.zeroPointImageLocation⌉ ∧
          (calculateDistance s.zeroPointImageLocation (calculateDirection levelView shorterView)
              s'.zeroPointImageLocation = 0 →
            |(s.getLocationOf v).y - (s'.getLocationOf w).y| ≤ maxDiff ∧
              ∃ point warnings, coordsPoint { levelView with s := some (mainSystem ⟨0, 150⟩ ⟨100, 100⟩) } j
                { shorterView with s := some (sideSystem ⟨0, 150⟩ ⟨105, 300⟩) } l = .ok (point, warnings) ∧
                  .differentY ∉ warnings) :=
  y_agree _ _ _ _ assign_level

/-- The two distances, 5 and 29, add to 34, and `merge_points` says so. -/
theorem level_disagrees : ∃ p' q' s s' point warnings,
    assignCoordinateSystems [levelView, shorterView] (calculateProjectionDirections [levelView, shorterView]) 0 =
        .ok [p', q'] ∧
      p'.s = some s ∧ q'.s = some s' ∧
      calculateDistance s.zeroPointImageLocation (calculateDirection levelView shorterView)
        s'.zeroPointImageLocation = 5 ∧
      calculateDistance ⟨200, 100⟩ (calculateDirection levelView shorterView) ⟨171, 300⟩ < maxDiff ∧
      |(s.getLocationOf ⟨200, 100⟩).y - (s'.getLocationOf ⟨171, 300⟩).y| = 34 ∧
      coordsPoint p' 1 q' 1 = .ok (point, warnings) ∧ .differentY ∈ warnings := by
  have hy : ((mainSystem ⟨0, 150⟩ ⟨100, 100⟩).getLocationOf ⟨200, 100⟩).y = 100 := by
    rw [getLocationOf_mainSystem_vertical (by norm_num) (by decide) (by decide)]
    rfl
  have hy' : ((sideSystem ⟨0, 150⟩ ⟨105, 300⟩).getLocationOf ⟨171, 300⟩).y = 66 := by
    rw [getLocationOf_sideSystem_vertical (by norm_num) (by decide) (by decide)]
    rfl
  have hwarn := (differentY_mem_iff ((mainSystem ⟨0, 150⟩ ⟨100, 100⟩).getLocationOf ⟨200, 100⟩)
    ((sideSystem ⟨0, 150⟩ ⟨105, 300⟩).getLocationOf ⟨171, 300⟩) (mainSystem ⟨0, 150⟩ ⟨100, 100⟩)
    (sideSystem ⟨0, 150⟩ ⟨105, 300⟩)).2 ⟨rfl, rfl, by rw [hy, hy']; decide⟩
  refine ⟨_, _, _, _, _, _, assign_level, rfl, rfl, ?_, ?_, ?_, Rounded.coordsPoint_systems rfl rfl rfl rfl, hwarn⟩
  · norm_num [calculateDirection_level, calculateDistance_def, Rounded.mainSystem, Rounded.sideSystem]
  · norm_num [calculateDirection_level, calculateDistance_def, maxDiff]
  · rw [hy, hy']
    rfl

end DetailIdentifier.Modeller
