/-
The cast line between two views and the coordinate systems it gives them: `calculate_direction`,
`assign_coordinate_systems`, and `get_location_of`, which measures a vertex in its system.
`assignCoordinateSystems_two` says what two views get.
-/
import DetailIdentifier.Lib.Lists
import DetailIdentifier.Interpreter.Projection

namespace DetailIdentifier.Interpreter

/-! ## Measuring

Every operation on `double`s is followed by a rounding `fl`. With `id` for it the arithmetic is that of the
real numbers.
-/

namespace Rounded

variable (fl : ℝ → ℝ)

/-- `projection_direction::get_distance_to`. -/
noncomputable def getDistanceTo (d : ProjectionDirection) (pt : Point2i) : ℝ :=
  |fl (fl (fl (fl (Real.cos d.alpha) * pt.x) + fl (fl (Real.sin d.alpha) * pt.y)) - d.p)|

/-- A coordinate of `get_location_of`: the distance to the axis line, less that of the zero point. -/
noncomputable def coordinate (s : CoordinateSystem) (has : Bool) (line : ProjectionDirection) (p : Point2i) : ℝ :=
  if has then fl (getDistanceTo fl line p - getDistanceTo fl line s.zeroPointImageLocation) else 0

/-- `coordinate_system::get_location_of`. -/
noncomputable def getLocationOf (s : CoordinateSystem) (p : Point2i) : Point3i where
  x := toInt (coordinate fl s s.hasX s.xLine p)
  y := toInt (coordinate fl s s.hasY s.yLine p)
  z := toInt (coordinate fl s s.hasZ s.zLine p)

end Rounded

noncomputable abbrev ProjectionDirection.getDistanceTo : ProjectionDirection → Point2i → ℝ := Rounded.getDistanceTo id

theorem ProjectionDirection.getDistanceTo_def (d : ProjectionDirection) (pt : Point2i) :
    d.getDistanceTo pt = |Real.cos d.alpha * pt.x + Real.sin d.alpha * pt.y - d.p| := rfl

namespace CoordinateSystem

noncomputable abbrev coordinate : CoordinateSystem → Bool → ProjectionDirection → Point2i → ℝ := Rounded.coordinate id

theorem coordinate_def (s : CoordinateSystem) (has : Bool) (line : ProjectionDirection) (p : Point2i) :
    s.coordinate has line p =
      if has then line.getDistanceTo p - line.getDistanceTo s.zeroPointImageLocation else 0 := rfl

noncomputable abbrev getLocationOf : CoordinateSystem → Point2i → Point3i := Rounded.getLocationOf id

end CoordinateSystem

/-! ## Directions -/

/-- `calculate_direction`. -/
noncomputable def calculateDirection (c1 c2 : Projection RotatedRect) : ProjectionDirection :=
  let xDiff := c1.boundingBox.center.1 - c2.boundingBox.center.1
  let yDiff := c1.boundingBox.center.2 - c2.boundingBox.center.2
  if |xDiff| < 1 ∧ |yDiff| < 1 then ⟨0, 0⟩
  else if |xDiff| < 1 then ⟨0, c1.boundingBox.center.1⟩
  else if |yDiff| < 1 then ⟨Real.pi / (2 : ℤ), c1.boundingBox.center.2⟩
  else
    let ang := Real.arctan (-xDiff / yDiff)
    ⟨ang, c1.boundingBox.center.1 * Real.cos ang + c1.boundingBox.center.2 * Real.sin ang⟩

/-- The branches of `calculate_direction`, with what each is taken on. -/
theorem calculateDirection_cases (c1 c2 : Projection RotatedRect) :
    (|c1.boundingBox.center.1 - c2.boundingBox.center.1| < 1 ∧ |c1.boundingBox.center.2 - c2.boundingBox.center.2| < 1 ∧
        calculateDirection c1 c2 = ⟨0, 0⟩) ∨
      (|c1.boundingBox.center.1 - c2.boundingBox.center.1| < 1 ∧ 1 ≤ |c1.boundingBox.center.2 - c2.boundingBox.center.2| ∧
        calculateDirection c1 c2 = ⟨0, c1.boundingBox.center.1⟩) ∨
      (1 ≤ |c1.boundingBox.center.1 - c2.boundingBox.center.1| ∧ |c1.boundingBox.center.2 - c2.boundingBox.center.2| < 1 ∧
        calculateDirection c1 c2 = ⟨Real.pi / 2, c1.boundingBox.center.2⟩) ∨
      (1 ≤ |c1.boundingBox.center.1 - c2.boundingBox.center.1| ∧ 1 ≤ |c1.boundingBox.center.2 - c2.boundingBox.center.2| ∧
        ∃ ang, Real.tan ang = -(c1.boundingBox.center.1 - c2.boundingBox.center.1) /
            (c1.boundingBox.center.2 - c2.boundingBox.center.2) ∧ Real.cos ang ≠ 0 ∧
          calculateDirection c1 c2 =
            ⟨ang, c1.boundingBox.center.1 * Real.cos ang + c1.boundingBox.center.2 * Real.sin ang⟩) := by
  simp only [calculateDirection]
  split_ifs with h1 h2 h3
  · exact .inl ⟨h1.1, h1.2, rfl⟩
  · exact .inr (.inl ⟨h2, not_lt.1 fun h => h1 ⟨h2, h⟩, rfl⟩)
  · exact .inr (.inr (.inl ⟨not_lt.1 h2, h3, rfl⟩))
  · exact .inr (.inr (.inr ⟨not_lt.1 h2, not_lt.1 h3, _, Real.tan_arctan _, (Real.cos_arctan_pos _).ne', rfl⟩))

/-- `calculate_projection_directions`: the same line for both orders of a pair. -/
noncomputable def calculateProjectionDirections (projections : List (Projection RotatedRect)) :
    List (List ProjectionDirection) :=
  projections.zipIdx.map fun (pi, i) => projections.zipIdx.map fun (pj, j) =>
    if i = j then ⟨0, 0⟩ else if i < j then calculateDirection pi pj else calculateDirection pj pi

/-- `directions[i][k]`. -/
def fetchDirection (directions : List (List ProjectionDirection)) (i k : ℕ) : Except Fault ProjectionDirection := do
  let row ← fetch directions i
  fetch row k

/-- Both orders of a pair have the line of the earlier view first. -/
theorem fetchDirection_table {ps : List (Projection RotatedRect)} {i k : ℕ} {c1 c2 : Projection RotatedRect}
    (hi : ps[i]? = some c1) (hk : ps[k]? = some c2) :
    fetchDirection (calculateProjectionDirections ps) i k =
      .ok (if i = k then ⟨0, 0⟩ else if i < k then calculateDirection c1 c2 else calculateDirection c2 c1) := by
  have hzip : ∀ {n : ℕ} {c : Projection RotatedRect}, ps[n]? = some c → ps.zipIdx[n]? = some (c, n) := by
    intro n c hc
    rw [List.getElem?_zipIdx, hc, Option.map_some, Nat.zero_add]
  have hrow := List.getElem?_map (f := fun a : Projection RotatedRect × ℕ => ps.zipIdx.map fun b =>
    if a.2 = b.2 then (⟨0, 0⟩ : ProjectionDirection)
    else if a.2 < b.2 then calculateDirection a.1 b.1 else calculateDirection b.1 a.1) (l := ps.zipIdx) (i := i)
  rw [hzip hi, Option.map_some] at hrow
  unfold fetchDirection calculateProjectionDirections
  rw [fetch_eq hrow]
  show fetch _ k = _
  apply fetch_eq
  rw [List.getElem?_map, hzip hk]
  rfl

/-! ## Coordinate systems -/

/-- `calculate_distance` of the interpreter. -/
noncomputable def Rounded.calculateDistance (fl : ℝ → ℝ) (center : Point2i) (parallel : ProjectionDirection)
    (target : Point2i) : ℝ :=
  let line : ProjectionDirection :=
    ⟨parallel.alpha, fl (fl (-fl (Real.sin parallel.alpha) * center.x) + fl (fl (Real.cos parallel.alpha) * center.y))⟩
  |fl (fl (fl (-fl (Real.sin parallel.alpha) * target.x) + fl (fl (Real.cos parallel.alpha) * target.y)) - line.p)|

noncomputable abbrev calculateDistance : Point2i → ProjectionDirection → Point2i → ℝ := Rounded.calculateDistance id

theorem calculateDistance_def (center : Point2i) (parallel : ProjectionDirection) (target : Point2i) :
    calculateDistance center parallel target =
      |-Real.sin parallel.alpha * target.x + Real.cos parallel.alpha * target.y -
        (-Real.sin parallel.alpha * center.x + Real.cos parallel.alpha * center.y)| := rfl

/-- One pass of the search for the vertex at the smallest distance; the distance before the first
vertex, `max` in the code, is above all others. -/
noncomputable def nearer (dist : Point2i → ℝ) (best : ℕ × Option ℝ) (vertex : Point2i × ℕ) : ℕ × Option ℝ :=
  match best.2 with
  | none => (vertex.2, some (dist vertex.1))
  | some minDist => if dist vertex.1 < minDist then (vertex.2, some (dist vertex.1)) else best

noncomputable def nearest (dist : Point2i → ℝ) (vertices : List Point2i) : ℕ :=
  (vertices.zipIdx.foldl (nearer dist) (0, none)).1

variable {β : Type}

namespace Rounded

variable (fl : ℝ → ℝ)

/-- The axis both views share, moved away from the image. -/
noncomputable def yLineOf (d : ProjectionDirection) : ProjectionDirection := { d with p := fl (d.p - 10000) }

noncomputable def xLineOf (d : ProjectionDirection) : ProjectionDirection :=
  ⟨fl ((yLineOf fl d).alpha - fl (fl Real.pi / (2 : ℤ))), -10000⟩

/-- The system of the main view. -/
noncomputable def mainSystem (d : ProjectionDirection) (zero : Point2i) : CoordinateSystem where
  zeroPointImageLocation := zero
  hasX := true
  hasY := true
  hasZ := false
  xLine := xLineOf fl d
  yLine := yLineOf fl d
  zLine := ⟨0, 0⟩

/-- The system of another view. -/
noncomputable def sideSystem (d : ProjectionDirection) (zero : Point2i) : CoordinateSystem where
  zeroPointImageLocation := zero
  hasX := false
  hasY := true
  hasZ := true
  xLine := ⟨0, 0⟩
  yLine := yLineOf fl d
  zLine := xLineOf fl d

theorem getLocationOf_mainSystem (d : ProjectionDirection) (z u : Point2i) :
    getLocationOf fl (mainSystem fl d z) u =
      ⟨toInt (fl (getDistanceTo fl (xLineOf fl d) u - getDistanceTo fl (xLineOf fl d) z)),
        toInt (fl (getDistanceTo fl (yLineOf fl d) u - getDistanceTo fl (yLineOf fl d) z)), 0⟩ := by
  simp [getLocationOf, coordinate, mainSystem, toInt]

theorem getLocationOf_sideSystem (d : ProjectionDirection) (z u : Point2i) :
    getLocationOf fl (sideSystem fl d z) u =
      ⟨0, toInt (fl (getDistanceTo fl (yLineOf fl d) u - getDistanceTo fl (yLineOf fl d) z)),
        toInt (fl (getDistanceTo fl (xLineOf fl d) u - getDistanceTo fl (xLineOf fl d) z))⟩ := by
  simp [getLocationOf, coordinate, sideSystem, toInt]

/-- `assign_coordinate_systems`. -/
noncomputable def assignCoordinateSystems (projections : List (Projection β))
    (directions : List (List ProjectionDirection)) (mainProjection : ℕ) : Except Fault (List (Projection β)) := do
  let main ← fetch projections mainProjection
  let mainZero ← fetch main.vertices 0
  let shared ← fetchDirection directions 0 1
  if projections.length ≠ 2 then throw .assertion
  projections.zipIdx.mapM fun (p, k) => do
    if k = mainProjection then return { p with s := some (mainSystem fl shared mainZero) }
    -- the distance is taken along the line of the pair, the axes from `directions[0][1]`
    let d ← fetchDirection directions mainProjection k
    let zero ← fetch p.vertices (nearest (calculateDistance fl mainZero d) p.vertices)
    return { p with s := some (sideSystem fl shared zero) }

end Rounded

noncomputable abbrev yLineOf : ProjectionDirection → ProjectionDirection := Rounded.yLineOf id

noncomputable abbrev xLineOf : ProjectionDirection → ProjectionDirection := Rounded.xLineOf id

theorem yLineOf_def (d : ProjectionDirection) : yLineOf d = { d with p := d.p - 10000 } := rfl

theorem xLineOf_def (d : ProjectionDirection) : xLineOf d = ⟨d.alpha - Real.pi / 2, -10000⟩ := rfl

noncomputable abbrev mainSystem : ProjectionDirection → Point2i → CoordinateSystem := Rounded.mainSystem id

noncomputable abbrev sideSystem : ProjectionDirection → Point2i → CoordinateSystem := Rounded.sideSystem id

noncomputable abbrev assignCoordinateSystems :
    List (Projection β) → List (List ProjectionDirection) → ℕ → Except Fault (List (Projection β)) :=
  Rounded.assignCoordinateSystems id

/-! ## Two views -/

/-- The search finds the first vertex at the smallest distance. -/
theorem getElem?_nearest (dist : Point2i → ℝ) (vertices : List Point2i) :
    vertices[nearest dist vertices]? = vertices.argmin dist := by
  suffices h : vertices[(vertices.zipIdx.foldl (nearer dist) (0, none)).1]? = vertices.argmin dist ∧
      (vertices.zipIdx.foldl (nearer dist) (0, none)).2 = (vertices.argmin dist).map dist from h.1
  induction vertices using List.reverseRecOn with
  | nil => exact ⟨rfl, rfl⟩
  | append_singleton vs v ih =>
    obtain ⟨ih1, ih2⟩ := ih
    have hzip : (vs ++ [v]).zipIdx = vs.zipIdx ++ [(v, vs.length)] := by
      rw [List.zipIdx_append, Nat.zero_add]; rfl
    rw [hzip, List.foldl_append, List.argmin_concat, List.foldl_cons, List.foldl_nil, nearer, ih2]
    cases hc : vs.argmin dist with
    | none => exact ⟨by simp, rfl⟩
    | some c =>
      rw [hc] at ih1
      simp only [Option.map_some]
      split
      · exact ⟨by simp, rfl⟩
      · -- the index found earlier still names the same vertex
        refine ⟨?_, by rw [ih2, hc]⟩
        rw [List.getElem?_append_left (List.getElem?_eq_some_iff.1 ih1).1, ih1]

theorem fetchDirection_two (p q : Projection RotatedRect) :
    fetchDirection (calculateProjectionDirections [p, q]) 0 1 = .ok (calculateDirection p q) := by
  have h : fetchDirection (calculateProjectionDirections [p, q]) 0 1 = _ := fetchDirection_table rfl rfl
  rw [h, if_neg zero_ne_one, if_pos one_pos]

namespace Rounded

variable {fl : ℝ → ℝ} {p q : Projection β} {directions : List (List ProjectionDirection)}

/-- With the first view as the main one, its zero point is its first vertex and that of the second
the first vertex nearest to it. -/
theorem assignCoordinateSystems_two {d : ProjectionDirection} {z z' : Point2i} (hd : fetchDirection directions 0 1 = .ok d)
    (hz : p.vertices[0]? = some z) (hz' : q.vertices.argmin (calculateDistance fl z d) = some z') :
    assignCoordinateSystems fl [p, q] directions 0 =
      .ok [{ p with s := some (mainSystem fl d z) }, { q with s := some (sideSystem fl d z') }] := by
  have hmain : fetch [p, q] 0 = .ok p := rfl
  have hnear : fetch q.vertices (nearest (calculateDistance fl z d) q.vertices) = .ok z' :=
    fetch_eq ((getElem?_nearest _ _).trans hz')
  simp [assignCoordinateSystems, hmain, fetch_eq hz, hd, hnear, bind, Except.bind, pure, Except.pure]

/-- What two views must have been given. -/
theorem assignCoordinateSystems_two_inv {views : List (Projection β)}
    (h : assignCoordinateSystems fl [p, q] directions 0 = .ok views) :
    ∃ d z z', fetchDirection directions 0 1 = .ok d ∧ p.vertices[0]? = some z ∧
      q.vertices.argmin (calculateDistance fl z d) = some z' ∧
      views = [{ p with s := some (mainSystem fl d z) }, { q with s := some (sideSystem fl d z') }] := by
  obtain ⟨z, hz, hrest⟩ := bind_ok_inv h
  obtain ⟨d, hd, hrest⟩ := bind_ok_inv hrest
  cases hz' : q.vertices.argmin (calculateDistance fl z d) with
  | none =>
    -- without a vertex the second view has no zero point
    have hfetch : fetch q.vertices (nearest (calculateDistance fl z d) q.vertices) = .error .outOfRange := by
      unfold fetch
      rw [getElem?_nearest, hz']
    simp [hd, hfetch, bind, Except.bind, pure, Except.pure] at hrest
  | some z' =>
    rw [assignCoordinateSystems_two hd (fetch_inv hz) hz'] at h
    cases h
    exact ⟨d, z, z', hd, fetch_inv hz, hz', rfl⟩

end Rounded

theorem assignCoordinateSystems_two {p q : Projection β} {directions : List (List ProjectionDirection)}
    {d : ProjectionDirection} {z z' : Point2i} (hd : fetchDirection directions 0 1 = .ok d)
    (hz : p.vertices[0]? = some z) (hz' : q.vertices.argmin (calculateDistance z d) = some z') :
    assignCoordinateSystems [p, q] directions 0 =
      .ok [{ p with s := some (mainSystem d z) }, { q with s := some (sideSystem d z') }] :=
  Rounded.assignCoordinateSystems_two hd hz hz'

/-- Every view gets the system of the main view or that of another one, with a vertex of its own as
the zero point. -/
theorem assignCoordinateSystems_systems {projections views : List (Projection β)}
    {directions : List (List ProjectionDirection)} {mainProjection : ℕ}
    (h : assignCoordinateSystems projections directions mainProjection = .ok views) :
    ∃ d, fetchDirection directions 0 1 = .ok d ∧ ∀ view ∈ views, ∃ z ∈ view.vertices,
      view.s = some (mainSystem d z) ∨ view.s = some (sideSystem d z) := by
  obtain ⟨main, hmain, h⟩ := bind_ok_inv h
  obtain ⟨mainZero, hzero, h⟩ := bind_ok_inv h
  obtain ⟨d, hd, h⟩ := bind_ok_inv h
  split at h
  · cases h
  refine ⟨d, hd, fun view hview => ?_⟩
  obtain ⟨⟨p, k⟩, hp, hk⟩ := List.exists_of_mem_mapM h hview
  simp only at hk
  split at hk
  · rename_i hmk
    cases hk
    have hget := List.mem_zipIdx_iff_getElem?.1 hp
    simp only at hget
    rw [hmk, fetch_inv hmain] at hget
    cases hget
    exact ⟨mainZero, List.mem_of_getElem? (fetch_inv hzero), .inl rfl⟩
  · obtain ⟨d', -, hk⟩ := bind_ok_inv hk
    obtain ⟨zero, hfetch, hk⟩ := bind_ok_inv hk
    cases hk
    exact ⟨zero, List.mem_of_getElem? (fetch_inv hfetch), .inr rfl⟩

/-! ## Vertical cast lines

With `alpha = 0` the cast lines are vertical: the shared axis runs to the right, the others upwards.
-/

/-- A point of an image whose sides are at most 10000 long. -/
structure InImage (u : Point2i) : Prop where
  x_nonneg : 0 ≤ u.x
  x_le : u.x ≤ 9999
  y_nonneg : 0 ≤ u.y
  y_le : u.y ≤ 9999

instance (u : Point2i) : Decidable (InImage u) :=
  decidable_of_iff (0 ≤ u.x ∧ u.x ≤ 9999 ∧ 0 ≤ u.y ∧ u.y ≤ 9999)
    ⟨fun ⟨h1, h2, h3, h4⟩ => ⟨h1, h2, h3, h4⟩, fun ⟨h1, h2, h3, h4⟩ => ⟨h1, h2, h3, h4⟩⟩

theorem getDistanceTo_yLineOf_vertical {c : ℝ} (hc : c ≤ 9999) {u : Point2i} (hu : InImage u) :
    (yLineOf ⟨0, c⟩).getDistanceTo u = u.x - c + 10000 := by
  have hx : (0 : ℝ) ≤ u.x := by exact_mod_cast hu.x_nonneg
  rw [ProjectionDirection.getDistanceTo_def, yLineOf_def]
  simp only [Real.cos_zero, Real.sin_zero]
  rw [abs_of_nonneg (by linarith)]
  ring

theorem getDistanceTo_xLineOf_vertical (c : ℝ) {u : Point2i} (hu : InImage u) :
    (xLineOf ⟨0, c⟩).getDistanceTo u = 10000 - u.y := by
  have hy : (u.y : ℝ) ≤ 9999 := by exact_mod_cast hu.y_le
  rw [ProjectionDirection.getDistanceTo_def, xLineOf_def]
  simp only [zero_sub, Real.cos_neg, Real.sin_neg, Real.cos_pi_div_two, Real.sin_pi_div_two]
  rw [abs_of_nonneg (by linarith)]
  ring

/-- The offsets along the two axes, cut to `int`s, are exact. -/
theorem toInt_yLineOf_vertical {c : ℝ} (hc : c ≤ 9999) {u z : Point2i} (hu : InImage u) (hz : InImage z) :
    toInt ((yLineOf ⟨0, c⟩).getDistanceTo u - (yLineOf ⟨0, c⟩).getDistanceTo z) = u.x - z.x := by
  rw [getDistanceTo_yLineOf_vertical hc hu, getDistanceTo_yLineOf_vertical hc hz, ← toInt_intCast (R := ℝ) (u.x - z.x)]
  push_cast
  congr 1
  ring

theorem toInt_xLineOf_vertical (c : ℝ) {u z : Point2i} (hu : InImage u) (hz : InImage z) :
    toInt ((xLineOf ⟨0, c⟩).getDistanceTo u - (xLineOf ⟨0, c⟩).getDistanceTo z) = z.y - u.y := by
  rw [getDistanceTo_xLineOf_vertical c hu, getDistanceTo_xLineOf_vertical c hz, ← toInt_intCast (R := ℝ) (z.y - u.y)]
  push_cast
  congr 1
  ring

theorem getLocationOf_mainSystem_vertical {c : ℝ} (hc : c ≤ 9999) {u z : Point2i} (hu : InImage u) (hz : InImage z) :
    (mainSystem ⟨0, c⟩ z).getLocationOf u = ⟨z.y - u.y, u.x - z.x, 0⟩ := by
  rw [← toInt_xLineOf_vertical c hu hz, ← toInt_yLineOf_vertical hc hu hz]
  exact Rounded.getLocationOf_mainSystem id _ _ _

theorem getLocationOf_sideSystem_vertical {c : ℝ} (hc : c ≤ 9999) {u z : Point2i} (hu : InImage u) (hz : InImage z) :
    (sideSystem ⟨0, c⟩ z).getLocationOf u = ⟨0, u.x - z.x, z.y - u.y⟩ := by
  rw [← toInt_xLineOf_vertical c hu hz, ← toInt_yLineOf_vertical hc hu hz]
  exact Rounded.getLocationOf_sideSystem id _ _ _

end DetailIdentifier.Interpreter
