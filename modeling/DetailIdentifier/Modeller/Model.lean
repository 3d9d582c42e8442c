/-
`generate_model`, from the interpreted views to the polygons written: the cast lines are drawn, the model
is built, and `load` aligns it and traces its planes. Two views with their coordinate systems are all it
needs (`generateModel_arranged`).
-/
import DetailIdentifier.Interpreter.Interpretation
import DetailIdentifier.Modeller.CastLines
import DetailIdentifier.Modeller.Links
import DetailIdentifier.Modeller.Load

namespace DetailIdentifier.Modeller

open Interpreter

/-! ## The code -/

/-- `modeller::generate_model`. Where a cast line goes through a center, the center is converted to a
point. -/
noncomputable def generateModel (toPoint : ℝ × ℝ → Point2i) (fuel : ℕ) (inp : Output) : Except Fault (List Polygon) := do
  let _ ← drawCastLines toPoint inp.projections inp.projectionDirections
  let model ← buildModel inp.projections inp.projectionDirections
  load fuel model

/-! ## Two views -/

variable (p q : Projection RotatedRect) (z z' : Point2i)

/-- The points found in two interpreted views, with their parents. -/
noncomputable def foundPoints : List (Parents × Point3i) :=
  (candidates [p, q]).filterMap (Rounded.place id p q (mainSystem (calculateDirection p q) z)
    (sideSystem (calculateDirection p q) z') (calculateDirection p q))

/-- The model of two interpreted views. -/
noncomputable def foundModel : Model3d where
  points := (foundPoints p q z z').map (·.2)
  edges := linkedPairs (linked (arranged p q z z').projections) ((foundPoints p q z z').map (·.1))
  inRange e he := by
    obtain ⟨-, _, _, ha, hb, -⟩ := mem_linkedPairs.1 he
    simpa using And.intro (List.getElem?_eq_some_iff.1 ha).1 (List.getElem?_eq_some_iff.1 hb).1

theorem mem_foundPoints {m : Parents} {P : Point3i} : (m, P) ∈ foundPoints p q z z' ↔
    ∃ j l v w, m = ⟨0, j, 1, l⟩ ∧ p.vertices[j]? = some v ∧ q.vertices[l]? = some w ∧
      calculateDistance v (calculateDirection p q) w < maxDiff ∧
      (mergePoints ((mainSystem (calculateDirection p q) z).getLocationOf v) (mainSystem (calculateDirection p q) z)
        ((sideSystem (calculateDirection p q) z').getLocationOf w) (sideSystem (calculateDirection p q) z')).1 = P := by
  simp only [foundPoints, List.mem_filterMap, Rounded.place_eq_some, mem_candidates_two]
  constructor
  · rintro ⟨_, ⟨j, l, rfl, hj, hl⟩, rfl, hdist, hP⟩
    exact ⟨j, l, _, _, rfl, by simp [hj], by simp [hl], hdist, hP⟩
  · rintro ⟨j, l, v, w, rfl, hv, hw, hdist, hP⟩
    refine ⟨_, ⟨j, l, rfl, (List.getElem?_eq_some_iff.1 hv).1, (List.getElem?_eq_some_iff.1 hw).1⟩, rfl, ?_⟩
    simp only [List.getD_eq_getElem?_getD, hv, hw, Option.getD_some]
    exact ⟨hdist, hP⟩

theorem buildModel_arranged :
    buildModel (arranged p q z z').projections (arranged p q z z').projectionDirections = .ok (foundModel p q z z') :=
  have hpoints : Rounded.modelPoints id (arranged p q z z').projections (arranged p q z z').projectionDirections =
      .ok (foundPoints p q z z') :=
    Rounded.modelPoints_eq (p := { p with s := some (mainSystem (calculateDirection p q) z) })
      (q := { q with s := some (sideSystem (calculateDirection p q) z') }) rfl rfl (fetchDirection_two p q)
  let ⟨_, hmodel⟩ := Rounded.buildModel_points hpoints
  hmodel

theorem drawCastLines_arranged {toPoint : ℝ × ℝ → Point2i} (h : CastLinesFit toPoint p q) : ∃ lines,
    drawCastLines toPoint (arranged p q z z').projections (arranged p q z z').projectionDirections = .ok lines :=
  @drawCastLines_eq toPoint (arranged p q z z').projections (List.pairwise_pair.2 h)

/-- The modeller's run on two interpreted views reads nothing that is missing. -/
theorem generateModel_arranged {toPoint : ℝ × ℝ → Point2i} (h : CastLinesFit toPoint p q) (fuel : ℕ) :
    generateModel toPoint fuel (arranged p q z z') = load fuel (foundModel p q z z') := by
  obtain ⟨lines, hlines⟩ := drawCastLines_arranged p q z z' h
  simp only [generateModel, hlines, buildModel_arranged, bind, Except.bind]

/-- A cast line that cannot be drawn ends it. -/
theorem generateModel_undefined {toPoint : ℝ × ℝ → Point2i} (h : ¬CastLinesFit toPoint p q) (fuel : ℕ) :
    generateModel toPoint fuel (arranged p q z z') = .error .undefined := by
  have hpair : ¬(arranged p q z z').projections.Pairwise (CastLinesFit toPoint) := fun hpair => by
    simp only [arranged, List.pairwise_pair] at hpair
    exact h hpair
  have hdraw : drawCastLines toPoint (arranged p q z z').projections (arranged p q z z').projectionDirections =
      .error .undefined := drawCastLines_undefined hpair
  simp only [generateModel, hdraw, bind, Except.bind]

end DetailIdentifier.Modeller
