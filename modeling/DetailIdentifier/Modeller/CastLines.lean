/-
The cast lines drawn by the modeller, with its own copies of `far_behind` and `far_before`. In both
stages the ends of a line are well defined unless the centers of the two views lie one above the
other (`castDefined_iff`), and drawing one there fails (`drawCastLines_undefined`).
-/
import DetailIdentifier.Lib.Lists
import DetailIdentifier.Interpreter.CastLines

namespace DetailIdentifier.Modeller

open Interpreter

/-! ## The code -/

/-- `far_behind` of the modeller. -/
noncomputable def farBehind (center : Point2i) (dir : ProjectionDirection) : Point2i := farPoint (-2000) center dir

/-- `far_before` of the modeller. -/
noncomputable def farBefore (center : Point2i) (dir : ProjectionDirection) : Point2i := farPoint 20000 center dir

/-- The lines drawn in one direction, through a center and the vertices. -/
noncomputable def drawThrough (dir : ProjectionDirection) (centers : List Point2i) : Except Fault (List CastLine) :=
  centers.mapM fun center => drawLine dir (farBehind center dir) (farBefore center dir)

/-- `draw_cast_lines`: for every pair of views the lines through the first one's center and vertices. -/
noncomputable def drawCastLines (toPoint : ℝ × ℝ → Point2i) (ps : List (Projection RotatedRect))
    (directions : List (List ProjectionDirection)) : Except Fault (List (List CastLine)) :=
  (viewPairs ps).mapM fun m => do
    let d ← fetchDirection directions m.1.2 m.2.2
    drawThrough d (toPoint m.1.1.boundingBox.center :: m.1.1.vertices)

/-! ## Well-defined lines -/

/-- The ends of a line through `center` can be computed, and both stages put them near it. -/
structure CastDefined (center : Point2i) (dir : ProjectionDirection) : Prop where
  sin_ne_zero : Real.sin dir.alpha ≠ 0
  behind : OnCastLine center dir (Interpreter.farBehind center dir)
  before : OnCastLine center dir (Interpreter.farBefore center dir)
  behind' : OnCastLine center dir (farBehind center dir)
  before' : OnCastLine center dir (farBefore center dir)

theorem castDefined_iff_sin {center : Point2i} {dir : ProjectionDirection} :
    CastDefined center dir ↔ Real.sin dir.alpha ≠ 0 :=
  ⟨CastDefined.sin_ne_zero, fun h => ⟨h, farPoint_onCastLine _ center h, farPoint_onCastLine _ center h,
    farPoint_onCastLine _ center h, farPoint_onCastLine _ center h⟩⟩

/-- The lines in the direction of two views are well defined exactly when the views' centers are at
least a pixel apart across the image. -/
theorem castDefined_iff (c1 c2 : Projection RotatedRect) :
    (∀ center, CastDefined center (calculateDirection c1 c2)) ↔
      1 ≤ |c1.boundingBox.center.1 - c2.boundingBox.center.1| := by
  rw [← sin_calculateDirection_ne_zero]
  constructor
  · intro h
    exact (h ⟨0, 0⟩).sin_ne_zero
  · intro h center
    exact castDefined_iff_sin.2 h

noncomputable def upperView : Projection RotatedRect :=
  ⟨[⟨50, 100⟩, ⟨150, 100⟩], [], [(0, 1)], UprightRect.toRotated ⟨(100, 100), 100, 0⟩, none⟩

noncomputable def lowerView : Projection RotatedRect :=
  ⟨[⟨50, 400⟩, ⟨150, 400⟩], [], [(0, 1)], UprightRect.toRotated ⟨(100, 400), 100, 0⟩, none⟩

/-- One above the other, views have an upright line, and its ends are sought by dividing by zero. -/
theorem upright_undefined : calculateDirection upperView lowerView = ⟨0, 100⟩ ∧
    ∀ center, ¬CastDefined center (calculateDirection upperView lowerView) := by
  have h : calculateDirection upperView lowerView = ⟨0, 100⟩ := by
    norm_num [calculateDirection, upperView, lowerView, UprightRect.toRotated]
  refine ⟨h, fun center hc => hc.sin_ne_zero ?_⟩
  rw [h]
  exact Real.sin_zero

/-! ## Whole drawings -/

section Drawing

/-- The lines of the modeller for two views. -/
def CastLinesFit (toPoint : ℝ × ℝ → Point2i) (c1 c2 : Projection RotatedRect) : Prop :=
  ∀ center ∈ toPoint c1.boundingBox.center :: c1.vertices, LineFits center (calculateDirection c1 c2)

variable {toPoint : ℝ × ℝ → Point2i} {ps : List (Projection RotatedRect)}

theorem CastLinesFit.linesFit {c1 c2 : Projection RotatedRect} (h : CastLinesFit toPoint c1 c2) :
    LinesFit toPoint [c1, c2] := List.pairwise_pair.2 (h _ (List.mem_cons_self ..))

/-- On sheets of any usual size all lines of two views are drawn unless one lies above the other. -/
theorem castLinesFit_iff {c1 c2 : Projection RotatedRect}
    (hcenters : ∀ v ∈ toPoint c1.boundingBox.center :: c1.vertices, |v.x| ≤ 20000 ∧ |v.y| ≤ 20000)
    (hrows : |c1.boundingBox.center.2 - c2.boundingBox.center.2| ≤ 20000) :
    CastLinesFit toPoint c1 c2 ↔ 1 ≤ |c1.boundingBox.center.1 - c2.boundingBox.center.1| := by
  have hline : ∀ v ∈ toPoint c1.boundingBox.center :: c1.vertices,
      LineFits v (calculateDirection c1 c2) ↔ 1 ≤ |c1.boundingBox.center.1 - c2.boundingBox.center.1| :=
    fun v hv => lineFits_iff (hcenters v hv).1 (hcenters v hv).2 hrows
  exact ⟨fun h => (hline _ (List.mem_cons_self ..)).1 (h _ (List.mem_cons_self ..)), fun h v hv => (hline v hv).2 h⟩

/-- The table of the interpreter holds the directions of the pairs. -/
theorem fetchDirection_viewPairs {m : (Projection RotatedRect × ℕ) × (Projection RotatedRect × ℕ)}
    (hm : m ∈ viewPairs ps) :
    fetchDirection (calculateProjectionDirections ps) m.1.2 m.2.2 = .ok (calculateDirection m.1.1 m.2.1) := by
  obtain ⟨hik, h1, h2⟩ := mem_viewPairs.1 hm
  rw [fetchDirection_table h1 h2, if_neg hik.ne, if_pos hik]

theorem drawThrough_eq {dir : ProjectionDirection} {centers : List Point2i} (h : ∀ center ∈ centers, LineFits center dir) :
    drawThrough dir centers = .ok (centers.map fun center => ⟨farBehind center dir, farBefore center dir⟩) :=
  List.mapM_eq_map fun center hc => drawLine_eq (h center hc)

theorem drawThrough_error_iff {dir : ProjectionDirection} {centers : List Point2i} {f : Fault} :
    drawThrough dir centers = .error f ↔ (∃ center ∈ centers, ¬LineFits center dir) ∧ f = .undefined := by
  constructor
  · intro hf
    obtain ⟨center, hc, hdraw⟩ := List.exists_of_mapM_error hf
    obtain ⟨hout, rfl⟩ := drawLine_error_iff.1 hdraw
    exact ⟨⟨center, hc, hout⟩, rfl⟩
  · rintro ⟨⟨center, hc, hout⟩, rfl⟩
    exact List.mapM_eq_error ⟨center, hc, drawLine_error_iff.2 ⟨hout, rfl⟩⟩ fun _ _ _ hf => (drawLine_error_iff.1 hf).2

theorem drawCastLines_eq (h : ps.Pairwise (CastLinesFit toPoint)) :
    ∃ lines, drawCastLines toPoint ps (calculateProjectionDirections ps) = .ok lines := by
  refine ⟨_, @List.mapM_eq_map _ _ _ _ (fun m => (toPoint m.1.1.boundingBox.center :: m.1.1.vertices).map fun center =>
    ⟨farBehind center (calculateDirection m.1.1 m.2.1), farBefore center (calculateDirection m.1.1 m.2.1)⟩) _ fun m hm => ?_⟩
  rw [fetchDirection_viewPairs hm]
  exact drawThrough_eq (forall_viewPairs.2 h m hm)

theorem drawCastLines_undefined (h : ¬ps.Pairwise (CastLinesFit toPoint)) :
    drawCastLines toPoint ps (calculateProjectionDirections ps) = .error .undefined := by
  rw [← forall_viewPairs] at h
  simp only [CastLinesFit] at h
  push Not at h
  obtain ⟨m, hm, hfit⟩ := h
  refine List.mapM_eq_error ⟨m, hm, ?_⟩ fun m' hm' f hf => ?_
  · rw [fetchDirection_viewPairs hm]
    exact drawThrough_error_iff.2 ⟨hfit, rfl⟩
  · rw [fetchDirection_viewPairs hm'] at hf
    exact (drawThrough_error_iff.1 hf).2

end Drawing

end DetailIdentifier.Modeller
