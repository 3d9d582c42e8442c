/-
Where a drawing lies on the sheet does not matter to its views: contours moved anywhere else, on a sheet
of any size, are vectorized into the same edges between moved points, and separated into the same views,
moved (`separate_moved`).
-/
import DetailIdentifier.Executor.Process
import DetailIdentifier.Interpreter.Shift
import DetailIdentifier.Vectorizer.Shift

namespace DetailIdentifier.Executor

open Vectorizer (Drawing Ledger vectorize vectorize_spec)
open Interpreter

variable {t : Point2i} {d d' : Drawing}

theorem vertices_moved (h : d.Moved t d') : (vectorized d').vertices = (vectorized d).vertices.map t.shift := by
  show (Ledger.after d'.processed.flatten).points = _
  rw [h.processed, ← List.map_flatten, Ledger.after_shift]
  rfl

theorem edges_moved (h : d.Moved t d') : (vectorized d').edges = (vectorized d).edges := by
  show (List.flatMap _ (Ledger.paths ⟨[], []⟩ d'.processed)).foldl _ [] = _
  rw [h.processed]
  exact congrArg (fun paths => (List.flatMap Vectorizer.steps paths).foldl Vectorizer.join [])
    (Ledger.paths_shift ⟨[], []⟩ d.processed)

/-- Moved contours have the same edges between moved points, and the same views, moved. -/
theorem separate_moved (h : d.Moved t d') : ∃ points edges,
    vectorize d.cols d.rows d.contours = .ok ⟨points, edges⟩ ∧
    vectorize d'.cols d'.rows d'.contours = .ok ⟨points.map t.shift, edges⟩ ∧
    separateProjections (β := RotatedRect) (points.map t.shift) edges =
      (separateProjections points edges).map (List.map (Projection.move t.shift id)) := by
  refine ⟨(vectorized d).vertices, (vectorized d).edges, vectorize_spec d, ?_, separateProjections_move t.shift_injective _ _⟩
  rw [← vertices_moved h, ← edges_moved h]
  exact vectorize_spec d'

/-- The two rectangles farther down on a larger sheet. -/
def movedRectangles : Drawing where
  cols := 1000
  rows := 2000
  contours := [[⟨40, 700⟩, ⟨140, 700⟩, ⟨140, 760⟩, ⟨40, 760⟩], [⟨340, 900⟩, ⟨440, 900⟩, ⟨440, 960⟩, ⟨340, 960⟩]]
  nonempty := by decide
  inside := by decide

theorem separate_movedRectangles : ∃ points edges,
    vectorize 500 400 rectanglesDrawing.contours = .ok ⟨points, edges⟩ ∧
    vectorize 1000 2000 movedRectangles.contours = .ok ⟨points.map (Point2i.shift ⟨40, 700⟩), edges⟩ ∧
    separateProjections (β := RotatedRect) (points.map (Point2i.shift ⟨40, 700⟩)) edges =
      (separateProjections points edges).map (List.map (Projection.move (Point2i.shift ⟨40, 700⟩) id)) :=
  @separate_moved ⟨40, 700⟩ rectanglesDrawing movedRectangles rfl

end DetailIdentifier.Executor
