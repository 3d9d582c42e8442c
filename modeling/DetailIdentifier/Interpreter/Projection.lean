/-
The data the vectorizer, the interpreter and the modeller hand on: the strokes of the vectorized
drawing, rotated boxes, cast directions, coordinate systems and projections.
`double` values are real numbers; what is computed from them is rounded where `Rounded` says so.
-/
import DetailIdentifier.Types

namespace DetailIdentifier.Interpreter

/-- `cv::RotatedRect`: center, size and angle. -/
structure RotatedRect where
  center : ℝ × ℝ
  width : ℝ
  height : ℝ
  angle : ℝ

/-- `projection_direction`: the line `cos alpha · x + sin alpha · y = p`. -/
structure ProjectionDirection where
  alpha : ℝ
  p : ℝ

/-- `coordinate_system`: the axes a view shows, with their lines and the zero point. -/
structure CoordinateSystem where
  zeroPointImageLocation : Point2i
  hasX : Bool
  hasY : Bool
  hasZ : Bool
  xLine : ProjectionDirection
  yLine : ProjectionDirection
  zLine : ProjectionDirection

/-- `projection`, with its bounding box of any type `β` (the code's is `RotatedRect`). The
coordinate system `s` is unset until `assignCoordinateSystems`. -/
structure Projection (β : Type) where
  vertices : List Point2i
  edges : List (Point2i × Point2i)
  cedges : List (ℕ × ℕ)
  boundingBox : β
  s : Option CoordinateSystem

/-- `interpreter::input`: the vertices of the vectorized drawing and its strokes between vertex
indices, all in range. -/
structure Input where
  vertices : List Point2i
  edges : List (ℕ × ℕ)
  inRange : ∀ e ∈ edges, e.1 < vertices.length ∧ e.2 < vertices.length

namespace Input

variable (inp : Input)

/-- The point of a vertex index. -/
def coord (i : ℕ) : Point2i := inp.vertices.getD i ⟨0, 0⟩

/-- A stroke as a pair of points. -/
def stroke (e : ℕ × ℕ) : Point2i × Point2i := (inp.coord e.1, inp.coord e.2)

/-- The distinct vertex indices that occur in some stroke. -/
def touched : List ℕ := (inp.edges.flatMap fun e => [e.1, e.2]).dedup

theorem getElem?_coord {i : ℕ} (h : i < inp.vertices.length) : inp.vertices[i]? = some (inp.coord i) := by
  simp [coord, h]

theorem mem_touched {i : ℕ} : i ∈ inp.touched ↔ ∃ e ∈ inp.edges, i = e.1 ∨ i = e.2 := by
  simp [touched]

theorem nodup_touched : inp.touched.Nodup := List.nodup_dedup _

theorem coord_injOn (hd : inp.vertices.Nodup) {i j : ℕ} (hi : i < inp.vertices.length)
    (hj : j < inp.vertices.length) (h : inp.coord i = inp.coord j) : i = j := by
  simp only [coord, List.getD_eq_getElem?_getD, List.getElem?_eq_getElem hi, List.getElem?_eq_getElem hj,
    Option.getD_some] at h
  exact (List.Nodup.getElem_inj_iff hd).1 h

end Input

end DetailIdentifier.Interpreter
