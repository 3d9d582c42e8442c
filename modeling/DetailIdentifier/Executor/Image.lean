/-
`processor::process` from the image on: the preprocessor, the contours of its skeleton, and the stages
behind the vectorizer. Every run comes to its end: where text was not separated and nothing is there to
go on with, in the preprocessor, else in the way that `prune` decides (`processImage_decided`).
-/
import DetailIdentifier.Executor.Process
import DetailIdentifier.Preprocessor.Skeleton

namespace DetailIdentifier.Executor

open Vectorizer (Drawing Mat)
open Preprocessor (OpenCv Separated Skeleton errorLog pickWideLines preprocess preprocess_skeleton)
open Interpreter Modeller

/-- What OpenCV and the program that separates text do for a run. -/
structure Library where
  cv : OpenCv
  separate : Mat → Separated
  findContours : Mat → List (List Point2i)
  approxPolyDP : ℕ → List Point2i → List Point2i
  minAreaRect : List Point2i → RotatedRect
  toPoint : ℝ × ℝ → Point2i

/-- Contours lie in the image, and an approximation keeps some of the points. -/
structure Library.Traces (lib : Library) : Prop where
  documented : lib.cv.Documented
  contour_ne_nil : ∀ img, ∀ c ∈ lib.findContours img, c ≠ []
  contour_inside : ∀ img, ∀ c ∈ lib.findContours img, ∀ v ∈ c, img.Inside v
  approx_ne_nil : ∀ eps c, c ≠ [] → lib.approxPolyDP eps c ≠ []
  approx_subset : ∀ eps c, ∀ v ∈ lib.approxPolyDP eps c, v ∈ c

/-- The polygons that `vectorize` makes of the image it reads. -/
def polygonsOf (lib : Library) (wideLines : Mat) : List (List Point2i) :=
  let img := lib.cv.threshold 127 255 wideLines
  let img := lib.cv.bitwiseNot img
  let chainedPoints := lib.findContours img
  chainedPoints.map (lib.approxPolyDP 15)

/-- `processor::process` on the image that the preprocessor reads, with what is logged. -/
noncomputable def processImage (lib : Library) (fuel : ℕ) (greyscale : Mat) : List String × Except Fault (List Polygon) :=
  let preprocessedData := preprocess lib.cv lib.separate fuel greyscale
  (preprocessedData.1, do
    let preprocessedData ← preprocessedData.2
    process lib.minAreaRect lib.toPoint fuel preprocessedData.wideLines.cols preprocessedData.wideLines.rows
      (polygonsOf lib preprocessedData.wideLines))

section Runs

variable {lib : Library}

/-- The polygons of an image lie in it. -/
def drawingOf (h : lib.Traces) (wideLines : Mat) : Drawing where
  cols := wideLines.cols
  rows := wideLines.rows
  contours := polygonsOf lib wideLines
  nonempty := by
    intro c hc
    obtain ⟨chain, hchain, rfl⟩ := List.mem_map.1 hc
    exact h.approx_ne_nil _ _ (h.contour_ne_nil _ _ hchain)
  inside := by
    intro c hc v hv
    obtain ⟨chain, hchain, rfl⟩ := List.mem_map.1 hc
    have hin := h.contour_inside _ _ hchain v (h.approx_subset _ _ v hv)
    exact (((h.documented.threshold 127 255 wideLines).trans (h.documented.bitwiseNot _)).inside v).1 hin

/-- Whatever is drawn, a run comes to its end. With an image to go on with, `prune` decides how, on the
drawing read from the skeleton of its wide lines. -/
theorem processImage_decided (h : lib.Traces) (greyscale : Mat) : ∃ result,
    Loop.Yields (fun fuel => processImage lib fuel greyscale)
      (errorLog (lib.separate (lib.cv.medianBlur 9 greyscale)).failure, result) ∧
    ((lib.separate (lib.cv.medianBlur 9 greyscale)).graphics = none → result = .error .undefined) ∧
    ∀ graphics, (lib.separate (lib.cv.medianBlur 9 greyscale)).graphics = some graphics → ∃ skeleton ps o,
      Skeleton (pickWideLines lib.cv graphics) skeleton ∧
      separateProjections (vectorized (drawingOf h skeleton)).vertices (vectorized (drawingOf h skeleton)).edges = .ok ps ∧
      Loop.Ends pruneStep (pruneStart (boxed lib.minAreaRect ps)) o ∧ Decided lib.toPoint o result := by
  obtain ⟨preprocessed, hpre, hnone, hsome⟩ := preprocess_skeleton h.documented lib.separate greyscale
  have hrun : ∀ {result}, Loop.Yields (fun fuel => do
      let preprocessedData ← preprocessed
      process lib.minAreaRect lib.toPoint fuel preprocessedData.wideLines.cols preprocessedData.wideLines.rows
        (polygonsOf lib preprocessedData.wideLines)) result →
      Loop.Yields (fun fuel => processImage lib fuel greyscale) (_, result) := fun hrest =>
    hpre.comp (g := fun fuel r => (r.1, do
      let preprocessedData ← r.2
      process lib.minAreaRect lib.toPoint fuel preprocessedData.wideLines.cols preprocessedData.wideLines.rows
        (polygonsOf lib preprocessedData.wideLines))) (hrest.comp (g := fun _ r => (_, r)) ⟨0, fun _ _ => rfl⟩)
  cases hgraphics : (lib.separate (lib.cv.medianBlur 9 greyscale)).graphics with
  | none =>
    obtain rfl := hnone hgraphics
    exact ⟨_, hrun ⟨0, fun _ _ => rfl⟩, fun _ => rfl, fun _ h => absurd h (by simp)⟩
  | some graphics =>
    obtain ⟨skeleton, again, rfl, hskeleton, -⟩ := hsome graphics hgraphics
    obtain ⟨ps, o, result, hps, ho, hyields, hdecided⟩ :=
      process_decided lib.minAreaRect lib.toPoint (drawingOf h skeleton)
    refine ⟨result, hrun hyields, fun h => absurd h (by simp), fun _ h => ?_⟩
    cases h
    exact ⟨skeleton, ps, o, hskeleton, hps, ho, hdecided⟩

end Runs

end DetailIdentifier.Executor
