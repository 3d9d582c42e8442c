/-
What the preprocessor hands on: the skeleton of the wide lines. It has one piece for each piece of the
wide lines that thinning leaves something of, and it is its own skeleton (`preprocess_skeleton`). The
filters that pick the wide lines and the program that separates text are not looked into.
-/
import DetailIdentifier.Preprocessor.Steady

namespace DetailIdentifier.Preprocessor

open Vectorizer Grid

/-! ## The code -/

/-- `skeletize_zhang_suen`. -/
def skeletizeZhangSuen (cv : OpenCv) (fuel : ℕ) (img : Mat) : Except Fault Mat := do
  let out := cv.threshold 127 255 img
  let out := cv.bitwiseNot out
  let out ← (thinning cv fuel out).getD (.error .outOfFuel)
  return cv.bitwiseNot out

/-- `pick_wide_lines` on the image read. -/
def pickWideLines (cv : OpenCv) (img : Mat) : Mat :=
  let thinLineWidth := 9
  let img := cv.medianBlur 5 img
  let img := cv.threshold 127 255 img
  let img := cv.morphOpen thinLineWidth img
  let img := cv.dilate thinLineWidth img
  cv.erode thinLineWidth img

/-- What the call of the program that separates text leaves behind: the `system_call_failure` it throws,
if any, and the image then in `graphics.pbm`, if there is one. -/
structure Separated where
  failure : Option String
  graphics : Option Mat

/-- The handler of `system_call_failure` logs it and goes on. -/
def errorLog (failure : Option String) : List String :=
  failure.toList.map fun what => "System call failure: " ++ what ++ "\nContinuing, but expect crashes"

/-- The images in the files that `preprocess` names. -/
structure Preprocessed where
  wideLines : Mat
  original : Mat

/-- `preprocess` on the image read, with what it logs. -/
def preprocess (cv : OpenCv) (separate : Mat → Separated) (fuel : ℕ) (greyscale : Mat) :
    List String × Except Fault Preprocessed :=
  let smooth := cv.medianBlur 9 greyscale
  let separated := separate smooth
  (errorLog separated.failure, do
    let _wholeSkeleton ← skeletizeZhangSuen cv fuel smooth
    -- without the file the filters are handed an image that is not there
    let graphics ← separated.graphics.elim (.error .undefined) .ok
    let wideLines := pickWideLines cv graphics
    let wideSkeleton ← skeletizeZhangSuen cv fuel wideLines
    return ⟨wideSkeleton, smooth⟩)

/-! ## Images turned over -/

namespace Bytewise

variable {f g : ℕ → ℕ} {im mid out : Mat}

theorem inside (h : Bytewise f im out) (q : Point2i) : out.Inside q ↔ im.Inside q := inside_congr h.cols h.rows

theorem trans (h : Bytewise f im mid) (h' : Bytewise g mid out) : Bytewise (g ∘ f) im out where
  cols := h'.cols.trans h.cols
  rows := h'.rows.trans h.rows
  px q hq := by rw [h'.px q ((h.inside q).2 hq), h.px q hq, Function.comp_apply]

/-- A function that keeps the bytes there are gives back the image. -/
theorem agree (h : Bytewise f im out) (hf : ∀ q, im.Inside q → f (im.px q) = im.px q) : Agree out im :=
  ⟨h.cols, h.rows, fun q hq => (h.px q hq).trans (hf q hq)⟩

end Bytewise

theorem Agree.bytewise {f : ℕ → ℕ} {im out im' out' : Mat} (h : Agree im im') (ho : Bytewise f im out)
    (ho' : Bytewise f im' out') : Agree out out' where
  cols := ho.cols.trans (h.cols.trans ho'.cols.symm)
  rows := ho.rows.trans (h.rows.trans ho'.rows.symm)
  px q hq := by
    have hq' := (ho'.inside q).1 hq
    rw [ho'.px q hq', ho.px q ((inside_congr h.cols h.rows).2 hq'), h.px q hq']

theorem bytewise_mapBytes (f : ℕ → ℕ) (im : Mat) : Bytewise f im (mapBytes f im) := ⟨rfl, rfl, fun _ _ => rfl⟩

theorem Agree.trans {a b c : Mat} (h : Agree a b) (h' : Agree b c) : Agree a c where
  cols := h.cols.trans h'.cols
  rows := h.rows.trans h'.rows
  px q hq := (h.px q ((inside_congr h'.cols h'.rows).2 hq)).trans (h'.px q hq)

/-- Any number of pairs of sub-iterations leave a steady image as it is. -/
theorem Steady.agree_afterPasses {im : Mat} (h : Steady im) : ∀ n, Agree (afterPasses im (2 * n)) im
  | 0 => ⟨rfl, rfl, fun _ _ => rfl⟩
  | n + 1 => by
    rw [afterPasses_two]
    exact (((h.agree_afterPasses n).thinned 0).thinned 1).trans h

/-! ## Skeletons -/

/-- The dark pixels, by row and column. -/
def dark (im : Mat) : Set (ℤ × ℤ) := {q | im.Inside ⟨q.2, q.1⟩ ∧ im.px ⟨q.2, q.1⟩ ≤ 127}

/-- What is left of a drawing: at most one piece of each of its pieces, and nothing else. -/
structure Skeleton (img out : Mat) : Prop where
  cols : out.cols = img.cols
  rows : out.rows = img.rows
  blackWhite : BlackWhite out
  subset : dark out ⊆ dark img
  piece : ∀ C, king.IsComponent (dark img) C → C ∩ dark out = ∅ ∨ king.IsComponent (dark out) (C ∩ dark out)

/-- Every piece of a skeleton is what is left of one piece of the drawing. -/
theorem Skeleton.exists_piece {img out : Mat} (h : Skeleton img out) {C : Set (ℤ × ℤ)} (hC : king.IsComponent (dark out) C) :
    ∃ D, king.IsComponent (dark img) D ∧ C = D ∩ dark out := by
  obtain ⟨p, hp⟩ := hC.nonempty
  have hpOut := hC.subset hp
  obtain ⟨D, hD, hpD⟩ := SimpleGraph.exists_isComponent (G := king) (h.subset hpOut)
  rcases h.piece D hD with hgone | hpiece
  · exact absurd (show p ∈ D ∩ dark out from ⟨hpD, hpOut⟩) (hgone ▸ Set.notMem_empty p)
  · exact ⟨D, hD, hC.eq_of_mem hpiece hp ⟨hpD, hpOut⟩⟩

section Skeletize

variable {cv : OpenCv} (hcv : cv.Documented)

include hcv

/-- The image that is thinned is white where the other is dark. -/
theorem bytewise_inverted (img : Mat) : Bytewise (fun v => if v > 127 then 0 else 255) img
    (cv.bitwiseNot (cv.threshold 127 255 img)) := by
  have h := (hcv.threshold 127 255 img).trans (hcv.bitwiseNot (cv.threshold 127 255 img))
  refine ⟨h.cols, h.rows, fun q hq => (h.px q hq).trans ?_⟩
  simp only [Function.comp_apply]
  split <;> rfl

theorem level_inverted (img : Mat) : level (cv.bitwiseNot (cv.threshold 127 255 img)) 255 = dark img := by
  have h := bytewise_inverted hcv img
  refine Set.ext fun q => (and_congr_left' (h.inside _)).trans (and_congr_right fun hq => ?_)
  rw [h.px _ hq]
  split <;> omega

theorem blackWhite_inverted (img : Mat) : BlackWhite (cv.bitwiseNot (cv.threshold 127 255 img)) := by
  have h := bytewise_inverted hcv img
  intro q hq
  rw [h.px q ((h.inside q).1 hq)]
  split
  exacts [.inl rfl, .inr rfl]

theorem blackWhite_bitwiseNot {im : Mat} (h : BlackWhite im) : BlackWhite (cv.bitwiseNot im) := by
  have hnot := hcv.bitwiseNot im
  intro q hq
  have hq' := (hnot.inside q).1 hq
  rcases h q hq' with h | h <;> simp [hnot.px q hq', h]

theorem dark_bitwiseNot {im : Mat} (h : BlackWhite im) : dark (cv.bitwiseNot im) = level im 255 := by
  have hnot := hcv.bitwiseNot im
  refine Set.ext fun q => (and_congr_left' (hnot.inside _)).trans (and_congr_right fun hq => ?_)
  rcases h _ hq with h | h <;> simp [hnot.px _ hq, h]

/-- A drawing of bytes 0 and 255 turned over is turned back. -/
theorem agree_inverted {im : Mat} (h : BlackWhite im) :
    Agree (cv.bitwiseNot (cv.threshold 127 255 (cv.bitwiseNot im))) im :=
  ((hcv.bitwiseNot im).trans (bytewise_inverted hcv _)).agree fun q hq => by
    rcases h q hq with h | h <;> simp [h]

omit hcv in
theorem skeletize_of_thinning {img out : Mat}
    (h : Loop.Yields (fun fuel => thinning cv fuel (cv.bitwiseNot (cv.threshold 127 255 img))) (some (.ok out))) :
    Loop.Yields (fun fuel => skeletizeZhangSuen cv fuel img) (.ok (cv.bitwiseNot out)) :=
  h.comp (g := fun _ r => do return cv.bitwiseNot (← r.getD (.error .outOfFuel))) ⟨0, fun _ _ => rfl⟩

/-- A drawing that thinning leaves as it is, is its own skeleton. -/
theorem skeletize_steady {thin : Mat} (h : Binary thin) (hsteady : Steady thin) : ∃ out,
    Loop.Yields (fun fuel => skeletizeZhangSuen cv fuel (cv.bitwiseNot (scaleUp thin))) (.ok out) ∧
      Agree out (cv.bitwiseNot (scaleUp thin)) := by
  have hinverted := agree_inverted hcv h.scaleUp
  -- the image is thinned as bytes 0 and 1, which are those of `thin`
  have hthin := (hinverted.bytewise (bytewise_mapBytes _ _) (bytewise_mapBytes _ _)).trans (agree_scaleDown_scaleUp h).symm
  obtain ⟨n, hrun⟩ := thinning_run hcv (blackWhite_inverted hcv (cv.bitwiseNot (scaleUp thin))).scaleDown.1
  have hsame := ((hthin.symm.steady hsteady).agree_afterPasses n).trans hthin
  exact ⟨_, skeletize_of_thinning (.of_lt hrun),
    (hsame.bytewise (bytewise_mapBytes _ _) (bytewise_mapBytes _ _)).bytewise (hcv.bitwiseNot _) (hcv.bitwiseNot _)⟩

/-- Every image has a skeleton, and that is its own. -/
theorem skeletize_skeleton (img : Mat) : ∃ out again, Skeleton img out ∧
    Loop.Yields (fun fuel => skeletizeZhangSuen cv fuel img) (.ok out) ∧
    Loop.Yields (fun fuel => skeletizeZhangSuen cv fuel out) (.ok again) ∧ Agree again out := by
  obtain ⟨hbin, hlevel⟩ := (blackWhite_inverted hcv img).scaleDown
  rw [level_inverted hcv] at hlevel
  obtain ⟨n, hrun, hsteady⟩ := thinning_ends hcv hbin
  have hbin' := hbin.afterPasses (2 * n)
  have hbelow := below_afterPasses hbin (2 * n)
  have hsize := bytewise_inverted hcv img
  have hnot := hcv.bitwiseNot (scaleUp (afterPasses (scaleDown (cv.bitwiseNot (cv.threshold 127 255 img))) (2 * n)))
  have hdark : dark (cv.bitwiseNot (scaleUp (afterPasses (scaleDown (cv.bitwiseNot (cv.threshold 127 255 img))) (2 * n)))) =
      level (afterPasses (scaleDown (cv.bitwiseNot (cv.threshold 127 255 img))) (2 * n)) 1 := by
    rw [dark_bitwiseNot hcv hbin'.scaleUp, level_scaleUp hbin']
  obtain ⟨again, hagain, hsame⟩ := skeletize_steady hcv hbin' hsteady
  refine ⟨_, again, ⟨hnot.cols.trans (hbelow.cols.trans hsize.cols), hnot.rows.trans (hbelow.rows.trans hsize.rows),
    blackWhite_bitwiseNot hcv hbin'.scaleUp, ?_, ?_⟩, skeletize_of_thinning (.of_lt hrun), hagain, hsame⟩
  · rw [hdark, ← hlevel]
    rintro q ⟨hq, hone⟩
    have hq' := (inside_afterPasses hbin _).1 hq
    refine ⟨hq', ?_⟩
    rcases hbelow.px _ hq' with hpx | hpx <;> omega
  · intro C hC
    rw [hdark]
    rw [← hlevel] at hC
    rcases afterPasses_component hbin hC (2 * n) with ⟨-, hpiece⟩ | ⟨-, hgone⟩
    exacts [.inr hpiece, .inl hgone]

/-- The preprocessor comes to its end, and logs a failure to separate text. If there is an image to go on
with, the skeleton has one piece for each piece of the wide lines of which anything is left, and no other,
and it is its own skeleton. -/
theorem preprocess_skeleton (separate : Mat → Separated) (greyscale : Mat) : ∃ result,
    Loop.Yields (fun fuel => preprocess cv separate fuel greyscale)
      (errorLog (separate (cv.medianBlur 9 greyscale)).failure, result) ∧
    ((separate (cv.medianBlur 9 greyscale)).graphics = none → result = .error .undefined) ∧
    ∀ graphics, (separate (cv.medianBlur 9 greyscale)).graphics = some graphics → ∃ out again,
      result = .ok ⟨out, cv.medianBlur 9 greyscale⟩ ∧ Skeleton (pickWideLines cv graphics) out ∧
      (∀ C, king.IsComponent (dark out) C → ∃ D, king.IsComponent (dark (pickWideLines cv graphics)) D ∧ C = D ∩ dark out) ∧
      Loop.Yields (fun fuel => skeletizeZhangSuen cv fuel out) (.ok again) ∧ Agree again out := by
  obtain ⟨whole, -, -, ⟨m, hm⟩, -⟩ := skeletize_skeleton hcv (cv.medianBlur 9 greyscale)
  cases hgraphics : (separate (cv.medianBlur 9 greyscale)).graphics with
  | none =>
    refine ⟨_, ⟨m, fun fuel hle => ?_⟩, fun _ => rfl, fun _ h => by cases h⟩
    have hwhole : skeletizeZhangSuen cv fuel (cv.medianBlur 9 greyscale) = .ok whole := hm fuel hle
    simp only [preprocess, hwhole, hgraphics]
    rfl
  | some graphics =>
    obtain ⟨out, again, hskeleton, ⟨n, hn⟩, hagain, hsame⟩ := skeletize_skeleton hcv (pickWideLines cv graphics)
    refine ⟨.ok ⟨out, cv.medianBlur 9 greyscale⟩, ⟨max m n, fun fuel hle => ?_⟩, fun h => absurd h (by simp), fun _ h => ?_⟩
    · have hwhole : skeletizeZhangSuen cv fuel (cv.medianBlur 9 greyscale) = .ok whole := hm fuel (le_of_max_le_left hle)
      have hwide : skeletizeZhangSuen cv fuel (pickWideLines cv graphics) = .ok out := hn fuel (le_of_max_le_right hle)
      simp only [preprocess, hwhole, hgraphics, Option.elim, bind, Except.bind, hwide]
      rfl
    · cases h
      exact ⟨out, again, rfl, hskeleton, fun C => hskeleton.exists_piece, hagain, hsame⟩

end Skeletize

/-- A black band across a white image. The filters leave it as it is, and there is no text on it. -/
def band : Mat := ⟨30, 30, fun q => if 10 ≤ q.y ∧ q.y < 20 then 0 else 255⟩

theorem preprocess_skeleton_band : ∃ out again,
    Loop.Yields (fun fuel => preprocess elementwise (fun img => ⟨none, some img⟩) fuel band) ([], .ok ⟨out, band⟩) ∧
    Skeleton (pickWideLines elementwise band) out ∧
    Loop.Yields (fun fuel => skeletizeZhangSuen elementwise fuel out) (.ok again) ∧ Agree again out := by
  obtain ⟨result, hyields, -, hpieces⟩ := preprocess_skeleton elementwise_documented (fun img => ⟨none, some img⟩) band
  obtain ⟨out, again, rfl, hskeleton, -, hagain, hsame⟩ := hpieces band rfl
  exact ⟨out, again, hyields, hskeleton, hagain, hsame⟩

end DetailIdentifier.Preprocessor
