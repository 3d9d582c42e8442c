/-
What thinning does to a drawing as a whole: it ends, deletes pixels and adds none, leaves the
outermost rows and columns alone, and has nothing to do on its own output (`thinning_idempotent`).
-/
import DetailIdentifier.Preprocessor.Survival

namespace DetailIdentifier.Preprocessor

open Vectorizer

/-! ## Deleting -/

section Deleting

variable {im : Mat} {q : Point2i}

/-- Any number of sub-iterations leave some pixels of the image, and zeros. -/
theorem below_afterPasses (h : Binary im) : ∀ n, Below (afterPasses im n) im
  | 0 => ⟨rfl, rfl, fun _ _ => .inl rfl⟩
  | n + 1 => (below_thinned (h.afterPasses n) _).trans (below_afterPasses h n)

theorem inside_afterPasses (h : Binary im) (n : ℕ) : (afterPasses im n).Inside q ↔ im.Inside q :=
  inside_congr (below_afterPasses h n).cols (below_afterPasses h n).rows

/-- On the outermost rows and columns nothing is marked. -/
theorem afterPasses_border (h : Binary im) (hq : im.Inside q) (hout : ¬Interior im q) :
    ∀ n, (afterPasses im n).px q = im.px q
  | 0 => rfl
  | n + 1 => by
    have hout' : ¬Interior (afterPasses im n) q :=
      mt (interior_congr (below_afterPasses h n).cols (below_afterPasses h n).rows).1 hout
    rw [afterPasses, thinned_px (h.afterPasses n) _ ((inside_afterPasses h n).2 hq), if_neg fun hmark => hout' hmark.1]
    exact afterPasses_border h hq hout n

end Deleting

/-! ## Thinning again -/

/-- Bytes 0 and 1, wherever they are, pass unmarked pixels through the mask. -/
theorem Steady.thinned_eq {im : Mat} (h : Steady im) (hbit : ∀ q, im.px q ≤ 1) : thinned (thinned im 0) 1 = im := by
  have hpx : (thinned (thinned im 0) 1).px = im.px := by
    funext q
    by_cases hq : im.Inside q
    · exact h.px q hq
    · have hout : ∀ m : Mat, m.cols = im.cols → m.rows = im.rows → ∀ iter, (thinned m iter).px q = m.px q &&& 255 := by
        intro m hcols hrows iter
        have hin : ¬Interior m q := by
          simp only [Mat.Inside] at hq
          simp only [Interior]
          omega
        simp only [thinned, hin, false_and, if_false, Nat.sub_zero]
      rw [hout (thinned im 0) rfl rfl, hout im rfl rfl]
      have := hbit q
      interval_cases im.px q <;> rfl
  exact congrArg (Mat.mk im.cols im.rows) hpx

theorem Steady.afterPasses_eq {im : Mat} (h : Steady im) (hbit : ∀ q, im.px q ≤ 1) : ∀ n, afterPasses im (2 * n) = im
  | 0 => rfl
  | n + 1 => by
    rw [afterPasses_two, h.afterPasses_eq hbit n]
    exact h.thinned_eq hbit

theorem scaleDown_scaleUp_le (im : Mat) (q : Point2i) : (scaleDown (scaleUp im)).px q ≤ 1 := by
  simp only [scaleDown, scaleUp, mapBytes]
  omega

theorem scaleUp_scaleDown_scaleUp (im : Mat) : scaleUp (scaleDown (scaleUp im)) = scaleUp im := by
  apply congrArg (Mat.mk im.cols im.rows)
  funext q
  simp only [scaleDown, scaleUp, mapBytes]
  omega

theorem agree_scaleDown_scaleUp {im : Mat} (h : Binary im) : Agree im (scaleDown (scaleUp im)) where
  cols := rfl
  rows := rfl
  px q hq := by
    rcases h q hq with h | h <;> simp [scaleDown, scaleUp, mapBytes, h]

theorem Binary.scaleUp {im : Mat} (h : Binary im) : BlackWhite (scaleUp im) := by
  intro q hq
  rcases h q hq with h | h <;> simp [Preprocessor.scaleUp, mapBytes, h]

/-! ## The whole run -/

/-- The outermost rows and columns. -/
def Outermost (im : Mat) (q : Point2i) : Prop := q.x = 0 ∨ q.x = im.cols - 1 ∨ q.y = 0 ∨ q.y = im.rows - 1

theorem Outermost.not_interior {im : Mat} {q : Point2i} (h : Outermost im q) : ¬Interior im q := by
  simp only [Outermost] at h
  simp only [Interior]
  omega

/-- Thinning ends with an image of the same size with bytes 0 and 255, whose pixels are pixels of the
input and whose outermost rows and columns are those of the input, and thinning it gives it back. -/
theorem thinning_idempotent {cv : OpenCv} (hcv : cv.Documented) (im : Mat) (h : BlackWhite im) : ∃ out,
    (∀ fuel, 2 * nonZeros (scaleDown im) + 1 < fuel → thinning cv fuel im = some (.ok out)) ∧
    out.cols = im.cols ∧ out.rows = im.rows ∧ BlackWhite out ∧ level out 255 ⊆ level im 255 ∧
    (∀ q, im.Inside q → Outermost im q → out.px q = im.px q) ∧
    ∀ fuel, 2 * nonZeros (scaleDown out) + 1 < fuel → thinning cv fuel out = some (.ok out) := by
  obtain ⟨hbin, hlevel⟩ := h.scaleDown
  obtain ⟨n, hrun, hsteady⟩ := thinning_ends hcv hbin
  have hbin' := hbin.afterPasses (2 * n)
  have hbelow := below_afterPasses hbin (2 * n)
  refine ⟨_, hrun, hbelow.cols, hbelow.rows, hbin'.scaleUp, ?_, ?_, ?_⟩
  · rw [level_scaleUp hbin', ← hlevel]
    rintro q ⟨hq, hone⟩
    have hq' := (inside_afterPasses hbin _).1 hq
    refine ⟨hq', ?_⟩
    rcases hbelow.px _ hq' with hpx | hpx <;> omega
  · intro q hq hout
    have hpx : (afterPasses (scaleDown im) (2 * n)).px q = (scaleDown im).px q :=
      afterPasses_border hbin hq hout.not_interior _
    show min 255 ((afterPasses (scaleDown im) (2 * n)).px q * 255) = im.px q
    rw [hpx]
    rcases h q hq with h0 | h0 <;> simp [scaleDown, mapBytes, h0]
  · have hagree := agree_scaleDown_scaleUp hbin'
    obtain ⟨hbin'', -⟩ := hbin'.scaleUp.scaleDown
    obtain ⟨k, hagain⟩ := thinning_run hcv hbin''
    intro fuel hfuel
    rw [hagain fuel hfuel, (hagree.steady hsteady).afterPasses_eq (scaleDown_scaleUp_le _), scaleUp_scaleDown_scaleUp]

theorem thinning_idempotent_block : ∃ out,
    (∀ fuel, 2 * nonZeros (scaleDown block) + 1 < fuel → thinning elementwise fuel block = some (.ok out)) ∧
    out.cols = block.cols ∧ out.rows = block.rows ∧ BlackWhite out ∧ level out 255 ⊆ level block 255 ∧
    (∀ q, block.Inside q → Outermost block q → out.px q = block.px q) ∧
    ∀ fuel, 2 * nonZeros (scaleDown out) + 1 < fuel → thinning elementwise fuel out = some (.ok out) :=
  thinning_idempotent elementwise_documented block block_blackWhite

end DetailIdentifier.Preprocessor
