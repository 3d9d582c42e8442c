/-
Zhang–Suen thinning. A sub-iteration marks the pixels its rule allows and then deletes them all at
once; `thinning` alternates two of them until both together change nothing. No read leaves the image
(`thinningIteration_eq`), and the loop runs to completion, at an image that both together would not
change (`thinning_ends`).
-/
import DetailIdentifier.Lib.Loop
import DetailIdentifier.Vectorizer.Image

namespace DetailIdentifier.Preprocessor

open Vectorizer

/-! ## Images of bytes -/

/-- `at<uchar>(i, j)`: row, then column. -/
def byteAt (im : Mat) (i j : Int) : Except Fault ℕ := im.get ⟨j, i⟩

/-- A function applied to every byte. -/
def mapBytes (f : ℕ → ℕ) (im : Mat) : Mat := { im with px := fun q => f (im.px q) }

/-- A function applied to the bytes of two images of one size. -/
def zipBytes (f : ℕ → ℕ → ℕ) (im other : Mat) : Mat := { im with px := fun q => f (im.px q) (other.px q) }

/-- The pixels of an image, row by row. -/
def pixels (im : Mat) : List Point2i :=
  (span 0 (im.rows - 1)).flatMap fun i => (span 0 (im.cols - 1)).map fun j => ⟨j, i⟩

/-- The pixels that are not 0. -/
def nonZeros (im : Mat) : ℕ := (pixels im).countP fun q => im.px q != 0

/-- `im /= 255`, which rounds to the nearest. -/
def scaleDown : Mat → Mat := mapBytes fun v => (v + 127) / 255

/-- `im *= 255`, which saturates. -/
def scaleUp : Mat → Mat := mapBytes fun v => min 255 (v * 255)

/-! ## OpenCV -/

/-- The functions of OpenCV on images of bytes; the filters with the side of their square window. -/
structure OpenCv where
  absdiff : Mat → Mat → Mat
  countNonZero : Mat → ℕ
  threshold : ℕ → ℕ → Mat → Mat
  bitwiseNot : Mat → Mat
  medianBlur : ℕ → Mat → Mat
  morphOpen : ℕ → Mat → Mat
  dilate : ℕ → Mat → Mat
  erode : ℕ → Mat → Mat

/-- `out` is `im` with a function applied to every byte. -/
structure Bytewise (f : ℕ → ℕ) (im out : Mat) : Prop where
  cols : out.cols = im.cols
  rows : out.rows = im.rows
  px : ∀ q, im.Inside q → out.px q = f (im.px q)

/-- What the documentation says of the functions that the proofs rely on. Nothing is said of the filters,
nor of bytes outside an image. -/
structure OpenCv.Documented (cv : OpenCv) : Prop where
  /-- The absolute differences of two images of one size. -/
  absdiff_cols : ∀ a b, a.cols = b.cols → a.rows = b.rows → (cv.absdiff a b).cols = a.cols
  absdiff_rows : ∀ a b, a.cols = b.cols → a.rows = b.rows → (cv.absdiff a b).rows = a.rows
  absdiff_px : ∀ a b, a.cols = b.cols → a.rows = b.rows → ∀ q, a.Inside q →
    ((cv.absdiff a b).px q : ℤ) = |(a.px q : ℤ) - b.px q|
  /-- The number of bytes that are not 0. -/
  countNonZero : ∀ im, cv.countNonZero im = nonZeros im
  /-- `THRESH_BINARY`: the greatest value above the threshold, else 0. -/
  threshold : ∀ thresh maxval im, Bytewise (fun v => if v > thresh then maxval else 0) im (cv.threshold thresh maxval im)
  /-- Every bit of a byte turned over. -/
  bitwiseNot : ∀ im, Bytewise (fun v => 255 - v) im (cv.bitwiseNot im)

/-! ## Thinning -/

/-- The rule of sub-iteration `iter` on the bytes around a pixel. -/
def marks (iter : Int) (p2 p3 p4 p5 p6 p7 p8 p9 : ℕ) : Bool :=
  let A := (p2 == 0 && p3 == 1).toNat + (p3 == 0 && p4 == 1).toNat + (p4 == 0 && p5 == 1).toNat +
    (p5 == 0 && p6 == 1).toNat + (p6 == 0 && p7 == 1).toNat + (p7 == 0 && p8 == 1).toNat +
    (p8 == 0 && p9 == 1).toNat + (p9 == 0 && p2 == 1).toNat
  let B := p2 + p3 + p4 + p5 + p6 + p7 + p8 + p9
  let m1 := if iter = 0 then p2 * p4 * p6 else p2 * p4 * p8
  let m2 := if iter = 0 then p4 * p6 * p8 else p2 * p6 * p8
  A == 1 && (decide (B ≥ 2) && decide (B ≤ 6)) && m1 == 0 && m2 == 0

/-- The body of the loops: whether the pixel in row `i` and column `j` is marked. -/
def isMarked (im : Mat) (iter i j : Int) : Except Fault Bool := do
  let p2 ← byteAt im (i - 1) j
  let p3 ← byteAt im (i - 1) (j + 1)
  let p4 ← byteAt im i (j + 1)
  let p5 ← byteAt im (i + 1) (j + 1)
  let p6 ← byteAt im (i + 1) j
  let p7 ← byteAt im (i + 1) (j - 1)
  let p8 ← byteAt im i (j - 1)
  let p9 ← byteAt im (i - 1) (j - 1)
  return marks iter p2 p3 p4 p5 p6 p7 p8 p9

/-- `thinningIteration`. -/
def thinningIteration (im : Mat) (iter : Int) : Except Fault Mat := do
  let marker ← (span 1 (im.rows - 2)).foldlM (fun marker i =>
    (span 1 (im.cols - 2)).foldlM (fun marker j => do
      if ← isMarked im iter i j then marker.set ⟨j, i⟩ 1 else return marker) marker) (.fresh im.cols im.rows 0)
  return zipBytes (fun v m => v &&& (255 - m)) im marker

/-- The images of the loop of `thinning`, of one size. -/
structure ThinningState where
  im : Mat
  prev : Mat
  cols : im.cols = prev.cols
  rows : im.rows = prev.rows

/-- One iteration of the loop. -/
def thinningStep (cv : OpenCv) (s : ThinningState) : Loop.Step ThinningState Mat Fault :=
  match (do let im ← thinningIteration s.im 0; thinningIteration im 1) with
  | .error e => .fail e
  | .ok im => if cv.countNonZero (cv.absdiff im s.prev) > 0 then .next ⟨im, im, rfl, rfl⟩ else .done im

/-- `thinning`, on explicit fuel for its loop. -/
def thinning (cv : OpenCv) (fuel : ℕ) (im : Mat) : Option (Except Fault Mat) :=
  (Loop.run (thinningStep cv) fuel ⟨scaleDown im, .fresh im.cols im.rows 0, rfl, rfl⟩).map (Except.map scaleUp)

/-- The image after a number of sub-iterations, with `iter` 0 and 1 in turn. -/
def subIterations (im : Mat) : ℕ → Except Fault Mat
  | 0 => .ok im
  | n + 1 => do thinningIteration (← subIterations im n) ((n % 2 : ℕ) : Int)

/-! ## A sub-iteration -/

/-- Not on the border of the image. -/
def Interior (im : Mat) (q : Point2i) : Prop := 1 ≤ q.y ∧ q.y ≤ im.rows - 2 ∧ 1 ≤ q.x ∧ q.x ≤ im.cols - 2

instance (im : Mat) (q : Point2i) : Decidable (Interior im q) := by unfold Interior; infer_instance

section Size

variable {im other : Mat} {q : Point2i} (hcols : im.cols = other.cols) (hrows : im.rows = other.rows)

include hcols hrows

theorem inside_congr : im.Inside q ↔ other.Inside q := by
  simp only [Mat.Inside, hcols, hrows]

theorem interior_congr : Interior im q ↔ Interior other q := by
  simp only [Interior, hcols, hrows]

end Size

/-- The rule on the bytes around a pixel of an image. -/
def marksAt (im : Mat) (iter : Int) (q : Point2i) : Bool :=
  marks iter (im.px ⟨q.x, q.y - 1⟩) (im.px ⟨q.x + 1, q.y - 1⟩) (im.px ⟨q.x + 1, q.y⟩) (im.px ⟨q.x + 1, q.y + 1⟩)
    (im.px ⟨q.x, q.y + 1⟩) (im.px ⟨q.x - 1, q.y + 1⟩) (im.px ⟨q.x - 1, q.y⟩) (im.px ⟨q.x - 1, q.y - 1⟩)

/-- The image without the pixels that a sub-iteration marks. -/
def thinned (im : Mat) (iter : Int) : Mat :=
  { im with px := fun q => im.px q &&& (255 - if Interior im q ∧ marksAt im iter q = true then 1 else 0) }

theorem byteAt_eq {im : Mat} {i j : Int} (h : im.Inside ⟨j, i⟩) : byteAt im i j = .ok (im.px ⟨j, i⟩) := Mat.get_inside h

theorem isMarked_eq {im : Mat} {iter i j : Int} (h : Interior im ⟨j, i⟩) :
    isMarked im iter i j = .ok (marksAt im iter ⟨j, i⟩) := by
  unfold Interior at h
  simp only at h
  have hat : ∀ a b : Int, i - 1 ≤ a → a ≤ i + 1 → j - 1 ≤ b → b ≤ j + 1 → byteAt im a b = .ok (im.px ⟨b, a⟩) := by
    intro a b h1 h2 h3 h4
    apply byteAt_eq
    simp only [Mat.Inside]
    omega
  unfold isMarked
  simp (disch := omega) only [hat]
  rfl

section Marking

variable {im marker : Mat} {iter i j : Int}

/-- The body of the loops writes a marked pixel. -/
theorem mark_pixel (hin : Interior im ⟨j, i⟩) (hcols : marker.cols = im.cols) (hrows : marker.rows = im.rows) :
    (do if ← isMarked im iter i j then marker.set ⟨j, i⟩ 1 else return marker) =
      .ok (marker.fill (fun q => q = ⟨j, i⟩ ∧ marksAt im iter q = true) 1) := by
  have hinside : marker.Inside ⟨j, i⟩ := by
    simp only [Interior] at hin
    simp only [Mat.Inside]
    omega
  rw [isMarked_eq hin]
  simp only [bind, Except.bind]
  cases hm : marksAt im iter ⟨j, i⟩ with
  | true =>
    rw [if_pos rfl, Mat.set_inside hinside]
    congr 1
    exact Mat.fill_congr 1 fun q => ⟨fun h => ⟨h, h ▸ hm⟩, fun h => h.1⟩
  | false =>
    rw [if_neg Bool.false_ne_true]
    have hnone : ∀ q, ¬(q = ⟨j, i⟩ ∧ marksAt im iter q = true) := by
      rintro q ⟨rfl, h⟩
      rw [hm] at h
      cases h
    simp only [Mat.fill, hnone, if_false]
    rfl

/-- The inner loop writes the marked pixels of a row. -/
theorem mark_row (hi : 1 ≤ i ∧ i ≤ (im.rows : Int) - 2) (hcols : marker.cols = im.cols) (hrows : marker.rows = im.rows) :
    ((span 1 (im.cols - 2)).foldlM (fun marker j => do
      if ← isMarked im iter i j then marker.set ⟨j, i⟩ 1 else return marker) marker) =
      .ok (marker.fill (fun q => q.y = i ∧ Interior im q ∧ marksAt im iter q = true) 1) := by
  rw [@Mat.foldlM_fill _ _ (fun j q => q = ⟨j, i⟩ ∧ marksAt im iter q = true) (fun _ => inferInstance) 1]
  · congr 1
    apply Mat.fill_congr 1
    intro q
    obtain ⟨x, y⟩ := q
    simp only [Point2i.mk.injEq, mem_span, Interior]
    constructor
    · rintro ⟨j, hj, ⟨rfl, rfl⟩, hm⟩
      exact ⟨rfl, ⟨hi.1, hi.2, hj.1, hj.2⟩, hm⟩
    · rintro ⟨rfl, ⟨-, -, h1, h2⟩, hm⟩
      exact ⟨x, ⟨h1, h2⟩, ⟨rfl, rfl⟩, hm⟩
  · intro j hj marker' hcols' hrows'
    rw [mem_span] at hj
    exact mark_pixel ⟨hi.1, hi.2, hj.1, hj.2⟩ (hcols'.trans hcols) (hrows'.trans hrows)

end Marking

/-- A sub-iteration reads and writes inside the image only and deletes what its rule marks. -/
theorem thinningIteration_eq (im : Mat) (iter : Int) : thinningIteration im iter = .ok (thinned im iter) := by
  unfold thinningIteration
  rw [@Mat.foldlM_fill _ _ (fun i q => q.y = i ∧ Interior im q ∧ marksAt im iter q = true) (fun _ => inferInstance) 1]
  · show Except.ok _ = _
    congr 1
    simp only [zipBytes, Mat.fill, Mat.fresh, thinned, Mat.mk.injEq, true_and]
    funext q
    have h : (∃ a ∈ span 1 (im.rows - 2), q.y = a ∧ Interior im q ∧ marksAt im iter q = true) ↔
        Interior im q ∧ marksAt im iter q = true := by
      constructor
      · rintro ⟨a, -, -, h⟩
        exact h
      · intro h
        exact ⟨q.y, mem_span.2 ⟨h.1.1, h.1.2.1⟩, rfl, h⟩
    simp only [h]
  · intro i hi marker hcols hrows
    exact mark_row (mem_span.1 hi) hcols hrows

/-! ## The loop -/

/-- The bytes inside the image are 0 and 1. -/
def Binary (im : Mat) : Prop := ∀ q, im.Inside q → im.px q = 0 ∨ im.px q = 1

theorem land_mark (v : ℕ) (hv : v = 0 ∨ v = 1) (P : Prop) [Decidable P] :
    v &&& (255 - if P then 1 else 0) = if P then 0 else v := by
  rcases hv with rfl | rfl <;> by_cases hP : P <;> simp [hP]

theorem thinned_px {im : Mat} (h : Binary im) (iter : Int) {q : Point2i} (hq : im.Inside q) :
    (thinned im iter).px q = if Interior im q ∧ marksAt im iter q = true then 0 else im.px q :=
  land_mark _ (h q hq) _

theorem Binary.thinned {im : Mat} (h : Binary im) (iter : Int) : Binary (thinned im iter) := by
  intro q hq
  rw [thinned_px h iter hq]
  split
  exacts [.inl rfl, h q hq]

theorem mem_pixels {im : Mat} {q : Point2i} : q ∈ pixels im ↔ im.Inside q := by
  obtain ⟨x, y⟩ := q
  simp only [pixels, List.mem_flatMap, List.mem_map, mem_span, Point2i.mk.injEq, Mat.Inside]
  constructor
  · rintro ⟨i, hi, j, hj, rfl, rfl⟩
    omega
  · intro h
    exact ⟨y, by omega, x, by omega, rfl, rfl⟩

/-- Some pixels of the other image, and zeros. -/
structure Below (im other : Mat) : Prop where
  cols : im.cols = other.cols
  rows : im.rows = other.rows
  px : ∀ q, other.Inside q → im.px q = other.px q ∨ im.px q = 0

theorem Below.trans {a b c : Mat} (h : Below a b) (h' : Below b c) : Below a c where
  cols := h.cols.trans h'.cols
  rows := h.rows.trans h'.rows
  px q hq := by
    rcases h.px q ((inside_congr h'.cols h'.rows).2 hq) with h1 | h1
    · rw [h1]
      exact h'.px q hq
    · exact .inr h1

theorem below_thinned {im : Mat} (h : Binary im) (iter : Int) : Below (thinned im iter) im where
  cols := rfl
  rows := rfl
  px q hq := by
    rw [thinned_px h iter hq]
    split
    exacts [.inr rfl, .inl rfl]

theorem Below.pixels {im other : Mat} (h : Below im other) : pixels im = pixels other := by
  unfold Preprocessor.pixels
  rw [h.rows, h.cols]

/-- Of any pixels, no more are lit. -/
theorem Below.countP_le {im other : Mat} (h : Below im other) {l : List Point2i} (hl : ∀ q ∈ l, other.Inside q) :
    (l.countP fun q => im.px q != 0) ≤ l.countP fun q => other.px q != 0 := by
  apply List.countP_mono_left
  intro q hq hne
  rcases h.px q (hl q hq) with h1 | h1
  · rwa [h1] at hne
  · rw [h1] at hne
    cases hne

theorem Below.nonZeros_le {im other : Mat} (h : Below im other) : nonZeros im ≤ nonZeros other := by
  unfold nonZeros
  rw [h.pixels]
  exact h.countP_le fun q => mem_pixels.1

/-- Some pixel differs. -/
def Differ (im other : Mat) : Prop := ∃ q, im.Inside q ∧ im.px q ≠ other.px q

instance (im other : Mat) : Decidable (Differ im other) :=
  decidable_of_iff (∃ q ∈ pixels im, im.px q ≠ other.px q) (exists_congr fun _ => and_congr_left' mem_pixels)

theorem OpenCv.Documented.differ_iff {cv : OpenCv} (h : cv.Documented) {im other : Mat} (hcols : im.cols = other.cols)
    (hrows : im.rows = other.rows) : cv.countNonZero (cv.absdiff im other) > 0 ↔ Differ im other := by
  have hcount : nonZeros (cv.absdiff im other) = (pixels im).countP fun q => (cv.absdiff im other).px q != 0 := by
    unfold nonZeros pixels
    rw [h.absdiff_cols im other hcols hrows, h.absdiff_rows im other hcols hrows]
  rw [h.countNonZero, hcount, gt_iff_lt, List.countP_pos_iff]
  refine exists_congr fun q => ?_
  rw [mem_pixels]
  refine and_congr_right fun hq => ?_
  have hpx := h.absdiff_px im other hcols hrows q hq
  rw [bne_iff_ne, ← Int.natCast_ne_zero, hpx, abs_ne_zero, sub_ne_zero, Int.natCast_inj.ne]

/-- Fewer pixels are lit once one is put out. -/
theorem Below.nonZeros_lt {im other : Mat} (h : Below im other) {q : Point2i} (hq : other.Inside q)
    (hne : im.px q ≠ other.px q) : nonZeros im < nonZeros other := by
  have hzero : im.px q = 0 := (h.px q hq).resolve_left hne
  have hother : other.px q ≠ 0 := fun h0 => hne (hzero.trans h0.symm)
  obtain ⟨l, l', hl⟩ := List.append_of_mem (mem_pixels.2 hq)
  have hin : ∀ p, p ∈ l ∨ p ∈ l' → other.Inside p := by
    intro p hp
    apply mem_pixels.1
    rw [hl]
    rcases hp with hp | hp <;> simp [hp]
  have h1 := h.countP_le fun p hp => hin p (.inl hp)
  have h2 := h.countP_le fun p hp => hin p (.inr hp)
  unfold nonZeros
  rw [h.pixels, hl, List.countP_append, List.countP_append, List.countP_cons_of_neg (by simp [hzero]),
    List.countP_cons_of_pos (by simp [hother])]
  omega

/-- The image after a number of sub-iterations, none of which fails. -/
def afterPasses (im : Mat) : ℕ → Mat
  | 0 => im
  | n + 1 => thinned (afterPasses im n) ((n % 2 : ℕ) : Int)

theorem subIterations_eq (im : Mat) : ∀ n, subIterations im n = .ok (afterPasses im n)
  | 0 => rfl
  | n + 1 => by
    rw [subIterations, subIterations_eq im n]
    exact thinningIteration_eq _ _

theorem Binary.afterPasses {im : Mat} (h : Binary im) : ∀ n, Binary (afterPasses im n)
  | 0 => h
  | n + 1 => (Binary.afterPasses h n).thinned _

theorem afterPasses_two (im : Mat) (n : ℕ) :
    afterPasses im (2 * (n + 1)) = thinned (thinned (afterPasses im (2 * n)) 0) 1 := by
  have h0 : ((2 * n % 2 : ℕ) : Int) = 0 := by omega
  have h1 : (((2 * n + 1) % 2 : ℕ) : Int) = 1 := by omega
  rw [show 2 * (n + 1) = 2 * n + 1 + 1 by omega, afterPasses, afterPasses, h0, h1]

section Loop

variable {cv : OpenCv} (hcv : cv.Documented)

include hcv

theorem thinningStep_eq (s : ThinningState) :
    thinningStep cv s = if Differ (thinned (thinned s.im 0) 1) s.prev then
      .next ⟨thinned (thinned s.im 0) 1, thinned (thinned s.im 0) 1, rfl, rfl⟩ else .done (thinned (thinned s.im 0) 1) := by
  have hpasses : (do let im ← thinningIteration s.im 0; thinningIteration im 1) =
      .ok (thinned (thinned s.im 0) 1) := by
    rw [thinningIteration_eq]
    exact thinningIteration_eq _ _
  unfold thinningStep
  rw [hpasses]
  exact if_congr (hcv.differ_iff s.cols s.rows) rfl rfl

omit hcv

/-- Twice the pixels lit, and one more where the image differs from the one before. -/
def thinningMeasure (s : ThinningState) : ℕ := 2 * nonZeros s.im + if Differ s.im s.prev then 1 else 0

include hcv

theorem thinningStep_measure {s s' : ThinningState} (hs : Binary s.im) (h : thinningStep cv s = .next s') :
    s' = ⟨thinned (thinned s.im 0) 1, thinned (thinned s.im 0) 1, rfl, rfl⟩ ∧ thinningMeasure s' < thinningMeasure s := by
  rw [thinningStep_eq hcv] at h
  split at h
  · rename_i hdiff
    cases h
    refine ⟨rfl, ?_⟩
    have hbelow : Below (thinned (thinned s.im 0) 1) s.im :=
      (below_thinned (hs.thinned 0) 1).trans (below_thinned hs 0)
    have hsame : ¬Differ (thinned (thinned s.im 0) 1) (thinned (thinned s.im 0) 1) := by
      rintro ⟨q, -, hq⟩
      exact hq rfl
    unfold thinningMeasure
    simp only [if_neg hsame]
    split
    · have := hbelow.nonZeros_le
      omega
    · -- the image before was the one compared with, so a pixel of it is gone
      rename_i heq
      obtain ⟨q, hq, hne⟩ := hdiff
      have heq' : s.im.px q = s.prev.px q := by
        by_contra hne'
        exact heq ⟨q, hq, hne'⟩
      have := hbelow.nonZeros_lt hq (by rwa [heq'])
      omega
  · cases h

end Loop

/-- Two images of one size with the same pixels. -/
structure Agree (im other : Mat) : Prop where
  cols : im.cols = other.cols
  rows : im.rows = other.rows
  px : ∀ q, other.Inside q → im.px q = other.px q

theorem Agree.symm {im other : Mat} (h : Agree im other) : Agree other im where
  cols := h.cols.symm
  rows := h.rows.symm
  px q hq := (h.px q ((inside_congr h.cols h.rows).1 hq)).symm

/-- The rule reads inside the image only. -/
theorem Agree.marksAt {im other : Mat} (h : Agree im other) (iter : Int) {q : Point2i} (hq : Interior other q) :
    marksAt im iter q = marksAt other iter q := by
  unfold Interior at hq
  have hat : ∀ a b : Int, q.x - 1 ≤ a → a ≤ q.x + 1 → q.y - 1 ≤ b → b ≤ q.y + 1 → im.px ⟨a, b⟩ = other.px ⟨a, b⟩ := by
    intro a b h1 h2 h3 h4
    apply h.px
    simp only [Mat.Inside]
    omega
  unfold Preprocessor.marksAt
  simp (disch := omega) only [hat]

theorem Agree.thinned {im other : Mat} (h : Agree im other) (iter : Int) :
    Agree (thinned im iter) (thinned other iter) where
  cols := h.cols
  rows := h.rows
  px q hq := by
    have hmark : (Interior im q ∧ Preprocessor.marksAt im iter q = true) ↔
        Interior other q ∧ Preprocessor.marksAt other iter q = true := by
      rw [interior_congr h.cols h.rows]
      exact and_congr_right fun hq' => by rw [h.marksAt iter hq']
    simp only [Preprocessor.thinned, hmark, h.px q hq]

/-- Two sub-iterations change nothing. -/
def Steady (im : Mat) : Prop := Agree (thinned (thinned im 0) 1) im

theorem Agree.steady {im other : Mat} (h : Agree im other) (hs : Steady im) : Steady other where
  cols := rfl
  rows := rfl
  px q hq := by
    rw [← ((h.thinned 0).thinned 1).px q hq, hs.px q ((inside_congr h.cols h.rows).2 hq), h.px q hq]

/-- A black image stays black. -/
theorem steady_of_zero {im : Mat} (h : ∀ q, im.Inside q → im.px q = 0) : Steady im where
  cols := rfl
  rows := rfl
  px q hq := by
    have hbin : Binary im := fun p hp => .inl (h p hp)
    have hzero : (thinned im 0).px q = 0 := by
      rw [thinned_px hbin 0 hq, h q hq, ite_self]
    rw [thinned_px (hbin.thinned 0) 1 hq, hzero, ite_self, h q hq]

theorem Steady.two {im : Mat} (h : Steady im) : Steady (thinned (thinned im 0) 1) := h.symm.steady h

/-- The loop ends after an even number of sub-iterations, and two more would change nothing. -/
theorem thinning_ends {cv : OpenCv} (hcv : cv.Documented) {im : Mat} (h : Binary (scaleDown im)) : ∃ n,
    (∀ fuel, 2 * nonZeros (scaleDown im) + 1 < fuel →
      thinning cv fuel im = some (.ok (scaleUp (afterPasses (scaleDown im) (2 * n))))) ∧
    Steady (afterPasses (scaleDown im) (2 * n)) := by
  obtain ⟨s, hs⟩ : ∃ s : ThinningState, s = ⟨scaleDown im, .fresh im.cols im.rows 0, rfl, rfl⟩ := ⟨_, rfl⟩
  have hmeasure : thinningMeasure s < 2 * nonZeros (scaleDown im) + 2 := by
    subst hs
    unfold thinningMeasure
    split <;> simp only <;> omega
  -- the image is compared with the one before, in the first iteration with a black one
  obtain ⟨r, s', hrun, ⟨⟨n, hn⟩, hprev⟩, hdone⟩ := Loop.run_ok
    (I := fun s => (∃ n, s.im = afterPasses (scaleDown im) (2 * n)) ∧ (s.prev = s.im ∨ ∀ q, s.prev.px q = 0))
    thinningMeasure
    (fun s s' hs hnext => by
      obtain ⟨⟨n, hn⟩, -⟩ := hs
      obtain ⟨rfl, hlt⟩ := thinningStep_measure hcv (by rw [hn]; exact h.afterPasses _) hnext
      exact ⟨⟨⟨n + 1, by rw [afterPasses_two, ← hn]⟩, .inl rfl⟩, hlt⟩)
    (fun s e _ hfail => by
      rw [thinningStep_eq hcv] at hfail
      split at hfail <;> cases hfail)
    _ s ⟨⟨0, by subst hs; rfl⟩, .inr fun q => by subst hs; rfl⟩ hmeasure
  rw [thinningStep_eq hcv] at hdone
  split at hdone
  · cases hdone
  rename_i hsame
  cases hdone
  have hpx : ∀ q, (thinned (thinned s'.im 0) 1).Inside q → (thinned (thinned s'.im 0) 1).px q = s'.prev.px q := by
    intro q hq
    by_contra hne
    exact hsame ⟨q, hq, hne⟩
  have hr : afterPasses (scaleDown im) (2 * (n + 1)) = thinned (thinned s'.im 0) 1 := by
    rw [afterPasses_two, ← hn]
  refine ⟨n + 1, fun fuel hfuel => ?_, ?_⟩
  · rw [thinning, ← hs, Loop.run_mono hrun (by omega), hr]
    rfl
  · rw [hr]
    rcases hprev with hprev | hzero
    · have hsteady : Steady s'.im := ⟨rfl, rfl, fun q hq => by rw [hpx q hq, hprev]⟩
      exact hsteady.two
    · exact steady_of_zero fun q hq => by rw [hpx q hq, hzero]

/-- The loop ends after an even number of sub-iterations. -/
theorem thinning_run {cv : OpenCv} (hcv : cv.Documented) {im : Mat} (h : Binary (scaleDown im)) : ∃ n, ∀ fuel, 2 * nonZeros (scaleDown im) + 1 < fuel →
    thinning cv fuel im = some (.ok (scaleUp (afterPasses (scaleDown im) (2 * n)))) := by
  obtain ⟨n, hrun, -⟩ := thinning_ends hcv h
  exact ⟨n, hrun⟩

end DetailIdentifier.Preprocessor
