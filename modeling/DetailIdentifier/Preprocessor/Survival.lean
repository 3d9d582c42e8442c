/-
What thinning leaves of the components of a drawing. A sub-iteration leaves a component in one
piece, or deletes it if it is a square of four pixels off the border (`thinned_component`); so a
component survives in one piece unless what was left of it was such a square at the start of some
sub-iteration (`thinning_components`).
-/
import DetailIdentifier.Preprocessor.Deletion
import DetailIdentifier.Preprocessor.Thinning

namespace DetailIdentifier.Preprocessor

open Grid Vectorizer

/-! ## The rule on rings -/

theorem marks_zero : ∀ m : Fin 8 → Bool, marks 0 (m 0).toNat (m 1).toNat (m 2).toNat (m 3).toNat (m 4).toNat
    (m 5).toNat (m 6).toNat (m 7).toNat = true ↔ Deletable m := by
  decide +kernel

theorem marks_one : ∀ m : Fin 8 → Bool, marks 1 (m 0).toNat (m 1).toNat (m 2).toNat (m 3).toNat (m 4).toNat
    (m 5).toNat (m 6).toNat (m 7).toNat = true ↔ Deletable fun k => m (k + 4) := by
  decide +kernel

theorem marks_iff (iter : ℤ) (m : Fin 8 → Bool) : marks iter (m 0).toNat (m 1).toNat (m 2).toNat (m 3).toNat
    (m 4).toNat (m 5).toNat (m 6).toNat (m 7).toNat = true ↔ Deletable (facing iter m) := by
  by_cases h : iter = 0
  · rw [h, marks_zero, facing, if_pos rfl]
  · have hone : marks iter = marks 1 := by
      unfold marks
      simp only [if_neg h, one_ne_zero, if_false]
    rw [hone, marks_one, facing, if_neg h]

/-! ## Levels -/

/-- The pixels with value `v`, by row and column. -/
def level (im : Mat) (v : ℕ) : Set (ℤ × ℤ) := {q | im.Inside ⟨q.2, q.1⟩ ∧ im.px ⟨q.2, q.1⟩ = v}

/-- The bytes around a pixel are its ring. -/
theorem byte_ring {im : Mat} (h : Binary im) {i j : ℤ} (hin : Interior im ⟨j, i⟩) (k : Fin 8) :
    im.px ⟨j + (offset k).2, i + (offset k).1⟩ = (ring (level im 1) (i, j) k).toNat := by
  have hoff : ∀ k, -1 ≤ (offset k).1 ∧ (offset k).1 ≤ 1 ∧ -1 ≤ (offset k).2 ∧ (offset k).2 ≤ 1 := by decide
  have hk := hoff k
  have hinside : im.Inside ⟨j + (offset k).2, i + (offset k).1⟩ := by
    simp only [Interior] at hin
    simp only [Mat.Inside]
    omega
  rcases h _ hinside with h0 | h1
  · have : ring (level im 1) (i, j) k = false := ring_eq_false.2 fun hmem => by
      have h1 : im.px ⟨j + (offset k).2, i + (offset k).1⟩ = 1 := hmem.2
      omega
    rw [h0, this]
    rfl
  · have : ring (level im 1) (i, j) k = true := ring_eq_true.2 ⟨hinside, h1⟩
    rw [h1, this]
    rfl

theorem marksAt_iff {im : Mat} (h : Binary im) (iter : ℤ) {i j : ℤ} (hin : Interior im ⟨j, i⟩) :
    marksAt im iter ⟨j, i⟩ = true ↔ Deletable (facing iter (ring (level im 1) (i, j))) := by
  have hbytes := byte_ring h hin
  rw [← marks_iff, ← hbytes, ← hbytes, ← hbytes, ← hbytes, ← hbytes, ← hbytes, ← hbytes, ← hbytes]
  simp [marksAt, offset, sub_eq_add_neg]

/-- What a sub-iteration deletes. -/
def deleted (im : Mat) (iter : ℤ) : Set (ℤ × ℤ) :=
  {q | Interior im ⟨q.2, q.1⟩ ∧ Deletable (facing iter (ring (level im 1) q))}

theorem deleted_finite (im : Mat) (iter : ℤ) : (deleted im iter).Finite := by
  apply (Set.finite_Icc (1, 1) ((im.rows : ℤ) - 2, (im.cols : ℤ) - 2)).subset
  rintro q ⟨⟨h1, h2, h3, h4⟩, -⟩
  exact ⟨⟨h1, h3⟩, ⟨h2, h4⟩⟩

theorem level_thinned {im : Mat} (h : Binary im) (iter : ℤ) :
    level (thinned im iter) 1 = level im 1 \ deleted im iter := by
  ext ⟨i, j⟩
  have hdel : (i, j) ∈ deleted im iter ↔ Interior im ⟨j, i⟩ ∧ marksAt im iter ⟨j, i⟩ = true := by
    apply and_congr_right
    intro hin
    exact (marksAt_iff h iter hin).symm
  rw [Set.mem_sdiff, hdel]
  simp only [level, Set.mem_ofPred_eq]
  constructor
  · rintro ⟨hin, hpx⟩
    have hin' : im.Inside ⟨j, i⟩ := hin
    rw [thinned_px h iter hin'] at hpx
    split at hpx
    · cases hpx
    · exact ⟨⟨hin', hpx⟩, ‹_›⟩
  · rintro ⟨⟨hin, hpx⟩, hno⟩
    exact ⟨hin, by rw [thinned_px h iter hin, if_neg hno, hpx]⟩

/-! ## Components -/

/-- A square of four pixels off the border. -/
def InnerSquare (im : Mat) (T : Set (ℤ × ℤ)) : Prop := ∃ p, T = square p ∧ ∀ q ∈ T, Interior im ⟨q.2, q.1⟩

/-- A sub-iteration deletes an inner square and leaves every other component in one piece. -/
theorem thinned_component {im : Mat} (h : Binary im) (iter : ℤ) {C : Set (ℤ × ℤ)}
    (hC : king.IsComponent (level im 1) C) :
    (InnerSquare im C → C ∩ level (thinned im iter) 1 = ∅) ∧
    (¬InnerSquare im C → king.IsComponent (level (thinned im iter) 1) (C ∩ level (thinned im iter) 1)) := by
  have hleft : C ∩ level (thinned im iter) 1 = C \ deleted im iter := by
    rw [level_thinned h, ← Set.inter_sdiff_assoc, Set.inter_eq_left.2 hC.subset]
  rw [hleft]
  constructor
  · rintro ⟨p, rfl, hin⟩
    exact Set.sdiff_eq_empty.2 fun q hq => ⟨hin q hq, square_facing iter hC q hq⟩
  · intro hsq
    refine ⟨?_, ?_, ?_⟩
    · rw [← hleft]
      exact Set.inter_subset_right
    · refine connected_diff_facing iter (deleted_finite im iter) (fun q hq => hq.2) hC fun p hp hsub => ?_
      exact hsq ⟨p, hp, fun q hq => (hsub hq).1⟩
    · rintro a ha b hb hab
      rw [level_thinned h] at hb
      exact ⟨hC.closed a ha.1 b hb.1 hab, hb.2⟩

/-- After any number of sub-iterations a component is in one piece if what was left of it was never
an inner square, and gone if it was. -/
theorem afterPasses_component {im : Mat} (h : Binary im) {C : Set (ℤ × ℤ)} (hC : king.IsComponent (level im 1) C) :
    ∀ n, ((∀ k < n, ¬InnerSquare (afterPasses im k) (C ∩ level (afterPasses im k) 1)) ∧
        king.IsComponent (level (afterPasses im n) 1) (C ∩ level (afterPasses im n) 1)) ∨
      (∃ k < n, InnerSquare (afterPasses im k) (C ∩ level (afterPasses im k) 1)) ∧
        C ∩ level (afterPasses im n) 1 = ∅
  | 0 => by
    refine .inl ⟨fun k hk => absurd hk (Nat.not_lt_zero k), ?_⟩
    show king.IsComponent (level im 1) (C ∩ level im 1)
    rwa [Set.inter_eq_left.2 hC.subset]
  | n + 1 => by
    have hbin := h.afterPasses n
    have hsub : level (afterPasses im (n + 1)) 1 ⊆ level (afterPasses im n) 1 := by
      rw [afterPasses, level_thinned hbin]
      exact Set.sdiff_subset
    have hinter : C ∩ level (afterPasses im (n + 1)) 1 =
        C ∩ level (afterPasses im n) 1 ∩ level (afterPasses im (n + 1)) 1 := by
      rw [Set.inter_assoc, Set.inter_eq_right.2 hsub]
    rcases afterPasses_component h hC n with ⟨hnone, hcomp⟩ | ⟨⟨k, hk, hsq⟩, hempty⟩
    · obtain ⟨hgone, hpiece⟩ := thinned_component hbin ((n % 2 : ℕ) : ℤ) hcomp
      by_cases hsq : InnerSquare (afterPasses im n) (C ∩ level (afterPasses im n) 1)
      · exact .inr ⟨⟨n, Nat.lt_succ_self n, hsq⟩, by rw [hinter]; exact hgone hsq⟩
      · refine .inl ⟨fun k hk => ?_, by rw [hinter]; exact hpiece hsq⟩
        rcases Nat.lt_succ_iff_lt_or_eq.1 hk with hk | rfl
        exacts [hnone k hk, hsq]
    · exact .inr ⟨⟨k, Nat.lt_succ_of_lt hk, hsq⟩, by rw [hinter, hempty, Set.empty_inter]⟩

/-! ## The whole run -/

/-- The bytes inside the image are 0 and 255. -/
def BlackWhite (im : Mat) : Prop := ∀ q, im.Inside q → im.px q = 0 ∨ im.px q = 255

theorem BlackWhite.scaleDown {im : Mat} (h : BlackWhite im) :
    Binary (scaleDown im) ∧ level (scaleDown im) 1 = level im 255 := by
  have hpx : ∀ q, im.Inside q → (Preprocessor.scaleDown im).px q = 0 ∧ im.px q = 0 ∨
      (Preprocessor.scaleDown im).px q = 1 ∧ im.px q = 255 := by
    intro q hq
    rcases h q hq with h | h <;> simp [Preprocessor.scaleDown, mapBytes, h]
  refine ⟨fun q hq => (hpx q hq).imp And.left And.left, Set.ext fun q => and_congr_right fun hq => ?_⟩
  rcases hpx _ hq with ⟨h1, h2⟩ | ⟨h1, h2⟩ <;> simp [h1, h2]

theorem level_scaleUp {im : Mat} (h : Binary im) : level (scaleUp im) 255 = level im 1 := by
  refine Set.ext fun q => and_congr_right fun hq => ?_
  rcases h _ hq with h | h <;> simp [scaleUp, mapBytes, h]

/-- Thinning leaves nothing or one piece of every component, and nothing exactly when what was left
of it was an inner square at the start of some sub-iteration. -/
theorem thinning_components {cv : OpenCv} (hcv : cv.Documented) (im : Mat) (h : BlackWhite im) : ∃ n thin,
    subIterations (scaleDown im) n = .ok thin ∧
    (∀ fuel, 2 * nonZeros (scaleDown im) + 1 < fuel → thinning cv fuel im = some (.ok (scaleUp thin))) ∧
    ∀ C, king.IsComponent (level im 255) C →
      (C ∩ level (scaleUp thin) 255 = ∅ ∨
        king.IsComponent (level (scaleUp thin) 255) (C ∩ level (scaleUp thin) 255)) ∧
      ((C ∩ level (scaleUp thin) 255).Nonempty ↔
        ∀ k < n, ∀ m, subIterations (scaleDown im) k = .ok m → ¬InnerSquare m (C ∩ level m 1)) := by
  obtain ⟨hbin, hlevel⟩ := h.scaleDown
  obtain ⟨n, hrun⟩ := thinning_run hcv hbin
  refine ⟨2 * n, _, subIterations_eq _ _, hrun, fun C hC => ?_⟩
  rw [level_scaleUp (hbin.afterPasses _)]
  rw [← hlevel] at hC
  rcases afterPasses_component hbin hC (2 * n) with ⟨hnone, hcomp⟩ | ⟨⟨k, hk, hsq⟩, hempty⟩
  · refine ⟨.inr hcomp, fun _ k hk m hm => ?_, fun _ => hcomp.nonempty⟩
    rw [subIterations_eq] at hm
    cases hm
    exact hnone k hk
  · refine ⟨.inl hempty, fun hne => absurd hempty hne.ne_empty, fun hnone => ?_⟩
    exact absurd hsq (hnone k hk _ (subIterations_eq _ _))

/-- OpenCV on images that its filters leave as they are. -/
def elementwise : OpenCv where
  absdiff := zipBytes fun v w => (v - w) + (w - v)
  countNonZero := nonZeros
  threshold thresh maxval := mapBytes fun v => if v > thresh then maxval else 0
  bitwiseNot := mapBytes fun v => 255 - v
  medianBlur _ im := im
  morphOpen _ im := im
  dilate _ im := im
  erode _ im := im

theorem elementwise_documented : elementwise.Documented where
  absdiff_cols _ _ _ _ := rfl
  absdiff_rows _ _ _ _ := rfl
  absdiff_px a b _ _ q _ := by
    simp only [elementwise, zipBytes, Int.abs_eq_natAbs]
    omega
  countNonZero _ := rfl
  threshold _ _ _ := ⟨rfl, rfl, fun _ _ => rfl⟩
  bitwiseNot _ := ⟨rfl, rfl, fun _ _ => rfl⟩

/-- A square of four pixels in the middle of an image. -/
def block : Mat := ⟨4, 4, fun q => if (q.x = 1 ∨ q.x = 2) ∧ (q.y = 1 ∨ q.y = 2) then 255 else 0⟩

theorem block_blackWhite : BlackWhite block := by
  intro q _
  simp only [block]
  split
  exacts [.inr rfl, .inl rfl]

theorem thinning_components_block : ∃ n thin,
    subIterations (scaleDown block) n = .ok thin ∧
    (∀ fuel, 2 * nonZeros (scaleDown block) + 1 < fuel → thinning elementwise fuel block = some (.ok (scaleUp thin))) ∧
    ∀ C, king.IsComponent (level block 255) C →
      (C ∩ level (scaleUp thin) 255 = ∅ ∨
        king.IsComponent (level (scaleUp thin) 255) (C ∩ level (scaleUp thin) 255)) ∧
      ((C ∩ level (scaleUp thin) 255).Nonempty ↔
        ∀ k < n, ∀ m, subIterations (scaleDown block) k = .ok m → ¬InnerSquare m (C ∩ level m 1)) :=
  thinning_components elementwise_documented block block_blackWhite

/-- The block is a component, and thinning leaves nothing of it. -/
theorem block_vanishes : BlackWhite block ∧ king.IsComponent (level block 255) (level block 255) ∧
    ∃ out, thinning elementwise 10 block = some (.ok out) ∧ level block 255 ∩ level out 255 = ∅ := by
  have hlevel : level block 255 = square (1, 1) := by
    ext ⟨i, j⟩
    simp [level, block, Mat.Inside, square, offset]
    omega
  refine ⟨block_blackWhite, ⟨subset_rfl, ?_, fun _ _ b hb _ => hb⟩, ?_⟩
  · rw [hlevel]
    exact square_connected _
  · have hdark : (thinning elementwise 10 block).map (Except.map fun m => (pixels m).map m.px) =
        some (.ok (List.replicate 16 0)) := by decide +kernel
    rcases hrun : thinning elementwise 10 block with _ | (_ | out)
    · rw [hrun] at hdark
      cases hdark
    · rw [hrun] at hdark
      cases hdark
    · rw [hrun] at hdark
      refine ⟨out, rfl, Set.eq_empty_of_forall_notMem fun q hq => ?_⟩
      have hout : (pixels out).map out.px = List.replicate 16 0 := Except.ok.inj (Option.some.inj hdark)
      have hmem := List.mem_map_of_mem (f := out.px) (mem_pixels.2 hq.2.1)
      rw [hout, List.mem_replicate, hq.2.2] at hmem
      omega

end DetailIdentifier.Preprocessor
