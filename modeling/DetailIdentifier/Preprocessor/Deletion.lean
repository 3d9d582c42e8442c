/-
Deleting pixels all at once by the rule of the first sub-iteration. The pixels deleted come in two
kinds: those with no pixel on the right or below (`Early`), and the others, upper left corners.
Taken out one after the other, the early ones row by row and then the corners, every pixel is
bypassed when its turn comes, unless it is the corner of a square that is deleted whole; so what is
left of a component is connected, unless the component is such a square (`connected_diff_deletable`).
-/
import DetailIdentifier.Lib.Grid

namespace DetailIdentifier.Preprocessor

open Grid

/-! ## The rule -/

/-- How often a ring goes from absent to present. -/
def transitions (m : Fin 8 → Bool) : ℕ := ((List.finRange 8).filter fun k => !m k && m (k + 1)).length

/-- The number of neighbours present. -/
def count (m : Fin 8 → Bool) : ℕ := ((List.finRange 8).filter fun k => m k).length

/-- The rule of the first sub-iteration. -/
def Deletable (m : Fin 8 → Bool) : Prop :=
  transitions m = 1 ∧ 2 ≤ count m ∧ count m ≤ 6 ∧ (m 2 = false ∨ m 4 = false ∨ m 0 = false ∧ m 6 = false)

instance : DecidablePred Deletable := fun m => by unfold Deletable; infer_instance

/-- No pixel on the right or below. -/
def Early (m : Fin 8 → Bool) : Prop := m 2 = false ∨ m 4 = false

instance : DecidablePred Early := fun m => by unfold Early; infer_instance

/-! ## Rings of deleted pixels -/

/-- An early pixel above a pixel. -/
theorem early_above : ∀ m, Deletable m → Early m → m 4 = true → m 2 = false ∧ (m 6 = true → m 5 = true) := by
  decide +kernel

/-- An early pixel to the left of a pixel. -/
theorem early_left : ∀ m, Deletable m → Early m → m 2 = true → m 4 = false ∧ (m 0 = true → m 1 = true) := by
  decide +kernel

/-- A corner is the upper left one. -/
theorem late_corner : ∀ m, Deletable m → ¬Early m →
    m 0 = false ∧ m 2 = true ∧ m 3 = true ∧ m 4 = true ∧ m 6 = false ∧ m 7 = false := by
  decide +kernel

/-- A deleted pixel to the right of a corner. -/
theorem right_of_corner : ∀ m, Deletable m → m 4 = true → m 5 = true → m 6 = true → m 7 = false →
    m 0 = false ∧ m 1 = false ∧ m 2 = false := by
  decide +kernel

/-- A deleted pixel below a corner. -/
theorem below_corner : ∀ m, Deletable m → m 0 = true → m 1 = true → m 2 = true → m 7 = false →
    m 4 = false ∧ m 5 = false ∧ m 6 = false := by
  decide +kernel

/-- A deleted pixel across from a corner, with nothing at the other two. -/
theorem across_corner : ∀ m, Deletable m → m 0 = true → m 6 = true → m 7 = true → m 1 = false → m 5 = false →
    m 2 = false ∧ m 3 = false ∧ m 4 = false := by
  decide +kernel

/-- Without early pixels that come before it, the neighbours of a deleted pixel hang together. -/
theorem threaded_early : ∀ m, Deletable m → ∀ d : Fin 8 → Bool,
    d 2 = false ∧ d 3 = false ∧ d 4 = false ∧ d 5 = false →
    (d 0 = true → m 1 = false ∧ (m 7 = true → m 6 = true)) →
    (d 6 = true → m 5 = false ∧ (m 7 = true → m 0 = true)) →
    (d 7 = true → m 0 = false ∨ m 6 = false) → Threaded fun k => m k && !d k := by
  decide +kernel

/-- Without deleted pixels, the neighbours of a corner hang together, unless its square is deleted. -/
theorem threaded_late : ∀ m, Deletable m → m 2 = true ∧ m 4 = true → ∀ d : Fin 8 → Bool,
    (d 2 = true → m 1 = false) → (d 4 = true → m 5 = false) → d 2 = false ∨ d 3 = false ∨ d 4 = false →
    Threaded fun k => m k && !d k := by
  decide +kernel

/-! ## Deleting from a component -/

section Deleting

variable {S C D : Set (ℤ × ℤ)} {p : ℤ × ℤ}

/-- Around a pixel of a component, the component's pixels are those of the set. -/
theorem ring_component_diff (hC : king.IsComponent S C) (hp : p ∈ C) (s : Set (ℤ × ℤ)) :
    ring (C \ s) p = fun k => ring S p k && !ring s p k := by
  funext k
  rw [Bool.eq_iff_iff, ring_eq_true, Bool.and_eq_true, Bool.not_eq_true', ring_eq_true, ring_eq_false, Set.mem_sdiff]
  refine and_congr_left fun _ => ⟨fun h => hC.subset h, fun h => hC.closed p hp _ h (king_adj_iff.2 ⟨k, rfl⟩)⟩

/-- A pixel seen from its neighbour. -/
theorem ring_back (hp : p ∈ S) {k l : Fin 8} (h : offset k + offset l = 0) : ring S (p + offset k) l = true := by
  rw [ring_eq_true, add_assoc, h, add_zero]
  exact hp

/-- An early pixel is bypassed once early pixels before it are gone. -/
theorem bypassed_early (hD : ∀ q ∈ D, Deletable (ring S q)) (hC : king.IsComponent S C) (hp : p ∈ C) (hpD : p ∈ D)
    {s : Set (ℤ × ℤ)} (hs : ∀ q ∈ s, q ∈ D ∧ Early (ring S q)) (hbefore : ∀ q ∈ s, toLex q ≤ toLex p) :
    king.Bypassed (C \ s) p := by
  apply Threaded.bypassed
  rw [ring_component_diff hC hp]
  have hpS := hC.subset hp
  have hmem : ∀ {k}, ring s p k = true → Deletable (ring S (p + offset k)) ∧ Early (ring S (p + offset k)) :=
    fun h => ⟨hD _ (hs _ (ring_eq_true.1 h)).1, (hs _ (ring_eq_true.1 h)).2⟩
  have hafter : ∀ k, toLex p < toLex (p + offset k) → ring s p k = false := fun k hk =>
    ring_eq_false.2 fun h => absurd (hbefore _ h) (not_le.2 hk)
  have hlt : ∀ a : ℤ × ℤ, toLex 0 < toLex a → toLex p < toLex (p + a) := by
    intro a ha
    rw [Prod.Lex.toLex_lt_toLex] at ha ⊢
    simp only [Prod.fst_zero, Prod.snd_zero, Prod.fst_add, Prod.snd_add] at ha ⊢
    omega
  refine threaded_early _ (hD p hpD) _ ⟨?_, ?_, ?_, ?_⟩ (fun h => ?_) (fun h => ?_) fun h => ?_
  · exact hafter 2 (hlt _ (by decide))
  · exact hafter 3 (hlt _ (by decide))
  · exact hafter 4 (hlt _ (by decide))
  · exact hafter 5 (hlt _ (by decide))
  · obtain ⟨hdel, hearly⟩ := hmem h
    have := early_above _ hdel hearly (ring_back hpS rfl)
    rwa [ring_offset S p (show offset 0 + offset 2 = offset 1 from rfl),
      ring_offset S p (show offset 0 + offset 6 = offset 7 from rfl),
      ring_offset S p (show offset 0 + offset 5 = offset 6 from rfl)] at this
  · obtain ⟨hdel, hearly⟩ := hmem h
    have := early_left _ hdel hearly (ring_back hpS rfl)
    rwa [ring_offset S p (show offset 6 + offset 4 = offset 5 from rfl),
      ring_offset S p (show offset 6 + offset 0 = offset 7 from rfl),
      ring_offset S p (show offset 6 + offset 1 = offset 0 from rfl)] at this
  · have := (hmem h).2
    rwa [Early, ring_offset S p (show offset 7 + offset 2 = offset 0 from rfl),
      ring_offset S p (show offset 7 + offset 4 = offset 6 from rfl)] at this

/-- What is around a corner's deleted neighbours. -/
theorem late_around (hD : ∀ q ∈ D, Deletable (ring S q)) (hpS : p ∈ S) (hpD : p ∈ D) (hlate : ¬Early (ring S p)) :
    (p + offset 2 ∈ D → ring S (p + offset 2) 0 = false ∧ ring S (p + offset 2) 1 = false ∧
      ring S (p + offset 2) 2 = false) ∧
    (p + offset 4 ∈ D → ring S (p + offset 4) 4 = false ∧ ring S (p + offset 4) 5 = false ∧
      ring S (p + offset 4) 6 = false) := by
  obtain ⟨m0, m2, m3, m4, m6, -⟩ := late_corner _ (hD p hpD) hlate
  refine ⟨fun h => right_of_corner _ (hD _ h) ?_ ?_ (ring_back hpS rfl) ?_,
    fun h => below_corner _ (hD _ h) (ring_back hpS rfl) ?_ ?_ ?_⟩
  · rw [ring_offset S p (show offset 2 + offset 4 = offset 3 from rfl), m3]
  · rw [ring_offset S p (show offset 2 + offset 5 = offset 4 from rfl), m4]
  · rw [ring_offset S p (show offset 2 + offset 7 = offset 0 from rfl), m0]
  · rw [ring_offset S p (show offset 4 + offset 1 = offset 2 from rfl), m2]
  · rw [ring_offset S p (show offset 4 + offset 2 = offset 3 from rfl), m3]
  · rw [ring_offset S p (show offset 4 + offset 7 = offset 6 from rfl), m6]

/-- Nothing touches a square that is deleted whole. -/
theorem square_closed (hD : ∀ q ∈ D, Deletable (ring S q)) (hpS : p ∈ S) (hpD : p ∈ D) (hlate : ¬Early (ring S p))
    (h2 : p + offset 2 ∈ D) (h3 : p + offset 3 ∈ D) (h4 : p + offset 4 ∈ D) : king.ClosedIn S (square p) := by
  obtain ⟨m0, m2, m3, m4, m6, m7⟩ := late_corner _ (hD p hpD) hlate
  obtain ⟨hright, hbelow⟩ := late_around hD hpS hpD hlate
  obtain ⟨r0, r1, r2⟩ := hright h2
  obtain ⟨b4, b5, b6⟩ := hbelow h4
  have m1 : ring S p 1 = false := by rw [← ring_offset S p (show offset 2 + offset 0 = offset 1 from rfl), r0]
  have m5 : ring S p 5 = false := by rw [← ring_offset S p (show offset 4 + offset 6 = offset 5 from rfl), b6]
  have a1 : ring S (p + offset 3) 1 = false := by
    rw [ring_congr S p (show offset 3 + offset 1 = offset 2 + offset 2 from rfl), r2]
  have a5 : ring S (p + offset 3) 5 = false := by
    rw [ring_congr S p (show offset 3 + offset 5 = offset 4 + offset 4 from rfl), b4]
  obtain ⟨a2, a3, a4⟩ := across_corner _ (hD _ h3)
    (by rw [ring_offset S p (show offset 3 + offset 0 = offset 2 from rfl), m2])
    (by rw [ring_offset S p (show offset 3 + offset 6 = offset 4 from rfl), m4]) (ring_back hpS rfl) a1 a5
  have r3 : ring S (p + offset 2) 3 = false := by
    rw [ring_congr S p (show offset 2 + offset 3 = offset 3 + offset 2 from rfl), a2]
  have r7 : ring S (p + offset 2) 7 = false := by
    rw [ring_offset S p (show offset 2 + offset 7 = offset 0 from rfl), m0]
  have b3 : ring S (p + offset 4) 3 = false := by
    rw [ring_congr S p (show offset 4 + offset 3 = offset 3 + offset 4 from rfl), a4]
  have b7 : ring S (p + offset 4) 7 = false := by
    rw [ring_offset S p (show offset 4 + offset 7 = offset 6 from rfl), m6]
  have hback : ∀ {k l : Fin 8}, offset k + offset l = 0 → p + offset k + offset l ∈ square p := fun h =>
    .inl (by rw [add_assoc, h, add_zero])
  have hside : ∀ {k l n : Fin 8}, offset k + offset l = offset n → n = 2 ∨ n = 3 ∨ n = 4 →
      p + offset k + offset l ∈ square p := by
    rintro k l n h (rfl | rfl | rfl)
    exacts [.inr (.inl (by rw [add_assoc, h])), .inr (.inr (.inl (by rw [add_assoc, h]))),
      .inr (.inr (.inr (by rw [add_assoc, h])))]
  rintro a - b hb hab haU
  obtain ⟨k, rfl⟩ := king_adj_iff.1 hab
  have hk := ring_eq_true.2 hb
  rcases haU with rfl | rfl | rfl | rfl
  · rcases among_three 2 m5 m6 m7 m0 m1 hk with rfl | rfl | rfl
    exacts [.inr (.inl rfl), .inr (.inr (.inl rfl)), .inr (.inr (.inr rfl))]
  · rcases among_three 4 r7 r0 r1 r2 r3 hk with rfl | rfl | rfl
    exacts [hside (show _ = offset 3 from rfl) (by decide), hside (show _ = offset 4 from rfl) (by decide),
      hback rfl]
  · rcases among_three 6 a1 a2 a3 a4 a5 hk with rfl | rfl | rfl
    exacts [hside (show _ = offset 4 from rfl) (by decide), hback rfl,
      hside (show _ = offset 2 from rfl) (by decide)]
  · rcases among_three 0 b3 b4 b5 b6 b7 hk with rfl | rfl | rfl
    exacts [hback rfl, hside (show _ = offset 2 from rfl) (by decide),
      hside (show _ = offset 3 from rfl) (by decide)]

/-- A corner is bypassed whatever other deleted pixels are gone, unless its square is the component. -/
theorem bypassed_late (hD : ∀ q ∈ D, Deletable (ring S q)) (hC : king.IsComponent S C) (hp : p ∈ C) (hpD : p ∈ D)
    (hlate : ¬Early (ring S p)) (hsq : ∀ q, C = square q → ¬C ⊆ D) {s : Set (ℤ × ℤ)} (hs : s ⊆ D) :
    king.Bypassed (C \ s) p := by
  apply Threaded.bypassed
  rw [ring_component_diff hC hp]
  have hpS := hC.subset hp
  obtain ⟨m0, m2, m3, m4, m6, m7⟩ := late_corner _ (hD p hpD) hlate
  obtain ⟨hright, hbelow⟩ := late_around hD hpS hpD hlate
  refine threaded_late _ (hD p hpD) ⟨m2, m4⟩ _ (fun h => ?_) (fun h => ?_) ?_
  · rw [← ring_offset S p (show offset 2 + offset 0 = offset 1 from rfl)]
    exact (hright (hs (ring_eq_true.1 h))).1
  · rw [← ring_offset S p (show offset 4 + offset 6 = offset 5 from rfl)]
    exact (hbelow (hs (ring_eq_true.1 h))).2.2
  by_contra hall
  simp only [not_or, Bool.not_eq_false, ring_eq_true] at hall
  obtain ⟨h2, h3, h4⟩ := hall
  -- the whole square is deleted, and nothing touches it
  have hclosed := square_closed hD hpS hpD hlate (hs h2) (hs h3) (hs h4)
  have hCsq : C = square p := by
    apply (hC.subset_of_mem hclosed hp (.inl rfl)).antisymm
    rintro q (rfl | rfl | rfl | rfl)
    · exact hp
    · exact hC.closed p hp _ (ring_eq_true.1 m2) (king_adj_iff.2 ⟨2, rfl⟩)
    · exact hC.closed p hp _ (ring_eq_true.1 m3) (king_adj_iff.2 ⟨3, rfl⟩)
    · exact hC.closed p hp _ (ring_eq_true.1 m4) (king_adj_iff.2 ⟨4, rfl⟩)
  apply hsq p hCsq
  rw [hCsq]
  rintro q (rfl | rfl | rfl | rfl)
  exacts [hpD, hs h2, hs h3, hs h4]

/-- Deleting at once what the rule allows leaves a component connected, unless it is a square that
is deleted whole. -/
theorem connected_diff_deletable (hfin : D.Finite) (hD : ∀ q ∈ D, Deletable (ring S q)) (hC : king.IsComponent S C)
    (hsq : ∀ q, C = square q → ¬C ⊆ D) : (king.induce (C \ D)).Connected := by
  classical
  obtain ⟨F, rfl⟩ := hfin.exists_finset_coe
  have hsplit : C \ (F : Set (ℤ × ℤ)) =
      (C \ ↑(F.filter fun q => Early (ring S q))) \ ↑(F.filter fun q => ¬Early (ring S q)) := by
    rw [Set.sdiff_sdiff, ← Finset.coe_union, Finset.filter_union_filter_not_eq]
  have hearly : (king.induce (C \ ↑(F.filter fun q => Early (ring S q)))).Connected :=
    SimpleGraph.connected_diff toLex _ hC.connected fun p hpF hpC s hs _ hmax =>
      bypassed_early hD hC hpC (Finset.mem_filter.1 hpF).1 (fun q hq => Finset.mem_filter.1 (hs hq)) hmax
  rw [hsplit]
  apply SimpleGraph.connected_diff toLex _ hearly
  intro p hpF hpC s hs _ _
  obtain ⟨hpF, hlate⟩ := Finset.mem_filter.1 hpF
  rw [Set.sdiff_sdiff, ← Finset.coe_union]
  apply bypassed_late hD hC hpC.1 hpF hlate hsq
  intro q hq
  rcases Finset.mem_union.1 hq with hq | hq
  exacts [(Finset.mem_filter.1 hq).1, (Finset.mem_filter.1 (hs hq)).1]

/-- The pixels around those of a component that is a square. -/
theorem ring_square (hC : king.IsComponent S (square p)) {a : ℤ × ℤ} (ha : p + a ∈ square p) :
    ring S (p + a) = fun k =>
      decide (a + offset k = 0 ∨ a + offset k = offset 2 ∨ a + offset k = offset 3 ∨ a + offset k = offset 4) := by
  funext k
  rw [Bool.eq_iff_iff, ring_eq_true, decide_eq_true_iff]
  have hmem : p + a + offset k ∈ S ↔ p + a + offset k ∈ square p :=
    ⟨fun h => hC.closed _ ha _ h (king_adj_iff.2 ⟨k, rfl⟩), fun h => hC.subset h⟩
  rw [hmem, add_assoc]
  simp only [square, Set.mem_ofPred_eq, add_right_inj, add_eq_left]

/-- A component that is a square may be deleted whole. -/
theorem square_deletable (hC : king.IsComponent S (square p)) : ∀ q ∈ square p, Deletable (ring S q) := by
  have hring : ∀ a, p + a ∈ square p → Deletable (fun k =>
      decide (a + offset k = 0 ∨ a + offset k = offset 2 ∨ a + offset k = offset 3 ∨ a + offset k = offset 4)) →
      Deletable (ring S (p + a)) := fun a ha h => by rwa [ring_square hC ha]
  intro q hq
  have hq' := hq
  rcases hq' with h | rfl | rfl | rfl
  · have h0 := hring 0 (.inl (add_zero p)) (by decide +kernel)
    rw [add_zero] at h0
    rwa [h]
  · exact hring _ hq (by decide +kernel)
  · exact hring _ hq (by decide +kernel)
  · exact hring _ hq (by decide +kernel)

/-! ## Either sub-iteration -/

/-- The ring as sub-iteration `iter` looks at it: the second starts at the other side. -/
def facing (iter : ℤ) (m : Fin 8 → Bool) : Fin 8 → Bool := if iter = 0 then m else fun k => m (k + 4)

theorem facing_turn {iter : ℤ} (h : iter ≠ 0) (T : Set (ℤ × ℤ)) (q : ℤ × ℤ) :
    facing iter (ring T q) = ring (Set.preimage turn T) (-q) := by
  funext k
  rw [facing, if_neg h, ring_turn]

theorem turn_turn (T : Set (ℤ × ℤ)) : Set.preimage turn (Set.preimage turn T) = T := by
  ext q
  simp

/-- What is left of a component by either sub-iteration is connected, unless it is a square that is
deleted whole. -/
theorem connected_diff_facing (iter : ℤ) (hfin : D.Finite) (hD : ∀ q ∈ D, Deletable (facing iter (ring S q)))
    (hC : king.IsComponent S C) (hsq : ∀ q, C = square q → ¬C ⊆ D) : (king.induce (C \ D)).Connected := by
  by_cases h : iter = 0
  · simp only [facing, if_pos h] at hD
    exact connected_diff_deletable hfin hD hC hsq
  · -- half a turn takes the second sub-iteration to the first
    have hturned : (king.induce (Set.preimage turn C \ Set.preimage turn D)).Connected := by
      refine connected_diff_deletable (hfin.preimage turn.injective.injOn) (fun q hq => ?_) (hC.preimage turn) ?_
      · have hq' := hD _ hq
        rwa [facing_turn h, turn_apply, neg_neg] at hq'
      · intro q hq hsub
        refine hsq (-(q + offset 3)) ?_ fun r hr => ?_
        · rw [← square_turn, ← hq, turn_turn]
        · have hr' : turn r ∈ Set.preimage turn C := by simpa using hr
          simpa using hsub hr'
    rw [← Set.preimage_sdiff] at hturned
    have := SimpleGraph.induce_connected_preimage turn hturned
    rwa [turn_turn] at this

theorem square_facing (iter : ℤ) (hC : king.IsComponent S (square p)) :
    ∀ q ∈ square p, Deletable (facing iter (ring S q)) := by
  intro q hq
  by_cases h : iter = 0
  · rw [facing, if_pos h]
    exact square_deletable hC q hq
  · rw [facing_turn h]
    have hturned := hC.preimage turn
    rw [square_turn] at hturned
    apply square_deletable hturned
    rw [← square_turn]
    simpa using hq

end Deleting

end DetailIdentifier.Preprocessor
