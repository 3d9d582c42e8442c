/-
Pixels and their eight neighbours. Of a set of pixels, the ring of a pixel says which of its
neighbours are in it, clockwise from the one above (`ring`). A pixel can be taken out of a connected
set when, going round its ring, every neighbour but the first touches an earlier one
(`Threaded.bypassed`).
-/
import DetailIdentifier.Lib.Removal

namespace Grid

/-! ## Neighbours -/

/-- A king's moves: pixels that share a side or a corner. -/
def king : SimpleGraph (ℤ × ℤ) where
  Adj a b := a ≠ b ∧ |a.1 - b.1| ≤ 1 ∧ |a.2 - b.2| ≤ 1
  symm := ⟨fun a b h => ⟨h.1.symm, by rw [abs_sub_comm]; exact h.2.1, by rw [abs_sub_comm]; exact h.2.2⟩⟩
  loopless := ⟨fun _ h => h.1 rfl⟩

instance : DecidableRel king.Adj := fun a b => by unfold king; infer_instance

/-- There is a position on a ring of eight. -/
instance neZero_eight : NeZero (8 : ℕ) := ⟨by decide⟩

/-- The ways to the neighbours, by row and column, clockwise from the one above. -/
def offset : Fin 8 → ℤ × ℤ
  | 0 => (-1, 0)
  | 1 => (-1, 1)
  | 2 => (0, 1)
  | 3 => (1, 1)
  | 4 => (1, 0)
  | 5 => (1, -1)
  | 6 => (0, -1)
  | 7 => (-1, -1)

theorem offset_opposite : ∀ k, offset (k + 4) = -offset k := by decide

theorem king_adj_offset : ∀ k, king.Adj 0 (offset k) := by decide

theorem king_adj_add (p a b : ℤ × ℤ) : king.Adj (p + a) (p + b) ↔ king.Adj a b := by
  simp only [king, Prod.fst_add, Prod.snd_add, add_sub_add_left_eq_sub, ne_eq, add_right_inj]

/-- The moves are the eight offsets. -/
theorem exists_offset {a : ℤ × ℤ} (h : king.Adj 0 a) : ∃ k, a = offset k := by
  obtain ⟨hne, h1, h2⟩ := h
  obtain ⟨i, j⟩ := a
  have hi : i = -1 ∨ i = 0 ∨ i = 1 := by
    rw [abs_le] at h1
    simp only [Prod.fst_zero] at h1
    omega
  have hj : j = -1 ∨ j = 0 ∨ j = 1 := by
    rw [abs_le] at h2
    simp only [Prod.snd_zero] at h2
    omega
  rcases hi with rfl | rfl | rfl <;> rcases hj with rfl | rfl | rfl
  exacts [⟨7, rfl⟩, ⟨0, rfl⟩, ⟨1, rfl⟩, ⟨6, rfl⟩, absurd rfl hne, ⟨2, rfl⟩, ⟨5, rfl⟩, ⟨4, rfl⟩, ⟨3, rfl⟩]

theorem king_adj_iff {p q : ℤ × ℤ} : king.Adj p q ↔ ∃ k, q = p + offset k := by
  constructor
  · intro h
    rw [← add_zero p, ← add_sub_cancel p q, king_adj_add] at h
    obtain ⟨k, hk⟩ := exists_offset h
    exact ⟨k, by rw [← hk, add_sub_cancel]⟩
  · rintro ⟨k, rfl⟩
    have h := (king_adj_add p 0 (offset k)).2 (king_adj_offset k)
    rwa [add_zero] at h

/-- Turning the grid by half a turn. -/
def turn : king ≃g king where
  toEquiv := Equiv.neg _
  map_rel_iff' := by
    intro a b
    simp only [Equiv.neg_apply, king, Prod.fst_neg, Prod.snd_neg, ne_eq, neg_inj, neg_sub_neg, abs_sub_comm]

@[simp] theorem turn_apply (p : ℤ × ℤ) : turn p = -p := rfl

/-! ## Rings -/

open Classical in
/-- Which neighbours of a pixel are in `T`. -/
noncomputable def ring (T : Set (ℤ × ℤ)) (p : ℤ × ℤ) : Fin 8 → Bool := fun k => decide (p + offset k ∈ T)

theorem ring_eq_true {T : Set (ℤ × ℤ)} {p : ℤ × ℤ} {k : Fin 8} : ring T p k = true ↔ p + offset k ∈ T := by
  simp [ring]

theorem ring_eq_false {T : Set (ℤ × ℤ)} {p : ℤ × ℤ} {k : Fin 8} : ring T p k = false ↔ p + offset k ∉ T := by
  simp [ring]

/-- Rings that read the same pixel. -/
theorem ring_congr (T : Set (ℤ × ℤ)) (p : ℤ × ℤ) {a b : ℤ × ℤ} {k l : Fin 8} (h : a + offset k = b + offset l) :
    ring T (p + a) k = ring T (p + b) l := by
  rw [Bool.eq_iff_iff, ring_eq_true, ring_eq_true, add_assoc, h, add_assoc]

theorem ring_offset (T : Set (ℤ × ℤ)) (p : ℤ × ℤ) {k l m : Fin 8} (h : offset k + offset l = offset m) :
    ring T (p + offset k) l = ring T p m := by
  rw [ring_congr T p (h.trans (zero_add _).symm), add_zero]

/-- With five neighbours in a row absent, the others are the three after them. -/
theorem among_three {m : Fin 8 → Bool} (c : Fin 8) (h3 : m (c + 3) = false) (h4 : m (c + 4) = false)
    (h5 : m (c + 5) = false) (h6 : m (c + 6) = false) (h7 : m (c + 7) = false) {k : Fin 8} (hk : m k = true) :
    k = c ∨ k = c + 1 ∨ k = c + 2 := by
  have hall : ∀ c k : Fin 8, k = c ∨ k = c + 1 ∨ k = c + 2 ∨ k = c + 3 ∨ k = c + 4 ∨ k = c + 5 ∨ k = c + 6 ∨ k = c + 7 := by
    decide
  rcases hall c k with h | h | h | rfl | rfl | rfl | rfl | rfl
  · exact .inl h
  · exact .inr (.inl h)
  · exact .inr (.inr h)
  all_goals simp_all

/-- After half a turn a ring starts at the other side. -/
theorem ring_turn (T : Set (ℤ × ℤ)) (p : ℤ × ℤ) (k : Fin 8) :
    ring (Set.preimage turn T) (-p) k = ring T p (k + 4) := by
  rw [Bool.eq_iff_iff, ring_eq_true, ring_eq_true, Set.mem_preimage, turn_apply, neg_add, neg_neg, offset_opposite]

/-- Going round from some neighbour, every other one touches an earlier one. -/
def Threaded (m : Fin 8 → Bool) : Prop :=
  ∃ k, m k = true ∧ ∀ j, m (k + j) = true → j = 0 ∨ ∃ i < j, m (k + i) = true ∧ king.Adj (offset (k + i)) (offset (k + j))

instance : DecidablePred Threaded := fun m => by unfold Threaded; infer_instance

/-- No closed part of the other pixels parts the neighbours of a pixel with a threaded ring. -/
theorem Threaded.bypassed {T : Set (ℤ × ℤ)} {p : ℤ × ℤ} (h : Threaded (ring T p)) : king.Bypassed T p := by
  obtain ⟨k, hk, hround⟩ := h
  refine ⟨⟨p + offset k, ring_eq_true.1 hk, king_adj_iff.2 ⟨k, rfl⟩⟩, fun U hU a ha b hb hpa hpb haU => ?_⟩
  have hne : ∀ l, p + offset l ≠ p := fun l h => (king_adj_iff.2 ⟨l, rfl⟩ : king.Adj p _).ne h.symm
  -- along the way round, all neighbours are on the side of the first
  have hside : ∀ j, ring T p (k + j) = true → (p + offset (k + j) ∈ U ↔ p + offset k ∈ U) := by
    intro j
    induction j using WellFoundedLT.induction with
    | _ j ih =>
      intro hj
      rcases hround j hj with rfl | ⟨i, hij, hi, hadj⟩
      · rw [add_zero]
      · have hadj' := (king_adj_add p _ _).2 hadj
        have hiT : p + offset (k + i) ∈ T \ {p} := ⟨ring_eq_true.1 hi, hne _⟩
        have hjT : p + offset (k + j) ∈ T \ {p} := ⟨ring_eq_true.1 hj, hne _⟩
        rw [← ih i hij hi]
        exact ⟨hU _ hjT _ hiT hadj'.symm, hU _ hiT _ hjT hadj'⟩
  obtain ⟨l, rfl⟩ := king_adj_iff.1 hpa
  obtain ⟨l', rfl⟩ := king_adj_iff.1 hpb
  have hl := hside (l - k) (by rw [add_sub_cancel]; exact ring_eq_true.2 ha)
  have hl' := hside (l' - k) (by rw [add_sub_cancel]; exact ring_eq_true.2 hb)
  rw [add_sub_cancel] at hl hl'
  exact hl'.2 (hl.1 haU)

/-! ## Squares -/

/-- Four pixels about a corner, by the upper left one. -/
def square (p : ℤ × ℤ) : Set (ℤ × ℤ) := {q | q = p ∨ q = p + offset 2 ∨ q = p + offset 3 ∨ q = p + offset 4}

/-- Any two pixels of a square are neighbours. -/
theorem square_adj {p a b : ℤ × ℤ} (ha : a ∈ square p) (hb : b ∈ square p) (hab : a ≠ b) : king.Adj a b := by
  have hadj : ∀ {k l}, offset k ≠ offset l → king.Adj (offset k) (offset l) → king.Adj (p + offset k) (p + offset l) :=
    fun _ h => (king_adj_add p _ _).2 h
  rcases ha with rfl | rfl | rfl | rfl <;> rcases hb with rfl | rfl | rfl | rfl <;>
    first
      | exact absurd rfl hab
      | exact king_adj_iff.2 ⟨_, rfl⟩
      | exact (king_adj_iff.2 ⟨_, rfl⟩ : king.Adj _ _).symm
      | exact hadj (by decide) (by decide)

theorem square_connected (p : ℤ × ℤ) : (king.induce (square p)).Connected := by
  refine king.induce_connected_iff.2 ⟨⟨p, .inl rfl⟩, fun U hU a ha b hb haU => ?_⟩
  by_cases hab : a = b
  · exact hab ▸ haU
  · exact hU a ha b hb (square_adj ha hb hab) haU

theorem square_turn (p : ℤ × ℤ) : Set.preimage turn (square p) = square (-(p + offset 3)) := by
  ext q
  have h3 : ∀ a : ℤ × ℤ, -q = a ↔ q = -a := fun a => neg_eq_iff_eq_neg
  have e2 : -(p + offset 2) = -(p + offset 3) + offset 4 := by ext <;> simp [offset]
  have e4 : -(p + offset 4) = -(p + offset 3) + offset 2 := by ext <;> simp [offset]
  have e0 : -p = -(p + offset 3) + offset 3 := by ext <;> simp [offset]
  simp only [Set.mem_preimage, turn_apply, square, Set.mem_ofPred_eq, h3, e2, e4, e0]
  tauto

end Grid
