/-
The label image of the vectorizer: `cv::Mat` with checked `at<int>` access, and
`seed_neighborhood`, which never leaves the image and fills exactly the part of its square that
lies inside (`seedNeighborhood_eq`).
-/
import DetailIdentifier.Types

namespace DetailIdentifier.Vectorizer

/-! ## Images -/

/-- `cv::Mat` of type `CV_32SC1`; the labels written are counters, never negative. -/
structure Mat where
  cols : ℕ
  rows : ℕ
  px : Point2i → ℕ

namespace Mat

variable (m : Mat)

/-- `cv::Mat(size, CV_32SC1, cv::Scalar(value))`. -/
def fresh (cols rows value : ℕ) : Mat := ⟨cols, rows, fun _ => value⟩

def Inside (q : Point2i) : Prop := 0 ≤ q.x ∧ q.x < m.cols ∧ 0 ≤ q.y ∧ q.y < m.rows

instance (q : Point2i) : Decidable (m.Inside q) := by unfold Inside; infer_instance

/-- Reading `at<int>(q)`. -/
def get (q : Point2i) : Except Fault ℕ := if m.Inside q then .ok (m.px q) else .error .outOfRange

/-- Writing `at<int>(q)`. -/
def set (q : Point2i) (value : ℕ) : Except Fault Mat :=
  if m.Inside q then .ok { m with px := Function.update m.px q value } else .error .outOfRange

/-- The image with `value` on the pixels of `S`. -/
def fill (S : Point2i → Prop) [DecidablePred S] (value : ℕ) : Mat :=
  { m with px := fun q => if S q then value else m.px q }

variable {m}

theorem get_inside {q : Point2i} (h : m.Inside q) : m.get q = .ok (m.px q) := if_pos h

theorem set_inside {q : Point2i} (h : m.Inside q) (value : ℕ) : m.set q value = .ok (m.fill (· = q) value) := by
  rw [set, if_pos h]
  congr 2
  funext p
  simp only [Function.update_apply]

@[simp] theorem fill_inside {S : Point2i → Prop} [DecidablePred S] {value : ℕ} {q : Point2i} :
    (m.fill S value).Inside q ↔ m.Inside q := Iff.rfl

theorem fill_fill {S T : Point2i → Prop} [DecidablePred S] [DecidablePred T] (value : ℕ) :
    (m.fill S value).fill T value = m.fill (fun q => S q ∨ T q) value := by
  simp only [fill, Mat.mk.injEq, true_and]
  funext q
  by_cases hs : S q <;> by_cases ht : T q <;> simp [hs, ht]

theorem fill_congr {S T : Point2i → Prop} [DecidablePred S] [DecidablePred T] (value : ℕ)
    (h : ∀ q, S q ↔ T q) : m.fill S value = m.fill T value := by
  simp only [fill, Mat.mk.injEq, true_and]
  funext q
  simp only [h q]

/-- Loops whose every pass fills a part fill the union of the parts. -/
theorem foldlM_fill {α : Type} {f : Mat → α → Except Fault Mat} {S : α → Point2i → Prop}
    [∀ a, DecidablePred (S a)] {value : ℕ} : ∀ (l : List α) (m : Mat),
    (∀ a ∈ l, ∀ n : Mat, n.cols = m.cols → n.rows = m.rows → f n a = .ok (n.fill (S a) value)) →
    l.foldlM f m = .ok (m.fill (fun q => ∃ a ∈ l, S a q) value)
  | [], m, _ => by
    simp only [List.foldlM_nil, fill, List.not_mem_nil, false_and, exists_false, if_false]
    rfl
  | a :: l, m, h => by
    rw [List.foldlM_cons, h a (List.mem_cons_self ..) m rfl rfl]
    show l.foldlM f (m.fill (S a) value) = _
    rw [foldlM_fill l (m.fill (S a) value) fun b hb n hc hr => h b (List.mem_cons_of_mem _ hb) n hc hr, fill_fill]
    congr 1
    exact fill_congr value fun q => by simp

end Mat

/-! ## Seeding -/

/-- The values of `for (int i = a; i <= b; ++i)`. -/
def span (a b : Int) : List Int := (List.range (b + 1 - a).toNat).map fun (k : ℕ) => a + k

theorem mem_span {a b i : Int} : i ∈ span a b ↔ a ≤ i ∧ i ≤ b := by
  simp only [span, List.mem_map, List.mem_range]
  constructor
  · rintro ⟨k, hk, rfl⟩
    omega
  · intro h
    exact ⟨(i - a).toNat, by omega, by omega⟩

/-- `seed_neighborhood`. -/
def seedNeighborhood (index : Mat) (center : Point2i) (value : ℕ) (radius : Int) : Except Fault Mat :=
  let startX := center.x - radius
  let endX := center.x + radius
  let startY := center.y - radius
  let endY := center.y + radius
  let startX := if startX < 0 then 0 else startX
  let startY := if startY < 0 then 0 else startY
  let endX := if endX ≥ index.cols then (index.cols : Int) - 1 else endX
  let endY := if endY ≥ index.rows then (index.rows : Int) - 1 else endY
  (span startX endX).foldlM (fun index i =>
    (span startY endY).foldlM (fun index j => index.set ⟨i, j⟩ value) index) index

/-- Chebyshev distance at most `radius`. -/
def Within (radius : Int) (u v : Point2i) : Prop := |u.x - v.x| ≤ radius ∧ |u.y - v.y| ≤ radius

instance (radius : Int) (u v : Point2i) : Decidable (Within radius u v) := by unfold Within; infer_instance

theorem Within.symm {radius : Int} {u v : Point2i} (h : Within radius u v) : Within radius v u :=
  ⟨by rw [abs_sub_comm]; exact h.1, by rw [abs_sub_comm]; exact h.2⟩

/-- The nested loops over a rectangle inside the image fill it. -/
theorem foldlM_rectangle (index : Mat) (value : ℕ) {a b c d : Int} (ha : 0 ≤ a) (hb : b < index.cols)
    (hc : 0 ≤ c) (hd : d < index.rows) :
    (span a b).foldlM (fun index i => (span c d).foldlM (fun index j => index.set ⟨i, j⟩ value) index) index =
      .ok (index.fill (fun q => (a ≤ q.x ∧ q.x ≤ b) ∧ c ≤ q.y ∧ q.y ≤ d) value) := by
  -- the outer loop fills the rectangle column by column, the inner one a column pixel by pixel
  rw [Mat.foldlM_fill (S := fun i q => q.x = i ∧ c ≤ q.y ∧ q.y ≤ d)]
  · congr 1
    exact Mat.fill_congr value fun q => by simp [mem_span]
  · intro i hi n hcols hrows
    rw [mem_span] at hi
    rw [Mat.foldlM_fill (S := fun j q => q = ⟨i, j⟩)]
    · congr 1
      refine Mat.fill_congr value fun ⟨x, y⟩ => ?_
      simp only [Point2i.mk.injEq, mem_span]
      constructor
      · rintro ⟨j, hj, rfl, rfl⟩; exact ⟨rfl, hj⟩
      · rintro ⟨rfl, hy⟩; exact ⟨y, hy, rfl, rfl⟩
    · intro j hj n' hcols' hrows'
      rw [mem_span] at hj
      refine Mat.set_inside ?_ value
      simp only [Mat.Inside]
      omega

/-- The loops of `seed_neighborhood` write inside the image only, for a center at any distance
from its borders, and write every pixel of the image within `radius` of the center. -/
theorem seedNeighborhood_eq (index : Mat) (center : Point2i) (value : ℕ) (radius : Int) :
    seedNeighborhood index center value radius =
      .ok (index.fill (fun q => index.Inside q ∧ Within radius center q) value) := by
  unfold seedNeighborhood
  simp only
  rw [foldlM_rectangle index value (by split_ifs <;> omega) (by split_ifs <;> omega)
    (by split_ifs <;> omega) (by split_ifs <;> omega)]
  congr 1
  apply Mat.fill_congr value
  intro q
  simp only [Mat.Inside, Within, abs_le]
  split_ifs <;> omega

end DetailIdentifier.Vectorizer
