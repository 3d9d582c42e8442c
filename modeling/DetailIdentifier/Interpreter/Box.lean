/-
Bounding boxes: what `prune` reads of one (`Box`), the code's `cv::RotatedRect` in exact real
arithmetic, and upright integer boxes, on which the same tests can be evaluated. An upright box
is the rotated one of angle 0 (`inside_toRotated`, `larger_toRotated`).
-/
import DetailIdentifier.Interpreter.Projection

namespace DetailIdentifier.Interpreter

/-- A bounding box: its center, whether a point lies inside, and whether its area is larger. -/
class Box (β : Type) (π : outParam Type) where
  center : β → π
  inside : β → π → Bool
  larger : β → β → Bool

/-- Boxes of another kind on which the tests come out the same. -/
structure Box.Maps {β π β' π' : Type} [Box β π] [Box β' π'] (f : β → β') (g : π → π') : Prop where
  center : ∀ b, Box.center (f b) = g (Box.center b)
  inside : ∀ b p, Box.inside (f b) (g p) = Box.inside b p
  larger : ∀ a b, Box.larger (f a) (f b) = Box.larger a b

/-! ## Rotated boxes -/

/-- `inside`. The angle goes to `std::cos` and `std::sin` as it is. -/
noncomputable def inside (rect : RotatedRect) (p : ℝ × ℝ) : Prop :=
  let second := (p.1 - rect.center.1, p.2 - rect.center.2)
  let transformed := (second.1 * Real.cos rect.angle + second.2 * Real.sin rect.angle,
    -second.1 * Real.sin rect.angle + second.2 * Real.cos rect.angle)
  |(2 : ℤ) * transformed.1| < rect.width ∧ |(2 : ℤ) * transformed.2| < rect.height

/-- `size.area()`. -/
noncomputable def RotatedRect.area (rect : RotatedRect) : ℝ := rect.width * rect.height

noncomputable instance : Inhabited RotatedRect := ⟨⟨(0, 0), 0, 0, 0⟩⟩

open Classical in
noncomputable instance : Box RotatedRect (ℝ × ℝ) where
  center := RotatedRect.center
  inside rect p := decide (inside rect p)
  larger a b := decide (a.area > b.area)

/-! ## Upright boxes -/

/-- A box with its sides along the axes, in integers. -/
structure UprightRect where
  center : ℤ × ℤ
  width : ℤ
  height : ℤ
deriving DecidableEq, Repr

instance : Inhabited UprightRect := ⟨⟨(0, 0), 0, 0⟩⟩

instance : Box UprightRect (ℤ × ℤ) where
  center := UprightRect.center
  inside r p := |2 * (p.1 - r.center.1)| < r.width && |2 * (p.2 - r.center.2)| < r.height
  larger a b := a.width * a.height > b.width * b.height

/-- An upright box as a rotated one. -/
noncomputable def UprightRect.toRotated (r : UprightRect) : RotatedRect :=
  ⟨(r.center.1, r.center.2), r.width, r.height, 0⟩

theorem inside_toRotated (r q : UprightRect) :
    Box.inside r.toRotated (Box.center q.toRotated) = Box.inside r (Box.center q) := by
  have key : inside r.toRotated q.toRotated.center ↔
      |2 * (q.center.1 - r.center.1)| < r.width ∧ |2 * (q.center.2 - r.center.2)| < r.height := by
    simp only [inside, UprightRect.toRotated, Real.cos_zero, Real.sin_zero, mul_one, mul_zero, add_zero,
      zero_add]
    norm_cast
  simp only [Box.inside, Box.center, key, Bool.decide_and]

theorem larger_toRotated (r q : UprightRect) : Box.larger r.toRotated q.toRotated = Box.larger r q := by
  have key : r.toRotated.area > q.toRotated.area ↔ r.width * r.height > q.width * q.height := by
    simp only [RotatedRect.area, UprightRect.toRotated]
    norm_cast
  simp only [Box.larger, key]

theorem toRotated_maps : Box.Maps UprightRect.toRotated fun p : ℤ × ℤ => ((p.1 : ℝ), (p.2 : ℝ)) where
  center _ := rfl
  inside r p := inside_toRotated r ⟨p, 0, 0⟩
  larger := larger_toRotated

end DetailIdentifier.Interpreter
