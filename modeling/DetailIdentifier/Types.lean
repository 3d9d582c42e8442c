/-
What the pipeline's stages share: image points, the faults a stage can run into, and the conversion
of `double` to `int`. Coordinates and counters are unbounded and `double`s are real numbers, unless a
module bounds or rounds them.
-/
import Mathlib

namespace DetailIdentifier

/-- `cv::Point2i`. -/
structure Point2i where
  x : Int
  y : Int
deriving DecidableEq, Repr

/-- `cv::Point3i`. -/
@[ext]
structure Point3i where
  x : Int
  y : Int
  z : Int
deriving DecidableEq, Repr

instance : Sub Point3i := ⟨fun p q => ⟨p.x - q.x, p.y - q.y, p.z - q.z⟩⟩

@[simp] theorem Point3i.sub_x (p q : Point3i) : (p - q).x = p.x - q.x := rfl

@[simp] theorem Point3i.sub_y (p q : Point3i) : (p - q).y = p.y - q.y := rfl

@[simp] theorem Point3i.sub_z (p q : Point3i) : (p - q).z = p.z - q.z := rfl

theorem Point3i.sub_right_cancel {p q t : Point3i} (h : p - t = q - t) : p = q := by
  obtain ⟨hx, hy, hz⟩ := Point3i.mk.inj h
  cases p
  cases q
  simp only at hx hy hz
  congr 1 <;> omega

/-! ## Coordinates -/

inductive Axis where
  | x
  | y
  | z
deriving DecidableEq, Repr

namespace Axis

def get : Axis → Point3i → ℤ
  | .x, p => p.x
  | .y, p => p.y
  | .z, p => p.z

def set : Axis → Point3i → ℤ → Point3i
  | .x, p, c => { p with x := c }
  | .y, p, c => { p with y := c }
  | .z, p, c => { p with z := c }

@[simp] theorem get_set (a : Axis) (p : Point3i) (c : ℤ) : a.get (a.set p c) = c := by
  cases a <;> rfl

@[simp] theorem set_get (a : Axis) (p : Point3i) : a.set p (a.get p) = p := by
  cases a <;> rfl

theorem get_set_of_ne {a b : Axis} (h : b ≠ a) (p : Point3i) (c : ℤ) : b.get (a.set p c) = b.get p := by
  cases a <;> cases b <;> first | rfl | exact absurd rfl h

end Axis

/-! ## Faults -/

/-- A read past the end of a vector, outside an image or of a member never set, a failed assertion, a
conversion to `int` that is undefined, or a loop that outlives its fuel. -/
inductive Fault where
  | outOfRange
  | unset
  | assertion
  | undefined
  | outOfFuel
deriving DecidableEq, Repr

/-- Reading an element of a vector. -/
def fetch {α : Type*} (l : List α) (i : ℕ) : Except Fault α :=
  match l[i]? with
  | none => .error .outOfRange
  | some a => .ok a

theorem fetch_eq {α : Type*} {l : List α} {i : ℕ} {a : α} (h : l[i]? = some a) : fetch l i = .ok a := by
  unfold fetch
  rw [h]

theorem fetch_inv {α : Type*} {l : List α} {i : ℕ} {a : α} (h : fetch l i = .ok a) : l[i]? = some a := by
  unfold fetch at h
  split at h <;> cases h
  assumption

/-- A sequence of fallible steps has a result only if its first step has one. -/
theorem bind_ok_inv {ε α β : Type*} {x : Except ε α} {f : α → Except ε β} {b : β} (h : x.bind f = .ok b) :
    ∃ a, x = .ok a ∧ f a = .ok b := by
  cases x with
  | error e => cases h
  | ok a => exact ⟨a, rfl, h⟩

/-- What an `int` holds. -/
def IsInt (n : ℤ) : Prop := -2 ^ 31 ≤ n ∧ n < 2 ^ 31

instance (n : ℤ) : Decidable (IsInt n) := inferInstanceAs (Decidable (_ ∧ _))

section ToInt

variable {R : Type*} [Field R] [LinearOrder R] [FloorRing R]

/-- The conversion of a `double` to `int` cuts the fraction off. -/
def toInt (r : R) : ℤ := if 0 ≤ r then ⌊r⌋ else ⌈r⌉

@[simp] theorem toInt_intCast [IsStrictOrderedRing R] (n : ℤ) : toInt (n : R) = n := by
  unfold toInt
  split <;> simp

variable [IsStrictOrderedRing R]

theorem le_toInt_iff (n : ℤ) (r : R) : n ≤ toInt r ↔ if 0 < n then (n : R) ≤ r else (n : R) - 1 < r := by
  unfold toInt
  by_cases hr : 0 ≤ r
  · rw [if_pos hr, Int.le_floor]
    split
    · rfl
    · rename_i hn
      have hn' : (n : R) ≤ 0 := by exact_mod_cast Int.not_lt.1 hn
      constructor <;> intro h <;> linarith
  · rw [if_neg hr, Int.le_ceil_iff]
    have hr' := not_le.1 hr
    split
    · rename_i hn
      have hn' : (1 : R) ≤ n := by exact_mod_cast hn
      constructor <;> intro h <;> linarith
    · rfl

theorem toInt_le_iff (n : ℤ) (r : R) : toInt r ≤ n ↔ if n < 0 then r ≤ n else r < n + 1 := by
  unfold toInt
  by_cases hr : 0 ≤ r
  · rw [if_pos hr, Int.floor_le_iff]
    split
    · rename_i hn
      have hn' : (n : R) + 1 ≤ 0 := by exact_mod_cast hn
      constructor <;> intro h <;> linarith
    · rfl
  · rw [if_neg hr, Int.ceil_le]
    have hr' := not_le.1 hr
    split
    · rfl
    · rename_i hn
      have hn' : (0 : R) ≤ n := by exact_mod_cast Int.not_lt.1 hn
      constructor <;> intro h <;> linarith

/-- Cutting the fraction off moves a number by less than one. -/
theorem abs_toInt_sub_lt (r : R) : |(toInt r : R) - r| < 1 := by
  unfold toInt
  rw [abs_lt]
  split
  · have h1 := Int.floor_le r
    have h2 := Int.lt_floor_add_one r
    constructor <;> linarith
  · have h1 := Int.le_ceil r
    have h2 := Int.ceil_lt_add_one r
    constructor <;> linarith

theorem abs_toInt_le (r : R) : |(toInt r : R)| ≤ |r| + 1 := by
  have hcut := abs_toInt_sub_lt r
  have hsplit := abs_add_le ((toInt r : R) - r) r
  rw [sub_add_cancel] at hsplit
  linarith

end ToInt

end DetailIdentifier
