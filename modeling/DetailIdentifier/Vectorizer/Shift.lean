/-
Contours drawn elsewhere on the sheet. Only distances between vertices matter for their labels, so the
points move with the vertices and the indices stay (`paths_shift`, `after_shift`).
-/
import DetailIdentifier.Vectorizer.Trace

namespace DetailIdentifier

/-- A point moved by `t`. -/
def Point2i.shift (t p : Point2i) : Point2i := ⟨p.x + t.x, p.y + t.y⟩

theorem Point2i.shift_injective (t : Point2i) : Function.Injective t.shift := by
  intro p q h
  obtain ⟨hx, hy⟩ := Point2i.mk.inj h
  cases p
  cases q
  simp only at hx hy
  congr 1 <;> omega

namespace Vectorizer

variable (t : Point2i)

theorem within_shift {radius : Int} {u v : Point2i} : Within radius (t.shift u) (t.shift v) ↔ Within radius u v := by
  simp only [Within, Point2i.shift, add_sub_add_right_eq_sub]

namespace Ledger

def shift (l : Ledger) : Ledger := ⟨l.points.map t.shift, l.placed.map (Prod.map t.shift id)⟩

variable {t} (l : Ledger)

@[simp] theorem label_shift (q : Point2i) : (l.shift t).label (t.shift q) = l.label q := by
  have htest : (fun p : Point2i × ℕ => decide (Within seedRadius p.1 (t.shift q))) ∘ Prod.map t.shift id =
      fun p => decide (Within seedRadius p.1 q) := by
    funext p
    exact decide_eq_decide.2 (within_shift t)
  rw [label, shift, List.find?_map, htest, Option.map_map]
  rfl

@[simp] theorem assign_shift (v : Point2i) : (l.shift t).assign (t.shift v) = l.assign v := by
  rw [assign, label_shift, assign]
  simp only [shift, List.length_map]

theorem place_shift (v : Point2i) : (l.shift t).place (t.shift v) = (l.place v).shift t := by
  rw [place, label_shift, assign_shift, place]
  simp only [shift, Ledger.mk.injEq, List.map_cons, Prod.map_apply, id_eq, and_true]
  split
  · rw [List.map_append, List.map_singleton]
  · rfl

theorem foldl_place_shift (vs : List Point2i) :
    (vs.map t.shift).foldl place (l.shift t) = (vs.foldl place l).shift t := by
  induction vs generalizing l with
  | nil => rfl
  | cons v vs ih => rw [List.map_cons, List.foldl_cons, List.foldl_cons, place_shift, ih]

theorem indices_shift (vs : List Point2i) : (l.shift t).indices (vs.map t.shift) = l.indices vs := by
  induction vs generalizing l with
  | nil => rfl
  | cons v vs ih => rw [List.map_cons, indices, indices, assign_shift, place_shift, ih]

theorem paths_shift (cs : List (List Point2i)) : (l.shift t).paths (cs.map (List.map t.shift)) = l.paths cs := by
  induction cs generalizing l with
  | nil => rfl
  | cons c cs ih => rw [List.map_cons, paths, paths, indices_shift, foldl_place_shift, ih]

theorem after_shift (vs : List Point2i) : after (vs.map t.shift) = (after vs).shift t :=
  foldl_place_shift ⟨[], []⟩ vs

end Ledger

/-- The contours of `d'` are those of `d`, moved by `t`. -/
def Drawing.Moved (d d' : Drawing) : Prop := d'.contours = d.contours.map (List.map t.shift)

variable {t}

theorem Drawing.Moved.processed {d d' : Drawing} (h : d.Moved t d') :
    d'.processed = d.processed.map (List.map t.shift) := by
  rw [Drawing.processed, Drawing.processed, h, List.filter_map]
  congr 2
  funext c
  simp

end Vectorizer

end DetailIdentifier
