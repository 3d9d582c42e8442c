/-
Wireframes drawn exactly in two views, one above the other, and what `build_model` makes of them in
`double`s. A vertex comes back at its place, less what its coordinates lose (`slips`), so all come back
under one translation where they lose the same. An edge comes back exactly when the first view's edges
answer for the second view too.
-/
import DetailIdentifier.Interpreter.Box
import DetailIdentifier.Interpreter.Leaning
import DetailIdentifier.Modeller.Build

namespace DetailIdentifier.Modeller

open Interpreter

/-! ## Drawings -/

/-- A wireframe: vertices, and edges between their indices. -/
structure Wireframe where
  vertices : List Point3i
  edges : List (ℕ × ℕ)
  inRange : ∀ e ∈ edges, e.1 < vertices.length ∧ e.2 < vertices.length

/-- The ends of an edge. -/
def Wireframe.Edge (W : Wireframe) (P Q : Point3i) : Prop :=
  ∃ e ∈ W.edges, W.vertices[e.1]? = some P ∧ W.vertices[e.2]? = some Q

/-- What holds of the ends of all edges can be checked edge by edge. -/
theorem Wireframe.forall_edge {W : Wireframe} {p : Point3i → Point3i → Prop} : (∀ P Q, W.Edge P Q → p P Q) ↔
    ∀ e ∈ W.edges, ∀ P ∈ W.vertices[e.1]?, ∀ Q ∈ W.vertices[e.2]?, p P Q :=
  ⟨fun h e he P hP Q hQ => h P Q ⟨e, he, hP, hQ⟩, fun h P Q ⟨e, he, hP, hQ⟩ => h e he P hP Q hQ⟩

variable {β : Type}

/-- A view that draws a wireframe: every vertex has its image, every edge that does not collapse is
an edge of the view, in either orientation. -/
structure Draws (W : Wireframe) (image : Point3i → Point2i) (view : Projection β) : Prop where
  nodup : view.vertices.Nodup
  inImage : ∀ u ∈ view.vertices, InImage u
  vertex : ∀ P ∈ W.vertices, image P ∈ view.vertices
  edge : ∀ P Q, W.Edge P Q → image P ≠ image Q →
    (view.vertices.idxOf (image P), view.vertices.idxOf (image Q)) ∈ view.cedges ∨
      (view.vertices.idxOf (image Q), view.vertices.idxOf (image P)) ∈ view.cedges

/-- Two views of a wireframe, the first along z, the second along x, stacked along the y axis they
share. -/
structure Drawing (β : Type) where
  wireframe : Wireframe
  a : ℤ
  b : ℤ
  c : ℤ
  first : Projection β
  second : Projection β
  drawsFirst : Draws wireframe (fun P => ⟨a + P.y, b - P.x⟩) first
  drawsSecond : Draws wireframe (fun P => ⟨a + P.y, c - P.z⟩) second

/-- With vertical cast lines the distance is the difference of the places along them. -/
theorem calculateDistance_round {c : ℝ} {v w : Point2i} (hv : InImage v) (hw : InImage w) :
    Rounded.calculateDistance Binary64.round v ⟨0, c⟩ w = (|w.x - v.x| : ℤ) := by
  have hdiff := round_place (hw.abs_x_sub_le hv)
  push_cast at hdiff
  simp only [Rounded.calculateDistance, Real.sin_zero, Real.cos_zero, Binary64.round_zero, round_one, zero_mul, one_mul, add_zero,
    round_place hv.abs_x_le, round_place hw.abs_x_le, hdiff]
  push_cast
  rfl

namespace Drawing

variable (D : Drawing β)

def firstImage (P : Point3i) : Point2i := ⟨D.a + P.y, D.b - P.x⟩

def secondImage (P : Point3i) : Point2i := ⟨D.a + P.y, D.c - P.z⟩

/-- The vertex of each view that shows a point. -/
def firstIndex (P : Point3i) : ℕ := D.first.vertices.idxOf (D.firstImage P)

def secondIndex (P : Point3i) : ℕ := D.second.vertices.idxOf (D.secondImage P)

/-- The parents the model point of a wireframe vertex should have. -/
def parents (P : Point3i) : Parents := ⟨0, D.firstIndex P, 1, D.secondIndex P⟩

theorem getElem?_firstIndex {P : Point3i} (hP : P ∈ D.wireframe.vertices) :
    D.first.vertices[D.firstIndex P]? = some (D.firstImage P) := List.getElem?_idxOf (D.drawsFirst.vertex P hP)

theorem getElem?_secondIndex {P : Point3i} (hP : P ∈ D.wireframe.vertices) :
    D.second.vertices[D.secondIndex P]? = some (D.secondImage P) := List.getElem?_idxOf (D.drawsSecond.vertex P hP)

theorem mem_of_edge {P Q : Point3i} (h : D.wireframe.Edge P Q) :
    P ∈ D.wireframe.vertices ∧ Q ∈ D.wireframe.vertices := by
  obtain ⟨e, -, hP, hQ⟩ := h
  exact ⟨List.mem_of_getElem? hP, List.mem_of_getElem? hQ⟩

/-! ## Vertices -/

/-- The translation between the wireframe and the model: the zero points' place. -/
def offset (z z' : Point2i) : Point3i := ⟨D.b - z.y, z.x - D.a, D.c - z'.y⟩

/-- What the coordinates of a point lose. -/
noncomputable def slips (c : ℝ) (z z' : Point2i) (P : Point3i) : Point3i where
  x := lag z (D.firstImage P)
  y := slip ((D.firstImage P).x - z.x) (roundOff c (D.firstImage P).x - roundOff c z.x)
  z := lag z' (D.secondImage P)

/-- Along the axis line nothing is lost if its place is on a grid of `2 ^ -38`. -/
theorem slips_y_eq_zero {c : ℝ} (hc0 : 0 ≤ c) (hc : c ≤ 9999) {m : ℤ} (hm : c = m * 2 ^ (-38 : ℤ)) {z z' : Point2i}
    (hz : InImage z) {P : Point3i} (hP : P ∈ D.wireframe.vertices) : (D.slips c z z' P).y = 0 := by
  have h1 : InImage (D.firstImage P) := D.drawsFirst.inImage _ (D.drawsFirst.vertex P hP)
  rw [slips, roundOff_eq_zero hc0 hc hm h1.x_nonneg h1.x_le, roundOff_eq_zero hc0 hc hm hz.x_nonneg hz.x_le, sub_zero, slip_zero]

/-- The two images of a point give the point back, but for what is lost. -/
theorem mergePoints_images {c : ℝ} (hc0 : 0 ≤ c) (hc : c ≤ 9999) {z z' : Point2i} (hz : InImage z) (hz' : InImage z')
    {P : Point3i} (hP : P ∈ D.wireframe.vertices) :
    (mergePoints (Rounded.getLocationOf Binary64.round (Rounded.mainSystem Binary64.round ⟨0, c⟩ z) (D.firstImage P))
      (Rounded.mainSystem Binary64.round ⟨0, c⟩ z)
      (Rounded.getLocationOf Binary64.round (Rounded.sideSystem Binary64.round ⟨0, c⟩ z') (D.secondImage P))
      (Rounded.sideSystem Binary64.round ⟨0, c⟩ z')).1 = P - D.offset z z' - D.slips c z z' P := by
  have h1 : InImage (D.firstImage P) := D.drawsFirst.inImage _ (D.drawsFirst.vertex P hP)
  have h2 : InImage (D.secondImage P) := D.drawsSecond.inImage _ (D.drawsSecond.vertex P hP)
  rw [getLocationOf_mainSystem hc0 hc h1 hz, getLocationOf_sideSystem hc0 hc h2 hz']
  show Point3i.mk (z.y - (D.b - P.x) - (D.slips c z z' P).x) (D.a + P.y - z.x - (D.slips c z z' P).y)
      (z'.y - (D.c - P.z) - (D.slips c z z' P).z) =
    ⟨P.x - (D.b - z.y) - (D.slips c z z' P).x, P.y - (z.x - D.a) - (D.slips c z z' P).y,
      P.z - (D.c - z'.y) - (D.slips c z z' P).z⟩
  congr 1 <;> ring

/-- Points that lose the same come back under one translation, and only they do. -/
theorem exists_translation_iff {c : ℝ} {z z' : Point2i} :
    (∃ t, ∀ P ∈ D.wireframe.vertices, P - D.offset z z' - D.slips c z z' P = P - t) ↔
      ∀ P ∈ D.wireframe.vertices, ∀ Q ∈ D.wireframe.vertices, D.slips c z z' P = D.slips c z z' Q := by
  constructor
  · rintro ⟨t, ht⟩ P hP Q hQ
    obtain ⟨hPx, hPy, hPz⟩ := Point3i.mk.inj (ht P hP)
    obtain ⟨hQx, hQy, hQz⟩ := Point3i.mk.inj (ht Q hQ)
    simp only [Point3i.sub_x, Point3i.sub_y, Point3i.sub_z] at hPx hPy hPz hQx hQy hQz
    exact Point3i.ext (by omega) (by omega) (by omega)
  · intro h
    by_cases hempty : ∃ P, P ∈ D.wireframe.vertices
    · obtain ⟨Q, hQ⟩ := hempty
      refine ⟨Q - (Q - D.offset z z' - D.slips c z z' Q), fun P hP => ?_⟩
      rw [h P hP Q hQ]
      apply Point3i.ext
      · simp only [Point3i.sub_x]
        ring
      · simp only [Point3i.sub_y]
        ring
      · simp only [Point3i.sub_z]
        ring
    · exact ⟨⟨0, 0, 0⟩, fun P hP => absurd ⟨P, hP⟩ hempty⟩

/-- Both images lie on one cast line. -/
theorem calculateDistance_images {c : ℝ} {P : Point3i} (hP : P ∈ D.wireframe.vertices) :
    Rounded.calculateDistance Binary64.round (D.firstImage P) ⟨0, c⟩ (D.secondImage P) = 0 := by
  have h1 : InImage (D.firstImage P) := D.drawsFirst.inImage _ (D.drawsFirst.vertex P hP)
  have h2 : InImage (D.secondImage P) := D.drawsSecond.inImage _ (D.drawsSecond.vertex P hP)
  rw [calculateDistance_round h1 h2]
  simp [firstImage, secondImage]

/-- The zero point of the second view is the vertex whose height is nearest to the first one's. -/
theorem argmin_height {c : ℝ} {z : Point2i} (hz : InImage z) :
    D.second.vertices.argmin (Interpreter.Rounded.calculateDistance Binary64.round z ⟨0, c⟩) =
      D.second.vertices.argmin fun w => |w.y - z.y| := by
  refine List.argmin_congr fun v hv w hw => ?_
  rw [calculateDistance_round_vertical c (D.drawsSecond.inImage v hv) hz,
    calculateDistance_round_vertical c (D.drawsSecond.inImage w hw) hz]
  exact Int.cast_lt

/-! ## Edges -/

/-- The test of `build_model` on two points of two views. -/
def link (p q : Parents) : Bool :=
  joined D.first.cedges (p.pt1 == q.pt1) p.pt1 q.pt1 && joined D.first.cedges (p.pt2 == q.pt2) p.pt2 q.pt2

/-- An edge passes the second half of the test: it collapses in the second view, or the indices of
its ends there are joined in the first. -/
def FirstAnswers (P Q : Point3i) : Prop :=
  D.secondIndex P = D.secondIndex Q ∨ (D.secondIndex P, D.secondIndex Q) ∈ D.first.cedges ∨
    (D.secondIndex Q, D.secondIndex P) ∈ D.first.cedges

instance (P Q : Point3i) : Decidable (D.FirstAnswers P Q) := inferInstanceAs (Decidable (_ ∨ _ ∨ _))

theorem link_symm {p q : Parents} (h : D.link p q = true) : D.link q p = true := by
  simp only [link, Bool.and_eq_true, joined_iff] at h ⊢
  exact ⟨h.1.imp Eq.symm Or.symm, h.2.imp Eq.symm Or.symm⟩

/-- The first half of the test never fails on an edge. -/
theorem link_parents_iff {P Q : Point3i} (h : D.wireframe.Edge P Q) :
    D.link (D.parents P) (D.parents Q) = true ↔ D.FirstAnswers P Q := by
  simp only [link, Bool.and_eq_true, joined_iff, parents, FirstAnswers]
  apply and_iff_right
  -- an edge collapses in the first view or is one of its edges
  by_cases himage : D.firstImage P = D.firstImage Q
  · exact .inl (congrArg D.first.vertices.idxOf himage)
  · exact .inr (D.drawsFirst.edge P Q h himage)

end Drawing

/-! ## The model -/

section Model

variable (D : Drawing β) {directions : List (List ProjectionDirection)} {c : ℝ} {views : List (Projection β)}

/-- The model of a drawing: its points, each under its own parents, and its edges. -/
theorem buildModel_drawing (hc0 : 0 ≤ c) (hc : c ≤ 9999) (hd : fetchDirection directions 0 1 = .ok ⟨0, c⟩)
    (h : Rounded.assignCoordinateSystems Binary64.round [D.first, D.second] directions 0 = .ok views) :
    ∃ z z' points model, D.first.vertices[0]? = some z ∧ (D.second.vertices.argmin fun w => |w.y - z.y|) = some z' ∧
      Rounded.modelPoints Binary64.round views directions = .ok points ∧
      Rounded.buildModel Binary64.round views directions = .ok model ∧
      model.points = points.map (·.2) ∧ (points.map (·.1)).Nodup ∧
      (∀ P ∈ D.wireframe.vertices, (D.parents P, P - D.offset z z' - D.slips c z z' P) ∈ points) ∧
      ∀ i j, (i, j) ∈ model.edges ∨ (j, i) ∈ model.edges ↔
        i ≠ j ∧ ∃ x y, points[i]? = some x ∧ points[j]? = some y ∧ D.link x.1 y.1 = true := by
  obtain ⟨d, z, z', hd', hz, hz', rfl⟩ := Rounded.assignCoordinateSystems_two_inv h
  rw [hd] at hd'
  cases hd'
  have hzin : InImage z := D.drawsFirst.inImage z (List.mem_of_getElem? hz)
  have hzin' : InImage z' := D.drawsSecond.inImage z' (List.argmin_mem hz')
  rw [D.argmin_height hzin] at hz'
  obtain ⟨points, hpoints, hnodup, hmem⟩ := @Rounded.modelPoints_two _ Binary64.round
    { D.first with s := some (Rounded.mainSystem Binary64.round ⟨0, c⟩ z) }
    { D.second with s := some (Rounded.sideSystem Binary64.round ⟨0, c⟩ z') } _ _ _ _ rfl rfl hd
  have hlink : ∀ m ∈ points.map (·.1), ∀ m' ∈ points.map (·.1),
      connected [{ D.first with s := some (Rounded.mainSystem Binary64.round ⟨0, c⟩ z) },
        { D.second with s := some (Rounded.sideSystem Binary64.round ⟨0, c⟩ z') }] m m' = .ok (D.link m m') := by
    intro m hm m' hm'
    obtain ⟨⟨m, P⟩, hP, rfl⟩ := List.mem_map.1 hm
    obtain ⟨⟨m', P'⟩, hP', rfl⟩ := List.mem_map.1 hm'
    obtain ⟨j, l, v, w, rfl, -⟩ := (hmem m P).1 hP
    obtain ⟨j', l', v', w', rfl, -⟩ := (hmem m' P').1 hP'
    rfl
  obtain ⟨edges, hedges, hspec⟩ := modelEdges_spec hlink
  refine ⟨z, z', points, _, hz, hz', hpoints, Rounded.buildModel_eq hpoints hedges, rfl, hnodup, fun P hP => ?_, fun i j => ?_⟩
  · refine (hmem _ _).2 ⟨_, _, _, _, rfl, D.getElem?_firstIndex hP, D.getElem?_secondIndex hP, ?_,
      D.mergePoints_images hc0 hc hzin hzin' hP⟩
    rw [D.calculateDistance_images hP]
    norm_num [maxDiff]
  · rw [hspec, hspec]
    simp only [List.getElem?_map, Option.map_eq_some_iff]
    constructor
    · rintro (⟨hij, _, _, ⟨x, hx, rfl⟩, ⟨y, hy, rfl⟩, hl⟩ | ⟨hij, _, _, ⟨x, hx, rfl⟩, ⟨y, hy, rfl⟩, hl⟩)
      · exact ⟨hij.ne, x, y, hx, hy, hl⟩
      · exact ⟨hij.ne', y, x, hy, hx, D.link_symm hl⟩
    · rintro ⟨hij, x, y, hx, hy, hl⟩
      rcases Nat.lt_or_gt_of_ne hij with hij | hij
      · exact .inl ⟨hij, _, _, ⟨x, hx, rfl⟩, ⟨y, hy, rfl⟩, hl⟩
      · exact .inr ⟨hij, _, _, ⟨y, hy, rfl⟩, ⟨x, hx, rfl⟩, D.link_symm hl⟩

/-- An edge is found between the points of its ends. -/
def Found (points : List (Parents × Point3i)) (model : Model3d) (t P Q : Point3i) : Prop :=
  ∃ i j, points[i]? = some (D.parents P, P - t) ∧ points[j]? = some (D.parents Q, Q - t) ∧
    ((i, j) ∈ model.edges ∨ (j, i) ∈ model.edges)

/-- The points of two ends are joined exactly when the ends differ and the first view's edges answer for
the edge in the second view. -/
theorem found_iff {points : List (Parents × Point3i)} {model : Model3d} {t : Point3i} (hnodup : (points.map (·.1)).Nodup)
    (hedge : ∀ i j, (i, j) ∈ model.edges ∨ (j, i) ∈ model.edges ↔
      i ≠ j ∧ ∃ x y, points[i]? = some x ∧ points[j]? = some y ∧ D.link x.1 y.1 = true)
    (hvertex : ∀ P ∈ D.wireframe.vertices, (D.parents P, P - t) ∈ points) {P Q : Point3i} (hPQ : D.wireframe.Edge P Q) :
    Found D points model t P Q ↔ P ≠ Q ∧ D.FirstAnswers P Q := by
  obtain ⟨hP, hQ⟩ := D.mem_of_edge hPQ
  constructor
  · rintro ⟨i, j, hi, hj, hij⟩
    obtain ⟨hne, x, y, hx, hy, hlink⟩ := (hedge i j).1 hij
    rw [hi] at hx
    rw [hj] at hy
    cases hx
    cases hy
    refine ⟨?_, (D.link_parents_iff hPQ).1 hlink⟩
    rintro rfl
    -- the parents of a point are those of no other, so both indices are one
    have hkeys : ∀ n : ℕ, points[n]? = some (D.parents P, P - t) → (points.map (·.1))[n]? = some (D.parents P) := by
      intro n hn
      rw [List.getElem?_map, hn]
      rfl
    exact hne ((List.getElem?_inj (List.getElem?_eq_some_iff.1 (hkeys i hi)).1 hnodup).1
      ((hkeys i hi).trans (hkeys j hj).symm))
  · rintro ⟨hne, hanswer⟩
    obtain ⟨i, hi⟩ := List.mem_iff_getElem?.1 (hvertex P hP)
    obtain ⟨j, hj⟩ := List.mem_iff_getElem?.1 (hvertex Q hQ)
    refine ⟨i, j, hi, hj, (hedge i j).2 ⟨?_, _, _, hi, hj, (D.link_parents_iff hPQ).2 hanswer⟩⟩
    rintro rfl
    rw [hi] at hj
    exact hne (Point3i.sub_right_cancel (Prod.mk.inj (Option.some.inj hj)).2)

end Model

/-! ## A staircase

Three edges, along x, along z and along z again. The first view shows one stroke, the second two.
-/

/-- `place` for two vertices straight below each other and the zero points, where nothing is lost. -/
theorem place_column {c : ℝ} (hc0 : 0 ≤ c) (hc : c ≤ 9999) {p q : Projection β} {z z' v w : Point2i} {m : Parents}
    (hv : p.vertices.getD m.pt1 ⟨0, 0⟩ = v) (hw : q.vertices.getD m.pt2 ⟨0, 0⟩ = w) (hz : InImage z)
    (hz' : InImage z') (hvin : InImage v) (hwin : InImage w) (hvz : v.x = z.x) (hwv : w.x = v.x) (h1 : lag z v = 0)
    (h2 : lag z' w = 0) :
    Rounded.place Binary64.round p q (Rounded.mainSystem Binary64.round ⟨0, c⟩ z)
        (Rounded.sideSystem Binary64.round ⟨0, c⟩ z') ⟨0, c⟩ m =
      some (m, ⟨z.y - v.y, 0, z'.y - w.y⟩) := by
  rw [Rounded.place_eq_some, hv, hw, getLocationOf_mainSystem hc0 hc hvin hz, getLocationOf_sideSystem hc0 hc hwin hz', h1, h2,
    calculateDistance_round hvin hwin, hwv, hvz]
  simp [maxDiff, mergePoints, mergeCoordinate, Rounded.mainSystem, Rounded.sideSystem]

noncomputable def staircase : Drawing RotatedRect where
  wireframe := ⟨[⟨0, 0, 0⟩, ⟨100, 0, 0⟩, ⟨100, 0, 100⟩, ⟨100, 0, 200⟩], [(0, 1), (1, 2), (2, 3)], by decide⟩
  a := 100
  b := 200
  c := 600
  first := ⟨[⟨100, 200⟩, ⟨100, 100⟩], [], [(0, 1)], UprightRect.toRotated ⟨(100, 150), 0, 100⟩, none⟩
  second := ⟨[⟨100, 600⟩, ⟨100, 500⟩, ⟨100, 400⟩], [], [(0, 1), (1, 2)], UprightRect.toRotated ⟨(100, 500), 0, 200⟩, none⟩
  drawsFirst := ⟨by decide, by decide, by decide, Wireframe.forall_edge.2 (by decide)⟩
  drawsSecond := ⟨by decide, by decide, by decide, Wireframe.forall_edge.2 (by decide)⟩

/-- The table of two views with a vertical cast line. -/
noncomputable def vertical (c : ℤ) : List (List ProjectionDirection) := [[⟨0, 0⟩, ⟨0, c⟩], [⟨0, c⟩, ⟨0, 0⟩]]

/-- The views of the staircase, with their coordinate systems. -/
noncomputable def staircaseViews : List (Projection RotatedRect) :=
  [{ staircase.first with s := some (Rounded.mainSystem Binary64.round ⟨0, (100 : ℤ)⟩ ⟨100, 200⟩) },
    { staircase.second with s := some (Rounded.sideSystem Binary64.round ⟨0, (100 : ℤ)⟩ ⟨100, 400⟩) }]

theorem assign_staircase :
    Rounded.assignCoordinateSystems Binary64.round [staircase.first, staircase.second] (vertical 100) 0 = .ok staircaseViews := by
  apply Rounded.assignCoordinateSystems_two rfl rfl
  exact (staircase.argmin_height (by decide)).trans (by decide)

theorem modelPoints_staircase : Rounded.modelPoints Binary64.round staircaseViews (vertical 100) =
    .ok [(⟨0, 0, 1, 0⟩, ⟨0, 0, -200⟩), (⟨0, 0, 1, 1⟩, ⟨0, 0, -100⟩), (⟨0, 0, 1, 2⟩, ⟨0, 0, 0⟩),
      (⟨0, 1, 1, 0⟩, ⟨100, 0, -200⟩), (⟨0, 1, 1, 1⟩, ⟨100, 0, -100⟩), (⟨0, 1, 1, 2⟩, ⟨100, 0, 0⟩)] := by
  have hplace : ∀ m ∈ [(⟨0, 0, 1, 0⟩ : Parents), ⟨0, 0, 1, 1⟩, ⟨0, 0, 1, 2⟩, ⟨0, 1, 1, 0⟩, ⟨0, 1, 1, 1⟩, ⟨0, 1, 1, 2⟩],
      Rounded.place Binary64.round staircase.first staircase.second
        (Rounded.mainSystem Binary64.round ⟨0, (100 : ℤ)⟩ ⟨100, 200⟩)
        (Rounded.sideSystem Binary64.round ⟨0, (100 : ℤ)⟩ ⟨100, 400⟩) ⟨0, (100 : ℤ)⟩ m =
        some (m, ⟨200 - (staircase.first.vertices.getD m.pt1 ⟨0, 0⟩).y, 0,
          400 - (staircase.second.vertices.getD m.pt2 ⟨0, 0⟩).y⟩) := by
    intro m hm
    simp only [List.mem_cons, List.not_mem_nil, or_false] at hm
    rcases hm with rfl | rfl | rfl | rfl | rfl | rfl <;>
      exact place_column (by norm_num) (by norm_num) rfl rfl (by decide) (by decide) (by decide) (by decide) rfl rfl rfl rfl
  have hpoints := @Rounded.modelPoints_eq _ Binary64.round
    { staircase.first with s := some (Rounded.mainSystem Binary64.round ⟨0, (100 : ℤ)⟩ ⟨100, 200⟩) }
    { staircase.second with s := some (Rounded.sideSystem Binary64.round ⟨0, (100 : ℤ)⟩ ⟨100, 400⟩) } _ _ _ _ rfl rfl
    (show fetchDirection (vertical 100) 0 1 = .ok ⟨0, (100 : ℤ)⟩ from rfl)
  exact hpoints.trans (congrArg Except.ok (List.filterMap_congr hplace))

/-- The model of the staircase: the last edge, between the points 4 and 5, is missing. -/
theorem buildModel_staircase : Rounded.buildModel Binary64.round staircaseViews (vertical 100) =
    .ok ⟨[⟨0, 0, -200⟩, ⟨0, 0, -100⟩, ⟨0, 0, 0⟩, ⟨100, 0, -200⟩, ⟨100, 0, -100⟩, ⟨100, 0, 0⟩],
      [(0, 1), (0, 3), (0, 4), (1, 3), (1, 4), (2, 5), (3, 4)], by decide⟩ :=
  Rounded.buildModel_eq modelPoints_staircase rfl

/-- One edge that both views show. -/
noncomputable def ramp : Drawing RotatedRect where
  wireframe := ⟨[⟨0, 0, 0⟩, ⟨100, 0, 100⟩], [(0, 1)], by decide⟩
  a := 100
  b := 200
  c := 600
  first := ⟨[⟨100, 200⟩, ⟨100, 100⟩], [], [(0, 1)], UprightRect.toRotated ⟨(100, 150), 0, 100⟩, none⟩
  second := ⟨[⟨100, 600⟩, ⟨100, 500⟩], [], [(0, 1)], UprightRect.toRotated ⟨(100, 550), 0, 100⟩, none⟩
  drawsFirst := ⟨by decide, by decide, by decide, Wireframe.forall_edge.2 (by decide)⟩
  drawsSecond := ⟨by decide, by decide, by decide, Wireframe.forall_edge.2 (by decide)⟩

theorem assign_ramp : Rounded.assignCoordinateSystems Binary64.round [ramp.first, ramp.second] (vertical 100) 0 =
    .ok [{ ramp.first with s := some (Rounded.mainSystem Binary64.round ⟨0, (100 : ℤ)⟩ ⟨100, 200⟩) },
      { ramp.second with s := some (Rounded.sideSystem Binary64.round ⟨0, (100 : ℤ)⟩ ⟨100, 500⟩) }] := by
  apply Rounded.assignCoordinateSystems_two rfl rfl
  exact (ramp.argmin_height (by decide)).trans (by decide)

end DetailIdentifier.Modeller
