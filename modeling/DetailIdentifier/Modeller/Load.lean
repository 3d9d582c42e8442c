/-
`load` as a whole. It always comes to an end, and what it writes are the chains traced through the planes
of the three passes, with the points of the aligned model (`load_eq`). So every polygon is flat, close to
the points it stands for, and welded to the others: along each axis two corners are level or well apart
(`load_polygons`). Where the planes are made of disjoint outlines, the outlines are what is written
(`load_outlines`).
-/
import DetailIdentifier.Modeller.Outlines
import DetailIdentifier.Modeller.Planes

namespace DetailIdentifier.Modeller

variable {axis other : Axis} {model model' : Model3d} {groups : List (List ℕ)} {representatives : List ℤ}

/-! ## What a pass leaves -/

theorem Aligned.index_lt (h : Aligned axis model model' groups representatives) {g : List ℕ} (hg : g ∈ groups) {i : ℕ}
    (hi : i ∈ g) : i < model.points.length :=
  List.mem_range.1 (h.partition.mem_iff.1 (List.mem_flatten.2 ⟨g, hg, hi⟩))

theorem Aligned.nodup (h : Aligned axis model model' groups representatives) {g : List ℕ} (hg : g ∈ groups) : g.Nodup :=
  (List.nodup_flatten.1 (h.partition.nodup_iff.2 List.nodup_range)).1 g hg

/-- A point after the pass stands for one before it: its coordinate is that of a plane less than
`CONTOUR_DIFF` away, and the others are the same. -/
theorem Aligned.point (h : Aligned axis model model' groups representatives) {i : ℕ} {p' : Point3i}
    (hp' : model'.points[i]? = some p') : ∃ p, model.points[i]? = some p ∧ axis.get p' ∈ representatives ∧
      |axis.get p - axis.get p'| < contourDiff ∧ ∀ other, other ≠ axis → other.get p' = other.get p := by
  have hi : i < model.points.length := h.size ▸ (List.getElem?_eq_some_iff.1 hp').1
  obtain ⟨g, hg, hig⟩ := List.mem_flatten.1 (h.partition.mem_iff.2 (List.mem_range.2 hi))
  obtain ⟨c, hc, hmoved⟩ := h.moved.exists_right hg
  obtain ⟨p, q, hp, hq, hget, hnear, hkeep⟩ := hmoved i hig
  rw [hp', Option.some.injEq] at hq
  subst hq
  exact ⟨p, hp, hget ▸ hc, hget ▸ hnear, hkeep⟩

/-- Along the axis, two points are level or `CONTOUR_DIFF` apart. -/
def Snapped (axis : Axis) (model : Model3d) : Prop :=
  ∀ (i j : ℕ) p q, model.points[i]? = some p → model.points[j]? = some q →
    axis.get p = axis.get q ∨ contourDiff ≤ |axis.get p - axis.get q|

instance (axis : Axis) (model : Model3d) : Decidable (Snapped axis model) :=
  decidable_of_iff (∀ p ∈ model.points, ∀ q ∈ model.points, axis.get p = axis.get q ∨ contourDiff ≤ |axis.get p - axis.get q|)
    ⟨fun h _ _ p q hp hq => h p (List.mem_of_getElem? hp) q (List.mem_of_getElem? hq), fun h p hp q hq => by
      obtain ⟨i, hi⟩ := List.mem_iff_getElem?.1 hp
      obtain ⟨j, hj⟩ := List.mem_iff_getElem?.1 hq
      exact h i j p q hi hj⟩

theorem Aligned.snapped (h : Aligned axis model model' groups representatives) : Snapped axis model' := by
  intro i j p q hp hq
  obtain ⟨-, -, hp, -⟩ := h.point hp
  obtain ⟨-, -, hq, -⟩ := h.point hq
  by_cases heq : axis.get p = axis.get q
  · exact .inl heq
  · have hsymm : Std.Symm fun a b : ℤ => contourDiff ≤ |a - b| := ⟨fun a b hab => by rwa [abs_sub_comm]⟩
    exact .inr (h.apart.forall hp hq heq)

/-- A pass along another axis moves no point along this one. -/
theorem Snapped.aligned (hs : Snapped other model) (h : Aligned axis model model' groups representatives)
    (hne : other ≠ axis) : Snapped other model' := by
  intro i j p' q' hp' hq'
  obtain ⟨p, hp, -, -, hpkeep⟩ := h.point hp'
  obtain ⟨q, hq, -, -, hqkeep⟩ := h.point hq'
  rw [hpkeep other hne, hqkeep other hne]
  exact hs i j p q hp hq

/-! ## The three passes -/

/-- The planes of the three passes over a model, and the model they leave. -/
structure Passes (model : Model3d) (xs ys zs : List (List ℕ)) (final : Model3d) : Prop where
  passes : ∃ m₁ m₂ rx ry rz, Aligned .x model m₁ xs rx ∧ Aligned .y m₁ m₂ ys ry ∧ Aligned .z m₂ final zs rz

namespace Passes

variable {xs ys zs : List (List ℕ)} {final : Model3d} (h : Passes model xs ys zs final)

include h

theorem edges : final.edges = model.edges := by
  obtain ⟨m₁, m₂, rx, ry, rz, hx, hy, hz⟩ := h.passes
  rw [hz.edges, hy.edges, hx.edges]

theorem size : final.points.length = model.points.length := by
  obtain ⟨m₁, m₂, rx, ry, rz, hx, hy, hz⟩ := h.passes
  rw [hz.size, hy.size, hx.size]

theorem plane_lt {plane : List ℕ} (hplane : plane ∈ xs ++ ys ++ zs) : ∀ k ∈ plane, k < final.points.length := by
  obtain ⟨m₁, m₂, rx, ry, rz, hx, hy, hz⟩ := h.passes
  intro k hk
  rw [hz.size, hy.size, hx.size]
  simp only [List.mem_append] at hplane
  rcases hplane with (hplane | hplane) | hplane
  · exact hx.index_lt hplane hk
  · exact hx.size ▸ hy.index_lt hplane hk
  · exact hx.size ▸ hy.size ▸ hz.index_lt hplane hk

theorem plane_nodup {plane : List ℕ} (hplane : plane ∈ xs ++ ys ++ zs) : plane.Nodup := by
  obtain ⟨m₁, m₂, rx, ry, rz, hx, hy, hz⟩ := h.passes
  simp only [List.mem_append] at hplane
  rcases hplane with (hplane | hplane) | hplane
  exacts [hx.nodup hplane, hy.nodup hplane, hz.nodup hplane]

/-- The points of a plane are level along one axis. -/
theorem plane_level {plane : List ℕ} (hplane : plane ∈ xs ++ ys ++ zs) :
    ∃ axis : Axis, ∃ c, ∀ i ∈ plane, ∃ p, final.points[i]? = some p ∧ axis.get p = c := by
  obtain ⟨m₁, m₂, rx, ry, rz, hx, hy, hz⟩ := h.passes
  simp only [List.mem_append] at hplane
  rcases hplane with (hplane | hplane) | hplane
  · exact ⟨.x, (hx.coplanar.aligned hy (by decide)).aligned hz (by decide) plane hplane⟩
  · exact ⟨.y, hy.coplanar.aligned hz (by decide) plane hplane⟩
  · exact ⟨.z, hz.coplanar plane hplane⟩

theorem snapped (axis : Axis) : Snapped axis final := by
  obtain ⟨m₁, m₂, rx, ry, rz, hx, hy, hz⟩ := h.passes
  cases axis with
  | x => exact (hx.snapped.aligned hy (by decide)).aligned hz (by decide)
  | y => exact hy.snapped.aligned hz (by decide)
  | z => exact hz.snapped

/-- Each coordinate of a point is moved by one of the passes only. -/
theorem point {i : ℕ} {p' : Point3i} (hp' : final.points[i]? = some p') :
    ∃ p, model.points[i]? = some p ∧ ∀ axis : Axis, |axis.get p - axis.get p'| < contourDiff := by
  obtain ⟨m₁, m₂, rx, ry, rz, hx, hy, hz⟩ := h.passes
  obtain ⟨p₂, hp₂, -, hnearz, hkeepz⟩ := hz.point hp'
  obtain ⟨p₁, hp₁, -, hneary, hkeepy⟩ := hy.point hp₂
  obtain ⟨p, hp, -, hnearx, hkeepx⟩ := hx.point hp₁
  refine ⟨p, hp, fun axis => ?_⟩
  cases axis with
  | x => rwa [hkeepz .x (by decide), hkeepy .x (by decide)]
  | y => rwa [hkeepz .y (by decide), ← hkeepx .y (by decide)]
  | z => rwa [← hkeepx .z (by decide), ← hkeepy .z (by decide)]

end Passes

theorem passes_exist (model : Model3d) : ∃ xs m₁ ys m₂ zs final, alignContoursX model = .ok (xs, m₁) ∧
    alignContoursY m₁ = .ok (ys, m₂) ∧ alignContoursZ m₂ = .ok (zs, final) ∧ Passes model xs ys zs final := by
  obtain ⟨xs, m₁, rx, hx, hax⟩ := alignContours_aligned .x model
  obtain ⟨ys, m₂, ry, hy, hay⟩ := alignContours_aligned .y m₁
  obtain ⟨zs, m₃, rz, hz, haz⟩ := alignContours_aligned .z m₂
  exact ⟨xs, m₁, ys, m₂, zs, m₃, hx, hy, hz, ⟨m₁, m₂, rx, ry, rz, hax, hay, haz⟩⟩

/-! ## The polygons -/

/-- The chains of several planes, each traced to the end. -/
def Traced (model : Model3d) (planes : List (List ℕ)) (outs : List TraceState) : Prop :=
  List.Forall₂ (fun plane out => Loop.Ends (traceStep model.edges plane) .start (.ok out)) planes outs

theorem passes_of_ok {xs ys zs : List (List ℕ)} {m₁ m₂ final : Model3d} (hx : alignContoursX model = .ok (xs, m₁))
    (hy : alignContoursY m₁ = .ok (ys, m₂)) (hz : alignContoursZ m₂ = .ok (zs, final)) :
    Passes model xs ys zs final := by
  obtain ⟨xs', m₁', ys', m₂', zs', final', hx', hy', hz', h⟩ := passes_exist model
  cases hx.symm.trans hx'
  cases hy.symm.trans hy'
  cases hz.symm.trans hz'
  exact h

/-- After the passes, `load` comes to an end, and writes the chains of all planes with the points of the
aligned model. -/
theorem load_of_ok {xs ys zs : List (List ℕ)} {m₁ m₂ final : Model3d} (hx : alignContoursX model = .ok (xs, m₁))
    (hy : alignContoursY m₁ = .ok (ys, m₂)) (hz : alignContoursZ m₂ = .ok (zs, final)) :
    ∃ outs, Traced final (xs ++ ys ++ zs) outs ∧
      Loop.Yields (fun fuel => load fuel model) (.ok (outs.flatMap fun out => out.exported.map (facet final))) := by
  have h := passes_of_ok hx hy hz
  obtain ⟨ox, hox, lx, hlx⟩ := addFaces_eq fun plane hplane =>
    h.plane_lt (List.mem_append_left _ (List.mem_append_left _ hplane))
  obtain ⟨oy, hoy, ly, hly⟩ := addFaces_eq fun plane hplane =>
    h.plane_lt (List.mem_append_left _ (List.mem_append_right _ hplane))
  obtain ⟨oz, hoz, lz, hlz⟩ := addFaces_eq fun plane hplane => h.plane_lt (List.mem_append_right _ hplane)
  refine ⟨ox ++ oy ++ oz, List.rel_append (List.rel_append hox hoy) hoz, max (max lx ly) lz, fun fuel hle => ?_⟩
  have hlx := hlx fuel ((le_max_left _ _).trans ((le_max_left _ _).trans hle))
  have hly := hly fuel ((le_max_right _ _).trans ((le_max_left _ _).trans hle))
  have hlz := hlz fuel ((le_max_right _ _).trans hle)
  simp only [load, hx, hy, hz, hlx, hly, hlz, bind, Except.bind, pure, Except.pure, List.flatMap_append]

theorem load_eq (model : Model3d) : ∃ xs ys zs final outs, Passes model xs ys zs final ∧
    Traced final (xs ++ ys ++ zs) outs ∧
      Loop.Yields (fun fuel => load fuel model) (.ok (outs.flatMap fun out => out.exported.map (facet final))) := by
  obtain ⟨xs, m₁, ys, m₂, zs, final, hx, hy, hz, h⟩ := passes_exist model
  obtain ⟨outs, houts, hload⟩ := load_of_ok hx hy hz
  exact ⟨xs, ys, zs, final, outs, h, houts, hload⟩

/-- A coordinate of a corner. -/
def Point3d.along (c : Point3d) : Axis → ℚ
  | .x => c.x
  | .y => c.y
  | .z => c.z

@[simp] theorem along_corner (axis : Axis) (p : Point3i) : (corner p).along axis = (axis.get p : ℚ) / visibilityRate := by
  cases axis <;> rfl

/-- A polygon goes along model edges from point to point, never twice through one, lies in a plane, and
has its corners near these points: `CONTOUR_DIFF` becomes 4 at the scale of the corners. -/
structure WellPlaced (model : Model3d) (g : Polygon) : Prop where
  distinct : g.ids.Nodup
  joined : g.ids.IsChain fun a b => isEdge model.edges a b = true
  flat : ∃ axis : Axis, ∃ c, ∀ q ∈ g.corners, q.along axis = c
  near : List.Forall₂ (fun k q => ∃ p, model.points[k]? = some p ∧
    ∀ axis : Axis, |q.along axis - (axis.get p : ℚ) / visibilityRate| < 4) g.ids g.corners

section Polygons

variable {xs ys zs : List (List ℕ)} {final : Model3d}

/-- The corners of a chain are those of points of the aligned model. -/
theorem Passes.facet_corner (h : Passes model xs ys zs final) {plane c : List ℕ} (hplane : plane ∈ xs ++ ys ++ zs)
    (hc : c ⊆ plane) {q : Point3d} (hq : q ∈ (facet final c).corners) :
    ∃ k ∈ c, ∃ p, final.points[k]? = some p ∧ q = corner p := by
  obtain ⟨k, hk, rfl⟩ := List.mem_map.1 hq
  have hget := List.getElem?_eq_getElem (h.plane_lt hplane k (hc hk))
  exact ⟨k, hk, _, hget, by rw [List.getD_eq_getElem?_getD, hget]; rfl⟩

theorem Passes.facet_wellPlaced (h : Passes model xs ys zs final) {plane c : List ℕ} (hplane : plane ∈ xs ++ ys ++ zs)
    (hc : SimplePath final.edges plane c) : WellPlaced model (facet final c) := by
  refine ⟨hc.nodup, h.edges ▸ hc.joined, ?_, ?_⟩
  · obtain ⟨axis, coord, hlevel⟩ := h.plane_level hplane
    refine ⟨axis, coord / visibilityRate, fun q hq => ?_⟩
    obtain ⟨k, hk, p, hp, rfl⟩ := h.facet_corner hplane hc.onPlane hq
    obtain ⟨p', hp', rfl⟩ := hlevel k (hc.onPlane hk)
    rw [hp, Option.some.injEq] at hp'
    rw [along_corner, hp']
  · refine List.forall₂_map_right_iff.2 (List.forall₂_same.2 fun k hk => ?_)
    obtain ⟨moved, hget⟩ : ∃ moved, final.points[k]? = some moved :=
      ⟨_, List.getElem?_eq_getElem (h.plane_lt hplane k (hc.onPlane hk))⟩
    obtain ⟨p, hp, hnear⟩ := h.point hget
    refine ⟨p, hp, fun axis => ?_⟩
    have hlt : |(axis.get p : ℚ) - axis.get moved| < 40 := by exact_mod_cast hnear axis
    rw [List.getD_eq_getElem?_getD, hget, Option.getD_some, along_corner, ← sub_div, abs_div, abs_sub_comm]
    norm_num [visibilityRate]
    linarith

theorem Traced.exists_plane {planes : List (List ℕ)} {outs : List TraceState} (h : Traced model planes outs)
    {out : TraceState} (hout : out ∈ outs) : ∃ plane ∈ planes, ∀ c ∈ out.exported, SimplePath model.edges plane c := by
  obtain ⟨plane, hplane, hends⟩ := List.Forall₂.exists_left h hout
  exact ⟨plane, hplane, fun c => exported_of_ends hends c⟩

/-- What `load` writes are chains traced through planes of the passes. -/
theorem load_facets (model : Model3d) : ∃ xs ys zs final polygons, Passes model xs ys zs final ∧
    Loop.Yields (fun fuel => load fuel model) (.ok polygons) ∧
    ∀ g ∈ polygons, ∃ plane ∈ xs ++ ys ++ zs, ∃ c, SimplePath final.edges plane c ∧ g = facet final c := by
  obtain ⟨xs, ys, zs, final, outs, h, htraced, hload⟩ := load_eq model
  refine ⟨xs, ys, zs, final, _, h, hload, fun g hg => ?_⟩
  obtain ⟨out, hout, hg⟩ := List.mem_flatMap.1 hg
  obtain ⟨c, hc, rfl⟩ := List.mem_map.1 hg
  obtain ⟨plane, hplane, hpath⟩ := htraced.exists_plane hout
  exact ⟨plane, hplane, c, hpath c hc, rfl⟩

/-- Whatever the model, `load` writes polygons that are well placed, with corners at the points of one
aligned model: along each axis these are level or `CONTOUR_DIFF` apart. -/
theorem load_polygons (model : Model3d) : ∃ (final : Model3d) (polygons : List Polygon),
    Loop.Yields (fun fuel => load fuel model) (.ok polygons) ∧ (∀ g ∈ polygons, WellPlaced model g) ∧
    (∀ g ∈ polygons, ∀ q ∈ g.corners, ∃ p ∈ final.points, q = corner p) ∧ ∀ axis, Snapped axis final := by
  obtain ⟨xs, ys, zs, final, polygons, h, hload, hfacet⟩ := load_facets model
  refine ⟨final, polygons, hload, fun g hg => ?_, fun g hg q hq => ?_, h.snapped⟩
  · obtain ⟨plane, hplane, c, hpath, rfl⟩ := hfacet g hg
    exact h.facet_wellPlaced hplane hpath
  · obtain ⟨plane, hplane, c, hpath, rfl⟩ := hfacet g hg
    obtain ⟨i, -, p, hp, rfl⟩ := h.facet_corner hplane hpath.onPlane hq
    exact ⟨p, List.mem_of_getElem? hp, rfl⟩

/-! ## Planes of outlines -/

theorem Traced.sameCycles : ∀ {planes : List (List ℕ)} {outs : List TraceState} {cycles : List (List (List ℕ))},
    Traced model planes outs → (∀ plane ∈ planes, plane.Nodup) → List.Forall₂ (Outlines model.edges) planes cycles →
    (outs.flatMap TraceState.exported).SameCycles cycles.flatten
  | _, _, _, .nil, _, .nil => .refl []
  | _, _, _, .cons hout houts, hnodup, .cons hcycles hrest => by
    rw [List.flatMap_cons, List.flatten_cons]
    exact (exported_sameCycles hcycles (hnodup _ (List.mem_cons_self ..)) hout).append
      (Traced.sameCycles houts (fun plane hplane => hnodup plane (List.mem_cons_of_mem _ hplane)) hrest)

/-- Where every plane of the three passes is made of disjoint outlines, the outlines of all planes are what
`load` writes, one polygon each, with the points of the aligned model. -/
theorem load_outlines {m₁ m₂ : Model3d} (hx : alignContoursX model = .ok (xs, m₁))
    (hy : alignContoursY m₁ = .ok (ys, m₂)) (hz : alignContoursZ m₂ = .ok (zs, final)) {cycles : List (List (List ℕ))}
    (h : List.Forall₂ (Outlines model.edges) (xs ++ ys ++ zs) cycles) :
    ∃ faces : List (List ℕ), faces.SameCycles cycles.flatten ∧
      Loop.Yields (fun fuel => load fuel model) (.ok (faces.map (facet final))) := by
  have hpasses := passes_of_ok hx hy hz
  obtain ⟨outs, htraced, least, hload⟩ := load_of_ok hx hy hz
  refine ⟨outs.flatMap TraceState.exported, ?_, least, fun fuel hle => ?_⟩
  · exact htraced.sameCycles (fun plane hplane => hpasses.plane_nodup hplane) (hpasses.edges ▸ h)
  · rw [hload fuel hle, List.map_flatMap]

/-- A box with one of its corners moved by 5. -/
def skewedBox : Model3d where
  points := [⟨0, 0, 0⟩, ⟨100, 0, 0⟩, ⟨100, 200, 0⟩, ⟨0, 200, 0⟩, ⟨5, 0, 300⟩, ⟨100, 0, 300⟩, ⟨100, 200, 300⟩, ⟨0, 200, 300⟩]
  edges := [(0, 1), (1, 2), (2, 3), (0, 3), (4, 5), (5, 6), (6, 7), (4, 7), (0, 4), (1, 5), (2, 6), (3, 7)]
  inRange := by decide

/-- The box after the first pass. -/
def straightBox : Model3d := skewedBox.withPoints (skewedBox.points.set 4 ⟨0, 0, 300⟩) rfl

/-- The six faces of the box are written. -/
theorem load_skewedBox : ∃ faces : List (List ℕ), faces.SameCycles
    [[0, 3, 7, 4], [1, 2, 6, 5], [0, 1, 5, 4], [2, 3, 7, 6], [0, 1, 2, 3], [4, 5, 6, 7]] ∧
      Loop.Yields (fun fuel => load fuel skewedBox) (.ok (faces.map (facet straightBox))) :=
  have hx : alignContoursX skewedBox = .ok ([[0, 3, 4, 7], [1, 2, 5, 6]], straightBox) := rfl
  have hy : alignContoursY straightBox = .ok ([[0, 1, 4, 5], [2, 3, 6, 7]], straightBox) := rfl
  have hz : alignContoursZ straightBox = .ok ([[0, 1, 2, 3], [4, 5, 6, 7]], straightBox) := rfl
  have h : List.Forall₂ (Outlines skewedBox.edges)
      [[0, 3, 4, 7], [1, 2, 5, 6], [0, 1, 4, 5], [2, 3, 6, 7], [0, 1, 2, 3], [4, 5, 6, 7]]
      [[[0, 3, 7, 4]], [[1, 2, 6, 5]], [[0, 1, 5, 4]], [[2, 3, 7, 6]], [[0, 1, 2, 3]], [[4, 5, 6, 7]]] :=
    .cons ⟨by decide, by decide, by decide⟩ (.cons ⟨by decide, by decide, by decide⟩
      (.cons ⟨by decide, by decide, by decide⟩ (.cons ⟨by decide, by decide, by decide⟩
        (.cons ⟨by decide, by decide, by decide⟩ (.cons ⟨by decide, by decide, by decide⟩ .nil)))))
  load_outlines hx hy hz h

end Polygons

end DetailIdentifier.Modeller
