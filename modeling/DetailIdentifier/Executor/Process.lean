/-
`processor::process`, the pipeline from the polygons of the contours on: they are vectorized, the drawing
is interpreted, and the interpretation is modelled. Images and what is read from them stay outside.

Behind the vectorizer nothing but `prune` decides how a run ends (`Processed.decided`), and every corner
written can be traced back to a vertex of each view (`process_traceable`).
-/
import DetailIdentifier.Vectorizer.Edges
import DetailIdentifier.Modeller.Model

namespace DetailIdentifier.Executor

open Vectorizer (Drawing vectorize vectorize_spec steps join Ledger)
open Interpreter Modeller

/-! ## The code -/

/-- `processor::process` behind the preprocessor: the stages hand their outputs on. -/
noncomputable def process (minAreaRect : List Point2i → RotatedRect) (toPoint : ℝ × ℝ → Point2i) (fuel cols rows : ℕ)
    (vertices : List (List Point2i)) : Except Fault (List Polygon) := do
  let vectorizedData ← vectorize cols rows vertices
  let interpretedData ← generateInterpretation minAreaRect toPoint fuel vectorizedData.vertices vectorizedData.edges
  generateModel toPoint fuel interpretedData

/-! ## The vectorized drawing -/

/-- The edges of a drawing join its points. -/
theorem traced_inRange (d : Drawing) : ∀ e ∈ ((Ledger.paths ⟨[], []⟩ d.processed).flatMap steps).foldl join [],
    e.1 < (Ledger.after d.processed.flatten).points.length ∧ e.2 < (Ledger.after d.processed.flatten).points.length := by
  intro e he
  obtain ⟨p, hp, -, hpe⟩ := ((Vectorizer.foldl_join_mem s(e.1, e.2) _ _).1 ⟨e, he, rfl⟩).resolve_left (by simp)
  obtain ⟨is, his, hpis⟩ := List.mem_flatMap.1 hp
  have hlt := Ledger.paths_lt d.processed (l := ⟨[], []⟩) (fun p hp => by cases hp) is his
  have h1 := hlt p.1 (List.of_mem_zip hpis).1
  have h2 := hlt p.2 (List.mem_of_mem_tail (List.of_mem_zip hpis).2)
  rcases Sym2.eq_iff.1 hpe with ⟨he1, he2⟩ | ⟨he1, he2⟩ <;> rw [← he1, ← he2]
  exacts [⟨h1, h2⟩, ⟨h2, h1⟩]

/-- What the vectorizer makes of a drawing. -/
def vectorized (d : Drawing) : Input where
  vertices := (Ledger.after d.processed.flatten).points
  edges := ((Ledger.paths ⟨[], []⟩ d.processed).flatMap steps).foldl join []
  inRange := traced_inRange d

section Runs

variable (minAreaRect : List Point2i → RotatedRect) (toPoint : ℝ × ℝ → Point2i) (d : Drawing)

theorem process_eq (fuel : ℕ) : process minAreaRect toPoint fuel d.cols d.rows d.contours = (do
    let interpretedData ← generateInterpretation minAreaRect toPoint fuel (vectorized d).vertices (vectorized d).edges
    generateModel toPoint fuel interpretedData) := by
  rw [process, vectorize_spec]
  rfl

/-! ## Outcomes -/

/-- How a run ends on what `prune` leaves: only two views are modelled, and all lines must be drawn. -/
inductive Processed : Except Fault (List (Projection RotatedRect)) → Except Fault (List Polygon) → Prop where
  | overrun : Processed (.error .outOfRange) (.error .outOfRange)
  | few {views} : views.length < 2 → Processed (.ok views) (.error .outOfRange)
  | many {views} : LinesFit toPoint views → 2 < views.length → Processed (.ok views) (.error .assertion)
  | manyUndefined {views} : ¬LinesFit toPoint views → 2 < views.length → Processed (.ok views) (.error .undefined)
  | two {p q z z' polygons} : CastLinesFit toPoint p q → View p → View q → p.vertices[0]? = some z →
      q.vertices.argmin (Interpreter.calculateDistance z (calculateDirection p q)) = some z' →
      Loop.Yields (fun fuel => load fuel (foundModel p q z z')) (.ok polygons) → Processed (.ok [p, q]) (.ok polygons)
  | twoUndefined {p q} : ¬CastLinesFit toPoint p q → Processed (.ok [p, q]) (.error .undefined)

theorem process_error {f : Fault} (h : Loop.Yields
      (fun fuel => generateInterpretation minAreaRect toPoint fuel (vectorized d).vertices (vectorized d).edges) (.error f)) :
    Loop.Yields (fun fuel => process minAreaRect toPoint fuel d.cols d.rows d.contours) (.error f) := by
  simp only [process_eq]
  exact h.comp (g := fun fuel interpretedData => do
    let interpretedData ← interpretedData
    generateModel toPoint fuel interpretedData) ⟨0, fun _ _ => rfl⟩

theorem process_arranged {p q : Projection RotatedRect} {z z' : Point2i} {result : Except Fault (List Polygon)}
    (h : Loop.Yields
      (fun fuel => generateInterpretation minAreaRect toPoint fuel (vectorized d).vertices (vectorized d).edges)
      (.ok (arranged p q z z')))
    (hmodel : Loop.Yields (fun fuel => generateModel toPoint fuel (arranged p q z z')) result) :
    Loop.Yields (fun fuel => process minAreaRect toPoint fuel d.cols d.rows d.contours) result := by
  simp only [process_eq]
  exact h.comp (g := fun fuel interpretedData => do
    let interpretedData ← interpretedData
    generateModel toPoint fuel interpretedData) hmodel

/-- A run of the pipeline: the strokes are separated, `prune` ends, and the rest follows from what it
leaves. -/
theorem process_processed : ∃ comps o result, Separation (vectorized d) comps ∧ (∀ k ∈ comps, k.edges ≠ []) ∧
    separateProjections (vectorized d).vertices (vectorized d).edges =
      .ok (comps.map (Component.toProjection (β := RotatedRect) (vectorized d))) ∧
    Loop.Ends pruneStep (pruneStart (boxed minAreaRect (comps.map (Component.toProjection (vectorized d))))) o ∧
    Processed toPoint o result ∧
    Loop.Yields (fun fuel => process minAreaRect toPoint fuel d.cols d.rows d.contours) result := by
  obtain ⟨comps, o, result, hsep, hne, hcomps, ho, hresult, hyields⟩ :=
    generateInterpretation_interpreted minAreaRect toPoint (vectorized d)
  suffices hrun : ∃ result, Processed toPoint o result ∧
      Loop.Yields (fun fuel => process minAreaRect toPoint fuel d.cols d.rows d.contours) result by
    obtain ⟨result, hrun⟩ := hrun
    exact ⟨comps, o, result, hsep, hne, hcomps, ho, hrun⟩
  cases hresult with
  | overrun => exact ⟨_, .overrun, process_error minAreaRect toPoint d hyields⟩
  | few hlen => exact ⟨_, .few hlen, process_error minAreaRect toPoint d hyields⟩
  | many hfit hlen => exact ⟨_, .many hfit hlen, process_error minAreaRect toPoint d hyields⟩
  | @undefined views hfit =>
    refine ⟨_, ?_, process_error minAreaRect toPoint d hyields⟩
    -- with fewer than two views there is no line to draw
    rcases Nat.lt_trichotomy views.length 2 with hlen | hlen | hlen
    · exact absurd (linesFit_of_few hlen) hfit
    · obtain ⟨p, q, rfl⟩ := List.length_eq_two.1 hlen
      exact .twoUndefined fun h => hfit h.linesFit
    · exact .manyUndefined hfit hlen
  | @two p q z z' _ hp hq hz hz' =>
    by_cases hfit : CastLinesFit toPoint p q
    · obtain ⟨-, -, -, -, polygons, -, hload, -⟩ := load_facets (foundModel p q z z')
      refine ⟨_, .two hfit hp hq hz hz' hload, process_arranged minAreaRect toPoint d hyields ?_⟩
      simpa only [generateModel_arranged p q z z' hfit] using hload
    · exact ⟨_, .twoUndefined hfit, process_arranged minAreaRect toPoint d hyields
        ⟨0, fun fuel _ => generateModel_undefined p q z z' hfit fuel⟩⟩

/-- What `prune` leaves decides how a run ends: it writes polygons for two views with all cast lines drawn,
fails an assertion for more, and reads past the end of a vector for fewer. Where a line cannot be drawn it
ends there. No other fault can occur. -/
structure Decided (o : Except Fault (List (Projection RotatedRect))) (result : Except Fault (List Polygon)) : Prop where
  polygons : (∃ polygons, result = .ok polygons) ↔ ∃ p q, o = .ok [p, q] ∧ CastLinesFit toPoint p q
  assertion : result = .error .assertion ↔ ∃ views, o = .ok views ∧ 2 < views.length ∧ LinesFit toPoint views
  outOfRange : result = .error .outOfRange ↔ o = .error .outOfRange ∨ ∃ views, o = .ok views ∧ views.length < 2
  undefined : result = .error .undefined ↔ (∃ p q, o = .ok [p, q] ∧ ¬CastLinesFit toPoint p q) ∨
    ∃ views, o = .ok views ∧ 2 < views.length ∧ ¬LinesFit toPoint views
  noOther : result ≠ .error .unset ∧ result ≠ .error .outOfFuel

variable {toPoint} in
theorem Processed.decided {o : Except Fault (List (Projection RotatedRect))} {result : Except Fault (List Polygon)}
    (h : Processed toPoint o result) : Decided toPoint o result := by
  have hpair : ∀ {views : List (Projection RotatedRect)} {p q : Projection RotatedRect}, views.length ≠ 2 →
      views ≠ [p, q] := fun hlen heq => hlen (by rw [heq]; rfl)
  cases h with
  | overrun => constructor <;> simp
  | few hlen =>
    have hle := Nat.le_of_lt_succ hlen
    constructor <;> simp [hpair hlen.ne, hlen.not_gt, hle]
  | many hfit hlen =>
    have hlt := Nat.lt_of_succ_lt hlen
    constructor <;> simp [hpair hlen.ne', hlen, hfit, hlt]
  | manyUndefined hfit hlen =>
    have hlt := Nat.lt_of_succ_lt hlen
    constructor <;> simp [hpair hlen.ne', hlen, hfit, hlt]
  | two hfit => constructor <;> simp [hfit]
  | twoUndefined hfit => constructor <;> simp [hfit]

/-- Every run comes to its end, in the way that `prune` decides on the separated drawing. -/
theorem process_decided : ∃ ps o result,
    separateProjections (vectorized d).vertices (vectorized d).edges = .ok ps ∧
    Loop.Ends pruneStep (pruneStart (boxed minAreaRect ps)) o ∧
    Loop.Yields (fun fuel => process minAreaRect toPoint fuel d.cols d.rows d.contours) result ∧
    Decided toPoint o result := by
  obtain ⟨comps, o, result, -, -, hcomps, ho, hresult, hyields⟩ := process_processed minAreaRect toPoint d
  exact ⟨_, o, result, hcomps, ho, hyields, hresult.decided⟩

/-! ## Where corners come from -/

section Views

variable (p q : Projection RotatedRect) (z z' : Point2i)

/-- Where a vertex of each view is in space: the first view gives `x` and `y`, the second `z`. -/
noncomputable def spatial (v w : Point2i) : Point3i where
  x := ((mainSystem (calculateDirection p q) z).getLocationOf v).x
  y := ((mainSystem (calculateDirection p q) z).getLocationOf v).y
  z := ((sideSystem (calculateDirection p q) z').getLocationOf w).z

/-- A corner is drawn at a vertex of each view: both lie on one cast line, and the corner is where they
are in space, up to the alignment of planes. -/
structure DrawnAt (ends : Point2i × Point2i) (c : Point3d) : Prop where
  first : ends.1 ∈ p.vertices
  second : ends.2 ∈ q.vertices
  cast : Modeller.calculateDistance ends.1 (calculateDirection p q) ends.2 < maxDiff
  near : ∀ axis : Axis, |c.along axis - (axis.get (spatial p q z z' ends.1 ends.2) : ℚ) / visibilityRate| < 4

/-- In the view the two points are one, or a stroke joins them. -/
def Drawn (v v' : Point2i) : Prop := v = v' ∨ (v, v') ∈ p.edges ∨ (v', v) ∈ p.edges

variable {p q z z'}

variable (p q z z') in
/-- The vertices a model point comes from. -/
noncomputable def endsOf (k : ℕ) : Point2i × Point2i :=
  ((foundPoints p q z z')[k]?.map fun m =>
    (p.vertices.getD m.1.pt1 ⟨0, 0⟩, q.vertices.getD m.1.pt2 ⟨0, 0⟩)).getD (⟨0, 0⟩, ⟨0, 0⟩)

theorem endsOf_eq {k j l : ℕ} {P : Point3i} {v w : Point2i} (h : (foundPoints p q z z')[k]? = some (⟨0, j, 1, l⟩, P))
    (hv : p.vertices[j]? = some v) (hw : q.vertices[l]? = some w) : endsOf p q z z' k = (v, w) := by
  simp [endsOf, h, hv, hw]

/-- A corner near a model point is drawn at the vertices the point comes from. -/
theorem drawnAt_endsOf {k : ℕ} {P : Point3i} {c : Point3d} (h : (foundModel p q z z').points[k]? = some P)
    (hnear : ∀ axis : Axis, |c.along axis - (axis.get P : ℚ) / visibilityRate| < 4) :
    DrawnAt p q z z' (endsOf p q z z' k) c := by
  obtain ⟨⟨m, P'⟩, hm, rfl⟩ := Option.map_eq_some_iff.1 (List.getElem?_map.symm.trans h)
  obtain ⟨j, l, v, w, rfl, hv, hw, hdist, hP⟩ := (mem_foundPoints p q z z').1 (List.mem_of_getElem? hm)
  rw [endsOf_eq hm hv hw]
  refine ⟨List.mem_of_getElem? hv, List.mem_of_getElem? hw, hdist, ?_⟩
  rw [← hP] at hnear
  exact hnear

theorem Drawn.symm {v v' : Point2i} (h : Drawn p v v') : Drawn p v' v := by
  rcases h with rfl | h | h
  exacts [.inl rfl, .inr (.inr h), .inr (.inl h)]

/-- An index edge joins the points it names. -/
theorem drawn_of_adjacent (hp : View p) {i j : ℕ} {v v' : Point2i} (hv : p.vertices[i]? = some v)
    (hv' : p.vertices[j]? = some v') (h : Adjacent p i j) : Drawn p v v' := by
  have hstroke : ∀ {i j : ℕ} {v v' : Point2i}, p.vertices[i]? = some v → p.vertices[j]? = some v' →
      (i, j) ∈ p.cedges → (v, v') ∈ p.edges := by
    intro i j v v' hv hv' hc
    obtain ⟨e, he, h1, h2⟩ := hp.names.exists_right hc
    rw [hv, Option.some.injEq] at h1
    rw [hv', Option.some.injEq] at h2
    rwa [show (v, v') = e from Prod.ext h1 h2]
  rcases h with rfl | h | h
  · exact .inl (Option.some.inj (hv.symm.trans hv'))
  · exact .inr (.inl (hstroke hv hv' h))
  · exact .inr (.inr (hstroke hv' hv h))

theorem drawn_of_linked (hp : View p) {a b : ℕ} (h : (a, b) ∈ (foundModel p q z z').edges) :
    Drawn p (endsOf p q z z' a).1 (endsOf p q z z' b).1 := by
  obtain ⟨-, _, _, hma, hmb, hlinked⟩ := mem_linkedPairs.1 h
  obtain ⟨⟨m, P⟩, ha, rfl⟩ := Option.map_eq_some_iff.1 (List.getElem?_map.symm.trans hma)
  obtain ⟨⟨m', P'⟩, hb, rfl⟩ := Option.map_eq_some_iff.1 (List.getElem?_map.symm.trans hmb)
  obtain ⟨j, l, v, w, rfl, hv, hw, -⟩ := (mem_foundPoints p q z z').1 (List.mem_of_getElem? ha)
  obtain ⟨j', l', v', w', rfl, hv', hw', -⟩ := (mem_foundPoints p q z z').1 (List.mem_of_getElem? hb)
  rw [endsOf_eq ha hv hw, endsOf_eq hb hv' hw']
  -- of the two tests only the one on the first view's own vertices says something about strokes
  obtain ⟨hadjacent, -⟩ := (linked_sameViews (p := { p with s := some (mainSystem (calculateDirection p q) z) })
    rfl rfl).1 hlinked
  exact drawn_of_adjacent hp hv hv' hadjacent

theorem drawn_of_isEdge (hp : View p) {a b : ℕ} (h : isEdge (foundModel p q z z').edges a b = true) :
    Drawn p (endsOf p q z z' a).1 (endsOf p q z z' b).1 := by
  rcases isEdge_iff.1 h with h | h
  exacts [drawn_of_linked hp h, (drawn_of_linked hp h).symm]

end Views

/-- Whatever is written can be traced back to the drawing: the strokes of the vectorized contours are split
among two views, every corner of every polygon is drawn at a vertex of each view on one cast line, and
from corner to corner the first view's vertex stays or moves along a stroke. -/
theorem process_traceable {polygons : List Polygon}
    (h : Loop.Yields (fun fuel => process minAreaRect toPoint fuel d.cols d.rows d.contours) (.ok polygons)) :
    ∃ p q z z', (p.edges ++ q.edges).Perm (vectorized d).strokes ∧
      (p.vertices ++ q.vertices).Perm ((vectorized d).touched.map (vectorized d).coord) ∧
      ∀ g ∈ polygons, ∃ ends, List.Forall₂ (DrawnAt p q z z') ends g.corners ∧
        ends.IsChain fun a b => Drawn p a.1 b.1 := by
  obtain ⟨comps, o, result, hsep, -, -, ho, hresult, hyields⟩ := process_processed minAreaRect toPoint d
  cases hyields.unique h
  cases hresult with
  | @two p q z z' _ _ hp hq _ _ hload =>
    obtain ⟨xs, ys, zs, final, polygons', hpasses, hload', hfacet⟩ := load_facets (foundModel p q z z')
    cases hload.unique hload'
    have hperm := hsep.pruned ho
    simp only [List.flatMap_cons, List.flatMap_nil, List.append_nil] at hperm
    refine ⟨p, q, z, z', hperm.1, hperm.2, fun g hg => ?_⟩
    obtain ⟨plane, hplane, c, hpath, rfl⟩ := hfacet g hg
    have hplaced := hpasses.facet_wellPlaced hplane hpath
    refine ⟨c.map (endsOf p q z z'), ?_, ?_⟩
    · refine List.forall₂_map_left_iff.2 (hplaced.near.imp fun k q ⟨P, hP, hnear⟩ => drawnAt_endsOf hP hnear)
    · exact (List.isChain_map _).2 (hplaced.joined.imp fun a b hab => drawn_of_isEdge hp hab)

end Runs

/-- A rectangle, and another one to the right and below. -/
def rectanglesDrawing : Drawing where
  cols := 500
  rows := 400
  contours := [[⟨0, 0⟩, ⟨100, 0⟩, ⟨100, 60⟩, ⟨0, 60⟩], [⟨300, 200⟩, ⟨400, 200⟩, ⟨400, 260⟩, ⟨300, 260⟩]]
  nonempty := by decide
  inside := by decide

theorem castLinesFit_twoRectangles {p q : Projection RotatedRect} (hp : p.vertices = twoRectangles.vertices.drop 4) :
    CastLinesFit roundPoint (p.withBox (UprightRect.toRotated ⟨(350, 230), 100, 60⟩))
      (q.withBox (UprightRect.toRotated ⟨(50, 30), 100, 60⟩)) := by
  rw [castLinesFit_iff]
  · norm_num [Projection.withBox, UprightRect.toRotated]
  · simp only [Projection.withBox, UprightRect.toRotated, roundPoint, round_intCast, hp]
    decide
  · norm_num [Projection.withBox, UprightRect.toRotated]

/-- Three sides of each are found, and they become two views. -/
theorem rectanglesDrawing_yields : ∃ polygons, Loop.Yields
    (fun fuel => process uprightRect roundPoint fuel rectanglesDrawing.cols rectanglesDrawing.rows
      rectanglesDrawing.contours) (.ok polygons) := by
  obtain ⟨comps, o, result, -, -, hcomps, ho, hresult, hyields⟩ :=
    process_processed uprightRect roundPoint rectanglesDrawing
  have hvertices : (vectorized rectanglesDrawing).vertices = twoRectangles.vertices := by decide
  have hedges : (vectorized rectanglesDrawing).edges = twoRectangles.edges := by decide
  obtain ⟨p, q, hs, hp, hq⟩ := separate_twoRectangles
  rw [hvertices, hedges, hs] at hcomps
  rw [← Except.ok.inj hcomps] at ho
  obtain ⟨hap, -⟩ := boxesApart_twoRectangles hp hq
  cases ho.unique (prune_apart hap)
  obtain ⟨polygons, rfl⟩ := hresult.decided.polygons.2
    ⟨_, _, congrArg Except.ok (boxed_twoRectangles hp hq), castLinesFit_twoRectangles hp⟩
  exact ⟨polygons, hyields⟩

theorem process_traceable_rectangles : ∃ polygons p q z z',
    Loop.Yields (fun fuel => process uprightRect roundPoint fuel rectanglesDrawing.cols rectanglesDrawing.rows
      rectanglesDrawing.contours) (.ok polygons) ∧
    (p.edges ++ q.edges).Perm (vectorized rectanglesDrawing).strokes ∧
    (p.vertices ++ q.vertices).Perm ((vectorized rectanglesDrawing).touched.map (vectorized rectanglesDrawing).coord) ∧
    ∀ g ∈ polygons, ∃ ends, List.Forall₂ (DrawnAt p q z z') ends g.corners ∧
      ends.IsChain fun a b => Drawn p a.1 b.1 := by
  obtain ⟨polygons, hyields⟩ := rectanglesDrawing_yields
  obtain ⟨p, q, z, z', h⟩ := process_traceable uprightRect roundPoint rectanglesDrawing hyields
  exact ⟨polygons, p, q, z, z', hyields, h⟩

end DetailIdentifier.Executor
