/-
`build_model`: a point for every two vertices of two views that lie on one cast line, and an edge
between two points whose vertices are the same or joined in the views.
-/
import DetailIdentifier.Lib.Lists
import DetailIdentifier.Interpreter.Directions

namespace DetailIdentifier.Modeller

open Interpreter

/-- `MAX_DIFF`. -/
def maxDiff : Int := 30

variable {β : Type}

/-! ## Points -/

/-- `calculate_distance` of the modeller. -/
noncomputable def Rounded.calculateDistance (fl : ℝ → ℝ) (center : Point2i) (parallel : ProjectionDirection)
    (target : Point2i) : ℝ :=
  let line : ProjectionDirection :=
    ⟨parallel.alpha, fl (fl (fl (Real.cos parallel.alpha) * center.x) + fl (fl (Real.sin parallel.alpha) * center.y))⟩
  |fl (fl (fl (fl (Real.cos line.alpha) * target.x) + fl (fl (Real.sin line.alpha) * target.y)) - line.p)|

noncomputable abbrev calculateDistance : Point2i → ProjectionDirection → Point2i → ℝ := Rounded.calculateDistance id

theorem calculateDistance_def (center : Point2i) (parallel : ProjectionDirection) (target : Point2i) :
    calculateDistance center parallel target =
      |Real.cos parallel.alpha * target.x + Real.sin parallel.alpha * target.y -
        (Real.cos parallel.alpha * center.x + Real.sin parallel.alpha * center.y)| := rfl

/-- The messages of `merge_points`. -/
inductive Warning where
  | noX
  | differentX
  | noY
  | differentY
  | noZ
  | differentZ
deriving DecidableEq, Repr

def Warning.text : Warning → String
  | noX => "None of the points has x coordinate!"
  | differentX => "Wrong points were used! Too big x difference between same point: "
  | noY => "None of the points has y coordinate!"
  | differentY => "Wrong points were used! Too big y difference between same point: "
  | noZ => "None of the points has z coordinate!"
  | differentZ => "Wrong points were used! Too big z difference between same point: "

/-- A coordinate of `merge_points`: the first view's if it has one, else the second's. -/
def mergeCoordinate (has1 has2 : Bool) (c1 c2 : Int) (none different : Warning) : Int × List Warning :=
  (if has1 then c1 else if has2 then c2 else 0,
    (if !(has1 || has2) then [none] else []) ++ if has1 && has2 && maxDiff < |c1 - c2| then [different] else [])

/-- `merge_points`. -/
def mergePoints (p1 : Point3i) (s1 : CoordinateSystem) (p2 : Point3i) (s2 : CoordinateSystem) : Point3i × List Warning :=
  let x := mergeCoordinate s1.hasX s2.hasX p1.x p2.x .noX .differentX
  let y := mergeCoordinate s1.hasY s2.hasY p1.y p2.y .noY .differentY
  let z := mergeCoordinate s1.hasZ s2.hasZ p1.z p2.z .noZ .differentZ
  (⟨x.1, y.1, z.1⟩, x.2 ++ y.2 ++ z.2)

/-- The coordinate system of a view, once assigned. -/
def fetchSystem (p : Projection β) : Except Fault CoordinateSystem :=
  match p.s with
  | none => .error .unset
  | some s => .ok s

/-- `coords_point`. -/
noncomputable def Rounded.coordsPoint (fl : ℝ → ℝ) (p1 : Projection β) (p1i : ℕ) (p2 : Projection β) (p2i : ℕ) :
    Except Fault (Point3i × List Warning) := do
  let s1 ← fetchSystem p1
  let s2 ← fetchSystem p2
  let v1 ← fetch p1.vertices p1i
  let v2 ← fetch p2.vertices p2i
  return mergePoints (Rounded.getLocationOf fl s1 v1) s1 (Rounded.getLocationOf fl s2 v2) s2

noncomputable abbrev coordsPoint : Projection β → ℕ → Projection β → ℕ → Except Fault (Point3i × List Warning) :=
  Rounded.coordsPoint id

/-- `parents`: the views and vertices a model point comes from. -/
structure Parents where
  proj1 : ℕ
  pt1 : ℕ
  proj2 : ℕ
  pt2 : ℕ
deriving DecidableEq, Repr

/-- The vertex pairs the loops of `build_model` run through, in their order. -/
def candidates (projections : List (Projection β)) : List Parents :=
  projections.zipIdx.flatMap fun (p1, i) => (projections.zipIdx.drop (i + 1)).flatMap fun (p2, k) =>
    (List.range p1.vertices.length).flatMap fun j => (List.range p2.vertices.length).map fun l => ⟨i, j, k, l⟩

namespace Rounded

variable (fl : ℝ → ℝ)

/-- The body of the loops: two vertices on one cast line give a point. -/
noncomputable def matchVertices (projections : List (Projection β)) (directions : List (List ProjectionDirection))
    (m : Parents) : Except Fault (Option (Parents × Point3i)) := do
  let p1 ← fetch projections m.proj1
  let p2 ← fetch projections m.proj2
  let v ← fetch p1.vertices m.pt1
  let w ← fetch p2.vertices m.pt2
  let d ← fetchDirection directions m.proj1 m.proj2
  if calculateDistance fl v d w < maxDiff then
    let (p, _) ← coordsPoint fl p1 m.pt1 p2 m.pt2
    return some (m, p)
  else return none

/-- The points with their parents, `points_parents` and `mod.points`. -/
noncomputable def modelPoints (projections : List (Projection β)) (directions : List (List ProjectionDirection)) :
    Except Fault (List (Parents × Point3i)) := do
  let points ← (candidates projections).mapM (matchVertices fl projections directions)
  return points.reduceOption

end Rounded

/-! ## Edges -/

/-- Whether two vertices of a view are the same or joined. -/
def joined (edges : List (ℕ × ℕ)) (same : Bool) (i j : ℕ) : Bool :=
  same || edges.contains (i, j) || edges.contains (j, i)

/-- The test for an edge between two points. The edges of the second view are fetched, but the
edges of the first are searched for both. -/
def connected (projections : List (Projection β)) (p q : Parents) : Except Fault Bool := do
  -- both ends of the second view are looked up in `firstEdges`
  let first ← fetch projections p.proj1
  let firstEdges := first.cedges
  if q.proj1 = p.proj1 then
    let _secondEdges ← fetch projections q.proj2
    return joined firstEdges (p.pt1 == q.pt1) p.pt1 q.pt1 && joined firstEdges (p.pt2 == q.pt2) p.pt2 q.pt2
  else if q.proj1 = p.proj2 then
    let _secondEdges ← fetch projections q.proj1
    return joined firstEdges (p.pt1 == q.pt1) p.pt1 q.pt2 && joined firstEdges (p.pt2 == q.pt2) p.pt2 q.pt1
  else return false

/-- `model3d`: points, and edges between their positions, as the listing of the edges reads them. -/
structure Model3d where
  points : List Point3i
  edges : List (ℕ × ℕ)
  inRange : ∀ e ∈ edges, e.1 < points.length ∧ e.2 < points.length

/-- The edges between points, each from the smaller index to the greater. -/
def modelEdges (projections : List (Projection β)) (parents : List Parents) : Except Fault (List (ℕ × ℕ)) := do
  let edges ← parents.zipIdx.mapM fun (p, a) => do
    let ends ← (parents.zipIdx.drop (a + 1)).filterM fun (q, _) => connected projections p q
    return ends.map fun (_, b) => (a, b)
  return edges.flatten

theorem modelEdges_inRange {projections : List (Projection β)} {points : List (Parents × Point3i)} {edges : List (ℕ × ℕ)}
    (h : modelEdges projections (points.map (·.1)) = .ok edges) :
    ∀ e ∈ edges, e.1 < (points.map (·.2)).length ∧ e.2 < (points.map (·.2)).length := by
  have hlt : ∀ {x : Parents × ℕ}, x ∈ (points.map (·.1)).zipIdx → x.2 < (points.map (·.2)).length := fun hx => by
    simpa using (List.getElem?_eq_some_iff.1 (List.mem_zipIdx_iff_getElem?.1 hx)).1
  obtain ⟨rows, hrows, h⟩ := bind_ok_inv h
  cases h
  intro e he
  obtain ⟨row, hrow, he⟩ := List.mem_flatten.1 he
  obtain ⟨x, hx, hends⟩ := List.exists_of_mem_mapM hrows hrow
  obtain ⟨ends, hfilter, hends⟩ := bind_ok_inv hends
  cases hends
  obtain ⟨y, hy, rfl⟩ := List.mem_map.1 he
  exact ⟨hlt hx, hlt (List.mem_of_mem_drop (List.mem_of_filterM hfilter hy))⟩

/-- `build_model`. -/
noncomputable def Rounded.buildModel (fl : ℝ → ℝ) (projections : List (Projection β)) (directions : List (List ProjectionDirection)) :
    Except Fault Model3d := do
  let points ← modelPoints fl projections directions
  match h : modelEdges projections (points.map (·.1)) with
  | .error fault => throw fault
  | .ok edges => return ⟨points.map (·.2), edges, modelEdges_inRange h⟩

noncomputable abbrev buildModel : List (Projection β) → List (List ProjectionDirection) → Except Fault Model3d :=
  Rounded.buildModel id

theorem Rounded.buildModel_eq {fl : ℝ → ℝ} {projections : List (Projection β)} {directions : List (List ProjectionDirection)}
    {points : List (Parents × Point3i)} {edges : List (ℕ × ℕ)} (hpoints : modelPoints fl projections directions = .ok points)
    (hedges : modelEdges projections (points.map (·.1)) = .ok edges) :
    buildModel fl projections directions = .ok ⟨points.map (·.2), edges, modelEdges_inRange hedges⟩ := by
  simp only [buildModel, hpoints, bind, Except.bind]
  split
  · rename_i h
    cases h.symm.trans hedges
  · rename_i h
    cases h.symm.trans hedges
    rfl

/-! ## Points and their parents -/

theorem mem_candidates {projections : List (Projection β)} {m : Parents} : m ∈ candidates projections ↔
    ∃ p q, projections[m.proj1]? = some p ∧ projections[m.proj2]? = some q ∧ m.proj1 < m.proj2 ∧
      m.pt1 < p.vertices.length ∧ m.pt2 < q.vertices.length := by
  simp only [candidates, List.mem_flatMap, List.mem_map, List.mem_range, Prod.exists, List.mem_drop_zipIdx,
    List.mem_zipIdx_iff_getElem?]
  constructor
  · rintro ⟨p, i, hp, q, k, ⟨hik, hq⟩, j, hj, l, hl, rfl⟩
    exact ⟨p, q, hp, hq, hik, hj, hl⟩
  · rintro ⟨p, q, hp, hq, hik, hj, hl⟩
    exact ⟨p, _, hp, q, _, ⟨hik, hq⟩, _, hj, _, hl, rfl⟩

/-- What the body of the loops returns, it returns with the vertices it was given. -/
theorem Rounded.matchVertices_fst {fl : ℝ → ℝ} {projections : List (Projection β)} {directions : List (List ProjectionDirection)}
    {m m' : Parents} {P : Point3i} (h : matchVertices fl projections directions m = .ok (some (m', P))) : m' = m := by
  simp only [matchVertices, bind, Except.bind, pure, Except.pure] at h
  repeat' split at h
  all_goals cases h
  rfl

/-- A model point comes from the pair of vertices it remembers. -/
theorem Rounded.mem_modelPoints {fl : ℝ → ℝ} {projections : List (Projection β)} {directions : List (List ProjectionDirection)}
    {points : List (Parents × Point3i)} (h : modelPoints fl projections directions = .ok points) {m : Parents}
    {P : Point3i} (hm : (m, P) ∈ points) : m ∈ candidates projections := by
  obtain ⟨r, hmap, h⟩ := bind_ok_inv h
  cases h
  obtain ⟨m', hm', hP⟩ := List.exists_of_mem_mapM hmap (List.reduceOption_mem_iff.1 hm)
  rwa [matchVertices_fst hP]

/-! ## Pairs of points -/

/-- The pairs of positions, the smaller first, whose points pass a test. -/
def linkedPairs (link : Parents → Parents → Bool) (parents : List Parents) : List (ℕ × ℕ) :=
  parents.zipIdx.flatMap fun x => ((parents.zipIdx.drop (x.2 + 1)).filter fun y => link x.1 y.1).map fun y => (x.2, y.2)

theorem mem_linkedPairs {link : Parents → Parents → Bool} {parents : List Parents} {a b : ℕ} :
    (a, b) ∈ linkedPairs link parents ↔
      a < b ∧ ∃ p q, parents[a]? = some p ∧ parents[b]? = some q ∧ link p q = true := by
  simp only [linkedPairs, List.mem_flatMap, List.mem_map, List.mem_filter, Prod.exists, List.mem_drop_zipIdx,
    List.mem_zipIdx_iff_getElem?, Prod.mk.injEq]
  constructor
  · rintro ⟨p, a', hp, q, b', ⟨⟨hab, hq⟩, hlink⟩, rfl, rfl⟩
    exact ⟨hab, p, q, hp, hq, hlink⟩
  · rintro ⟨hab, p, q, hp, hq, hlink⟩
    exact ⟨p, a, hp, q, b, ⟨⟨hab, hq⟩, hlink⟩, rfl, rfl⟩

theorem nodup_linkedPairs (link : Parents → Parents → Bool) (parents : List Parents) :
    (linkedPairs link parents).Nodup := by
  have hsnd := parents.nodup_map_snd_zipIdx
  refine List.nodup_flatMap.2 ⟨fun x _ => ?_, ?_⟩
  · -- the pairs with one first position differ in the second
    have hsub := (List.filter_sublist (p := fun y => link x.1 y.1)).trans (List.drop_sublist (x.2 + 1) parents.zipIdx)
    have hnodup := hsnd.sublist (hsub.map Prod.snd)
    rw [List.Nodup, List.pairwise_map] at hnodup ⊢
    exact hnodup.imp fun hne heq => hne (Prod.mk.inj heq).2
  · refine (List.pairwise_map.1 hsnd).imp fun {x y} hne => ?_
    simp only [Function.onFun, List.disjoint_left, List.mem_map]
    rintro _ ⟨z, -, rfl⟩ ⟨w, -, heq⟩
    exact hne (Prod.mk.inj heq).1.symm

theorem modelEdges_eq {projections : List (Projection β)} {parents : List Parents} {link : Parents → Parents → Bool}
    (h : ∀ p ∈ parents, ∀ q ∈ parents, connected projections p q = .ok (link p q)) :
    modelEdges projections parents = .ok (linkedPairs link parents) := by
  have hmem : ∀ {x : Parents × ℕ}, x ∈ parents.zipIdx → x.1 ∈ parents := fun hx =>
    List.mem_of_getElem? (List.mem_zipIdx_iff_getElem?.1 hx)
  have hends : ∀ x ∈ parents.zipIdx, (do
      let ends ← (parents.zipIdx.drop (x.2 + 1)).filterM fun y => connected projections x.1 y.1
      return ends.map fun y => (x.2, y.2) : Except Fault (List (ℕ × ℕ))) =
      .ok (((parents.zipIdx.drop (x.2 + 1)).filter fun y => link x.1 y.1).map fun y => (x.2, y.2)) := by
    intro x hx
    rw [List.filterM_eq_filter fun y hy => h x.1 (hmem hx) y.1 (hmem (List.mem_of_mem_drop hy))]
    rfl
  have hmap := List.mapM_eq_map hends
  unfold modelEdges linkedPairs
  rw [List.flatMap_def]
  exact (congrArg (· >>= fun edges => pure edges.flatten) hmap).trans rfl

/-- The edges are the pairs of points, the smaller index first, that pass the test. -/
theorem modelEdges_spec {projections : List (Projection β)} {parents : List Parents} {link : Parents → Parents → Bool}
    (h : ∀ p ∈ parents, ∀ q ∈ parents, connected projections p q = .ok (link p q)) :
    ∃ edges, modelEdges projections parents = .ok edges ∧ ∀ a b, (a, b) ∈ edges ↔
      a < b ∧ ∃ p q, parents[a]? = some p ∧ parents[b]? = some q ∧ link p q = true :=
  ⟨_, modelEdges_eq h, fun _ _ => mem_linkedPairs⟩

theorem joined_iff {edges : List (ℕ × ℕ)} {i j : ℕ} :
    joined edges (i == j) i j = true ↔ i = j ∨ (i, j) ∈ edges ∨ (j, i) ∈ edges := by
  simp [joined, or_assoc]

/-! ## Two views -/

theorem candidates_two (p q : Projection β) :
    candidates [p, q] = (List.range p.vertices.length).flatMap fun j =>
      (List.range q.vertices.length).map fun l => ⟨0, j, 1, l⟩ := by
  simp [candidates]

theorem mem_candidates_two {p q : Projection β} {m : Parents} :
    m ∈ candidates [p, q] ↔
      ∃ j l, m = ⟨0, j, 1, l⟩ ∧ j < p.vertices.length ∧ l < q.vertices.length := by
  rw [candidates_two]
  simp only [List.mem_flatMap, List.mem_map, List.mem_range]
  constructor
  · rintro ⟨j, hj, l, hl, rfl⟩
    exact ⟨j, l, rfl, hj, hl⟩
  · rintro ⟨j, l, rfl, hj, hl⟩
    exact ⟨j, hj, l, hl, rfl⟩

theorem nodup_candidates_two (p q : Projection β) : (candidates [p, q]).Nodup := by
  rw [candidates_two, List.nodup_flatMap]
  refine ⟨fun j _ => List.nodup_range.map fun l l' h => (Parents.mk.inj h).2.2.2, ?_⟩
  refine List.nodup_range.imp fun {j j'} hne => ?_
  simp only [Function.onFun, List.disjoint_left, List.mem_map]
  rintro _ ⟨l, _, rfl⟩ ⟨l', _, h⟩
  exact hne (Parents.mk.inj h).2.1.symm

namespace Rounded

/-- The body of the loops where nothing is missing. -/
noncomputable def place (fl : ℝ → ℝ) (p q : Projection β) (s1 s2 : CoordinateSystem) (d : ProjectionDirection) (m : Parents) :
    Option (Parents × Point3i) :=
  let v := p.vertices.getD m.pt1 ⟨0, 0⟩
  let w := q.vertices.getD m.pt2 ⟨0, 0⟩
  if calculateDistance fl v d w < maxDiff then
    some (m, (mergePoints (Rounded.getLocationOf fl s1 v) s1 (Rounded.getLocationOf fl s2 w) s2).1)
  else none

/-- What `coords_point` makes of two vertices. -/
theorem coordsPoint_systems {fl : ℝ → ℝ} {p1 p2 : Projection β} {s1 s2 : CoordinateSystem} {j l : ℕ} {v w : Point2i}
    (h1 : p1.s = some s1) (h2 : p2.s = some s2) (hv : p1.vertices[j]? = some v) (hw : p2.vertices[l]? = some w) :
    coordsPoint fl p1 j p2 l = .ok (mergePoints (Rounded.getLocationOf fl s1 v) s1 (Rounded.getLocationOf fl s2 w) s2) := by
  simp [coordsPoint, fetchSystem, h1, h2, fetch_eq hv, fetch_eq hw, bind, Except.bind, pure, Except.pure]

section TwoViews

variable {fl : ℝ → ℝ} {p q : Projection β} {s1 s2 : CoordinateSystem} {directions : List (List ProjectionDirection)}
  {d : ProjectionDirection}

theorem matchVertices_two (hp : p.s = some s1) (hq : q.s = some s2) (hd : fetchDirection directions 0 1 = .ok d)
    {m : Parents} (hm : m ∈ candidates [p, q]) :
    matchVertices fl [p, q] directions m = .ok (place fl p q s1 s2 d m) := by
  obtain ⟨j, l, rfl, hj, hl⟩ := mem_candidates_two.1 hm
  have hv : p.vertices[j]? = some (p.vertices.getD j ⟨0, 0⟩) := by simp [hj]
  have hw : q.vertices[l]? = some (q.vertices.getD l ⟨0, 0⟩) := by simp [hl]
  have hfp : fetch [p, q] 0 = .ok p := rfl
  have hfq : fetch [p, q] 1 = .ok q := rfl
  simp only [matchVertices, hfp, hfq, fetch_eq hv, fetch_eq hw, hd, coordsPoint_systems hp hq hv hw, bind,
    Except.bind, pure, Except.pure, place]
  split <;> rfl

theorem modelPoints_eq (hp : p.s = some s1) (hq : q.s = some s2) (hd : fetchDirection directions 0 1 = .ok d) :
    modelPoints fl [p, q] directions = .ok ((candidates [p, q]).filterMap (place fl p q s1 s2 d)) := by
  have hmap : (candidates [p, q]).mapM (matchVertices fl [p, q] directions) = .ok _ :=
    List.mapM_eq_map fun _ hm => matchVertices_two hp hq hd hm
  simp only [modelPoints, hmap, bind, Except.bind, pure, Except.pure, List.reduceOption, List.filterMap_map]
  rfl

theorem place_eq_some {m m' : Parents} {P : Point3i} : place fl p q s1 s2 d m' = some (m, P) ↔
    m' = m ∧ calculateDistance fl (p.vertices.getD m.pt1 ⟨0, 0⟩) d (q.vertices.getD m.pt2 ⟨0, 0⟩) < maxDiff ∧
      (mergePoints (Rounded.getLocationOf fl s1 (p.vertices.getD m.pt1 ⟨0, 0⟩)) s1
        (Rounded.getLocationOf fl s2 (q.vertices.getD m.pt2 ⟨0, 0⟩)) s2).1 = P := by
  simp only [place]
  split
  · rw [Option.some.injEq, Prod.mk.injEq]
    constructor
    · rintro ⟨rfl, hP⟩
      exact ⟨rfl, ‹_›, hP⟩
    · rintro ⟨rfl, -, hP⟩
      exact ⟨rfl, hP⟩
  · constructor
    · intro h
      cases h
    · rintro ⟨rfl, h, -⟩
      exact absurd h ‹_›

/-- The model points of two views: one for every two vertices on one cast line. -/
theorem modelPoints_two (hp : p.s = some s1) (hq : q.s = some s2) (hd : fetchDirection directions 0 1 = .ok d) :
    ∃ points, modelPoints fl [p, q] directions = .ok points ∧ (points.map (·.1)).Nodup ∧
      ∀ m P, (m, P) ∈ points ↔ ∃ j l v w, m = ⟨0, j, 1, l⟩ ∧ p.vertices[j]? = some v ∧ q.vertices[l]? = some w ∧
        calculateDistance fl v d w < maxDiff ∧ (mergePoints (Rounded.getLocationOf fl s1 v) s1 (Rounded.getLocationOf fl s2 w) s2).1 = P := by
  refine ⟨_, modelPoints_eq hp hq hd, ?_, fun m P => ?_⟩
  · rw [List.map_filterMap]
    apply (nodup_candidates_two p q).filterMap
    intro m m' k hm hm'
    obtain ⟨⟨k₁, P⟩, hP, rfl⟩ := Option.map_eq_some_iff.1 hm
    obtain ⟨⟨k₂, P'⟩, hP', hk⟩ := Option.map_eq_some_iff.1 hm'
    exact (place_eq_some.1 hP).1.trans (hk.symm.trans (place_eq_some.1 hP').1.symm)
  · simp only [List.mem_filterMap, place_eq_some, mem_candidates_two]
    constructor
    · rintro ⟨_, ⟨j, l, rfl, hj, hl⟩, rfl, hdist, hP⟩
      exact ⟨j, l, _, _, rfl, by simp [hj], by simp [hl], hdist, hP⟩
    · rintro ⟨j, l, v, w, rfl, hv, hw, hdist, hP⟩
      refine ⟨_, ⟨j, l, rfl, (List.getElem?_eq_some_iff.1 hv).1, (List.getElem?_eq_some_iff.1 hw).1⟩, rfl, ?_⟩
      simp only [List.getD_eq_getElem?_getD, hv, hw, Option.getD_some]
      exact ⟨hdist, hP⟩

end TwoViews

end Rounded

/-! ## Messages -/

/-- The message about y is given exactly when both views show y and differ too much. -/
theorem differentY_mem_iff (p1 p2 : Point3i) (s1 s2 : CoordinateSystem) :
    Warning.differentY ∈ (mergePoints p1 s1 p2 s2).2 ↔
      s1.hasY = true ∧ s2.hasY = true ∧ maxDiff < |p1.y - p2.y| := by
  simp only [mergePoints, mergeCoordinate]
  cases s1.hasX <;> cases s2.hasX <;> cases s1.hasY <;> cases s2.hasY <;> cases s1.hasZ <;> cases s2.hasZ <;>
    simp

end DetailIdentifier.Modeller
