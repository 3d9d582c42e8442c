/-
`align_contours_x`, `align_contours_y`, `align_contours_z` and `load`. A pass takes the points one by
one; each goes to the first plane nearer than `CONTOUR_DIFF` and is moved onto it, or founds a
plane. The groups of a pass partition the points (`Aligned`), and the later passes leave the
coordinate of the earlier ones alone (`load_planes`).
-/
import DetailIdentifier.Modeller.Outlines

namespace DetailIdentifier.Modeller

/-! ## The passes -/

/-- `CONTOUR_DIFF`. -/
def contourDiff : ℤ := 40

/-- The locals of a pass, and the points it changes, of which there are as many throughout. -/
structure Contours (size : ℕ) where
  points : List Point3i
  available : List ℤ
  res : List (List ℕ)
  sized : points.length = size

/-- The body of the loop over the points. -/
def alignPoint {size : ℕ} (axis : Axis) (s : Contours size) (i : ℕ) : Except Fault (Contours size) := do
  let p ← fetch s.points i
  match s.available.findIdx? fun c => |axis.get p - c| < contourDiff with
  | some j =>
    let c ← fetch s.available j
    let group ← fetch s.res j
    return { s with
      points := s.points.set i (axis.set p c)
      res := s.res.set j (group ++ [i])
      sized := List.length_set.trans s.sized }
  | none => return { s with available := s.available ++ [axis.get p], res := s.res ++ [[i]] }

/-- The model with its points moved. -/
def Model3d.withPoints (model : Model3d) (points : List Point3i) (h : points.length = model.points.length) : Model3d where
  points := points
  edges := model.edges
  inRange e he := h ▸ model.inRange e he

theorem Model3d.withPoints_self (model : Model3d) {points : List Point3i} (h : points.length = model.points.length)
    (heq : points = model.points) : model.withPoints points h = model := by
  subst heq
  rfl

/-- The three functions, but for the coordinate they align. -/
def alignContours (axis : Axis) (model : Model3d) : Except Fault (List (List ℕ) × Model3d) := do
  let s ← (List.range model.points.length).foldlM (alignPoint axis) ⟨model.points, [], [], rfl⟩
  return (s.res, model.withPoints s.points s.sized)

/-- `align_contours_x`. -/
def alignContoursX : Model3d → Except Fault (List (List ℕ) × Model3d) := alignContours .x

/-- `align_contours_y`. -/
def alignContoursY : Model3d → Except Fault (List (List ℕ) × Model3d) := alignContours .y

/-- `align_contours_z`. -/
def alignContoursZ : Model3d → Except Fault (List (List ℕ) × Model3d) := alignContours .z

/-- `load`, up to the polygons it writes. -/
def load (fuel : ℕ) (model : Model3d) : Except Fault (List Polygon) := do
  let (xContours, model) ← alignContoursX model
  let (yContours, model) ← alignContoursY model
  let (zContours, model) ← alignContoursZ model
  let xFaces ← addFaces fuel model xContours
  let yFaces ← addFaces fuel model yContours
  let zFaces ← addFaces fuel model zContours
  return xFaces ++ yFaces ++ zFaces

/-! ## One point -/

/-- Point `i` is moved onto the plane at `c`, by less than `CONTOUR_DIFF` and along the axis only. -/
def Moved (axis : Axis) (points points' : List Point3i) (c : ℤ) (i : ℕ) : Prop :=
  ∃ p p', points[i]? = some p ∧ points'[i]? = some p' ∧ axis.get p' = c ∧ |axis.get p - c| < contourDiff ∧
    ∀ other, other ≠ axis → other.get p' = other.get p

/-- The pass over the first `n` points. -/
structure Aligning {size : ℕ} (axis : Axis) (points : List Point3i) (n : ℕ) (s : Contours size) : Prop where
  size : s.points.length = points.length
  ahead : ∀ i, n ≤ i → s.points[i]? = points[i]?
  partition : s.res.flatten.Perm (List.range n)
  inhabited : ∀ g ∈ s.res, g ≠ []
  apart : s.available.Pairwise fun a b => contourDiff ≤ |a - b|
  moved : List.Forall₂ (fun g c => ∀ i ∈ g, Moved axis points s.points c i) s.res s.available

variable {axis : Axis} {points : List Point3i} {size n : ℕ} {s : Contours size}

theorem Aligning.index_lt (hs : Aligning axis points n s) {g : List ℕ} (hg : g ∈ s.res) {i : ℕ} (hi : i ∈ g) : i < n :=
  List.mem_range.1 (hs.partition.mem_iff.1 (List.mem_flatten.2 ⟨g, hg, hi⟩))

/-- What a pass does to a point. -/
theorem alignPoint_cases (hs : Aligning axis points n s) {p : Point3i} (hp : s.points[n]? = some p) :
    (∃ j c group, s.available[j]? = some c ∧ s.res[j]? = some group ∧ |axis.get p - c| < contourDiff ∧
      alignPoint axis s n =
        .ok ⟨s.points.set n (axis.set p c), s.available, s.res.set j (group ++ [n]), List.length_set.trans s.sized⟩) ∨
    (∀ c ∈ s.available, contourDiff ≤ |axis.get p - c|) ∧
      alignPoint axis s n = .ok { s with available := s.available ++ [axis.get p], res := s.res ++ [[n]] } := by
  unfold alignPoint
  rw [fetch_eq hp]
  simp only [bind, Except.bind]
  cases hfind : s.available.findIdx? fun c => |axis.get p - c| < contourDiff with
  | some j =>
    obtain ⟨hj, hnear, -⟩ := List.findIdx?_eq_some_iff_getElem.1 hfind
    have hc := List.getElem?_eq_getElem hj
    have hgroup := List.getElem?_eq_getElem (hs.moved.length_eq ▸ hj)
    refine .inl ⟨j, _, _, hc, hgroup, of_decide_eq_true hnear, ?_⟩
    simp only [fetch_eq hc, fetch_eq hgroup]
    rfl
  | none =>
    rw [List.findIdx?_eq_none_iff] at hfind
    exact .inr ⟨fun c hc => not_lt.1 (of_decide_eq_false (hfind c hc)), rfl⟩

theorem Moved.of_set {points' : List Point3i} {c : ℤ} {i : ℕ} (h : Moved axis points points' c i) (hi : i ≠ n)
    (p : Point3i) : Moved axis points (points'.set n p) c i := by
  obtain ⟨q, q', hq, hq', h⟩ := h
  exact ⟨q, q', hq, by rwa [List.getElem?_set_ne hi.symm], h⟩

/-- Setting the next point leaves those before it. -/
theorem Aligning.moved_set (hs : Aligning axis points n s) (p : Point3i) :
    List.Forall₂ (fun g c => ∀ i ∈ g, Moved axis points (s.points.set n p) c i) s.res s.available :=
  ((List.forall₂_and_left _ _).2 ⟨fun _ hg => hg, hs.moved⟩).imp fun _ _ h i hi =>
    (h.2 i hi).of_set (hs.index_lt h.1 hi).ne p

theorem aligning_step (hs : Aligning axis points n s) (hn : n < points.length) :
    ∃ s', alignPoint axis s n = .ok s' ∧ Aligning axis points (n + 1) s' := by
  have hp : points[n]? = some points[n] := List.getElem?_eq_getElem hn
  have hsp : s.points[n]? = some points[n] := (hs.ahead n le_rfl).trans hp
  rcases alignPoint_cases hs hsp with ⟨j, c, group, hc, hgroup, hnear, heq⟩ | ⟨hfar, heq⟩
  · refine ⟨_, heq, ?_, ?_, ?_, ?_, hs.apart, ?_⟩
    · rw [List.length_set]
      exact hs.size
    · intro i hi
      rw [List.getElem?_set_ne (by omega)]
      exact hs.ahead i (by omega)
    · refine (List.flatten_set_concat_perm hgroup n).trans ((hs.partition.cons n).trans ?_)
      rw [List.range_succ]
      exact (List.perm_append_singleton n _).symm
    · intro g hg
      rcases List.mem_or_eq_of_mem_set hg with hg | rfl
      · exact hs.inhabited g hg
      · simp
    · have hold := hs.moved_set (axis.set points[n] c)
      have hmoved : Moved axis points (s.points.set n (axis.set points[n] c)) c n :=
        ⟨_, _, hp, List.getElem?_set_self (hs.size ▸ hn), axis.get_set .., hnear, fun _ hne => Axis.get_set_of_ne hne ..⟩
      obtain ⟨hj, rfl⟩ := List.getElem?_eq_some_iff.1 hc
      obtain ⟨group', hgroup', hgroupMoved⟩ := hold.flip.getElem?_left hc
      rw [hgroup, Option.some.injEq] at hgroup'
      subst hgroup'
      have hall := hold.set (List.forall_mem_append.2 ⟨hgroupMoved, List.forall_mem_singleton.2 hmoved⟩) j
      rwa [List.set_getElem_self] at hall
  · refine ⟨_, heq, hs.size, fun i hi => hs.ahead i (by omega), ?_, ?_, ?_, ?_⟩
    · rw [List.flatten_append, List.range_succ, List.flatten_singleton]
      exact hs.partition.append_right _
    · rw [List.forall_mem_append]
      exact ⟨hs.inhabited, by simp⟩
    · refine List.pairwise_append.2 ⟨hs.apart, List.pairwise_singleton _ _, fun a ha b hb => ?_⟩
      rw [List.mem_singleton.1 hb, abs_sub_comm]
      exact hfar a ha
    · refine List.rel_append hs.moved (.cons (List.forall_mem_singleton.2 ?_) .nil)
      exact ⟨_, _, hp, hsp, rfl, by simp [contourDiff], fun _ _ => rfl⟩

/-- The run of a pass. -/
theorem aligning_run (axis : Axis) (points : List Point3i) : ∀ n, n ≤ points.length →
    ∃ s, (List.range n).foldlM (alignPoint axis) ⟨points, [], [], rfl⟩ = .ok s ∧ Aligning axis points n s
  | 0, _ => ⟨_, rfl, rfl, fun _ _ => rfl, .refl _, by simp, .nil, .nil⟩
  | n + 1, hn => by
    obtain ⟨s, hrun, hs⟩ := aligning_run axis points n (by omega)
    obtain ⟨s', hstep, hs'⟩ := aligning_step hs hn
    refine ⟨s', ?_, hs'⟩
    rw [List.range_succ, List.foldlM_append, hrun]
    show alignPoint axis s n >>= pure = _
    rw [bind_pure, hstep]

/-! ## The planes of a model -/

/-- The groups of a pass partition the points; each has its coordinate, the coordinates are
`CONTOUR_DIFF` apart, and nothing but the points of a group is moved, onto its coordinate. -/
structure Aligned (axis : Axis) (model model' : Model3d) (groups : List (List ℕ)) (representatives : List ℤ) : Prop where
  partition : groups.flatten.Perm (List.range model.points.length)
  inhabited : ∀ g ∈ groups, g ≠ []
  apart : representatives.Pairwise fun a b => contourDiff ≤ |a - b|
  moved : List.Forall₂ (fun g c => ∀ i ∈ g, Moved axis model.points model'.points c i) groups representatives
  size : model'.points.length = model.points.length
  edges : model'.edges = model.edges

theorem alignContours_aligned (axis : Axis) (model : Model3d) : ∃ groups model' representatives,
    alignContours axis model = .ok (groups, model') ∧ Aligned axis model model' groups representatives := by
  obtain ⟨s, hrun, hs⟩ := aligning_run axis model.points _ le_rfl
  refine ⟨s.res, model.withPoints s.points s.sized, s.available, ?_, hs.partition, hs.inhabited, hs.apart, hs.moved,
    hs.size, rfl⟩
  rw [alignContours, hrun]
  rfl

/-- The points of each group share their coordinate. -/
def Coplanar (axis : Axis) (model : Model3d) (groups : List (List ℕ)) : Prop :=
  ∀ g ∈ groups, ∃ c, ∀ i ∈ g, ∃ p, model.points[i]? = some p ∧ axis.get p = c

variable {model model' : Model3d} {groups : List (List ℕ)} {representatives : List ℤ}

theorem Aligned.coplanar (h : Aligned axis model model' groups representatives) : Coplanar axis model' groups := by
  intro g hg
  obtain ⟨c, -, hc⟩ := h.moved.exists_right hg
  refine ⟨c, fun i hi => ?_⟩
  obtain ⟨p, p', -, hp', hget, -⟩ := hc i hi
  exact ⟨p', hp', hget⟩

theorem Aligned.exists_moved (h : Aligned axis model model' groups representatives) {i : ℕ}
    (hi : i < model.points.length) : ∃ c, Moved axis model.points model'.points c i := by
  obtain ⟨g, hg, hig⟩ := List.mem_flatten.1 (h.partition.mem_iff.2 (List.mem_range.2 hi))
  obtain ⟨c, -, hc⟩ := h.moved.exists_right hg
  exact ⟨c, hc i hig⟩

/-- A pass along another axis keeps the planes. -/
theorem Coplanar.aligned {other : Axis} {planes : List (List ℕ)} (hplanes : Coplanar other model planes)
    (h : Aligned axis model model' groups representatives) (hne : other ≠ axis) : Coplanar other model' planes := by
  intro g hg
  obtain ⟨c, hc⟩ := hplanes g hg
  refine ⟨c, fun i hi => ?_⟩
  obtain ⟨p, hp, hget⟩ := hc i hi
  obtain ⟨d, q, q', hq, hq', -, -, hkeep⟩ := h.exists_moved (List.getElem?_eq_some_iff.1 hp).1
  rw [hp, Option.some.injEq] at hq
  subst hq
  exact ⟨q', hq', (hkeep other hne).trans hget⟩

/-- Every pass aligns the points, and what `load` hands to `addFaces` are lists of planes. -/
theorem load_planes (model : Model3d) :
    (∀ axis, ∃ groups model' representatives, alignContours axis model = .ok (groups, model') ∧
      Aligned axis model model' groups representatives) ∧
    ∃ xs m₁ ys m₂ zs m₃, alignContoursX model = .ok (xs, m₁) ∧ alignContoursY m₁ = .ok (ys, m₂) ∧
      alignContoursZ m₂ = .ok (zs, m₃) ∧ Coplanar .x m₃ xs ∧ Coplanar .y m₃ ys ∧ Coplanar .z m₃ zs ∧
      ∀ fuel, load fuel model = (do
        let xFaces ← addFaces fuel m₃ xs
        let yFaces ← addFaces fuel m₃ ys
        let zFaces ← addFaces fuel m₃ zs
        return xFaces ++ yFaces ++ zFaces) := by
  refine ⟨fun axis => alignContours_aligned axis model, ?_⟩
  obtain ⟨xs, m₁, _, hx, hax⟩ := alignContours_aligned .x model
  obtain ⟨ys, m₂, _, hy, hay⟩ := alignContours_aligned .y m₁
  obtain ⟨zs, m₃, _, hz, haz⟩ := alignContours_aligned .z m₂
  rw [← alignContoursX] at hx
  rw [← alignContoursY] at hy
  rw [← alignContoursZ] at hz
  have hxs := (hax.coplanar.aligned hay (by decide)).aligned haz (by decide)
  have hys := hay.coplanar.aligned haz (by decide)
  refine ⟨xs, m₁, ys, m₂, zs, m₃, hx, hy, hz, hxs, hys, haz.coplanar, fun fuel => ?_⟩
  simp only [load, hx, hy, hz, bind, Except.bind]

end DetailIdentifier.Modeller
