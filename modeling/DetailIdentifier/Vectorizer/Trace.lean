/-
`vectorize`: every contour vertex gets the index its pixel is labelled with, or a new point, and
seeds its neighbourhood with that index; consecutive vertices of a contour are joined by an edge.

The label image refines a `Ledger`, which only remembers the vertices placed so far with their
indices: a pixel's label is the index of the last vertex placed within `seedRadius` of it
(`placeVertex_spec`). A whole run is `traceContour_spec` and `vectorize_spec`.
-/
import DetailIdentifier.Vectorizer.Image

namespace DetailIdentifier.Vectorizer

/-! ## The code -/

/-- `START_SEED`: the label of a pixel no vertex has seeded. -/
def startSeed : ℕ := 255

/-- `SEED_RADIUS`. -/
def seedRadius : Int := 30

/-- The label image `minimal` and the points found so far. -/
structure Labels where
  minimal : Mat
  points : List Point2i

/-- The index used for a vertex, found under its pixel or new, and its neighbourhood seeded. -/
def placeVertex (s : Labels) (v : Point2i) : Except Fault (ℕ × Labels) := do
  let found ← s.minimal.get v
  let (index, points) := if found = startSeed then (s.points.length, s.points ++ [v]) else (found, s.points)
  let minimal ← seedNeighborhood s.minimal v index seedRadius
  return (index, { minimal, points })

/-- `edge_already_exists`. -/
def edgeAlreadyExists (u : List (ℕ × ℕ)) (e : ℕ × ℕ) : Bool :=
  u.any fun a => (a.1 == e.1 && a.2 == e.2) || (a.2 == e.1 && a.1 == e.2)

/-- The state inside a contour: `index` is that of the previous vertex. -/
structure Tracer where
  index : ℕ
  labels : Labels
  edges : List (ℕ × ℕ)

/-- The loop body over the vertices of a contour after its first. -/
def lineTo (s : Tracer) (v : Point2i) : Except Fault Tracer := do
  let (index2, labels) ← placeVertex s.labels v
  if s.index = index2 then
    return { s with labels }
  -- `index` moves on also when the edge is there already
  let e := (s.index, index2)
  let edges := if edgeAlreadyExists s.edges e then s.edges else s.edges ++ [e]
  return { index := index2, labels, edges }

/-- The loop body over the contours; `vertices[i][0]` of an empty contour is out of range. -/
def traceContour (s : Labels × List (ℕ × ℕ)) (contour : List Point2i) : Except Fault (Labels × List (ℕ × ℕ)) :=
  if contour.length = 2 then return s
  else
    match contour with
    | [] => throw .outOfRange
    | v :: vs => do
      let (index, labels) ← placeVertex s.1 v
      let t ← vs.foldlM lineTo { index, labels, edges := s.2 }
      return (t.labels, t.edges)

/-- The labels before the first contour. -/
def unseeded (cols rows : ℕ) : Labels := ⟨Mat.fresh cols rows startSeed, []⟩

/-- `output`: the vertices and edges handed to the interpreter. -/
structure Output where
  vertices : List Point2i
  edges : List (ℕ × ℕ)

/-- `vectorize`, from the contours' polygons on. -/
def vectorize (cols rows : ℕ) (vertices : List (List Point2i)) : Except Fault Output := do
  let (labels, edges) ← vertices.foldlM traceContour (unseeded cols rows, [])
  return { vertices := labels.points, edges }

/-! ## Drawings -/

/-- The polygons of an image: none is empty and their vertices lie inside. -/
structure Drawing where
  cols : ℕ
  rows : ℕ
  contours : List (List Point2i)
  nonempty : ∀ c ∈ contours, c ≠ []
  inside : ∀ c ∈ contours, ∀ v ∈ c, (Mat.fresh cols rows startSeed).Inside v

/-- The contours that are not skipped. -/
def Drawing.processed (d : Drawing) : List (List Point2i) := d.contours.filter (·.length ≠ 2)

/-! ## Ledgers -/

/-- The points found so far and the vertices placed so far, last first, with their indices. -/
structure Ledger where
  points : List Point2i
  placed : List (Point2i × ℕ)

namespace Ledger

/-- The index of the last vertex placed within `seedRadius` of `q`. -/
def label (l : Ledger) (q : Point2i) : ℕ :=
  ((l.placed.find? fun p => Within seedRadius p.1 q).map (·.2)).getD startSeed

def assign (l : Ledger) (v : Point2i) : ℕ := if l.label v = startSeed then l.points.length else l.label v

def place (l : Ledger) (v : Point2i) : Ledger where
  points := if l.label v = startSeed then l.points ++ [v] else l.points
  placed := (v, l.assign v) :: l.placed

theorem label_place (l : Ledger) (v q : Point2i) :
    (l.place v).label q = if Within seedRadius v q then l.assign v else l.label q := by
  simp only [label, place, List.find?_cons]
  by_cases h : Within seedRadius v q <;> simp [h]

theorem points_place_isPrefix (l : Ledger) (v : Point2i) : l.points <+: (l.place v).points := by
  unfold place
  split
  · exact List.prefix_append _ _
  · exact List.prefix_rfl

/-- The ledger after the vertices `vs`. -/
def after (vs : List Point2i) : Ledger := vs.foldl place ⟨[], []⟩

@[simp] theorem after_nil : after [] = ⟨[], []⟩ := rfl

@[simp] theorem after_concat (vs : List Point2i) (v : Point2i) : after (vs ++ [v]) = (after vs).place v := by
  simp [after]

end Ledger

/-! ## The code keeps a ledger -/

/-- The labels record the ledger on an image of the given size. -/
structure Records (cols rows : ℕ) (s : Labels) (l : Ledger) : Prop where
  cols : s.minimal.cols = cols
  rows : s.minimal.rows = rows
  points : s.points = l.points
  px : ∀ q, s.minimal.Inside q → s.minimal.px q = l.label q

section Spec

variable {cols rows : ℕ} {s : Labels} {l : Ledger}

theorem unseeded_records (cols rows : ℕ) : Records cols rows (unseeded cols rows) ⟨[], []⟩ :=
  ⟨rfl, rfl, rfl, fun _ _ => rfl⟩

theorem Records.inside (h : Records cols rows s l) {q : Point2i} :
    s.minimal.Inside q ↔ (Mat.fresh cols rows startSeed).Inside q := by
  simp only [Mat.Inside, Mat.fresh, h.cols, h.rows]

/-- Placing a vertex inside the image never fails and is one entry of the ledger. -/
theorem placeVertex_spec (h : Records cols rows s l) {v : Point2i}
    (hv : (Mat.fresh cols rows startSeed).Inside v) :
    ∃ s', placeVertex s v = .ok (l.assign v, s') ∧ Records cols rows s' (l.place v) := by
  have hin : s.minimal.Inside v := h.inside.2 hv
  have hfound : (if s.minimal.px v = startSeed then (s.points.length, s.points ++ [v])
      else (s.minimal.px v, s.points)) = (l.assign v, (l.place v).points) := by
    simp only [h.px v hin, h.points, Ledger.assign, Ledger.place]
    split <;> rfl
  refine ⟨⟨s.minimal.fill (fun q => s.minimal.Inside q ∧ Within seedRadius v q) (l.assign v), (l.place v).points⟩,
    ?_, h.cols, h.rows, rfl, fun q hq => ?_⟩
  · unfold placeVertex
    rw [Mat.get_inside hin]
    simp only [bind, Except.bind, hfound, seedNeighborhood_eq]
    rfl
  · rw [Mat.fill_inside] at hq
    rw [Ledger.label_place, ← h.px q hq]
    simp only [Mat.fill, hq, true_and]

end Spec

/-! ## Whole runs -/

namespace Ledger

/-- The indices of the vertices of one contour. -/
def indices (l : Ledger) : List Point2i → List ℕ
  | [] => []
  | v :: vs => l.assign v :: (l.place v).indices vs

/-- The indices of the vertices of every contour. -/
def paths (l : Ledger) : List (List Point2i) → List (List ℕ)
  | [] => []
  | c :: cs => l.indices c :: (c.foldl place l).paths cs

end Ledger

/-- The consecutive pairs of a path. -/
def steps (is : List ℕ) : List (ℕ × ℕ) := is.zip is.tail

/-- The edges after joining two indices: none for equal ones, none joined before. -/
def join (edges : List (ℕ × ℕ)) (e : ℕ × ℕ) : List (ℕ × ℕ) :=
  if e.1 = e.2 then edges else if edgeAlreadyExists edges e then edges else edges ++ [e]

section Runs

variable {cols rows : ℕ}

theorem lineTo_spec {t : Tracer} {l : Ledger} (h : Records cols rows t.labels l) {v : Point2i}
    (hv : (Mat.fresh cols rows startSeed).Inside v) :
    ∃ t', lineTo t v = .ok t' ∧ Records cols rows t'.labels (l.place v) ∧ t'.index = l.assign v ∧
      t'.edges = join t.edges (t.index, l.assign v) := by
  obtain ⟨s', hs, hr⟩ := placeVertex_spec h hv
  unfold lineTo join
  simp only [hs, bind, Except.bind]
  by_cases he : t.index = l.assign v
  · simp only [he, if_true]
    exact ⟨_, rfl, hr, rfl, rfl⟩
  · simp only [he, if_false]
    exact ⟨_, rfl, hr, rfl, rfl⟩

theorem foldlM_lineTo : ∀ (vs : List Point2i) {t : Tracer} {l : Ledger}, Records cols rows t.labels l →
    (∀ v ∈ vs, (Mat.fresh cols rows startSeed).Inside v) →
    ∃ t', vs.foldlM lineTo t = .ok t' ∧ Records cols rows t'.labels (vs.foldl Ledger.place l) ∧
      t'.edges = (steps (t.index :: l.indices vs)).foldl join t.edges
  | [], t, _, h, _ => ⟨t, rfl, h, rfl⟩
  | v :: vs, t, l, h, hv => by
    obtain ⟨t₁, ht, hr, hi, he⟩ := lineTo_spec h (hv v (List.mem_cons_self ..))
    obtain ⟨t', ht', hr', he'⟩ := foldlM_lineTo vs hr fun u hu => hv u (List.mem_cons_of_mem _ hu)
    refine ⟨t', ?_, hr', ?_⟩
    · rw [List.foldlM_cons, ht]; exact ht'
    · rw [he', he, hi]; rfl

/-- A contour that is not skipped adds the edges of its consecutive indices. -/
theorem traceContour_spec {s : Labels} {l : Ledger} (h : Records cols rows s l) (es : List (ℕ × ℕ))
    {c : List Point2i} (hc : c ≠ []) (h2 : c.length ≠ 2) (hv : ∀ v ∈ c, (Mat.fresh cols rows startSeed).Inside v) :
    ∃ s', traceContour (s, es) c = .ok (s', (steps (l.indices c)).foldl join es) ∧
      Records cols rows s' (c.foldl Ledger.place l) := by
  cases c with
  | nil => exact absurd rfl hc
  | cons v vs =>
    obtain ⟨s₁, hs, hr⟩ := placeVertex_spec h (hv v (List.mem_cons_self ..))
    obtain ⟨t, ht, hr', he⟩ := foldlM_lineTo vs (t := ⟨l.assign v, s₁, es⟩) hr
      fun u hu => hv u (List.mem_cons_of_mem _ hu)
    refine ⟨t.labels, ?_, hr'⟩
    unfold traceContour
    rw [if_neg h2]
    simp only [hs, bind, Except.bind, ht, he]
    rfl

theorem foldlM_traceContour : ∀ (cs : List (List Point2i)) {s : Labels} {l : Ledger} (es : List (ℕ × ℕ)),
    Records cols rows s l → (∀ c ∈ cs, c ≠ []) → (∀ c ∈ cs, ∀ v ∈ c, (Mat.fresh cols rows startSeed).Inside v) →
    ∃ s', cs.foldlM traceContour (s, es) = .ok (s', ((l.paths (cs.filter (·.length ≠ 2))).flatMap steps).foldl join es) ∧
      Records cols rows s' ((cs.filter (·.length ≠ 2)).flatten.foldl Ledger.place l)
  | [], s, l, es, h, _, _ => ⟨s, rfl, h⟩
  | c :: cs, s, l, es, h, hne, hv => by
    by_cases h2 : c.length = 2
    · obtain ⟨s', hs, hr⟩ := foldlM_traceContour cs es h (fun b hb => hne b (List.mem_cons_of_mem _ hb))
        fun b hb => hv b (List.mem_cons_of_mem _ hb)
      have hskip : traceContour (s, es) c = .ok (s, es) := by
        unfold traceContour
        rw [if_pos h2]
        rfl
      rw [List.filter_cons_of_neg (by simp [h2])]
      refine ⟨s', ?_, hr⟩
      rw [List.foldlM_cons, hskip]
      exact hs
    · obtain ⟨s₁, hs₁, hr₁⟩ := traceContour_spec h es (hne c (List.mem_cons_self ..)) h2 (hv c (List.mem_cons_self ..))
      obtain ⟨s', hs, hr⟩ := foldlM_traceContour cs ((steps (l.indices c)).foldl join es) hr₁
        (fun b hb => hne b (List.mem_cons_of_mem _ hb)) fun b hb => hv b (List.mem_cons_of_mem _ hb)
      rw [List.filter_cons_of_pos (by simp [h2])]
      refine ⟨s', ?_, ?_⟩
      · rw [List.foldlM_cons, hs₁, Ledger.paths, List.flatMap_cons, List.foldl_append]
        exact hs
      · rw [List.flatten_cons, List.foldl_append]
        exact hr

/-- A run on a drawing never fails: the points are those of the ledger of the processed vertices,
the edges join the consecutive indices of every processed contour. -/
theorem vectorize_spec (d : Drawing) :
    vectorize d.cols d.rows d.contours = .ok
      { vertices := (Ledger.after d.processed.flatten).points
        edges := ((Ledger.paths ⟨[], []⟩ d.processed).flatMap steps).foldl join [] } := by
  obtain ⟨s', hs, hr⟩ := foldlM_traceContour d.contours [] (unseeded_records d.cols d.rows) d.nonempty d.inside
  unfold vectorize
  rw [hs]
  simp only [bind, Except.bind, hr.points]
  rfl

end Runs

end DetailIdentifier.Vectorizer
