/-
The document: a map of points, a list of segments, and at every point the segments that start or
end there, turned to start there. `Consistent` says that the three agree; `add_point` and
`add_segment` keep it, so it holds after any sequence of calls (`Consistent.run`, `run_new_consistent`).
-/
import DetailIdentifier.Types
import DetailIdentifier.Lib.Binary64

namespace DetailIdentifier.Svg

/-! ## Locations, segments, points -/

/-- `svg::location`. -/
structure Location where
  x : Int
  y : Int
deriving DecidableEq, Repr

namespace Location

/-- `std::less<svg::location>`. -/
def less (lhs rhs : Location) : Bool := if lhs.x ≠ rhs.x then lhs.x < rhs.x else lhs.y < rhs.y

/-- The order of `std::less<svg::location>`. -/
def cmp : Location → Location → Ordering := compareLex (compareOn x) (compareOn y)

instance : Std.TransCmp cmp := inferInstanceAs (Std.TransCmp (compareLex _ _))

instance : Std.LawfulEqCmp cmp where
  eq_of_compare {a b} h := by
    obtain ⟨ax, ay⟩ := a
    obtain ⟨bx, bY⟩ := b
    simpa [cmp, compareLex_eq_eq, compareOn] using h

theorem less_iff {a b : Location} : less a b = true ↔ cmp a b = .lt := by
  simp only [less, cmp, compareLex, compareOn, ne_eq, ite_not]
  split
  · rename_i h
    rw [h, compare_eq_iff_eq.2 rfl, decide_eq_true_iff, Ordering.then, compare_lt_iff_lt]
  · rename_i h
    rw [decide_eq_true_iff, Ordering.then_eq_lt, compare_lt_iff_lt, compare_eq_iff_eq]
    exact ⟨.inl, fun h' => h'.resolve_right fun hh => h hh.1⟩

end Location

/-- `cartesian_distance`: the differences are `int`s, which wrap, and the rest is `double`s. -/
noncomputable def cartesianDistance (l1 l2 : Location) : ℝ :=
  let xDiff : ℤ := (l1.x - l2.x).bmod (2 ^ 32)
  let yDiff : ℤ := (l1.y - l2.y).bmod (2 ^ 32)
  Binary64.hypot xDiff yDiff

/-- The square of the distance of two locations. -/
def sqDistance (l1 l2 : Location) : ℤ := (l1.x - l2.x) ^ 2 + (l1.y - l2.y) ^ 2

/-- The distance of two locations. -/
noncomputable def distance (l1 l2 : Location) : ℝ := Real.sqrt (sqDistance l1 l2)

theorem distance_lt_iff {l a b : Location} : distance l a < distance l b ↔ sqDistance l a < sqDistance l b := by
  have h : (0 : ℝ) ≤ sqDistance l a := by exact_mod_cast add_nonneg (sq_nonneg _) (sq_nonneg _)
  rw [distance, distance, Real.sqrt_lt_sqrt_iff h, Int.cast_lt]

/-- Up to `2 ^ 51` in squares, the distances computed are ordered as the distances are. -/
theorem cartesianDistance_lt_iff {l a b : Location} (ha : sqDistance l a ≤ 2 ^ 51) (hb : sqDistance l b ≤ 2 ^ 51) :
    cartesianDistance l a < cartesianDistance l b ↔ distance l a < distance l b := by
  have hwrap : ∀ m n : ℤ, m ^ 2 + n ^ 2 ≤ 2 ^ 51 → m.bmod (2 ^ 32) = m ∧ n.bmod (2 ^ 32) = n := fun m n h => by
    constructor <;> apply Int.bmod_eq_of_le <;> norm_num <;> nlinarith [sq_nonneg m, sq_nonneg n]
  obtain ⟨hax, hay⟩ := hwrap _ _ ha
  obtain ⟨hbx, hby⟩ := hwrap _ _ hb
  unfold cartesianDistance
  rw [hax, hay, hbx, hby, distance_lt_iff]
  exact Binary64.hypot_lt_hypot_iff ha hb

/-- `svg::segment`. Its references to two points of the document's map are kept as their keys. -/
structure Segment where
  start : Location
  stop : Location
deriving DecidableEq, Repr

/-- `segment::reverted`. -/
def Segment.reverted (e : Segment) : Segment := ⟨e.stop, e.start⟩

/-- `svg::point`. -/
structure Point where
  loc : Location
  edges : List Segment
deriving DecidableEq, Repr

/-- `point::point`: a point that carries no edges. -/
def Point.new (loc : Location) : Point := ⟨loc, []⟩

/-- `point::add_edge`. -/
def Point.addEdge (e : Segment) (p : Point) : Point := { p with edges := p.edges ++ [e] }

/-! ## Documents -/

/-- `svg::document`. -/
structure Document where
  points : Std.TreeMap Location Point Location.cmp
  edges : List Segment
  width : Int
  height : Int

namespace Document

/-- `document::document`. -/
def new (width height : Int) : Document := ⟨∅, [], width, height⟩

/-- `document::add_point`: `insert` keeps what the map already holds. -/
def addPoint (d : Document) (p : Point) : Document := { d with points := d.points.insertIfNew p.loc p }

/-- `document::add_segment`. -/
def addSegment (d : Document) (l1 l2 : Location) : Document :=
  let points := d.points.insertIfNew l1 (.new l1)
  let points := points.insertIfNew l2 (.new l2)
  let edge : Segment := ⟨l1, l2⟩
  { d with
    edges := d.edges ++ [edge]
    points := (points.modify l1 (.addEdge edge)).modify l2 (.addEdge edge.reverted) }

/-- The points of the map, in its order. -/
def pointList (d : Document) : List Point := d.points.toList.map (·.2)

end Document

/-! ## Calls -/

/-- A call on a document; points are added without edges. -/
inductive Call where
  | addPoint (l : Location)
  | addSegment (l1 l2 : Location)
deriving DecidableEq, Repr

namespace Call

def apply (d : Document) : Call → Document
  | addPoint l => d.addPoint (.new l)
  | addSegment l1 l2 => d.addSegment l1 l2

/-- The locations a call mentions. -/
def locations : Call → List Location
  | addPoint l => [l]
  | addSegment l1 l2 => [l1, l2]

/-- The segment a call adds. -/
def segments : Call → List Segment
  | addPoint _ => []
  | addSegment l1 l2 => [⟨l1, l2⟩]

end Call

/-- A document after a sequence of calls. -/
def run (d : Document) (calls : List Call) : Document := calls.foldl Call.apply d

theorem run_append (d : Document) (calls calls' : List Call) : run d (calls ++ calls') = run (run d calls) calls' :=
  List.foldl_append ..

/-- No call changes the size. -/
theorem run_size : ∀ (calls : List Call) (d : Document), (run d calls).width = d.width ∧ (run d calls).height = d.height
  | [], _ => ⟨rfl, rfl⟩
  | .addPoint _ :: calls, _ => run_size calls _
  | .addSegment _ _ :: calls, _ => run_size calls _

/-- A document with its calls run holds its segments and then theirs. -/
theorem run_edges (doc : Document) : ∀ (calls : List Call),
    (run doc calls).edges = doc.edges ++ calls.flatMap Call.segments := by
  intro calls
  induction calls using List.reverseRecOn with
  | nil => simp [run]
  | append_singleton calls c ih =>
    rw [run_append, List.flatMap_append, ← List.append_assoc, ← ih]
    cases c <;> simp [run, Call.apply, Call.segments, Document.addPoint, Document.addSegment]

/-! ## Calls on any document -/

/-- What a segment leaves at the point `l`: itself if it starts there, then its reversal if it
ends there. -/
def incident (l : Location) (e : Segment) : List Segment :=
  (if e.start = l then [e] else []) ++ if e.stop = l then [e.reverted] else []

theorem incident_start {l : Location} {e f : Segment} (h : f ∈ incident l e) : f.start = l := by
  unfold incident at h
  rcases List.mem_append.1 h with h | h <;> split at h
  · rw [List.mem_singleton.1 h]; assumption
  · cases h
  · rw [List.mem_singleton.1 h]; assumption
  · cases h

/-- A location that segments do not mention has none of them. -/
theorem flatMap_incident_nil {ls : List Location} {es : List Segment} (h : ∀ e ∈ es, e.start ∈ ls ∧ e.stop ∈ ls)
    {l : Location} (hl : l ∉ ls) : es.flatMap (incident l) = [] := by
  apply List.flatMap_eq_nil_iff.2
  intro e he
  have h1 : e.start ≠ l := by rintro rfl; exact hl (h e he).1
  have h2 : e.stop ≠ l := by rintro rfl; exact hl (h e he).2
  simp [incident, h1, h2]

theorem getElem?_modify {t : Std.TreeMap Location Point Location.cmp} {k l : Location} {f : Point → Point} :
    (t.modify k f)[l]? = if k = l then t[l]?.map f else t[l]? := by
  rw [Std.TreeMap.getElem?_modify]
  simp only [Std.LawfulEqCmp.compare_eq_iff_eq]
  split
  · rename_i h; rw [h]
  · rfl

/-- What calls that mention `ls` and add `es` make of the point at the location `l`. -/
def Point.updated (l : Location) (ls : List Location) (es : List Segment) : Option Point → Option Point
  | some p => some { p with edges := p.edges ++ es.flatMap (incident l) }
  | none => if l ∈ ls then some ⟨l, es.flatMap (incident l)⟩ else none

theorem addPoint_points (doc : Document) (k l : Location) :
    (doc.addPoint (.new k)).points[l]? = Point.updated l [k] [] doc.points[l]? := by
  simp only [Document.addPoint, Point.new, Std.TreeMap.getElem?_insertIfNew, Std.LawfulEqCmp.compare_eq_iff_eq,
    Point.updated, List.flatMap_nil, List.append_nil, List.mem_singleton, eq_comm (a := l)]
  by_cases hk : k = l
  · subst hk
    by_cases hmem : k ∈ doc.points <;> simp [hmem]
  · cases doc.points[l]? <;> simp [hk]

theorem Call.ends_mem (c : Call) : ∀ e ∈ c.segments, e.start ∈ c.locations ∧ e.stop ∈ c.locations := by
  cases c <;> simp [segments, locations]

theorem Point.updated_updated {l : Location} {ls : List Location} {es : List Segment}
    (h : ∀ e ∈ es, e.start ∈ ls ∧ e.stop ∈ ls) (ls' : List Location) (es' : List Segment) (p : Option Point) :
    updated l ls' es' (updated l ls es p) = updated l (ls ++ ls') (es ++ es') p := by
  cases p with
  | some p => simp only [updated, List.flatMap_append, List.append_assoc]
  | none =>
    by_cases hl : l ∈ ls
    · simp [updated, hl]
    · have hnil := flatMap_incident_nil h hl
      simp [updated, hl, hnil]

theorem apply_points (doc : Document) (c : Call) (l : Location) :
    (c.apply doc).points[l]? = Point.updated l c.locations c.segments doc.points[l]? := by
  cases c with
  | addPoint k => exact addPoint_points doc k l
  | addSegment l1 l2 =>
    -- both ends are in the map when the segment is added to them
    show ((((doc.addPoint (.new l1)).addPoint (.new l2)).points.modify l1 _).modify l2 _)[l]? = _
    rw [getElem?_modify, getElem?_modify, addPoint_points, addPoint_points,
      Point.updated_updated fun _ he => absurd he List.not_mem_nil]
    simp only [Point.updated, Call.locations, Call.segments, List.mem_append, List.mem_cons, List.not_mem_nil, or_false,
      eq_comm (a := l)]
    cases doc.points[l]? <;> by_cases h1 : l1 = l <;> by_cases h2 : l2 = l <;> simp [incident, h1, h2, Point.addEdge]

/-- What a point of a document is after any calls. -/
theorem run_points (l : Location) : ∀ (calls : List Call) (doc : Document), (run doc calls).points[l]? =
    Point.updated l (calls.flatMap Call.locations) (calls.flatMap Call.segments) doc.points[l]?
  | [], doc => by cases hp : doc.points[l]? <;> simp [run, Point.updated, hp]
  | c :: calls, doc => by
    rw [List.flatMap_cons, List.flatMap_cons, ← Point.updated_updated c.ends_mem, ← apply_points]
    exact run_points l calls (c.apply doc)

/-- Calls that mention the same locations and add the same segments do the same to any document. -/
theorem run_congr {calls calls' : List Call} (hsegments : calls.flatMap Call.segments = calls'.flatMap Call.segments)
    (hlocations : ∀ l, l ∈ calls.flatMap Call.locations ↔ l ∈ calls'.flatMap Call.locations) (doc : Document) :
    (run doc calls).edges = (run doc calls').edges ∧ ∀ l : Location, (run doc calls).points[l]? = (run doc calls').points[l]? := by
  refine ⟨by rw [run_edges, run_edges, hsegments], fun l => ?_⟩
  rw [run_points, run_points, hsegments]
  cases doc.points[l]? with
  | some p => rfl
  | none => simp only [Point.updated, hlocations]

/-! ## Consistency -/

/-- The document holds the locations `ls` and the segments `es`, and at every location the segments
that start or end there. -/
structure Consistent (d : Document) (ls : List Location) (es : List Segment) : Prop where
  drawn : d.edges = es
  ends : ∀ e ∈ es, e.start ∈ ls ∧ e.stop ∈ ls
  points : ∀ l : Location, d.points[l]? = if l ∈ ls then some (Point.mk l (es.flatMap (incident l))) else none

namespace Consistent

variable {d : Document} {ls : List Location} {es : List Segment}

theorem new (width height : Int) : Consistent (Document.new width height) [] [] :=
  ⟨rfl, fun _ he => absurd he List.not_mem_nil, fun l => by simp [Document.new]⟩

theorem mem_points (h : Consistent d ls es) {l : Location} : l ∈ d.points ↔ l ∈ ls := by
  rw [Std.TreeMap.mem_iff_isSome_getElem?, h.points l]
  split <;> simp [*]

/-- A location not stored has no segments. -/
theorem incident_of_not_mem (h : Consistent d ls es) {l : Location} (hl : l ∉ ls) :
    es.flatMap (incident l) = [] := flatMap_incident_nil h.ends hl

theorem apply (h : Consistent d ls es) (c : Call) :
    Consistent (c.apply d) (ls ++ c.locations) (es ++ c.segments) := by
  refine ⟨?_, fun e he => ?_, fun l => ?_⟩
  · cases c with
    | addPoint l => rw [Call.segments, List.append_nil]; exact h.drawn
    | addSegment l1 l2 => exact congrArg (· ++ [_]) h.drawn
  · rcases List.mem_append.1 he with he | he
    · exact ⟨List.mem_append_left _ (h.ends e he).1, List.mem_append_left _ (h.ends e he).2⟩
    · exact ⟨List.mem_append_right _ (c.ends_mem e he).1, List.mem_append_right _ (c.ends_mem e he).2⟩
  · rw [apply_points, h.points l]
    by_cases hl : l ∈ ls
    · simp [Point.updated, hl]
    · simp [Point.updated, hl, h.incident_of_not_mem hl]

/-- Consistency after a sequence of calls. -/
theorem run : ∀ (calls : List Call) {d : Document} {ls : List Location} {es : List Segment},
    Consistent d ls es → Consistent (run d calls) (ls ++ calls.flatMap Call.locations) (es ++ calls.flatMap Call.segments)
  | [], _, _, _, h => by simpa [Svg.run] using h
  | c :: calls, _, _, _, h => by
    have ih := run calls (h.apply c)
    simpa [Svg.run, List.append_assoc] using ih

end Consistent

/-! ## Degrees -/

/-- Over distinct locations that include the ends of every segment, each segment counts twice. -/
theorem sum_incident {ls : List Location} (hd : ls.Nodup) : ∀ (es : List Segment),
    (∀ e ∈ es, e.start ∈ ls ∧ e.stop ∈ ls) →
    (ls.map fun l => (es.flatMap (incident l)).length).sum = 2 * es.length
  | [], _ => by simp
  | e :: es, h => by
    have ih := sum_incident hd es fun f hf => h f (List.mem_cons_of_mem _ hf)
    obtain ⟨h1, h2⟩ := h e (List.mem_cons_self ..)
    -- each end of `e` is counted at one location only
    have hone : ∀ k ∈ ls, (ls.map fun l => if k = l then 1 else 0).sum = 1 := fun k hk => by
      rw [← List.sum_toFinset _ hd, Finset.sum_ite_eq, if_pos (List.mem_toFinset.2 hk)]
    have hsplit : ∀ l, ((e :: es).flatMap (incident l)).length =
        (if e.start = l then 1 else 0) + (if e.stop = l then 1 else 0) + (es.flatMap (incident l)).length := fun l => by
      rw [List.flatMap_cons, List.length_append, incident, List.length_append]
      congr 2 <;> split <;> rfl
    simp only [hsplit, List.sum_map_add, ih, hone _ h1, hone _ h2, List.length_cons]
    omega

theorem Consistent.sum_degrees {d : Document} {ls : List Location} {es : List Segment} (h : Consistent d ls es) :
    (d.pointList.map fun p => p.edges.length).sum = 2 * d.edges.length := by
  have hkeys : d.pointList.map (fun p => p.edges.length) =
      d.points.keys.map fun l => (es.flatMap (incident l)).length := by
    rw [Document.pointList, ← Std.TreeMap.map_fst_toList_eq_keys, List.map_map, List.map_map]
    refine List.map_congr_left fun ⟨l, p⟩ hp => ?_
    have hp' := h.points l
    rw [Std.TreeMap.mem_toList_iff_getElem?_eq_some.1 hp] at hp'
    split at hp'
    · cases hp'; rfl
    · cases hp'
  rw [hkeys, sum_incident Std.TreeMap.nodup_keys es, h.drawn]
  intro e he
  exact ⟨Std.TreeMap.mem_keys.2 (h.mem_points.2 (h.ends e he).1), Std.TreeMap.mem_keys.2 (h.mem_points.2 (h.ends e he).2)⟩

/-! ## The document after any sequence of calls -/

/-- After any calls on an empty document its points are the locations mentioned, each under its
own key; its segments are those added, in order, between stored points; every point carries the
segments that start or end there, turned to start there, and the points carry two each in all. -/
theorem run_new_consistent (width height : Int) (calls : List Call) :
    (∀ l, l ∈ (run (.new width height) calls).points ↔ ∃ c ∈ calls, l ∈ c.locations) ∧
    (run (.new width height) calls).edges = calls.flatMap Call.segments ∧
    (∀ e ∈ (run (.new width height) calls).edges,
      e.start ∈ (run (.new width height) calls).points ∧ e.stop ∈ (run (.new width height) calls).points) ∧
    (∀ (l : Location) p, (run (.new width height) calls).points[l]? = some p → p.loc = l ∧
      p.edges = (run (.new width height) calls).edges.flatMap (incident l) ∧ ∀ e ∈ p.edges, e.start = l) ∧
    ((run (.new width height) calls).pointList.map fun p => p.edges.length).sum =
      2 * (run (.new width height) calls).edges.length := by
  have h := (Consistent.new width height).run calls
  rw [List.nil_append, List.nil_append] at h
  refine ⟨fun l => ?_, h.drawn, fun e he => ?_, fun l p hp => ?_, h.sum_degrees⟩
  · rw [h.mem_points, List.mem_flatMap]
  · rw [h.drawn] at he
    exact ⟨h.mem_points.2 (h.ends e he).1, h.mem_points.2 (h.ends e he).2⟩
  · rw [h.points l] at hp
    split at hp
    · cases hp
      refine ⟨rfl, by rw [h.drawn], fun e he => ?_⟩
      obtain ⟨f, -, hf⟩ := List.mem_flatMap.1 he
      exact incident_start hf
    · cases hp

end DetailIdentifier.Svg
