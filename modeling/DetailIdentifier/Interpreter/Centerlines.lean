/-
`trace_centerlines`: every point of a document is moved to the endpoint nearest to it, and the
segments between different endpoints that remain are drawn once each. The endpoints come from
`clusterer`, which is a parameter here. The result is the quotient of the document's graph by the
nearest endpoint (`traceCenterlines_quotient`).
-/
import DetailIdentifier.Lib.Lists
import DetailIdentifier.Svg.Document

namespace DetailIdentifier.Interpreter

open Svg

/-! ## Orders -/

/-- `std::less` of pairs of locations. -/
def lessPair (l1 l2 : Location × Location) : Bool := if l1.1 = l2.1 then l1.2.less l2.2 else l1.1.less l2.1

instance : Ord Location := ⟨Location.cmp⟩

instance : Std.TransOrd Location := inferInstanceAs (Std.TransCmp Location.cmp)

instance : Std.LawfulEqOrd Location := inferInstanceAs (Std.LawfulEqCmp Location.cmp)

/-- The order of a map whose keys are compared by `lessPair`. -/
def pairCmp (p q : Location × Location) : Ordering :=
  if lessPair p q then .lt else if lessPair q p then .gt else .eq

theorem lessPair_iff {p q : Location × Location} :
    lessPair p q = true ↔ compareLex (compareOn Prod.fst) (compareOn Prod.snd) p q = .lt := by
  simp only [lessPair, compareLex, compareOn]
  split
  · rename_i h
    rw [h, Std.ReflOrd.compare_self, Location.less_iff]
    rfl
  · rename_i h
    rw [Location.less_iff, Ordering.then_eq_lt]
    exact ⟨.inl, fun h' => h'.resolve_right fun hh => h (Std.LawfulEqOrd.eq_of_compare hh.1)⟩

theorem pairCmp_eq : pairCmp = compareLex (compareOn Prod.fst) (compareOn Prod.snd) := by
  funext p q
  simp only [pairCmp, lessPair_iff]
  rw [@Std.OrientedCmp.eq_swap _ (compareLex (compareOn Prod.fst) (compareOn Prod.snd)) _ q p]
  cases compareLex (compareOn Prod.fst) (compareOn Prod.snd) p q <;> rfl

instance : Std.TransCmp pairCmp := pairCmp_eq ▸ inferInstanceAs (Std.TransCmp (compareLex _ _))

instance : Std.LawfulEqCmp pairCmp where
  eq_of_compare {a b} h := by
    rw [pairCmp_eq] at h
    obtain ⟨h1, h2⟩ := compareLex_eq_eq.1 h
    exact Prod.ext (Std.LawfulEqOrd.eq_of_compare h1) (Std.LawfulEqOrd.eq_of_compare h2)

/-! ## The code -/

/-- `ordered_pair`. -/
def orderedPair (l1 l2 : Location) : Location × Location := if l1.less l2 then (l1, l2) else (l2, l1)

/-- The number of the endpoint nearest to a location. -/
noncomputable def nearestCluster (clusters : List Location) (loc : Location) : ℕ :=
  clusters.minElement fun l1 l2 => cartesianDistance loc l1 < cartesianDistance loc l2

/-- The map from a location to the number of its endpoint. -/
noncomputable def pointToCluster (clusters locations : List Location) : Std.TreeMap Location ℕ Location.cmp :=
  locations.foldl (fun m loc => m.insertIfNew loc (nearestCluster clusters loc)) ∅

/-- `clusters[point_to_cluster.at(loc)]`. -/
def clusterAt (clusters : List Location) (m : Std.TreeMap Location ℕ Location.cmp) (loc : Location) :
    Except Fault Location :=
  match m[loc]? with
  | none => .error .outOfRange
  | some i => fetch clusters i

/-- The loop over the edges: how many of them connect two endpoints. -/
def countConnection (clusters : List Location) (m : Std.TreeMap Location ℕ Location.cmp)
    (connections : Std.TreeMap (Location × Location) ℕ pairCmp) (edge : Segment) :
    Except Fault (Std.TreeMap (Location × Location) ℕ pairCmp) := do
  let c1 ← clusterAt clusters m edge.start
  let c2 ← clusterAt clusters m edge.stop
  return connections.alter (orderedPair c1 c2) fun n => some (n.getD 0 + 1)

/-- `trace_centerlines`. -/
noncomputable def traceCenterlines (clusterize : List Location → List Location) (doc : Document) :
    Except Fault Document := do
  let locations := doc.points.keys
  let clusters := clusterize locations
  let connections ← doc.edges.foldlM (countConnection clusters (pointToCluster clusters locations)) ∅
  return connections.toList.foldl (fun res segments =>
    if segments.1.1 ≠ segments.1.2 then res.addSegment segments.1.1 segments.1.2 else res) (.new doc.width doc.height)

/-! ## Nearest endpoints -/

/-- `a` is the endpoint nearest to `loc` by a distance, the first of them on ties. -/
def Nearest (dist : Location → Location → ℝ) (clusters : List Location) (loc a : Location) : Prop :=
  ∃ i, List.FirstMin (dist loc) clusters i a

/-- Up to `2 ^ 51` in squares, the endpoint nearest by the distances computed is the nearest one. -/
theorem nearest_cartesianDistance_iff {clusters : List Location} {loc : Location}
    (h : ∀ c ∈ clusters, sqDistance loc c ≤ 2 ^ 51) (a : Location) :
    Nearest cartesianDistance clusters loc a ↔ Nearest distance clusters loc a :=
  exists_congr fun _ => List.FirstMin.congr fun b hb c hc => cartesianDistance_lt_iff (h b hb) (h c hc)

/-- The endpoint a location is moved to. -/
noncomputable def endpoint (clusters : List Location) (loc : Location) : Location :=
  clusters.getD (nearestCluster clusters loc) ⟨0, 0⟩

section Endpoints

variable {clusters : List Location} (hne : clusters ≠ [])

include hne in
theorem firstMin_endpoint (loc : Location) :
    List.FirstMin (cartesianDistance loc) clusters (nearestCluster clusters loc) (endpoint clusters loc) := by
  have hlt : ∀ l1 l2, decide (cartesianDistance loc l1 < cartesianDistance loc l2) = true ↔
      cartesianDistance loc l1 < cartesianDistance loc l2 := fun _ _ => by simp
  obtain ⟨a, ha⟩ := List.minElement_spec hlt hne
  have hget : clusters[nearestCluster clusters loc]? = some a := ha.get
  have hend : endpoint clusters loc = a := by
    rw [endpoint, List.getD_eq_getElem?_getD, hget]
    rfl
  rw [hend]
  exact ha

include hne in
theorem nearest_iff {loc a : Location} : Nearest cartesianDistance clusters loc a ↔ endpoint clusters loc = a := by
  constructor
  · rintro ⟨i, hi⟩
    exact ((firstMin_endpoint hne loc).unique hi).2
  · rintro rfl
    exact ⟨_, firstMin_endpoint hne loc⟩

theorem getElem?_pointToCluster (locations : List Location) : ∀ loc : Location,
    (pointToCluster clusters locations)[loc]? = if loc ∈ locations then some (nearestCluster clusters loc) else none := by
  unfold pointToCluster
  induction locations using List.reverseRecOn with
  | nil => simp
  | append_singleton ls k ih =>
    intro loc
    rw [List.foldl_append, List.foldl_cons, List.foldl_nil, Std.TreeMap.getElem?_insertIfNew, ih]
    simp only [Std.LawfulEqCmp.compare_eq_iff_eq, Std.TreeMap.mem_iff_isSome_getElem?, ih, List.mem_append,
      List.mem_singleton]
    by_cases hk : k = loc
    · subst hk
      by_cases hl : k ∈ ls <;> simp [hl]
    · simp [hk, Ne.symm hk]

include hne in
theorem clusterAt_eq {locations : List Location} {loc : Location} (hloc : loc ∈ locations) :
    clusterAt clusters (pointToCluster clusters locations) loc = .ok (endpoint clusters loc) := by
  unfold clusterAt
  rw [getElem?_pointToCluster, if_pos hloc]
  exact fetch_eq (firstMin_endpoint hne loc).get

end Endpoints

/-! ## Connections -/

theorem orderedPair_eq (l1 l2 : Location) : s((orderedPair l1 l2).1, (orderedPair l1 l2).2) = s(l1, l2) := by
  unfold orderedPair
  split
  · rfl
  · exact Sym2.eq_swap

/-- A pair and its reversal are ordered alike. -/
theorem orderedPair_comm (l1 l2 : Location) : orderedPair l1 l2 = orderedPair l2 l1 := by
  simp only [orderedPair, Location.less_iff]
  rcases h : Location.cmp l1 l2 with _ | _ | _
  · have hgt := Std.OrientedCmp.gt_of_lt h
    simp [hgt]
  · have heq := Std.LawfulEqCmp.eq_of_compare h
    subst heq
    rw [h]
  · have hlt := Std.OrientedCmp.lt_of_gt h
    simp [hlt]

theorem orderedPair_congr {a b c d : Location} (h : s(a, b) = s(c, d)) : orderedPair a b = orderedPair c d := by
  rcases Sym2.eq_iff.1 h with ⟨rfl, rfl⟩ | ⟨rfl, rfl⟩
  · rfl
  · exact orderedPair_comm a b

/-- The key an edge is counted under. -/
noncomputable def connection (clusters : List Location) (e : Segment) : Location × Location :=
  orderedPair (endpoint clusters e.start) (endpoint clusters e.stop)

theorem foldlM_countConnection {clusters locations : List Location} (hne : clusters ≠ []) : ∀ (es : List Segment)
    (m : Std.TreeMap (Location × Location) ℕ pairCmp), (∀ e ∈ es, e.start ∈ locations ∧ e.stop ∈ locations) →
    ∃ m', es.foldlM (countConnection clusters (pointToCluster clusters locations)) m = .ok m' ∧
      ∀ p, p ∈ m' ↔ p ∈ m ∨ ∃ e ∈ es, connection clusters e = p
  | [], m, _ => ⟨m, rfl, by simp⟩
  | e :: es, m, h => by
    obtain ⟨h1, h2⟩ := h e (List.mem_cons_self ..)
    obtain ⟨m', hm', hmem⟩ := foldlM_countConnection hne es
      (m.alter (connection clusters e) fun n => some (n.getD 0 + 1)) fun f hf => h f (List.mem_cons_of_mem _ hf)
    have hcount : countConnection clusters (pointToCluster clusters locations) m e =
        .ok (m.alter (connection clusters e) fun n => some (n.getD 0 + 1)) := by
      simp only [countConnection, clusterAt_eq hne h1, clusterAt_eq hne h2, bind, Except.bind]
      rfl
    refine ⟨m', ?_, fun p => ?_⟩
    · rw [List.foldlM_cons, hcount]
      exact hm'
    · rw [hmem, Std.TreeMap.mem_alter]
      simp only [Std.LawfulEqCmp.compare_eq_iff_eq, List.mem_cons]
      split
      · rename_i hp
        simp [hp]
      · rename_i hp
        simp [hp]

/-! ## The result -/

/-- The calls that draw the connections between different endpoints. -/
def drawn (pairs : List (Location × Location)) : List Call :=
  (pairs.filter fun p => p.1 ≠ p.2).map fun p => .addSegment p.1 p.2

theorem foldl_addSegment (l : List ((Location × Location) × ℕ)) : ∀ d : Document,
    l.foldl (fun res segments =>
      if segments.1.1 ≠ segments.1.2 then res.addSegment segments.1.1 segments.1.2 else res) d =
      run d (drawn (l.map Prod.fst)) := by
  induction l with
  | nil => exact fun _ => rfl
  | cons x l ih =>
    intro d
    rw [List.foldl_cons, ih, List.map_cons, drawn, drawn, List.filter_cons]
    by_cases hx : x.1.1 = x.1.2
    · simp [hx]
    · simp [hx, Svg.run, Call.apply]

theorem run_drawn_edges (width height : Int) (pairs : List (Location × Location)) :
    (run (.new width height) (drawn pairs)).edges = (pairs.filter fun p => p.1 ≠ p.2).map fun p => ⟨p.1, p.2⟩ := by
  rw [run_edges, Document.new, List.nil_append, drawn, List.flatMap_map]
  exact List.map_eq_flatMap.symm

theorem mem_run_drawn_edges {width height : Int} {pairs : List (Location × Location)} {e : Segment} :
    e ∈ (run (.new width height) (drawn pairs)).edges ↔ (e.start, e.stop) ∈ pairs ∧ e.start ≠ e.stop := by
  rw [run_drawn_edges]
  simp only [List.mem_map, List.mem_filter, decide_eq_true_eq, Prod.exists]
  constructor
  · rintro ⟨a, b, ⟨hab, hne⟩, rfl⟩
    exact ⟨hab, hne⟩
  · rintro ⟨hab, hne⟩
    exact ⟨_, _, ⟨hab, hne⟩, rfl⟩

/-- Only the ends of segments become points. -/
theorem mem_run_drawn_points {width height : Int} {pairs : List (Location × Location)} {l : Location} :
    l ∈ (run (.new width height) (drawn pairs)).points ↔
      ∃ e ∈ (run (.new width height) (drawn pairs)).edges, l = e.start ∨ l = e.stop := by
  rw [(run_new_consistent width height (drawn pairs)).1, run_drawn_edges]
  simp only [drawn, List.mem_map]
  constructor
  · rintro ⟨_, ⟨p, hp, rfl⟩, hl⟩
    exact ⟨_, ⟨p, hp, rfl⟩, by simpa [Call.locations] using hl⟩
  · rintro ⟨_, ⟨p, hp, rfl⟩, hl⟩
    exact ⟨_, ⟨p, hp, rfl⟩, by simpa [Call.locations] using hl⟩

/-- The strokes carried along by a map of the locations: those whose ends stay apart are drawn, once each, and
nothing else. -/
structure Carried (move : Location → Location) (doc res : Document) : Prop where
  size : res.width = doc.width ∧ res.height = doc.height
  edges : ∀ a b, (∃ e ∈ res.edges, s(e.start, e.stop) = s(a, b)) ↔
    a ≠ b ∧ ∃ e ∈ doc.edges, s(move e.start, move e.stop) = s(a, b)
  once : res.edges.Pairwise fun e f => s(e.start, e.stop) ≠ s(f.start, f.stop)
  points : ∀ l, l ∈ res.points ↔ ∃ e ∈ res.edges, l = e.start ∨ l = e.stop

theorem Carried.apart {move : Location → Location} {doc res : Document} (h : Carried move doc res) :
    ∀ e ∈ res.edges, e.start ≠ e.stop :=
  fun e he => ((h.edges e.start e.stop).1 ⟨e, he, rfl⟩).1

/-- The pairs drawn are those of different ends, in the order of the map. -/
theorem traceCenterlines_eq {clusterize : List Location → List Location} {doc : Document}
    (hne : clusterize doc.points.keys ≠ []) (hends : ∀ e ∈ doc.edges, e.start ∈ doc.points ∧ e.stop ∈ doc.points) :
    ∃ pairs : List (Location × Location), pairs.Nodup ∧
      traceCenterlines clusterize doc = .ok (run (.new doc.width doc.height) (drawn pairs)) ∧
      ∀ p, p ∈ pairs ↔ ∃ e ∈ doc.edges, connection (clusterize doc.points.keys) e = p := by
  have hloc : ∀ e ∈ doc.edges, e.start ∈ doc.points.keys ∧ e.stop ∈ doc.points.keys :=
    fun e he => ⟨Std.TreeMap.mem_keys.2 (hends e he).1, Std.TreeMap.mem_keys.2 (hends e he).2⟩
  obtain ⟨m, hm, hmem⟩ := foldlM_countConnection hne doc.edges ∅ hloc
  refine ⟨m.keys, Std.TreeMap.nodup_keys, ?_, fun p => ?_⟩
  · simp only [traceCenterlines, hm, bind, Except.bind, foldl_addSegment, Std.TreeMap.map_fst_toList_eq_keys]
    rfl
  · rw [Std.TreeMap.mem_keys, hmem]
    simp

theorem traceCenterlines_carried {clusterize : List Location → List Location} {doc : Document}
    (hne : clusterize doc.points.keys ≠ []) (hends : ∀ e ∈ doc.edges, e.start ∈ doc.points ∧ e.stop ∈ doc.points) :
    ∃ res, traceCenterlines clusterize doc = .ok res ∧ Carried (endpoint (clusterize doc.points.keys)) doc res := by
  obtain ⟨pairs, hnodup, hres, hpairs⟩ := traceCenterlines_eq hne hends
  -- a pair is ordered, so it is the only one over its two ends
  have hordered : ∀ p ∈ pairs, orderedPair p.1 p.2 = p := by
    intro p hp
    obtain ⟨e, -, rfl⟩ := (hpairs p).1 hp
    exact orderedPair_congr (orderedPair_eq _ _)
  refine ⟨_, hres, run_size _ _, fun a b => ⟨?_, ?_⟩, ?_, fun l => mem_run_drawn_points⟩
  · rintro ⟨e, he, hs⟩
    obtain ⟨hpair, hapart⟩ := mem_run_drawn_edges.1 he
    obtain ⟨f, hf, hfe⟩ := (hpairs _).1 hpair
    have hends : s(endpoint (clusterize doc.points.keys) f.start, endpoint (clusterize doc.points.keys) f.stop) =
        s(e.start, e.stop) := by
      rw [← orderedPair_eq]
      exact congrArg (fun p : Location × Location => s(p.1, p.2)) hfe
    refine ⟨fun hab => hapart (Sym2.mk_isDiag_iff.1 ?_), f, hf, hends.trans hs⟩
    rw [hs, hab]
    exact Sym2.mk_isDiag_iff.2 rfl
  · rintro ⟨hab, f, hf, hs⟩
    have hsym := (orderedPair_eq _ _).trans hs
    refine ⟨⟨_, _⟩, mem_run_drawn_edges.2 ⟨(hpairs _).2 ⟨f, hf, rfl⟩, fun heq => hab (Sym2.mk_isDiag_iff.1 ?_)⟩, hsym⟩
    rw [← hsym]
    exact Sym2.mk_isDiag_iff.2 heq
  · rw [run_drawn_edges, List.pairwise_map]
    refine List.Pairwise.imp_of_mem (fun {p q} hp hq hne hs => hne ?_) (hnodup.filter _)
    rw [← hordered p (List.mem_filter.1 hp).1, ← hordered q (List.mem_filter.1 hq).1]
    exact orderedPair_congr hs

/-- The centerlines are the quotient of the document's graph by the endpoint that is nearest by the distances the
code computes: two different endpoints are joined, once, when an edge has its ends nearest to them, and no other
points or segments are drawn. Where the squares of the distances are at most `2 ^ 51` it is the nearest endpoint. -/
theorem traceCenterlines_quotient (width height : Int) (calls : List Call) (clusterize : List Location → List Location)
    (hne : clusterize (run (.new width height) calls).points.keys ≠ []) :
    ∃ res, traceCenterlines clusterize (run (.new width height) calls) = .ok res ∧
      res.width = width ∧ res.height = height ∧
      (∀ a b, a ≠ b → ((∃ e ∈ res.edges, s(e.start, e.stop) = s(a, b)) ↔
        ∃ e ∈ (run (.new width height) calls).edges, ∃ c d, s(c, d) = s(a, b) ∧
          Nearest cartesianDistance (clusterize (run (.new width height) calls).points.keys) e.start c ∧
          Nearest cartesianDistance (clusterize (run (.new width height) calls).points.keys) e.stop d)) ∧
      (∀ e ∈ res.edges, e.start ≠ e.stop) ∧
      (res.edges.Pairwise fun e f => s(e.start, e.stop) ≠ s(f.start, f.stop)) ∧
      (∀ l, l ∈ res.points ↔ ∃ e ∈ res.edges, l = e.start ∨ l = e.stop) ∧
      ∀ l, (∀ c ∈ clusterize (run (.new width height) calls).points.keys, sqDistance l c ≤ 2 ^ 51) →
        ∀ a, Nearest cartesianDistance (clusterize (run (.new width height) calls).points.keys) l a ↔
          Nearest distance (clusterize (run (.new width height) calls).points.keys) l a := by
  obtain ⟨res, hres, hcarried⟩ := traceCenterlines_carried hne (run_new_consistent width height calls).2.2.1
  refine ⟨res, hres, ?_, ?_, fun a b hab => ?_, hcarried.apart, hcarried.once, hcarried.points,
    fun l hl => nearest_cartesianDistance_iff hl⟩
  · exact hcarried.size.1.trans (run_size calls _).1
  · exact hcarried.size.2.trans (run_size calls _).2
  · rw [hcarried.edges, and_iff_right hab]
    refine exists_congr fun e => and_congr_right fun _ => ⟨fun hs => ?_, ?_⟩
    · exact ⟨_, _, hs, (nearest_iff hne).2 rfl, (nearest_iff hne).2 rfl⟩
    · rintro ⟨c, d, hs, hc, hd⟩
      rwa [(nearest_iff hne).1 hc, (nearest_iff hne).1 hd]

/-- Two strokes that meet, and one endpoint for each of their three ends. -/
theorem traceCenterlines_corner : ∃ res,
    traceCenterlines (fun locations => locations) (run (.new 100 100) [.addSegment ⟨0, 0⟩ ⟨50, 0⟩, .addSegment ⟨50, 0⟩ ⟨50, 50⟩]) =
        .ok res ∧ res.width = 100 ∧ res.height = 100 ∧ ∀ e ∈ res.edges, e.start ≠ e.stop := by
  obtain ⟨res, hres, hw, hh, -, hne, -⟩ := traceCenterlines_quotient 100 100
    [.addSegment ⟨0, 0⟩ ⟨50, 0⟩, .addSegment ⟨50, 0⟩ ⟨50, 50⟩] (fun locations => locations) (by decide)
  exact ⟨res, hres, hw, hh, hne⟩

/-! ## Far endpoints

The squares of two distances are `2 ^ 52 + 2 ^ 27 + 2` and one less; the distances computed are the same.
-/

def farEndpoints : List Location := [⟨1, 67108865⟩, ⟨67108865, 0⟩]

theorem cartesianDistance_farEndpoints : ∀ c ∈ farEndpoints, cartesianDistance ⟨0, 0⟩ c = 67108865 := by
  have hsquare : ∀ c ∈ farEndpoints, Binary64.round (Real.sqrt (c.x ^ 2 + c.y ^ 2 : ℤ)) = 67108865 := by
    simp only [farEndpoints, List.forall_mem_cons, List.not_mem_nil, false_imp_iff, implies_true, and_true]
    constructor
    · -- half a unit of the last digit, `2 ^ (-27)`, is too much to add to the root
      have hlo : (67108865 : ℝ) ≤ Real.sqrt ((1 ^ 2 + 67108865 ^ 2 : ℤ)) := Real.le_sqrt_of_sq_le (by norm_num)
      have hhi : Real.sqrt ((1 ^ 2 + 67108865 ^ 2 : ℤ)) < 67108865 + 1 / 2 ^ 27 := by
        rw [Real.sqrt_lt' (by norm_num)]
        norm_num
      rw [Binary64.round_eq (e := -26) (n := 67108865 * 2 ^ 26)]
      · norm_num
      · rw [abs_of_nonneg (by linarith)]
        exact le_trans (by norm_num) hlo
      · rw [abs_of_nonneg (by linarith)]
        exact hhi.trans (by norm_num)
      · left
        rw [abs_lt]
        push_cast at hlo hhi ⊢
        constructor <;> norm_num <;> linarith
    · rw [show ((67108865 ^ 2 + 0 ^ 2 : ℤ) : ℝ) = 67108865 ^ 2 by norm_num, Real.sqrt_sq (by norm_num)]
      exact_mod_cast Binary64.round_intCast (n := 67108865) (by norm_num)
  intro c hc
  have hdiff : (0 - c.x).bmod (2 ^ 32) = -c.x ∧ (0 - c.y).bmod (2 ^ 32) = -c.y ∧ c.x ^ 2 + c.y ^ 2 ≤ 2 ^ 53 := by
    simp only [farEndpoints, List.mem_cons, List.not_mem_nil, or_false] at hc
    rcases hc with rfl | rfl <;> decide
  rw [← hsquare c hc, cartesianDistance, hdiff.1, hdiff.2.1, Binary64.hypot_intCast, neg_sq, neg_sq]
  rw [neg_sq, neg_sq]
  exact hdiff.2.2

/-- By the distance that `f` gives, the second far endpoint is the nearest. -/
theorem nearest_second {dist : Location → Location → ℝ} {l : Location}
    (h : dist l ⟨67108865, 0⟩ < dist l ⟨1, 67108865⟩) : Nearest dist farEndpoints l ⟨67108865, 0⟩ := by
  refine ⟨1, rfl, ?_, fun j b hj hb => ?_⟩
  · simp [farEndpoints, h.le]
  · obtain rfl : j = 0 := by omega
    cases hb
    exact h

/-- The first of two endpoints at one distance computed is kept, although the second is nearer: a stroke from the
origin to the second becomes a stroke between the two. -/
theorem farEndpoints_not_nearest : ∃ res,
    traceCenterlines (fun _ => farEndpoints) (run (.new 67108866 67108866) [.addSegment ⟨0, 0⟩ ⟨67108865, 0⟩]) =
        .ok res ∧
      (∃ e ∈ res.edges, s(e.start, e.stop) = s(⟨1, 67108865⟩, ⟨67108865, 0⟩)) ∧
      ¬∃ e ∈ (run (.new 67108866 67108866) [.addSegment ⟨0, 0⟩ ⟨67108865, 0⟩]).edges, ∃ c d,
        s(c, d) = s((⟨1, 67108865⟩ : Location), ⟨67108865, 0⟩) ∧
          Nearest distance farEndpoints e.start c ∧ Nearest distance farEndpoints e.stop d := by
  have hne : farEndpoints ≠ [] := by decide
  have hedges : (run (.new 67108866 67108866) [.addSegment ⟨0, 0⟩ ⟨67108865, 0⟩]).edges =
      [⟨⟨0, 0⟩, ⟨67108865, 0⟩⟩] := rfl
  obtain ⟨res, hres, hcarried⟩ := @traceCenterlines_carried (fun _ => farEndpoints) _ hne
    (run_new_consistent 67108866 67108866 [.addSegment ⟨0, 0⟩ ⟨67108865, 0⟩]).2.2.1
  refine ⟨res, hres, (hcarried.edges _ _).2 ⟨by decide, _, hedges ▸ List.mem_singleton_self _, ?_⟩, ?_⟩
  · have hstart : endpoint farEndpoints ⟨0, 0⟩ = ⟨1, 67108865⟩ := by
      refine (nearest_iff hne).1 ⟨0, rfl, fun c hc => ?_, fun j b hj => absurd hj (Nat.not_lt_zero j)⟩
      rw [cartesianDistance_farEndpoints c hc]
      exact (cartesianDistance_farEndpoints _ (by decide)).le
    have hstop : endpoint farEndpoints ⟨67108865, 0⟩ = ⟨67108865, 0⟩ := by
      refine (nearest_iff hne).1 (nearest_second ?_)
      have hdiff : (67108865 - 1 : ℤ).bmod (2 ^ 32) = 67108864 ∧ (67108865 - 67108865 : ℤ).bmod (2 ^ 32) = 0 ∧
        (0 - 0 : ℤ).bmod (2 ^ 32) = 0 ∧ (0 - 67108865 : ℤ).bmod (2 ^ 32) = -67108865 := by decide
      rw [cartesianDistance, cartesianDistance, hdiff.1, hdiff.2.1, hdiff.2.2.1, hdiff.2.2.2, Int.cast_zero,
        Binary64.hypot_zero]
      exact Binary64.hypot_pos (.inl (by norm_num))
    rw [hstart, hstop]
  · rintro ⟨e, he, c, d, hs, ⟨i, hc⟩, j, hd⟩
    rw [hedges, List.mem_singleton] at he
    subst he
    obtain ⟨i', hc'⟩ := @nearest_second distance ⟨0, 0⟩ (distance_lt_iff.2 (by decide))
    obtain ⟨j', hd'⟩ := @nearest_second distance ⟨67108865, 0⟩ (distance_lt_iff.2 (by decide))
    rw [(hc.unique hc').2, (hd.unique hd').2] at hs
    exact absurd hs (by decide)

end DetailIdentifier.Interpreter
