/-
`clusterer::clusterize` from the locations on, and `trace_centerlines` with it. k-means is a library the
repository does not hold, so it is a parameter. The search for a number of clusters stops at the first one, from
2 on, whose clusters are all within `MAX_ACCEPTABLE_DISTANCE` of their centroids on average (`search_iff`).
-/
import DetailIdentifier.Lib.Loop
import DetailIdentifier.Interpreter.Averages
import DetailIdentifier.Interpreter.Centerlines

namespace DetailIdentifier.Interpreter

open Svg

/-! ## The code -/

/-- `MAX_ACCEPTABLE_DISTANCE`. -/
def maxAcceptableDistance : ℤ := 300

/-- What the code reads of a `GKMeans`: the rows of `centroids`, and `whichCluster` of each row of the data. -/
structure KMeans where
  centroids : List (ℝ × ℝ)
  whichCluster : List ℕ

/-- `waffles_distance`. -/
noncomputable def wafflesDistance (l1 l2 : ℝ × ℝ) : ℝ := Real.sqrt ((l1.1 - l2.1) ^ 2 + (l1.2 - l2.2) ^ 2)

/-- `setup_data`. -/
def setupData (data : List Location) : List (ℝ × ℝ) := data.map fun l => ((l.x : ℝ), (l.y : ℝ))

/-- `read_clusters`. -/
noncomputable def readClusters (matrix : List (ℝ × ℝ)) : List Location :=
  matrix.map fun row => ⟨toInt row.1, toInt row.2⟩

/-- The loop over the rows: the size of each cluster, and the distances to its centroid. -/
noncomputable def addDistance (kmeans : KMeans) (locations : List (ℝ × ℝ)) (distances : Std.TreeMap ℕ (ℕ × ℝ)) (i : ℕ) :
    Except Fault (Std.TreeMap ℕ (ℕ × ℝ)) := do
  let cluster ← fetch kmeans.whichCluster i
  let location ← fetch locations i
  let centroid ← fetch kmeans.centroids cluster
  return distances.alter cluster fun d =>
    some ((d.getD (0, 0)).1 + 1, (d.getD (0, 0)).2 + wafflesDistance location centroid)

/-- `roughly_equal_clusters`. The averages it collects and sorts besides are not used. -/
noncomputable def roughlyEqualClusters (kmeans : KMeans) (locations : List (ℝ × ℝ)) : Except Fault Bool := do
  let distances ← (List.range locations.length).foldlM (addDistance kmeans locations) ∅
  return distances.toList.all fun d => ¬d.2.2 / d.2.1 > maxAcceptableDistance

/-- The loop for the number of clusters. Every attempt draws from one seeded generator, so its outcome depends on
the data and on the number alone. -/
noncomputable def tryCount (kmeans : List Location → ℕ → Except Fault KMeans) (data : List Location) (clusterCount : ℕ) :
    Loop.Step ℕ KMeans Fault :=
  match kmeans data (clusterCount + 1) with
  | .error e => .fail e
  | .ok km =>
    match roughlyEqualClusters km (setupData data) with
    | .error e => .fail e
    | .ok true => .done km
    | .ok false => .next (clusterCount + 1)

/-- `clusterize`, from the locations. -/
noncomputable def clusterizeData (w : ℕ) (kmeans : List Location → ℕ → Except Fault KMeans) (fuel : ℕ)
    (data : List Location) : Except Fault (List Location) := do
  let km ← (Loop.run (tryCount kmeans data) fuel 1).getD (.error .outOfFuel)
  clusterize w (readClusters km.centroids)

/-- `trace_centerlines`, with its clusterer. -/
noncomputable def traceDocument (w : ℕ) (kmeans : List Location → ℕ → Except Fault KMeans) (fuel : ℕ) (doc : Document) :
    Except Fault Document := do
  let clusters ← clusterizeData w kmeans fuel doc.points.keys
  traceCenterlines (fun _ => clusters) doc

/-! ## Clusters of the data -/

namespace KMeans

variable (km : KMeans) (data : List Location)

/-- What k-means promises for a number of clusters: every location has a cluster, and a centroid lies in every box
that holds the locations. -/
structure Clusters (count : ℕ) : Prop where
  size : km.centroids.length = count
  assigned : km.whichCluster.length = data.length
  valid : ∀ j ∈ km.whichCluster, j < count
  among : ∀ c ∈ km.centroids, ∀ lo hi : ℝ × ℝ, (∀ l ∈ setupData data, l ∈ Set.Icc lo hi) → c ∈ Set.Icc lo hi

end KMeans

/-- The locations of a cluster among rows. -/
def inCluster (rows : List (Location × ℕ)) (j : ℕ) : List Location := (rows.filter fun r => r.2 = j).map Prod.fst

/-- The distance of a location to a centroid. -/
noncomputable def spread (c : ℝ × ℝ) (l : Location) : ℝ := wafflesDistance ((l.x : ℝ), (l.y : ℝ)) c

namespace KMeans

variable (km : KMeans) (data : List Location)

/-- The locations of a cluster. -/
def rows (j : ℕ) : List Location := inCluster (data.zip km.whichCluster) j

/-- No cluster is farther than `MAX_ACCEPTABLE_DISTANCE` from its centroid on average. -/
def RoughlyEqual : Prop :=
  ∀ j c, km.centroids[j]? = some c →
    ((km.rows data j).map (spread c)).sum ≤ maxAcceptableDistance * (km.rows data j).length

end KMeans

section Distances

variable {km : KMeans} {data : List Location} {count : ℕ}

/-- What the map of distances holds after some rows. -/
def Tallied (km : KMeans) (rows : List (Location × ℕ)) (distances : Std.TreeMap ℕ (ℕ × ℝ)) : Prop :=
  ∀ j, distances[j]? = if inCluster rows j = [] then none else
    some ((inCluster rows j).length, ((inCluster rows j).map (spread (km.centroids.getD j (0, 0)))).sum)

theorem inCluster_concat (rows : List (Location × ℕ)) (l : Location) (k j : ℕ) :
    inCluster (rows ++ [(l, k)]) j = if k = j then inCluster rows j ++ [l] else inCluster rows j := by
  unfold inCluster
  rw [List.filter_append, List.map_append, List.filter_singleton]
  by_cases h : k = j <;> simp [h]

theorem Tallied.add {rows : List (Location × ℕ)} {distances : Std.TreeMap ℕ (ℕ × ℝ)} (h : Tallied km rows distances)
    (l : Location) {k : ℕ} {c : ℝ × ℝ} (hc : km.centroids[k]? = some c) :
    Tallied km (rows ++ [(l, k)])
      (distances.alter k fun d => some ((d.getD (0, 0)).1 + 1, (d.getD (0, 0)).2 + wafflesDistance (l.x, l.y) c)) := by
  intro j
  rw [inCluster_concat, Std.TreeMap.getElem?_alter]
  by_cases hkj : k = j
  · subst hkj
    have hcentroid : km.centroids.getD k (0, 0) = c := by rw [List.getD_eq_getElem?_getD, hc, Option.getD_some]
    rw [if_pos (Std.LawfulEqCmp.compare_eq_iff_eq.2 rfl), if_pos rfl, if_neg (by simp), h k, hcentroid]
    by_cases hempty : inCluster rows k = []
    · simp [hempty, spread]
    · simp [hempty, spread]
  · rw [if_neg (by simpa using hkj), if_neg hkj, h j]

theorem addDistance_eq {i k : ℕ} {l : Location} {c : ℝ × ℝ} (hl : data[i]? = some l)
    (hk : km.whichCluster[i]? = some k) (hc : km.centroids[k]? = some c) (distances : Std.TreeMap ℕ (ℕ × ℝ)) :
    addDistance km (setupData data) distances i =
      .ok (distances.alter k fun d => some ((d.getD (0, 0)).1 + 1, (d.getD (0, 0)).2 + wafflesDistance (l.x, l.y) c)) := by
  unfold addDistance setupData
  rw [fetch_eq hk, fetch_eq (a := ((l.x : ℝ), (l.y : ℝ))) (by rw [List.getElem?_map, hl]; rfl)]
  show (do let centroid ← fetch km.centroids k; _) = _
  rw [fetch_eq hc]
  rfl

/-- The map holds the sizes of the clusters and the sums of the distances. -/
theorem distances_tallied (h : km.Clusters data count) : ∀ n ≤ data.length, ∃ distances,
    (List.range n).foldlM (addDistance km (setupData data)) ∅ = .ok distances ∧
      Tallied km ((data.zip km.whichCluster).take n) distances
  | 0, _ => ⟨∅, rfl, fun j => by simp [inCluster]⟩
  | n + 1, hn => by
    obtain ⟨distances, hrun, htallied⟩ := distances_tallied h n (by omega)
    have hn' : n < km.whichCluster.length := h.assigned ▸ hn
    have hk := List.getElem?_eq_getElem hn'
    have hvalid := h.valid _ (List.getElem_mem hn')
    have hc := List.getElem?_eq_getElem (l := km.centroids) (h.size ▸ hvalid)
    have hget : (data.zip km.whichCluster)[n]? = some (data[n], km.whichCluster[n]) :=
      List.getElem?_zip_eq_some.2 ⟨List.getElem?_eq_getElem hn, hk⟩
    have hrows : (data.zip km.whichCluster).take (n + 1) =
        (data.zip km.whichCluster).take n ++ [(data[n], km.whichCluster[n])] := by
      rw [List.take_add_one, hget]
      rfl
    have hstep := addDistance_eq (List.getElem?_eq_getElem hn) hk hc distances
    refine ⟨_, ?_, hrows ▸ htallied.add data[n] hc⟩
    rw [List.range_succ, List.foldlM_append, hrun]
    show addDistance km _ distances n >>= pure = _
    rw [bind_pure, hstep]

/-- The test accepts exactly the clusters that are roughly equal. -/
theorem roughlyEqualClusters_eq (h : km.Clusters data count) : ∃ b : Bool,
    roughlyEqualClusters km (setupData data) = .ok b ∧ (b = true ↔ km.RoughlyEqual data) := by
  obtain ⟨distances, hrun, htallied⟩ := distances_tallied h data.length le_rfl
  rw [List.take_of_length_le (by simp)] at htallied
  have hlen : (setupData data).length = data.length := by simp [setupData]
  refine ⟨distances.toList.all fun d => ¬d.2.2 / d.2.1 > maxAcceptableDistance, ?_, ?_⟩
  · unfold roughlyEqualClusters
    rw [hlen, hrun]
    rfl
  rw [List.all_eq_true]
  simp only [Prod.forall, Std.TreeMap.mem_toList_iff_getElem?_eq_some, decide_eq_true_eq, gt_iff_lt, not_lt]
  constructor
  · intro hall j c hc
    by_cases hempty : km.rows data j = []
    · simp [hempty]
    · have hget := htallied j
      rw [if_neg (by exact hempty), List.getD_eq_getElem?_getD, hc, Option.getD_some] at hget
      have hpos : (0 : ℝ) < (km.rows data j).length := by exact_mod_cast List.length_pos_iff.2 hempty
      exact (div_le_iff₀ hpos).1 (hall _ _ _ hget)
  · intro hequal j n total hget
    rw [htallied j] at hget
    split at hget
    · cases hget
    · rename_i hne
      cases hget
      obtain ⟨l, hl⟩ := List.exists_mem_of_ne_nil _ hne
      obtain ⟨r, hr, -⟩ := List.mem_map.1 hl
      rw [List.mem_filter, decide_eq_true_eq] at hr
      have hj : j < km.centroids.length := h.size ▸ h.valid j (hr.2 ▸ (List.of_mem_zip hr.1).2)
      have hc := List.getElem?_eq_getElem hj
      have hpos : (0 : ℝ) < (inCluster (data.zip km.whichCluster) j).length := by
        exact_mod_cast List.length_pos_iff.2 hne
      rw [div_le_iff₀ hpos, List.getD_eq_getElem?_getD, hc, Option.getD_some]
      exact hequal j _ hc

end Distances

/-! ## The search -/

section Search

variable {kmeans : List Location → ℕ → Except Fault KMeans} {data : List Location}

/-- The number of clusters the search stops at: the first one, from 2 on, whose clusters are roughly equal. -/
structure FirstAccepted (kmeans : List Location → ℕ → Except Fault KMeans) (data : List Location) (count : ℕ)
    (km : KMeans) : Prop where
  two_le : 2 ≤ count
  clustered : kmeans data count = .ok km
  accepted : km.RoughlyEqual data
  rejected : ∀ j, 2 ≤ j → j < count → ∃ km', kmeans data j = .ok km' ∧ ¬km'.RoughlyEqual data

variable (hkmeans : ∀ count km, kmeans data count = .ok km → km.Clusters data count)

include hkmeans

/-- An attempt fails with k-means, is the last one, or leads to the next number. -/
theorem tryCount_cases (n : ℕ) :
    (∃ e, kmeans data (n + 1) = .error e ∧ tryCount kmeans data n = .fail e) ∨
      ∃ km, kmeans data (n + 1) = .ok km ∧
        (km.RoughlyEqual data ∧ tryCount kmeans data n = .done km ∨
          ¬km.RoughlyEqual data ∧ tryCount kmeans data n = .next (n + 1)) := by
  unfold tryCount
  cases hkm : kmeans data (n + 1) with
  | error e => exact .inl ⟨e, rfl, rfl⟩
  | ok km =>
    obtain ⟨b, hb, hequal⟩ := roughlyEqualClusters_eq (hkmeans _ _ hkm)
    refine .inr ⟨km, rfl, ?_⟩
    simp only [hb]
    cases b with
    | true => exact .inl ⟨hequal.1 rfl, rfl⟩
    | false => exact .inr ⟨fun h => Bool.false_ne_true (hequal.2 h), rfl⟩

theorem tryCount_done {n : ℕ} {km : KMeans} :
    tryCount kmeans data n = .done km ↔ kmeans data (n + 1) = .ok km ∧ km.RoughlyEqual data := by
  rcases tryCount_cases hkmeans n with ⟨e, he, htry⟩ | ⟨km', hkm, ⟨hequal, htry⟩ | ⟨hnot, htry⟩⟩
  · simp [he, htry]
  · rw [htry, hkm, Loop.Step.done.injEq, Except.ok.injEq]
    exact ⟨fun h => ⟨h, h ▸ hequal⟩, fun h => h.1⟩
  · rw [htry, hkm, Except.ok.injEq]
    exact ⟨fun h => (by cases h), fun h => absurd (h.1 ▸ h.2) hnot⟩

theorem tryCount_next {n n' : ℕ} : tryCount kmeans data n = .next n' ↔
    n' = n + 1 ∧ ∃ km, kmeans data (n + 1) = .ok km ∧ ¬km.RoughlyEqual data := by
  rcases tryCount_cases hkmeans n with ⟨e, he, htry⟩ | ⟨km', hkm, ⟨hequal, htry⟩ | ⟨hnot, htry⟩⟩
  · simp [he, htry]
  · simp [hkm, htry, hequal]
  · simp [hkm, htry, hnot, eq_comm]

/-- The search ends with the clusters of the first number that is accepted. -/
theorem search_iff {km : KMeans} :
    Loop.Ends (tryCount kmeans data) 1 (.ok km) ↔ ∃ count, FirstAccepted kmeans data count km := by
  rw [Loop.Ends.counting_iff fun n n' h => ((tryCount_next hkmeans).1 h).1]
  constructor
  · rintro ⟨k, hk, hdone, hnext⟩
    obtain ⟨hkm, hequal⟩ := (tryCount_done hkmeans).1 hdone
    refine ⟨k + 1, by omega, hkm, hequal, fun j hj hjk => ?_⟩
    obtain ⟨i, rfl⟩ := Nat.exists_eq_add_of_le' (Nat.one_le_of_lt hj)
    exact ((tryCount_next hkmeans).1 (hnext i (by omega) (by omega))).2
  · rintro ⟨count, h⟩
    obtain ⟨k, rfl⟩ := Nat.exists_eq_add_of_le' (Nat.one_le_of_lt h.two_le)
    have := h.two_le
    exact ⟨k, by omega, (tryCount_done hkmeans).2 ⟨h.clustered, h.accepted⟩,
      fun j hj hjk => (tryCount_next hkmeans).2 ⟨rfl, h.rejected (j + 1) (by omega) (by omega)⟩⟩

end Search

end DetailIdentifier.Interpreter
