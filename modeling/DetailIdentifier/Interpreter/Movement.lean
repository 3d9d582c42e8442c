/-
How far `trace_centerlines` moves the points of a document. A location is near its centroid on average, the
centroid is cut to integers, the cluster is averaged into an endpoint with clusters close to one of them, and
the location goes to the endpoint nearest to it. So no location moves more than 403 farther than its centroid
(`moved_le`), and those of a cluster move by at most 703 on average (`traceDocument_moves`).
-/
import DetailIdentifier.Interpreter.KMeans

namespace DetailIdentifier.Interpreter

open Svg

/-! ## The plane -/

/-- A location as a point of the plane. -/
def plane (l : Location) : ℂ := ⟨l.x, l.y⟩

theorem distance_eq (a b : Location) : distance a b = ‖plane a - plane b‖ := by
  rw [Complex.norm_eq_sqrt_sq_add_sq, distance, sqDistance]
  push_cast
  rfl

theorem spread_eq (c : ℝ × ℝ) (l : Location) : spread c l = ‖plane l - ⟨c.1, c.2⟩‖ := by
  rw [Complex.norm_eq_sqrt_sq_add_sq]
  rfl

/-- Moving both coordinates by less than `n` is moving by less than `71 / 50` times as much. -/
theorem norm_le_of_coordinates {z : ℂ} {n : ℝ} (hre : |z.re| < n) (him : |z.im| < n) : ‖z‖ ≤ 71 / 50 * n := by
  have hn : 0 < n := (abs_nonneg _).trans_lt hre
  rw [Complex.norm_eq_sqrt_sq_add_sq, Real.sqrt_le_left (by positivity)]
  have h1 : z.re ^ 2 ≤ n ^ 2 := sq_le_sq' (abs_lt.1 hre).1.le (abs_lt.1 hre).2.le
  have h2 : z.im ^ 2 ≤ n ^ 2 := sq_le_sq' (abs_lt.1 him).1.le (abs_lt.1 him).2.le
  nlinarith

/-- The square of the locations whose coordinates are not negative and at most `bound`. -/
def InSquare (bound : ℤ) (l : Location) : Prop := 0 ≤ l.x ∧ l.x ≤ bound ∧ 0 ≤ l.y ∧ l.y ≤ bound

/-! ## Computed distances -/

section Computed

variable {bound : ℤ} {l a b : Location}

/-- In a square of `int`s no difference wraps. -/
theorem cartesianDistance_of_inSquare (hint : bound < 2 ^ 31) (ha : InSquare bound a) (hb : InSquare bound b) :
    cartesianDistance a b = Binary64.hypot (a.x - b.x : ℤ) (a.y - b.y : ℤ) := by
  obtain ⟨hax0, hax1, hay0, hay1⟩ := ha
  obtain ⟨hbx0, hbx1, hby0, hby1⟩ := hb
  rw [cartesianDistance, Int.bmod_eq_of_le (by norm_num; omega) (by norm_num; omega),
    Int.bmod_eq_of_le (by norm_num; omega) (by norm_num; omega)]

/-- Rounding changes a distance by little. -/
theorem cartesianDistance_mem (hint : bound < 2 ^ 31) (ha : InSquare bound a) (hb : InSquare bound b) :
    (1 - 1 / 2 ^ 53) ^ 2 * distance a b ≤ cartesianDistance a b ∧
      cartesianDistance a b ≤ (1 + 1 / 2 ^ 53) ^ 2 * distance a b := by
  have hroot : distance a b = Real.sqrt ((a.x - b.x : ℤ) ^ 2 + (a.y - b.y : ℤ) ^ 2) := by
    rw [distance, sqDistance]
    push_cast
    rfl
  rw [cartesianDistance_of_inSquare hint ha hb, hroot]
  exact ⟨Binary64.le_hypot _ _, Binary64.hypot_le _ _⟩

theorem distance_le_of_inSquare (hint : bound < 2 ^ 31) (ha : InSquare bound a) (hb : InSquare bound b) :
    distance a b ≤ 2 ^ 32 := by
  obtain ⟨hax0, hax1, hay0, hay1⟩ := ha
  obtain ⟨hbx0, hbx1, hby0, hby1⟩ := hb
  have hcoordinate : ∀ m n : ℤ, 0 ≤ m → m ≤ bound → 0 ≤ n → n ≤ bound → |((m : ℝ) - n)| < 2 ^ 31 :=
    fun m n hm0 hm1 hn0 hn1 => by
      have h : |m - n| < 2 ^ 31 := abs_lt.2 ⟨by omega, by omega⟩
      exact_mod_cast h
  have h : ‖plane a - plane b‖ ≤ 71 / 50 * 2 ^ 31 := norm_le_of_coordinates
    (by simpa [plane] using hcoordinate a.x b.x hax0 hax1 hbx0 hbx1)
    (by simpa [plane] using hcoordinate a.y b.y hay0 hay1 hby0 hby1)
  rw [distance_eq]
  linarith

/-- What is no farther by the distances computed is hardly farther. -/
theorem distance_le_of_cartesianDistance_le (hint : bound < 2 ^ 31) (hl : InSquare bound l) (ha : InSquare bound a)
    (hb : InSquare bound b) (h : cartesianDistance l a ≤ cartesianDistance l b) :
    distance l a ≤ distance l b + 1 / 100 := by
  have h1 := (cartesianDistance_mem hint hl ha).1
  have h2 := (cartesianDistance_mem hint hl hb).2
  have h3 := distance_le_of_inSquare hint hl ha
  have h4 := distance_le_of_inSquare hint hl hb
  linarith

end Computed

/-! ## Averages -/

section Averages

variable {w : ℕ} {clusters : List Location} {group : List ℕ} {bound : ℤ}

/-- Sums of an `int` that are not negative are divided as they are. -/
theorem quotient_of_nonneg (hw : w = 32 ∨ w = 64) {sum : ℤ} (h0 : 0 ≤ sum) (h1 : sum < 2 ^ 31) (size : ℕ) :
    quotient w sum size = sum / size := by
  have hle : sum / size ≤ sum := Int.ediv_le_self _ h0
  have hnonneg : 0 ≤ sum / size := Int.ediv_nonneg h0 (Int.natCast_nonneg size)
  have hmod : sum % 2 ^ w = sum := by rcases hw with rfl | rfl <;> omega
  rw [quotient, hmod, Int.bmod_eq_of_le (by norm_num; omega) (by norm_num; omega)]

theorem plane_sum (l : List Location) : (l.map plane).sum = ⟨(l.map Location.x).sum, (l.map Location.y).sum⟩ := by
  induction l with
  | nil => apply Complex.ext <;> simp
  | cons a l ih =>
    rw [List.map_cons, List.sum_cons, ih]
    apply Complex.ext <;> simp [plane]

/-- The coordinates of a group lie between zero and the bound, and so does their average. -/
theorem coordinateSum_mem (hvalid : ∀ j ∈ group, j < clusters.length) {coord : Location → ℤ}
    (h : ∀ l ∈ clusters, 0 ≤ coord l ∧ coord l ≤ bound) :
    0 ≤ coordinateSum clusters group coord ∧ coordinateSum clusters group coord ≤ group.length * bound := by
  have hmembers : ∀ a ∈ (members clusters group).map coord, 0 ≤ a ∧ a ≤ bound := by
    simp only [members, List.mem_map, forall_exists_index, and_imp, forall_apply_eq_imp_iff₂]
    intro j hj
    refine h _ ?_
    rw [List.getD_eq_getElem?_getD, List.getElem?_eq_getElem (hvalid j hj)]
    exact List.getElem_mem _
  refine ⟨List.sum_nonneg fun a ha => (hmembers a ha).1, ?_⟩
  calc ((members clusters group).map coord).sum
    _ ≤ ((members clusters group).map coord).length • bound :=
      List.sum_le_card_nsmul _ _ fun a ha => (hmembers a ha).2
    _ = group.length * bound := by simp [members]

/-- Dividing by `n` and multiplying again changes a sum by less than `n`. -/
theorem abs_mul_ediv_sub_lt (sum : ℤ) {n : ℕ} (hn : 0 < n) : |(n : ℝ) * (sum / n : ℤ) - sum| < n := by
  have hn' : (0 : ℤ) < n := by exact_mod_cast hn
  have hdiv := Int.mul_ediv_add_emod sum n
  have hint : |n * (sum / n) - sum| < n := by
    rw [abs_lt]
    have h0 := Int.emod_nonneg sum hn'.ne'
    have h1 := Int.emod_lt_of_pos sum hn'
    constructor <;> linarith
  exact_mod_cast hint

theorem length_closeGroup_le {k : ℕ} {c : Location} (hc : clusters[k]? = some c) :
    (closeGroup clusters k c).length ≤ clusters.length := by
  have hsub : closeGroup clusters k c ⊆ List.range clusters.length := fun j hj =>
    List.mem_range.2 (closeGroup_lt hc j hj)
  simpa using (List.subperm_of_subset (nodup_closeGroup clusters k c) hsub).length_le

/-- The average of a group in the square is divided as it is. -/
theorem average_eq_of_inSquare (hw : w = 32 ∨ w = 64) (hsquare : ∀ l ∈ clusters, InSquare bound l)
    (hsmall : clusters.length * bound < 2 ^ 31) {k : ℕ} {c : Location} (hc : clusters[k]? = some c) :
    average w clusters (closeGroup clusters k c) =
      .ok ⟨coordinateSum clusters (closeGroup clusters k c) Location.x / (closeGroup clusters k c).length,
        coordinateSum clusters (closeGroup clusters k c) Location.y / (closeGroup clusters k c).length⟩ := by
  have hvalid := closeGroup_lt hc
  have hbound : 0 ≤ bound := (hsquare c (List.mem_of_getElem? hc)).1.trans (hsquare c (List.mem_of_getElem? hc)).2.1
  have hle : (closeGroup clusters k c).length * bound ≤ clusters.length * bound := by
    have := length_closeGroup_le hc
    gcongr
  have hx := coordinateSum_mem hvalid fun l hl => ⟨(hsquare l hl).1, (hsquare l hl).2.1⟩
  have hy := coordinateSum_mem hvalid fun l hl => (hsquare l hl).2.2
  rw [average_eq w hvalid]
  unfold coordinateSum at hx hy ⊢
  rw [quotient_of_nonneg hw hx.1 (by omega), quotient_of_nonneg hw hy.1 (by omega)]

/-- The endpoint of a group lies in the square of the clusters. -/
theorem average_inSquare (hw : w = 32 ∨ w = 64) (hsquare : ∀ l ∈ clusters, InSquare bound l)
    (hsmall : clusters.length * bound < 2 ^ 31) {k : ℕ} {c e : Location} (hc : clusters[k]? = some c)
    (he : average w clusters (closeGroup clusters k c) = .ok e) : InSquare bound e := by
  have hvalid := closeGroup_lt hc
  have hpos : (0 : ℤ) < (closeGroup clusters k c).length := by exact_mod_cast List.length_pos_iff.2 (by simp [closeGroup])
  have hx := coordinateSum_mem hvalid fun l hl => ⟨(hsquare l hl).1, (hsquare l hl).2.1⟩
  have hy := coordinateSum_mem hvalid fun l hl => (hsquare l hl).2.2
  rw [average_eq_of_inSquare hw hsquare hsmall hc, Except.ok.injEq] at he
  subst he
  exact ⟨Int.ediv_nonneg hx.1 hpos.le, Int.ediv_le_of_le_mul hpos (by linarith), Int.ediv_nonneg hy.1 hpos.le,
    Int.ediv_le_of_le_mul hpos (by linarith)⟩

/-- The members of a group are close to the cluster it is around. -/
theorem norm_member_le (hsquare : ∀ l ∈ clusters, InSquare bound l) (hint : bound < 2 ^ 31) {k : ℕ} {c : Location}
    (hc : clusters[k]? = some c) :
    ∀ z ∈ (members clusters (closeGroup clusters k c)).map plane, ‖z - plane c‖ ≤ 200 := by
  simp only [members, List.map_map, List.mem_map, forall_exists_index, and_imp, forall_apply_eq_imp_iff₂]
  intro j hj
  rcases (mem_closeGroup hc).1 hj with rfl | ⟨-, c', d, hc', hd, hclose⟩
  · simp [List.getD_eq_getElem?_getD, hc]
  · obtain rfl := Option.some.inj (hc.symm.trans hc')
    rw [Function.comp_apply, List.getD_eq_getElem?_getD, hd, Option.getD_some, norm_sub_rev, ← distance_eq]
    rw [cartesianDistance_of_inSquare hint (hsquare c (List.mem_of_getElem? hc)) (hsquare d (List.mem_of_getElem? hd)),
      minDistanceBetweenClusters, Binary64.hypot_lt_intCast_iff (by decide) (by decide)] at hclose
    have hsq : ((sqDistance c d : ℤ) : ℝ) ≤ 200 ^ 2 := by exact_mod_cast hclose.le
    exact Real.sqrt_le_iff.2 ⟨by norm_num, hsq⟩

/-- A sum near as many times `z`, divided and cut to integers, is near `z`. -/
theorem norm_quotient_sub_le {n : ℕ} (hn : 0 < n) (sx sy : ℤ) {z : ℂ} {r : ℝ} (h : ‖(⟨sx, sy⟩ : ℂ) - n • z‖ ≤ n * r) :
    ‖plane ⟨sx / n, sy / n⟩ - z‖ ≤ 71 / 50 + r := by
  have hcut : ‖n • plane ⟨sx / n, sy / n⟩ - ⟨sx, sy⟩‖ ≤ 71 / 50 * n := by
    apply norm_le_of_coordinates
    · simpa [plane] using abs_mul_ediv_sub_lt sx hn
    · simpa [plane] using abs_mul_ediv_sub_lt sy hn
  have hpos : (0 : ℝ) < n := by exact_mod_cast hn
  refine le_of_mul_le_mul_left ?_ hpos
  calc n * ‖plane ⟨sx / n, sy / n⟩ - z‖
    _ = ‖n • plane ⟨sx / n, sy / n⟩ - n • z‖ := by rw [← nsmul_sub, nsmul_eq_mul, norm_mul, Complex.norm_natCast]
    _ ≤ ‖n • plane ⟨sx / n, sy / n⟩ - ⟨sx, sy⟩‖ + ‖(⟨sx, sy⟩ : ℂ) - n • z‖ := norm_sub_le_norm_sub_add_norm_sub ..
    _ ≤ 71 / 50 * n + n * r := add_le_add hcut h
    _ = n * (71 / 50 + r) := by ring

/-- The endpoint of a group is near the cluster the group is around. -/
theorem average_near (hw : w = 32 ∨ w = 64) (hsquare : ∀ l ∈ clusters, InSquare bound l)
    (hsmall : clusters.length * bound < 2 ^ 31) (hint : bound < 2 ^ 31) {k : ℕ} {c e : Location}
    (hc : clusters[k]? = some c) (he : average w clusters (closeGroup clusters k c) = .ok e) :
    ‖plane e - plane c‖ ≤ 71 / 50 + 200 := by
  rw [average_eq_of_inSquare hw hsquare hsmall hc, Except.ok.injEq] at he
  subst he
  refine norm_quotient_sub_le (by simp [closeGroup]) _ _ ?_
  have hnear := List.norm_sum_sub_le (norm_member_le hsquare hint hc)
  rwa [List.length_map, plane_sum, members, List.length_map] at hnear

/-- Every cluster is near an endpoint, and the endpoints lie in the square of the clusters. -/
theorem near_endpoint (hw : w = 32 ∨ w = 64) (hsquare : ∀ l ∈ clusters, InSquare bound l)
    (hsmall : clusters.length * bound < 2 ^ 31) (hint : bound < 2 ^ 31) :
    ∃ out, clusterize w clusters = .ok out ∧ (∀ e ∈ out, InSquare bound e) ∧
      ∀ d ∈ clusters, ∃ e ∈ out, ‖plane d - plane e‖ ≤ 20071 / 50 := by
  obtain ⟨s, hrun, hs, -⟩ := emitGroups_spec w clusters
  refine ⟨_, by rw [clusterize, hrun]; rfl, fun e he => ?_, fun d hd => ?_⟩
  · obtain ⟨g, hg, haverage⟩ := hs.averaged.exists_left (List.mem_mergeSort.1 he)
    obtain ⟨k, c, hc, rfl⟩ := hs.grouped g hg
    exact average_inSquare hw hsquare hsmall hc haverage
  obtain ⟨j, hj⟩ := List.getElem?_of_mem hd
  obtain ⟨g, hg, hjg⟩ := List.mem_flatten.1 (hs.covered j (List.getElem?_eq_some_iff.1 hj).1)
  obtain ⟨k, c, hc, rfl⟩ := hs.grouped g hg
  obtain ⟨e, he, haverage⟩ := hs.averaged.exists_right hg
  refine ⟨e, List.mem_mergeSort.2 he, ?_⟩
  have hdc : ‖plane d - plane c‖ ≤ 200 := by
    refine norm_member_le hsquare hint hc _ (List.mem_map_of_mem (List.mem_map.2 ⟨j, hjg, ?_⟩))
    rw [List.getD_eq_getElem?_getD, hj, Option.getD_some]
  have hce := average_near hw hsquare hsmall hint hc haverage
  rw [norm_sub_rev] at hce
  calc ‖plane d - plane e‖
    _ ≤ ‖plane d - plane c‖ + ‖plane c - plane e‖ := norm_sub_le_norm_sub_add_norm_sub ..
    _ ≤ 200 + (71 / 50 + 200) := add_le_add hdc hce
    _ = 20071 / 50 := by norm_num

end Averages

/-! ## Centroids -/

section Centroids

variable {w count : ℕ} {km : KMeans} {data : List Location} {bound : ℤ}

/-- The centroids lie in the square of the locations. -/
theorem centroid_inSquare (h : km.Clusters data count) (hsquare : ∀ l ∈ data, InSquare bound l) :
    ∀ c ∈ km.centroids, c ∈ Set.Icc ((0, 0) : ℝ × ℝ) (bound, bound) := by
  intro c hc
  refine h.among c hc _ _ fun p hp => ?_
  obtain ⟨l, hl, rfl⟩ := List.mem_map.1 hp
  obtain ⟨hx0, hx1, hy0, hy1⟩ := hsquare l hl
  exact ⟨⟨Int.cast_nonneg hx0, Int.cast_nonneg hy0⟩, Int.cast_le.2 hx1, Int.cast_le.2 hy1⟩

/-- So do the clusters read from them, less than one away in either coordinate. -/
theorem readClusters_inSquare (h : km.Clusters data count) (hsquare : ∀ l ∈ data, InSquare bound l) :
    ∀ d ∈ readClusters km.centroids, InSquare bound d := by
  intro d hd
  obtain ⟨c, hc, rfl⟩ := List.mem_map.1 hd
  obtain ⟨⟨hx0, hy0⟩, hx1, hy1⟩ := centroid_inSquare h hsquare c hc
  simp only at hx0 hy0 hx1 hy1
  have hcut : ∀ r : ℝ, 0 ≤ r → r ≤ bound → 0 ≤ toInt r ∧ toInt r ≤ bound := by
    intro r h0 h1
    have hb : (0 : ℤ) ≤ bound := by exact_mod_cast h0.trans h1
    refine ⟨(le_toInt_iff 0 r).2 ?_, (toInt_le_iff bound r).2 ?_⟩
    · rw [if_neg (lt_irrefl 0)]
      push_cast
      linarith
    · rw [if_neg (not_lt.2 hb)]
      linarith
  obtain ⟨h1, h2⟩ := hcut c.1 hx0 hx1
  obtain ⟨h3, h4⟩ := hcut c.2 hy0 hy1
  exact ⟨h1, h2, h3, h4⟩

theorem endpoint_mem {clusters : List Location} (hne : clusters ≠ []) (l : Location) : endpoint clusters l ∈ clusters :=
  List.mem_of_getElem? (firstMin_endpoint hne l).get

/-- No location moves more than 403 farther than a centroid. -/
theorem moved_le (hw : w = 32 ∨ w = 64) (h : km.Clusters data count) (hsquare : ∀ l ∈ data, InSquare bound l)
    (hsmall : count * bound < 2 ^ 31) (hint : bound < 2 ^ 31) :
    ∃ out, clusterize w (readClusters km.centroids) = .ok out ∧
      ∀ c ∈ km.centroids, ∃ e ∈ out, ∀ l, InSquare bound l → distance l (endpoint out l) ≤ spread c l + 403 := by
  have hlen : (readClusters km.centroids).length = count := by rw [readClusters, List.length_map, h.size]
  obtain ⟨out, hout, hin, hnear⟩ := near_endpoint hw (readClusters_inSquare h hsquare) (by rwa [hlen]) hint
  refine ⟨out, hout, fun c hc => ?_⟩
  obtain ⟨e, he, hde⟩ := hnear _ (List.mem_map_of_mem hc)
  refine ⟨e, he, fun l hl => ?_⟩
  have hne := List.ne_nil_of_mem he
  have hcut : ‖(⟨c.1, c.2⟩ : ℂ) - plane ⟨toInt c.1, toInt c.2⟩‖ ≤ 71 / 50 * 1 := by
    rw [norm_sub_rev]
    exact norm_le_of_coordinates (abs_toInt_sub_lt c.1) (abs_toInt_sub_lt c.2)
  calc distance l (endpoint out l)
    _ ≤ distance l e + 1 / 100 := distance_le_of_cartesianDistance_le hint hl (hin _ (endpoint_mem hne l)) (hin e he)
      ((firstMin_endpoint hne l).le e he)
    _ ≤ ‖plane l - ⟨c.1, c.2⟩‖ + ‖(⟨c.1, c.2⟩ : ℂ) - plane e‖ + 1 / 100 := by
      rw [distance_eq]
      gcongr
      exact norm_sub_le_norm_sub_add_norm_sub ..
    _ ≤ spread c l + (71 / 50 * 1 + 20071 / 50) + 1 / 100 := by
      rw [← spread_eq]
      gcongr
      exact (norm_sub_le_norm_sub_add_norm_sub ..).trans (add_le_add hcut hde)
    _ ≤ spread c l + 403 := by linarith

/-- The locations of a cluster move by at most 703 on average. -/
theorem moved_sum_le {out : List Location} {j : ℕ} {c : ℝ × ℝ} (hequal : km.RoughlyEqual data)
    (hsquare : ∀ l ∈ data, InSquare bound l) (hc : km.centroids[j]? = some c)
    (hmoved : ∀ l, InSquare bound l → distance l (endpoint out l) ≤ spread c l + 403) :
    ((km.rows data j).map fun l => distance l (endpoint out l)).sum ≤ 703 * (km.rows data j).length := by
  have hrow : ∀ l ∈ km.rows data j, l ∈ data := fun l hl => by
    obtain ⟨r, hr, rfl⟩ := List.mem_map.1 hl
    exact (List.of_mem_zip (List.mem_filter.1 hr).1).1
  calc ((km.rows data j).map fun l => distance l (endpoint out l)).sum
    _ ≤ ((km.rows data j).map fun l => spread c l + 403).sum :=
      List.sum_le_sum fun l hl => hmoved l (hsquare l (hrow l hl))
    _ = ((km.rows data j).map (spread c)).sum + (km.rows data j).length * 403 := by
      rw [List.sum_map_add, List.map_const', List.sum_replicate, nsmul_eq_mul]
    _ ≤ maxAcceptableDistance * (km.rows data j).length + (km.rows data j).length * 403 := by
      gcongr
      exact hequal j c hc
    _ = 703 * (km.rows data j).length := by
      rw [maxAcceptableDistance]
      push_cast
      ring

end Centroids

/-! ## Centerlines -/

section Tracing

variable {w : ℕ} {kmeans : List Location → ℕ → Except Fault KMeans} {data : List Location}

theorem clusterizeData_yields {km : KMeans} {out : List Location} (h : Loop.Ends (tryCount kmeans data) 1 (.ok km))
    (hout : clusterize w (readClusters km.centroids) = .ok out) :
    Loop.Yields (fun fuel => clusterizeData w kmeans fuel data) (.ok out) := by
  obtain ⟨least, hrun⟩ := h.yields
  refine ⟨least, fun fuel hle => ?_⟩
  show clusterizeData w kmeans fuel data = _
  unfold clusterizeData
  rw [show Loop.run (tryCount kmeans data) fuel 1 = some (.ok km) from hrun fuel hle]
  exact hout

theorem ends_of_clusterizeData {fuel : ℕ} {out : List Location} (h : clusterizeData w kmeans fuel data = .ok out) :
    ∃ km, Loop.Ends (tryCount kmeans data) 1 (.ok km) := by
  unfold clusterizeData at h
  obtain ⟨km, hkm, -⟩ := bind_ok_inv h
  refine ⟨km, fuel, ?_⟩
  cases hrun : Loop.run (tryCount kmeans data) fuel 1 with
  | none =>
    rw [hrun] at hkm
    cases hkm
  | some o =>
    rw [hrun] at hkm
    exact congrArg some hkm

end Tracing

/-- The tracing ends where some number of clusters is accepted, all before it being rejected. The strokes are then
carried along by a map that moves the locations of each cluster by at most 703 on average. -/
theorem traceDocument_moves {w : ℕ} (hw : w = 32 ∨ w = 64) (kmeans : List Location → ℕ → Except Fault KMeans)
    (width height : Int) (calls : List Call)
    (hkmeans : ∀ count km, kmeans (run (.new width height) calls).points.keys count = .ok km →
      km.Clusters (run (.new width height) calls).points.keys count) :
    (∀ res, Loop.Yields (fun fuel => traceDocument w kmeans fuel (run (.new width height) calls)) (.ok res) →
      ∃ count km, FirstAccepted kmeans (run (.new width height) calls).points.keys count km) ∧
    ∀ count km bound, FirstAccepted kmeans (run (.new width height) calls).points.keys count km →
      (∀ l ∈ (run (.new width height) calls).points, InSquare bound l) → count * bound < 2 ^ 31 →
      ∃ res move, Loop.Yields (fun fuel => traceDocument w kmeans fuel (run (.new width height) calls)) (.ok res) ∧
        Carried move (run (.new width height) calls) res ∧
        ∀ j < count, ((km.rows (run (.new width height) calls).points.keys j).map fun l =>
          distance l (move l)).sum ≤ 703 * (km.rows (run (.new width height) calls).points.keys j).length := by
  constructor
  · rintro res ⟨fuel, hres⟩
    obtain ⟨out, hout, -⟩ := bind_ok_inv (hres fuel le_rfl)
    obtain ⟨km, hends⟩ := ends_of_clusterizeData hout
    obtain ⟨count, haccepted⟩ := (search_iff hkmeans).1 hends
    exact ⟨count, km, haccepted⟩
  · intro count km bound haccepted hsquare hsmall
    have hclusters := hkmeans count km haccepted.clustered
    have hdata : ∀ l ∈ (run (.new width height) calls).points.keys, InSquare bound l := fun l hl =>
      hsquare l (Std.TreeMap.mem_keys.1 hl)
    have hint : bound < 2 ^ 31 := by
      have := haccepted.two_le
      have htwo : (2 : ℤ) ≤ count := by exact_mod_cast this
      by_contra hlarge
      nlinarith
    obtain ⟨out, hout, hmoved⟩ := moved_le hw hclusters hdata hsmall hint
    have hcentroid : ∀ j < count, ∃ c, km.centroids[j]? = some c := fun j hj =>
      ⟨_, List.getElem?_eq_getElem (hclusters.size ▸ hj)⟩
    have hne : out ≠ [] := by
      obtain ⟨c, hc⟩ := hcentroid 0 (Nat.zero_lt_of_lt haccepted.two_le)
      obtain ⟨e, he, -⟩ := hmoved c (List.mem_of_getElem? hc)
      exact List.ne_nil_of_mem he
    obtain ⟨res, hres, hcarried⟩ := @traceCenterlines_carried (fun _ => out) _ hne
      (run_new_consistent width height calls).2.2.1
    refine ⟨res, endpoint out, ?_, hcarried, fun j hj => ?_⟩
    · obtain ⟨least, hyields⟩ := clusterizeData_yields ((search_iff hkmeans).2 ⟨count, haccepted⟩) hout
      refine ⟨least, fun fuel hle => ?_⟩
      show traceDocument w kmeans fuel _ = _
      unfold traceDocument
      rw [show clusterizeData w kmeans fuel _ = .ok out from hyields fuel hle]
      exact hres
    · obtain ⟨c, hc⟩ := hcentroid j hj
      obtain ⟨-, -, hmove⟩ := hmoved c (List.mem_of_getElem? hc)
      exact moved_sum_le haccepted.accepted hdata hc hmove

/-- k-means with as many clusters as locations: each is its own. Other numbers are not asked for below. -/
def ownClusters (data : List Location) (count : ℕ) : Except Fault KMeans :=
  if count = data.length then .ok ⟨setupData data, List.range count⟩ else .error .unset

theorem ownClusters_clusters {data : List Location} {count : ℕ} {km : KMeans} (h : ownClusters data count = .ok km) :
    km.Clusters data count := by
  unfold ownClusters at h
  split at h
  · rename_i hcount
    cases h
    refine ⟨?_, ?_, fun j hj => List.mem_range.1 hj, fun c hc lo hi hbox => hbox c hc⟩
    · simp [setupData, hcount]
    · simp [hcount]
  · cases h

/-- One stroke, and a cluster at each end. -/
theorem traceDocument_moves_stroke : ∃ res move,
    Loop.Yields (fun fuel => traceDocument 64 ownClusters fuel (run (.new 500 400) [.addSegment ⟨0, 0⟩ ⟨400, 300⟩]))
        (.ok res) ∧ Carried move (run (.new 500 400) [.addSegment ⟨0, 0⟩ ⟨400, 300⟩]) res := by
  have hkeys : (run (.new 500 400) [.addSegment ⟨0, 0⟩ ⟨400, 300⟩]).points.keys = [⟨0, 0⟩, ⟨400, 300⟩] := by decide
  have haccepted : FirstAccepted ownClusters (run (.new 500 400) [.addSegment ⟨0, 0⟩ ⟨400, 300⟩]).points.keys 2
      ⟨[(0, 0), (400, 300)], [0, 1]⟩ := by
    rw [hkeys]
    refine ⟨le_rfl, by simp [ownClusters, setupData, List.range_succ], ?_, fun j h1 h2 => by omega⟩
    rintro (_ | _ | j) c hc
    · cases hc
      simp [KMeans.rows, inCluster, spread, wafflesDistance, maxAcceptableDistance]
    · cases hc
      simp [KMeans.rows, inCluster, spread, wafflesDistance, maxAcceptableDistance]
    · cases hc
  obtain ⟨res, move, hyields, hcarried, -⟩ := (traceDocument_moves (.inr rfl) ownClusters 500 400
    [.addSegment ⟨0, 0⟩ ⟨400, 300⟩] fun _ _ => ownClusters_clusters).2 2 _ 400 haccepted
      (fun l hl => by
        rw [← Std.TreeMap.mem_keys, hkeys] at hl
        simp only [List.mem_cons, List.not_mem_nil, or_false] at hl
        rcases hl with rfl | rfl <;> simp [InSquare]) (by norm_num)
  exact ⟨res, move, hyields, hcarried⟩

end DetailIdentifier.Interpreter
