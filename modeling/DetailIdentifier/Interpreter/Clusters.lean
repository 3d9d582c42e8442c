/-
`clusterer::clusterize`, from the cluster centres k-means returns. Every cluster forms a group with
the later ones closer than `MIN_DISTANCE_BETWEEN_CLUSTERS`, and the groups that are not yet used up
are averaged into endpoints. No cluster is left out; none is averaged twice exactly when close
clusters agree on being close to an earlier leader (`emitted_once_iff`).
-/
import DetailIdentifier.Lib.Lists
import DetailIdentifier.Svg.Document

namespace DetailIdentifier.Interpreter

open Svg

/-! ## The code -/

/-- `MIN_DISTANCE_BETWEEN_CLUSTERS`. -/
def minDistanceBetweenClusters : ℤ := 200

/-- An entry of `close_clusters`: cluster `i` at `c`, and the later ones close to it. -/
noncomputable def closeGroup (clusters : List Location) (i : ℕ) (c : Location) : List ℕ :=
  i :: ((clusters.zipIdx.drop (i + 1)).filter fun d => cartesianDistance c d.1 < minDistanceBetweenClusters).map Prod.snd

/-- `find_close_clusters`. -/
noncomputable def findCloseClusters (clusters : List Location) : List (List ℕ) :=
  clusters.zipIdx.map fun c => closeGroup clusters c.2 c.1

/-- The quotient of an `int` by a `size_t` of `w` bits, as an `int`: the sum is converted to
`size_t`, and the quotient back to 32 bits. -/
def quotient (w : ℕ) (sum : ℤ) (size : ℕ) : ℤ := (sum % 2 ^ w / size).bmod (2 ^ 32)

/-- The sum of the clusters of a group. -/
def sumOf (clusters : List Location) (group : List ℕ) : Except Fault Location :=
  group.foldlM (fun l1 l2 => do
    let c ← fetch clusters l2
    return ⟨l1.x + c.x, l1.y + c.y⟩) ⟨0, 0⟩

/-- The endpoint of a group. -/
def average (w : ℕ) (clusters : List Location) (group : List ℕ) : Except Fault Location := do
  let sum ← sumOf clusters group
  return ⟨quotient w sum.x group.length, quotient w sum.y group.length⟩

/-- The locals of the loop over the groups; `groups` remembers those that were averaged. -/
structure Emission where
  used : List Bool
  groups : List (List ℕ)
  endpoints : List Location
deriving DecidableEq

/-- The test for a group that is used up. -/
def usedUp (used : List Bool) (group : List ℕ) (i : ℕ) : Except Fault Bool := do
  if ← fetch used i then
    if group.length = 1 then return true else group.allM (fetch used)
  else return false

/-- The body of the loop. -/
def emitGroup (w : ℕ) (clusters : List Location) (closeClusters : List (List ℕ)) (s : Emission) (i : ℕ) :
    Except Fault Emission := do
  let group ← fetch closeClusters i
  if ← usedUp s.used group i then return s
  else
    let endpoint ← average w clusters group
    return ⟨group.foldl (fun used j => used.set j true) s.used, s.groups ++ [group], s.endpoints ++ [endpoint]⟩

/-- The loop. -/
noncomputable def emitGroups (w : ℕ) (clusters : List Location) : Except Fault Emission :=
  let closeClusters := findCloseClusters clusters
  (List.range closeClusters.length).foldlM (emitGroup w clusters closeClusters)
    ⟨List.replicate closeClusters.length false, [], []⟩

/-- `clusterize`, from the cluster centres. -/
noncomputable def clusterize (w : ℕ) (clusters : List Location) : Except Fault (List Location) := do
  let s ← emitGroups w clusters
  -- `std::sort` leaves the order of endpoints at one distance open
  return s.endpoints.mergeSort fun l1 l2 => cartesianDistance l1 ⟨0, 0⟩ ≤ cartesianDistance l2 ⟨0, 0⟩

/-! ## Close clusters -/

/-- Two clusters closer than `MIN_DISTANCE_BETWEEN_CLUSTERS`. -/
def Close (clusters : List Location) (i j : ℕ) : Prop :=
  ∃ c d, clusters[i]? = some c ∧ clusters[j]? = some d ∧ cartesianDistance c d < minDistanceBetweenClusters

variable {clusters : List Location}

theorem mem_closeGroup {i j : ℕ} {c : Location} (hc : clusters[i]? = some c) :
    j ∈ closeGroup clusters i c ↔ j = i ∨ i < j ∧ Close clusters i j := by
  unfold closeGroup Close
  simp only [List.mem_cons, List.mem_map, List.mem_filter, Prod.exists, List.mem_drop_zipIdx, decide_eq_true_eq]
  refine or_congr_right ⟨?_, ?_⟩
  · rintro ⟨d, k, ⟨⟨hk, hd⟩, hclose⟩, rfl⟩
    exact ⟨hk, c, d, hc, hd, hclose⟩
  · rintro ⟨hj, c', d, hc', hd, hclose⟩
    rw [hc, Option.some.injEq] at hc'
    subst hc'
    exact ⟨d, j, ⟨⟨hj, hd⟩, hclose⟩, rfl⟩

theorem nodup_closeGroup (clusters : List Location) (i : ℕ) (c : Location) : (closeGroup clusters i c).Nodup := by
  unfold closeGroup
  refine List.nodup_cons.2 ⟨?_, ?_⟩
  · simp only [List.mem_map, List.mem_filter, Prod.exists, List.mem_drop_zipIdx]
    rintro ⟨d, k, ⟨⟨hk, -⟩, -⟩, rfl⟩
    omega
  · exact clusters.nodup_map_snd_zipIdx.sublist ((List.filter_sublist.trans (List.drop_sublist ..)).map Prod.snd)

theorem closeGroup_lt {i : ℕ} {c : Location} (hc : clusters[i]? = some c) :
    ∀ j ∈ closeGroup clusters i c, j < clusters.length := by
  intro j hj
  rcases (mem_closeGroup hc).1 hj with rfl | ⟨-, -, d, -, hd, -⟩
  · exact (List.getElem?_eq_some_iff.1 hc).1
  · exact (List.getElem?_eq_some_iff.1 hd).1

theorem findCloseClusters_get {i : ℕ} {c : Location} (hc : clusters[i]? = some c) :
    (findCloseClusters clusters)[i]? = some (closeGroup clusters i c) := by
  simp [findCloseClusters, hc]

@[simp] theorem length_findCloseClusters (clusters : List Location) :
    (findCloseClusters clusters).length = clusters.length := by
  simp [findCloseClusters]

/-! ## One group -/

/-- The clusters of a group. -/
def members (clusters : List Location) (group : List ℕ) : List Location := group.map fun j => clusters.getD j ⟨0, 0⟩

theorem fetch_getD {j : ℕ} (hj : j < clusters.length) : fetch clusters j = .ok (clusters.getD j ⟨0, 0⟩) :=
  fetch_eq (by rw [List.getD_eq_getElem?_getD, List.getElem?_eq_getElem hj]; rfl)

theorem sumOf_eq {group : List ℕ} (h : ∀ j ∈ group, j < clusters.length) :
    sumOf clusters group =
      .ok ⟨((members clusters group).map Location.x).sum, ((members clusters group).map Location.y).sum⟩ := by
  have hfold : ∀ (l : List ℕ) (start : Location), (∀ j ∈ l, j < clusters.length) →
      l.foldlM (fun l1 l2 => do
        let c ← fetch clusters l2
        return (⟨l1.x + c.x, l1.y + c.y⟩ : Location)) start = (.ok ⟨start.x + ((members clusters l).map Location.x).sum,
          start.y + ((members clusters l).map Location.y).sum⟩ : Except Fault Location) := by
    intro l
    induction l with
    | nil =>
      intro start _
      simp [members, pure, Except.pure]
    | cons j l ih =>
      intro start hl
      rw [List.foldlM_cons, fetch_getD (hl j (List.mem_cons_self ..))]
      refine (ih _ fun k hk => hl k (List.mem_cons_of_mem _ hk)).trans ?_
      simp only [members, List.map_cons, List.sum_cons, add_assoc]
  rw [sumOf, hfold group _ h, zero_add, zero_add]

theorem average_eq (w : ℕ) {group : List ℕ} (h : ∀ j ∈ group, j < clusters.length) :
    average w clusters group =
      .ok ⟨quotient w ((members clusters group).map Location.x).sum group.length,
        quotient w ((members clusters group).map Location.y).sum group.length⟩ := by
  rw [average, sumOf_eq h]
  rfl

/-- The head of the loop at group `i`: the marks are the members of the groups averaged, and no
cluster before `i` is left out. -/
structure Emitting (w : ℕ) (clusters : List Location) (i : ℕ) (s : Emission) : Prop where
  size : s.used.length = clusters.length
  marked : ∀ j, j < clusters.length → s.used[j]? = some (decide (j ∈ s.groups.flatten))
  grouped : ∀ g ∈ s.groups, ∃ k c, clusters[k]? = some c ∧ g = closeGroup clusters k c
  averaged : List.Forall₂ (fun g e => average w clusters g = .ok e) s.groups s.endpoints
  covered : ∀ j < i, j ∈ s.groups.flatten

variable {w i : ℕ} {c : Location} {s : Emission}

theorem usedUp_eq (hs : Emitting w clusters i s) (hc : clusters[i]? = some c) :
    usedUp s.used (closeGroup clusters i c) i =
      .ok (decide (∀ j ∈ closeGroup clusters i c, j ∈ s.groups.flatten)) := by
  have hfetch : ∀ j ∈ closeGroup clusters i c, fetch s.used j = .ok (decide (j ∈ s.groups.flatten)) := fun j hj =>
    fetch_eq (hs.marked j (closeGroup_lt hc j hj))
  have hi : i ∈ closeGroup clusters i c := (mem_closeGroup hc).2 (.inl rfl)
  have hall : decide (∀ j ∈ closeGroup clusters i c, j ∈ s.groups.flatten) =
      (closeGroup clusters i c).all fun j => decide (j ∈ s.groups.flatten) := by
    rw [Bool.eq_iff_iff, decide_eq_true_eq, List.all_eq_true]
    simp only [decide_eq_true_eq]
  unfold usedUp
  rw [hfetch i hi]
  by_cases hused : i ∈ s.groups.flatten
  · rw [decide_eq_true hused]
    show (if (closeGroup clusters i c).length = 1 then _ else _) = _
    split
    · -- a group of one cluster
      rename_i hone
      obtain ⟨j, hj⟩ := List.length_eq_one_iff.1 hone
      rw [hj, List.mem_singleton] at hi
      rw [hj, ← hi, decide_eq_true (List.forall_mem_singleton.2 hused)]
      rfl
    · rw [List.allM_eq_all hfetch, hall]
  · rw [decide_eq_false hused]
    exact congrArg Except.ok (decide_eq_false fun h => hused (h i hi)).symm

/-- Marking the clusters of a group. -/
theorem mark_get (group : List ℕ) : ∀ (used : List Bool) {j : ℕ} {b : Bool}, used[j]? = some b →
    (group.foldl (fun used j => used.set j true) used)[j]? = some (b || decide (j ∈ group)) := by
  induction group with
  | nil =>
    intro used j b h
    simpa using h
  | cons k group ih =>
    intro used j b h
    by_cases hjk : j = k
    · subst hjk
      have hset : (used.set j true)[j]? = some true := List.getElem?_set_self (List.getElem?_eq_some_iff.1 h).1
      rw [List.foldl_cons, ih _ hset]
      simp
    · rw [List.foldl_cons, ih _ (by rwa [List.getElem?_set_ne (Ne.symm hjk)])]
      simp [hjk]

theorem length_mark (group : List ℕ) (used : List Bool) :
    (group.foldl (fun used j => used.set j true) used).length = used.length := by
  induction group generalizing used with
  | nil => rfl
  | cons k group ih => rw [List.foldl_cons, ih, List.length_set]

/-- A group is skipped when all its clusters are used, and averaged otherwise. -/
theorem emitGroup_cases (hs : Emitting w clusters i s) (hc : clusters[i]? = some c) :
    ∃ s', emitGroup w clusters (findCloseClusters clusters) s i = .ok s' ∧ Emitting w clusters (i + 1) s' ∧
      ((∀ j ∈ closeGroup clusters i c, j ∈ s.groups.flatten) ∧ s'.groups = s.groups ∨
        (∃ j ∈ closeGroup clusters i c, j ∉ s.groups.flatten) ∧ s'.groups = s.groups ++ [closeGroup clusters i c]) := by
  have hi : i ∈ closeGroup clusters i c := (mem_closeGroup hc).2 (.inl rfl)
  unfold emitGroup
  rw [fetch_eq (findCloseClusters_get hc)]
  simp only [bind, Except.bind, usedUp_eq hs hc]
  by_cases hall : ∀ j ∈ closeGroup clusters i c, j ∈ s.groups.flatten
  · rw [decide_eq_true hall]
    refine ⟨s, rfl, ⟨hs.size, hs.marked, hs.grouped, hs.averaged, fun j hj => ?_⟩, .inl ⟨hall, rfl⟩⟩
    rcases Nat.lt_succ_iff_lt_or_eq.1 hj with hj | rfl
    exacts [hs.covered j hj, hall _ hi]
  · rw [decide_eq_false hall]
    have hflat : (s.groups ++ [closeGroup clusters i c]).flatten = s.groups.flatten ++ closeGroup clusters i c := by
      rw [List.flatten_append, List.flatten_singleton]
    obtain ⟨e, he⟩ : ∃ e, average w clusters (closeGroup clusters i c) = .ok e := ⟨_, average_eq w (closeGroup_lt hc)⟩
    simp only [he, Bool.false_eq_true, if_false]
    refine ⟨_, rfl, ⟨?_, ?_, ?_, ?_, ?_⟩, .inr ⟨by simpa using hall, rfl⟩⟩
    · rw [length_mark]
      exact hs.size
    · intro j hj
      rw [mark_get _ _ (hs.marked j hj), hflat]
      simp
    · exact List.forall_mem_append.2 ⟨hs.grouped, List.forall_mem_singleton.2 ⟨i, c, hc, rfl⟩⟩
    · exact List.rel_append hs.averaged (.cons he .nil)
    · intro j hj
      rw [hflat, List.mem_append]
      rcases Nat.lt_succ_iff_lt_or_eq.1 hj with hj | rfl
      exacts [.inl (hs.covered j hj), .inr hi]

/-! ## Leaders -/

open scoped Classical in
/-- The leaders among the first `n` clusters: those not close to a leader before them. -/
noncomputable def leaders (clusters : List Location) : ℕ → List ℕ
  | 0 => []
  | n + 1 =>
    if ∃ l ∈ leaders clusters n, Close clusters l n then leaders clusters n else leaders clusters n ++ [n]

/-- A cluster is close to a leader before `i`. -/
def Led (clusters : List Location) (i j : ℕ) : Prop := ∃ l ∈ leaders clusters i, Close clusters l j

theorem leaders_of_led {n : ℕ} (h : Led clusters n n) : leaders clusters (n + 1) = leaders clusters n := if_pos h

theorem leaders_of_not_led {n : ℕ} (h : ¬Led clusters n n) : leaders clusters (n + 1) = leaders clusters n ++ [n] :=
  if_neg h

theorem leaders_lt : ∀ {n l : ℕ}, l ∈ leaders clusters n → l < n
  | 0, _, h => by cases h
  | n + 1, l, h => by
    rw [leaders] at h
    split at h
    · exact (leaders_lt h).trans (Nat.lt_succ_self n)
    · rcases List.mem_append.1 h with h | h
      · exact (leaders_lt h).trans (Nat.lt_succ_self n)
      · rw [List.mem_singleton.1 h]
        exact Nat.lt_succ_self n

/-- The groups of the leaders. -/
noncomputable def ledGroups (clusters : List Location) (i : ℕ) : List (List ℕ) :=
  (leaders clusters i).map fun l => closeGroup clusters l (clusters.getD l ⟨0, 0⟩)

/-- The clusters from `i` on in the groups of the leaders before `i`. -/
theorem mem_ledGroups {j : ℕ} (hi : i ≤ clusters.length) (hj : i ≤ j) :
    j ∈ (ledGroups clusters i).flatten ↔ Led clusters i j := by
  have hget : ∀ l ∈ leaders clusters i, clusters[l]? = some (clusters.getD l ⟨0, 0⟩) := fun l hl => by
    have hlt := leaders_lt hl
    simp [hlt.trans_le hi]
  simp only [ledGroups, List.mem_flatten, List.mem_map, exists_exists_and_eq_and, Led]
  refine exists_congr fun l => and_congr_right fun hl => ?_
  have hlt := leaders_lt hl
  rw [mem_closeGroup (hget l hl)]
  constructor
  · rintro (rfl | ⟨-, h⟩)
    · omega
    · exact h
  · exact fun h => .inr ⟨by omega, h⟩

/-- The clusters close to cluster `i` and after it are close to an earlier leader if it is, and only
then. -/
def Tidy (clusters : List Location) (i : ℕ) : Prop :=
  ∀ j, i < j → Close clusters i j → (Led clusters i i ↔ Led clusters i j)

theorem emitGroup_leaders (hs : Emitting w clusters i s) (hc : clusters[i]? = some c)
    (hled : s.groups = ledGroups clusters i) (hnodup : s.groups.flatten.Nodup) {s' : Emission}
    (hcases : (∀ j ∈ closeGroup clusters i c, j ∈ s.groups.flatten) ∧ s'.groups = s.groups ∨
        (∃ j ∈ closeGroup clusters i c, j ∉ s.groups.flatten) ∧ s'.groups = s.groups ++ [closeGroup clusters i c]) :
    (s'.groups.flatten.Nodup ↔ Tidy clusters i) ∧ (Tidy clusters i → s'.groups = ledGroups clusters (i + 1)) := by
  have hi : i < clusters.length := (List.getElem?_eq_some_iff.1 hc).1
  have hmem : ∀ j, i ≤ j → (j ∈ s.groups.flatten ↔ Led clusters i j) := fun j hj => by
    rw [hled]
    exact mem_ledGroups hi.le hj
  have hself : i ∈ closeGroup clusters i c := (mem_closeGroup hc).2 (.inl rfl)
  have hle : ∀ j ∈ closeGroup clusters i c, i ≤ j := fun j hj => by
    rcases (mem_closeGroup hc).1 hj with rfl | ⟨hj, -⟩ <;> omega
  rcases hcases with ⟨hall, heq⟩ | ⟨⟨j, hj, hnot⟩, heq⟩
  · -- a group that is used up: all its clusters are led
    have hledAll : ∀ j ∈ closeGroup clusters i c, Led clusters i j := fun j hj => (hmem j (hle j hj)).1 (hall j hj)
    have htidy : Tidy clusters i := fun j hj hclose =>
      iff_of_true (hledAll i hself) (hledAll j ((mem_closeGroup hc).2 (.inr ⟨hj, hclose⟩)))
    rw [heq]
    refine ⟨iff_of_true hnodup htidy, fun _ => ?_⟩
    rw [hled, ledGroups, ledGroups, leaders_of_led (hledAll i hself)]
  · have hflat : s'.groups.flatten = s.groups.flatten ++ closeGroup clusters i c := by
      rw [heq, List.flatten_append, List.flatten_singleton]
    have hnodup' : s'.groups.flatten.Nodup ↔ ∀ k ∈ closeGroup clusters i c, ¬Led clusters i k := by
      rw [hflat, List.nodup_append']
      refine ⟨fun h k hk hled' => ?_, fun h => ⟨hnodup, nodup_closeGroup .., fun k hk hk' => ?_⟩⟩
      · exact h.2.2 ((hmem k (hle k hk)).2 hled') hk
      · exact h k hk' ((hmem k (hle k hk')).1 hk)
    have hnotLed : Tidy clusters i → ¬Led clusters i i := by
      intro htidy hledi
      refine hnot ((hmem j (hle j hj)).2 ?_)
      rcases (mem_closeGroup hc).1 hj with rfl | ⟨hj, hclose⟩
      exacts [hledi, (htidy j hj hclose).1 hledi]
    refine ⟨hnodup'.trans ⟨fun h j hj hclose => ?_, fun htidy k hk hled' => ?_⟩, fun htidy => ?_⟩
    · exact iff_of_false (h i hself) (h j ((mem_closeGroup hc).2 (.inr ⟨hj, hclose⟩)))
    · rcases (mem_closeGroup hc).1 hk with rfl | ⟨hk, hclose⟩
      exacts [hnotLed htidy hled', hnotLed htidy ((htidy k hk hclose).2 hled')]
    · rw [heq, hled, ledGroups, ledGroups, leaders_of_not_led (hnotLed htidy), List.map_append, List.map_singleton,
        List.getD_eq_getElem?_getD, hc, Option.getD_some]

/-! ## The loop -/

theorem emitGroups_run (w : ℕ) (clusters : List Location) : ∀ n, n ≤ clusters.length →
    ∃ s, (List.range n).foldlM (emitGroup w clusters (findCloseClusters clusters))
        ⟨List.replicate clusters.length false, [], []⟩ = .ok s ∧
      Emitting w clusters n s ∧ (s.groups.flatten.Nodup ↔ ∀ i < n, Tidy clusters i) ∧
      ((∀ i < n, Tidy clusters i) → s.groups = ledGroups clusters n)
  | 0, _ => ⟨_, rfl, ⟨by simp, fun j hj => by simp [hj], by simp, .nil, by simp⟩, by simp, fun _ => rfl⟩
  | n + 1, hn => by
    obtain ⟨s, hrun, hs, hiff, hgroups⟩ := emitGroups_run w clusters n (by omega)
    have hc : clusters[n]? = some clusters[n] := List.getElem?_eq_getElem hn
    obtain ⟨s', hstep, hs', hcases⟩ := emitGroup_cases hs hc
    have hpre : s'.groups.flatten.Nodup → s.groups.flatten.Nodup := by
      rcases hcases with ⟨-, heq⟩ | ⟨-, heq⟩
      · rw [heq]
        exact id
      · rw [heq, List.flatten_append]
        exact List.Nodup.of_append_left
    have hlast : (∀ i < n, Tidy clusters i) → (s'.groups.flatten.Nodup ↔ Tidy clusters n) ∧
        (Tidy clusters n → s'.groups = ledGroups clusters (n + 1)) := fun h =>
      emitGroup_leaders hs hc (hgroups h) (hiff.2 h) hcases
    refine ⟨s', ?_, hs', ?_, ?_⟩
    · rw [List.range_succ, List.foldlM_append, hrun]
      show emitGroup w clusters _ s n >>= pure = _
      rw [bind_pure, hstep]
    · rw [Nat.forall_lt_succ_right]
      refine ⟨fun h => ?_, fun h => (hlast h.1).1.2 h.2⟩
      have hbefore := hiff.1 (hpre h)
      exact ⟨hbefore, (hlast hbefore).1.1 h⟩
    · rw [Nat.forall_lt_succ_right]
      exact fun h => (hlast h.1).2 h.2

/-- The loop ends; it has seen every cluster. -/
theorem emitGroups_spec (w : ℕ) (clusters : List Location) : ∃ s, emitGroups w clusters = .ok s ∧
    Emitting w clusters clusters.length s ∧ (s.groups.flatten.Nodup ↔ ∀ i < clusters.length, Tidy clusters i) := by
  obtain ⟨s, hrun, hs, hiff, -⟩ := emitGroups_run w clusters _ le_rfl
  refine ⟨s, ?_, hs, hiff⟩
  rw [emitGroups, length_findCloseClusters]
  exact hrun

/-- Groups without repetitions contain an item as often as their concatenation. -/
theorem countP_mem_eq_count {groups : List (List ℕ)} (h : ∀ g ∈ groups, g.Nodup) (j : ℕ) :
    groups.countP (fun g => j ∈ g) = groups.flatten.count j := by
  induction groups with
  | nil => rfl
  | cons g groups ih =>
    rw [List.countP_cons, List.flatten_cons, List.count_append, ih fun g' hg' => h g' (List.mem_cons_of_mem _ hg'),
      List.Nodup.count (h g (List.mem_cons_self ..))]
    simp only [decide_eq_true_eq]
    omega

/-- Every cluster belongs to exactly one averaged group, exactly when clusters close to each other
agree on being close to a leader before them. -/
theorem emitted_once_iff (w : ℕ) (clusters : List Location) : ∃ s, emitGroups w clusters = .ok s ∧
    ((∀ j < clusters.length, s.groups.countP (fun g => j ∈ g) = 1) ↔
      ∀ i j, i < j → Close clusters i j → (Led clusters i i ↔ Led clusters i j)) := by
  obtain ⟨s, hrun, hs, hiff⟩ := emitGroups_spec w clusters
  have hgroup : ∀ g ∈ s.groups, g.Nodup ∧ ∀ j ∈ g, j < clusters.length := by
    intro g hg
    obtain ⟨k, c, hc, rfl⟩ := hs.grouped g hg
    exact ⟨nodup_closeGroup .., closeGroup_lt hc⟩
  have hcount := countP_mem_eq_count fun g hg => (hgroup g hg).1
  refine ⟨s, hrun, ?_⟩
  have hnodup : (∀ j < clusters.length, s.groups.countP (fun g => j ∈ g) = 1) ↔ s.groups.flatten.Nodup := by
    rw [List.nodup_iff_count_le_one]
    constructor
    · intro h j
      by_cases hj : j ∈ s.groups.flatten
      · obtain ⟨g, hg, hjg⟩ := List.mem_flatten.1 hj
        rw [← hcount, h j ((hgroup g hg).2 j hjg)]
      · rw [List.count_eq_zero.2 hj]
        exact Nat.zero_le 1
    · intro h j hj
      rw [hcount]
      have := List.count_pos_iff.2 (hs.covered j hj)
      have := h j
      omega
  rw [hnodup, hiff]
  constructor
  · rintro h i j hij ⟨c, d, hc, hd, hclose⟩
    exact h i (List.getElem?_eq_some_iff.1 hc).1 j hij ⟨c, d, hc, hd, hclose⟩
  · exact fun h i _ j => h i j

/-! ## Evaluation -/

/-- Closeness, by the differences that are `int`s. -/
theorem cartesianDistance_lt_min_iff {c d : Location} : cartesianDistance c d < minDistanceBetweenClusters ↔
    (c.x - d.x).bmod (2 ^ 32) ^ 2 + (c.y - d.y).bmod (2 ^ 32) ^ 2 < 200 ^ 2 :=
  Binary64.hypot_lt_intCast_iff (by decide) (by decide)

/-- `find_close_clusters`, by squares of distances. -/
def closeClustersSq (clusters : List Location) : List (List ℕ) :=
  clusters.zipIdx.map fun c => c.2 :: ((clusters.zipIdx.drop (c.2 + 1)).filter fun d =>
    (c.1.x - d.1.x).bmod (2 ^ 32) ^ 2 + (c.1.y - d.1.y).bmod (2 ^ 32) ^ 2 < 200 ^ 2).map Prod.snd

theorem findCloseClusters_eq (clusters : List Location) : findCloseClusters clusters = closeClustersSq clusters := by
  simp only [findCloseClusters, closeGroup, closeClustersSq, cartesianDistance_lt_min_iff]

/-- Three clusters in a row: the middle one is averaged twice. -/
theorem chain_averaged_twice : ∃ s, emitGroups 64 [⟨0, 0⟩, ⟨150, 0⟩, ⟨300, 0⟩] = .ok s ∧
    s.groups = [[0, 1], [1, 2]] ∧ s.groups.countP (fun g => 1 ∈ g) = 2 := by
  refine ⟨⟨[true, true, true], [[0, 1], [1, 2]], [⟨75, 0⟩, ⟨225, 0⟩]⟩, ?_, rfl, by decide⟩
  rw [emitGroups, findCloseClusters_eq]
  decide

end DetailIdentifier.Interpreter
