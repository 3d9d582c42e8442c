/-
How far a vertex may lie from its point. Every vertex seeds its own neighbourhood, also with an
index it was given itself, so an index travels along a chain of vertices, each the last one
processed within `seedRadius` of the next (`Drift`). A vertex is tied to its point by such a chain
(`vectorize_drift`), and no single step bounds the whole way.
-/
import DetailIdentifier.Vectorizer.Edges
import DetailIdentifier.Vectorizer.Fresh

namespace DetailIdentifier.Vectorizer

/-! ## Chains -/

/-- The vertex at `i` is the last one before that at `k` within `seedRadius` of it. -/
def LastNear (vs : List Point2i) (i k : ℕ) : Prop :=
  i < k ∧ ∃ u v, vs[i]? = some u ∧ vs[k]? = some v ∧ Within seedRadius u v ∧
    ∀ l w, i < l → l < k → vs[l]? = some w → ¬Within seedRadius w v

/-- A chain from the vertex at `j` to that at `k` in `m` steps: each vertex has the index of the last
one near it. -/
inductive Drift (vs : List Point2i) (indices : List ℕ) (j : ℕ) : ℕ → ℕ → Prop where
  | refl : Drift vs indices j j 0
  | snap {i k m : ℕ} : Drift vs indices j i m → LastNear vs i k → indices[k]? = indices[i]? →
      Drift vs indices j k (m + 1)

theorem LastNear.append {vs : List Point2i} {i k : ℕ} (h : LastNear vs i k) (ws : List Point2i) :
    LastNear (vs ++ ws) i k := by
  obtain ⟨hik, u, v, hu, hv, hw, hlast⟩ := h
  have hk := (List.getElem?_eq_some_iff.1 hv).1
  refine ⟨hik, u, v, ?_, ?_, hw, fun l w hil hlk hl => ?_⟩
  · rw [List.getElem?_append_left (by omega), hu]
  · rw [List.getElem?_append_left hk, hv]
  · rw [List.getElem?_append_left (by omega)] at hl
    exact hlast l w hil hlk hl

namespace Drift

variable {vs : List Point2i} {indices : List ℕ} {j k m : ℕ}

theorem add_le (h : Drift vs indices j k m) : j + m ≤ k := by
  induction h with
  | refl => omega
  | snap _ hs _ ih =>
    have := hs.1
    omega

theorem append (h : Drift vs indices j k m) (ws : List Point2i) (is : List ℕ) (hlen : vs.length = indices.length) :
    Drift (vs ++ ws) (indices ++ is) j k m := by
  induction h with
  | refl => exact .refl
  | snap _ hs hi ih =>
    rename_i i k _
    obtain ⟨hik, -, v, -, hv, -⟩ := id hs
    have hk := (List.getElem?_eq_some_iff.1 hv).1
    refine .snap ih (hs.append ws) ?_
    rw [List.getElem?_append_left (by omega), List.getElem?_append_left (by omega), hi]

/-- Every step adds at most `seedRadius`. -/
theorem within (h : Drift vs indices j k m) {u v : Point2i} (hu : vs[j]? = some u) (hv : vs[k]? = some v) :
    Within (seedRadius * m) u v := by
  induction h generalizing v with
  | refl =>
    rw [hu] at hv
    cases hv
    simp [Within]
  | snap _ hs _ ih =>
    obtain ⟨-, w, v', hw, hv', hnear, -⟩ := hs
    rw [hv] at hv'
    cases hv'
    have hfar := ih hw
    simp only [Within, seedRadius, abs_le] at hnear hfar ⊢
    push_cast
    omega

end Drift

/-! ## Every vertex is tied to its point -/

namespace Ledger

theorem indices_append (l : Ledger) : ∀ (vs ws : List Point2i),
    l.indices (vs ++ ws) = l.indices vs ++ (vs.foldl place l).indices ws := by
  intro vs
  induction vs generalizing l with
  | nil => exact fun _ => rfl
  | cons v vs ih =>
    intro ws
    rw [List.cons_append, indices, ih, indices, List.cons_append]
    rfl

@[simp] theorem length_indices (l : Ledger) (vs : List Point2i) : (l.indices vs).length = vs.length := by
  induction vs generalizing l with
  | nil => rfl
  | cons v vs ih => rw [indices, List.length_cons, ih, List.length_cons]

theorem flatten_paths (l : Ledger) : ∀ (cs : List (List Point2i)), (l.paths cs).flatten = l.indices cs.flatten := by
  intro cs
  induction cs generalizing l with
  | nil => rfl
  | cons c cs ih => rw [paths, List.flatten_cons, ih, List.flatten_cons, indices_append]

theorem indices_concat (vs : List Point2i) (v : Point2i) :
    indices ⟨[], []⟩ (vs ++ [v]) = indices ⟨[], []⟩ vs ++ [(after vs).assign v] := indices_append ..

/-- A vertex that finds a label was given the index of the last vertex near it. -/
theorem lastNear_of_label {vs : List Point2i} {v : Point2i} (h : (after vs).label v ≠ startSeed) :
    ∃ i, LastNear (vs ++ [v]) i vs.length ∧ (indices ⟨[], []⟩ vs)[i]? = some ((after vs).label v) := by
  obtain ⟨pre, s, mid, rfl, hs, hmid⟩ := exists_last_of_not_fresh fun hf => h (label_after_fresh hf)
  refine ⟨pre.length, ⟨by simp, s, v, by simp, by simp, hs, fun l w hl hlk hw => ?_⟩, ?_⟩
  · -- what lies between is far from `v`
    apply hmid w
    rw [List.getElem?_append_left hlk, List.getElem?_append_right (by omega)] at hw
    obtain ⟨n, hn⟩ : ∃ n, l - pre.length = n + 1 := ⟨l - pre.length - 1, by omega⟩
    rw [hn, List.getElem?_cons_succ] at hw
    exact List.mem_of_getElem? hw
  · rw [label_after_last pre hs mid hmid, indices_append, List.getElem?_append_right (by simp), length_indices,
      Nat.sub_self]
    rfl

/-- The vertex at `k` is tied by a chain to the vertex its point was made from. -/
def Tied (vs : List Point2i) (k : ℕ) : Prop :=
  ∃ n u j m, (indices ⟨[], []⟩ vs)[k]? = some n ∧ (after vs).points[n]? = some u ∧ vs[j]? = some u ∧
    Drift vs (indices ⟨[], []⟩ vs) j k m

/-- An earlier vertex keeps its chain, and its point stays where it is. -/
theorem Tied.concat {vs : List Point2i} {k : ℕ} (h : Tied vs k) (v : Point2i) : Tied (vs ++ [v]) k := by
  obtain ⟨n, u, j, m, hn, hu, hj, hd⟩ := h
  unfold Tied
  rw [indices_concat]
  refine ⟨n, u, j, m, ?_, ?_, ?_, hd.append [v] _ (length_indices _ _).symm⟩
  · rw [List.getElem?_append_left (List.getElem?_eq_some_iff.1 hn).1, hn]
  · obtain ⟨rest, hrest⟩ := points_after_isPrefix vs [v]
    rw [← hrest, List.getElem?_append_left (List.getElem?_eq_some_iff.1 hu).1, hu]
  · rw [List.getElem?_append_left (List.getElem?_eq_some_iff.1 hj).1, hj]

theorem indices_concat_last (vs : List Point2i) (v : Point2i) :
    (indices ⟨[], []⟩ (vs ++ [v]))[vs.length]? = some ((after vs).assign v) := by
  rw [indices_concat, List.getElem?_append_right (by rw [length_indices]), length_indices, Nat.sub_self]
  rfl

/-- A new point is made from the vertex itself. -/
theorem tied_new {vs : List Point2i} {v : Point2i} (hl : (after vs).label v = startSeed) :
    Tied (vs ++ [v]) vs.length := by
  refine ⟨_, v, vs.length, 0, indices_concat_last vs v, ?_, by simp, .refl⟩
  rw [after_concat, assign, if_pos hl]
  simp [place, hl]

/-- A vertex that finds a label continues the chain of the last vertex near it. -/
theorem tied_snapped {vs : List Point2i} {v : Point2i} (hl : (after vs).label v ≠ startSeed)
    (ih : ∀ i < vs.length, Tied vs i) : Tied (vs ++ [v]) vs.length := by
  obtain ⟨i, hnear, hi⟩ := lastNear_of_label hl
  obtain ⟨n, u, j, m, hn, hu, hj, hd⟩ := ih i hnear.1
  rw [hn] at hi
  obtain rfl : n = (after vs).label v := Option.some.inj hi
  have hassign : (after vs).assign v = (after vs).label v := if_neg hl
  have hlast := indices_concat_last vs v
  have hlt := (List.getElem?_eq_some_iff.1 hn).1
  refine ⟨_, u, j, m + 1, hlast, ?_, ?_, .snap ?_ hnear ?_⟩
  · rw [after_concat, hassign]
    simpa [place, hl] using hu
  · rw [List.getElem?_append_left (List.getElem?_eq_some_iff.1 hj).1, hj]
  · rw [indices_concat]
    exact hd.append [v] _ (length_indices _ _).symm
  · rw [hlast, indices_concat, List.getElem?_append_left hlt, hn, hassign]

/-- Each vertex placed is tied to its point. -/
theorem tied (vs : List Point2i) : ∀ k < vs.length, Tied vs k := by
  induction vs using List.reverseRecOn with
  | nil => exact fun k hk => absurd hk (Nat.not_lt_zero k)
  | append_singleton vs v ih =>
    intro k hk
    rw [List.length_append, List.length_singleton] at hk
    rcases Nat.lt_succ_iff_lt_or_eq.1 hk with hlt | rfl
    · exact (ih k hlt).concat v
    · by_cases hl : (after vs).label v = startSeed
      · exact tied_new hl
      · exact tied_snapped hl ih

end Ledger

/-! ## Runs -/

/-- Every processed vertex is represented by a point from which a chain of vertices of the same index
leads to it, so it lies within `seedRadius` times the length of the chain of it. -/
theorem vectorize_drift (d : Drawing) : ∃ out asg,
    vectorize d.cols d.rows d.contours = .ok out ∧ assign (unseeded d.cols d.rows) d.processed = .ok asg ∧
    ∀ (k : ℕ) v, d.processed.flatten[k]? = some v → ∃ n u j m, asg.flatten[k]? = some n ∧
      out.vertices[n]? = some u ∧ d.processed.flatten[j]? = some u ∧
      Drift d.processed.flatten asg.flatten j k m ∧ j + m ≤ k ∧ Within (seedRadius * m) u v := by
  refine ⟨_, _, vectorize_spec d, assign_spec d.processed (unseeded_records _ _) d.processed_inside,
    fun k v hk => ?_⟩
  rw [Ledger.flatten_paths]
  obtain ⟨n, u, j, m, hn, hu, hj, hd⟩ := Ledger.tied _ k (List.getElem?_eq_some_iff.1 hk).1
  exact ⟨n, u, j, m, hn, hu, hj, hd, hd.add_le, hd.within hj hk⟩

/-- Three vertices in a row, 20 pixels apart. -/
def rowDrawing : Drawing where
  cols := 50
  rows := 10
  contours := [[⟨0, 0⟩, ⟨20, 0⟩, ⟨40, 0⟩]]
  nonempty := by decide
  inside := by decide

/-- The third vertex of the row is represented by the first, 40 pixels away. -/
theorem rowDrawing_displaced : ∃ out,
    vectorize rowDrawing.cols rowDrawing.rows rowDrawing.contours = .ok out ∧
      assign (unseeded rowDrawing.cols rowDrawing.rows) rowDrawing.processed = .ok [[0, 0, 0]] ∧
      rowDrawing.processed.flatten[2]? = some ⟨40, 0⟩ ∧ out.vertices[0]? = some ⟨0, 0⟩ ∧
      ¬Within seedRadius ⟨0, 0⟩ ⟨40, 0⟩ :=
  ⟨_, vectorize_spec rowDrawing, assign_spec rowDrawing.processed (unseeded_records _ _) rowDrawing.processed_inside,
    rfl, rfl, by decide⟩

end DetailIdentifier.Vectorizer
