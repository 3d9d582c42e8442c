/-
When the points found lie apart. A vertex is fresh when it lies farther than `seedRadius` from
every vertex processed before it. The first 255 fresh vertices become points and are found again
under their labels; the 256th gets the index 255, which is `startSeed`, so its neighbourhood reads
as unseeded and a vertex there becomes a second point. The points lie pairwise apart exactly when
no later vertex finds that label (`Ledger.points_apart_iff`).
-/
import DetailIdentifier.Lib.Lists
import DetailIdentifier.Vectorizer.Trace

namespace DetailIdentifier.Vectorizer

/-! ## Fresh vertices -/

/-- `v` lies farther than `seedRadius` from every vertex of `vs`. -/
def Fresh (vs : List Point2i) (v : Point2i) : Prop := ∀ u ∈ vs, ¬Within seedRadius u v

instance (vs : List Point2i) (v : Point2i) : Decidable (Fresh vs v) := by unfold Fresh; infer_instance

/-- The vertices that are fresh when their turn comes, after the vertices `seen`. -/
def freshVertices (seen : List Point2i) : List Point2i → List Point2i
  | [] => []
  | v :: vs => if Fresh seen v then v :: freshVertices (seen ++ [v]) vs else freshVertices (seen ++ [v]) vs

/-- Some vertex's last predecessor within `seedRadius` is the fresh vertex that came after
`startSeed` others. -/
def MeetsSeed (vs : List Point2i) : Prop :=
  ∃ pre s mid v post, vs = pre ++ s :: mid ++ v :: post ∧ Fresh pre s ∧
    (freshVertices [] pre).length = startSeed ∧ Within seedRadius s v ∧ Fresh mid v

theorem freshVertices_concat : ∀ (seen vs : List Point2i) (v : Point2i), freshVertices seen (vs ++ [v]) =
    freshVertices seen vs ++ if Fresh (seen ++ vs) v then [v] else []
  | seen, [], v => by simp [freshVertices]
  | seen, u :: vs, v => by
    simp only [List.cons_append, freshVertices, freshVertices_concat (seen ++ [u]) vs v, List.append_assoc,
      List.nil_append]
    split <;> rfl

theorem mem_of_mem_freshVertices : ∀ {seen vs : List Point2i} {v : Point2i}, v ∈ freshVertices seen vs → v ∈ vs
  | _, [], _, h => h
  | seen, u :: vs, v, h => by
    unfold freshVertices at h
    split at h
    · rcases List.mem_cons.1 h with rfl | h
      exacts [List.mem_cons_self .., List.mem_cons_of_mem _ (mem_of_mem_freshVertices h)]
    · exact List.mem_cons_of_mem _ (mem_of_mem_freshVertices h)

theorem freshVertices_apart (vs : List Point2i) :
    (freshVertices [] vs).Pairwise fun u v => ¬Within seedRadius u v := by
  induction vs using List.reverseRecOn with
  | nil => exact List.Pairwise.nil
  | append_singleton vs v ih =>
    rw [freshVertices_concat, List.nil_append]
    refine List.pairwise_append.2 ⟨ih, by split <;> simp, fun u hu w hw => ?_⟩
    split at hw
    · rename_i hf
      rw [List.mem_singleton] at hw
      subst hw
      exact hf u (mem_of_mem_freshVertices hu)
    · cases hw

/-- Vertices pairwise apart are all fresh. -/
theorem freshVertices_of_apart {vs : List Point2i} (h : vs.Pairwise fun u v => ¬Within seedRadius u v) :
    freshVertices [] vs = vs := by
  induction vs using List.reverseRecOn with
  | nil => rfl
  | append_singleton vs v ih =>
    obtain ⟨h1, -, h2⟩ := List.pairwise_append.1 h
    have hf : Fresh vs v := fun u hu => h2 u hu v (by simp)
    rw [freshVertices_concat, ih h1, List.nil_append, if_pos hf]

theorem MeetsSeed.append {vs : List Point2i} (h : MeetsSeed vs) (v : Point2i) : MeetsSeed (vs ++ [v]) := by
  obtain ⟨pre, s, mid, w, post, rfl, hs⟩ := h
  exact ⟨pre, s, mid, w, post ++ [v], by simp, hs⟩

/-! ## Labels -/

namespace Ledger

/-- A pixel's label is the index of the last vertex placed within `seedRadius`. -/
theorem label_after_last (pre : List Point2i) {s q : Point2i} (hs : Within seedRadius s q) (mid : List Point2i)
    (hmid : Fresh mid q) : (after (pre ++ s :: mid)).label q = (after pre).assign s := by
  induction mid using List.reverseRecOn with
  | nil => rw [after_concat, label_place, if_pos hs]
  | append_singleton mid u ih =>
    rw [← List.cons_append, ← List.append_assoc, after_concat, label_place, if_neg (hmid u (by simp))]
    exact ih fun w hw => hmid w (List.mem_append_left _ hw)

/-- A pixel far from every vertex placed is unseeded. -/
theorem label_after_fresh {vs : List Point2i} {q : Point2i} (h : Fresh vs q) : (after vs).label q = startSeed := by
  induction vs using List.reverseRecOn with
  | nil => rfl
  | append_singleton vs u ih =>
    rw [after_concat, label_place, if_neg (h u (by simp))]
    exact ih fun w hw => h w (List.mem_append_left _ hw)

/-- A vertex that is not fresh has a last predecessor within `seedRadius`. -/
theorem exists_last_of_not_fresh {vs : List Point2i} {v : Point2i} (h : ¬Fresh vs v) :
    ∃ pre s mid, vs = pre ++ s :: mid ∧ Within seedRadius s v ∧ Fresh mid v := by
  unfold Fresh at h
  push Not at h
  exact List.exists_last_of_exists h

theorem points_after_isPrefix (vs : List Point2i) : ∀ (ws : List Point2i),
    (after vs).points <+: (after (vs ++ ws)).points := by
  intro ws
  induction ws using List.reverseRecOn with
  | nil => rw [List.append_nil]
  | append_singleton ws w ih =>
    rw [← List.append_assoc, after_concat]
    exact ih.trans (points_place_isPrefix _ w)

/-- While no vertex has met the seed, the points are the fresh vertices, and the index `startSeed`
belongs to the fresh vertex that came after `startSeed` others. -/
theorem points_of_not_meetsSeed (vs : List Point2i) (h : ¬MeetsSeed vs) :
    (after vs).points = freshVertices [] vs ∧ ∀ pre s mid, vs = pre ++ s :: mid →
      ((after pre).assign s = startSeed ↔ Fresh pre s ∧ (freshVertices [] pre).length = startSeed) := by
  induction vs using List.reverseRecOn with
  | nil => exact ⟨rfl, fun pre s mid h => by simp at h⟩
  | append_singleton vs v ih =>
    obtain ⟨hp, ha⟩ := ih fun hm => h (hm.append v)
    have hv : ((after vs).label v = startSeed ↔ Fresh vs v) := by
      refine ⟨fun hl => ?_, label_after_fresh⟩
      by_contra hf
      obtain ⟨pre, s, mid, rfl, hs, hmid⟩ := exists_last_of_not_fresh hf
      rw [label_after_last pre hs mid hmid] at hl
      obtain ⟨h1, h2⟩ := (ha pre s mid rfl).1 hl
      exact h ⟨pre, s, mid, v, [], rfl, h1, h2, hs, hmid⟩
    refine ⟨?_, fun pre s mid he => ?_⟩
    · rw [after_concat, freshVertices_concat, List.nil_append]
      simp only [place, hv, hp]
      split <;> simp
    · -- the vertex in question is the one placed last, or was placed before it
      rcases List.eq_nil_or_concat mid with rfl | ⟨mid, w, rfl⟩
      · obtain ⟨rfl, hvs⟩ := List.append_inj' he rfl
        cases hvs
        unfold assign
        by_cases hf : Fresh vs v
        · rw [if_pos (hv.2 hf), hp]
          simp only [hf, true_and]
        · rw [if_neg fun hl => hf (hv.1 hl)]
          exact ⟨fun hl => absurd (hv.1 hl) hf, fun hl => absurd hl.1 hf⟩
      · apply ha pre s mid
        rw [List.concat_eq_append, ← List.cons_append, ← List.append_assoc] at he
        exact (List.append_inj' he rfl).1

/-- A vertex that meets the seed becomes a second point within `seedRadius` of the first. -/
theorem not_apart_of_meetsSeed (vs : List Point2i) (h : MeetsSeed vs) :
    ¬(after vs).points.Pairwise fun u v => ¬Within seedRadius u v := by
  induction vs using List.reverseRecOn with
  | nil =>
    obtain ⟨pre, s, mid, v, post, he, -⟩ := h
    simp at he
  | append_singleton vs v ih =>
    intro hpw
    have hpre : (after vs).points.Pairwise fun u v => ¬Within seedRadius u v := by
      rw [after_concat] at hpw
      exact hpw.sublist (points_place_isPrefix _ v).sublist
    have hno : ¬MeetsSeed vs := fun hm => ih hm hpre
    obtain ⟨pre, s, mid, w, post, he, h1, h2, hs, hmid⟩ := h
    rcases List.eq_nil_or_concat post with rfl | ⟨post, x, rfl⟩
    · obtain ⟨rfl, hw⟩ := List.append_inj' he rfl
      cases hw
      -- `s` was the last to seed the pixel of `v`, with the index that reads as unseeded
      have hlabel : (after (pre ++ s :: mid)).label v = startSeed := by
        rw [label_after_last pre hs mid hmid]
        exact ((points_of_not_meetsSeed _ hno).2 pre s mid rfl).2 ⟨h1, h2⟩
      have hsp : s ∈ (after (pre ++ s :: mid)).points := by
        have hmem : s ∈ (after (pre ++ [s])).points := by
          rw [after_concat]
          simp [place, label_after_fresh h1]
        rw [List.append_cons]
        exact (points_after_isPrefix (pre ++ [s]) mid).subset hmem
      rw [after_concat] at hpw
      simp only [place, hlabel, if_true] at hpw
      exact (List.pairwise_append.1 hpw).2.2 s hsp v (by simp) hs
    · refine hno ⟨pre, s, mid, w, post, ?_, h1, h2, hs, hmid⟩
      rw [List.concat_eq_append, ← List.cons_append, ← List.append_assoc] at he
      exact (List.append_inj' he rfl).1

/-- The points of a ledger lie pairwise apart exactly when no vertex met the seed. -/
theorem points_apart_iff (vs : List Point2i) :
    ((after vs).points.Pairwise fun u v => ¬Within seedRadius u v) ↔ ¬MeetsSeed vs := by
  refine ⟨fun h hm => not_apart_of_meetsSeed vs hm h, fun h => ?_⟩
  rw [(points_of_not_meetsSeed vs h).1]
  exact freshVertices_apart vs

end Ledger

/-! ## Runs -/

/-- The points found on a drawing lie pairwise farther apart than `seedRadius` exactly when no
vertex processed meets the seed. -/
theorem vectorize_points_apart (d : Drawing) : ∃ out, vectorize d.cols d.rows d.contours = .ok out ∧
    ((out.vertices.Pairwise fun u v => ¬Within seedRadius u v) ↔ ¬MeetsSeed d.processed.flatten) :=
  ⟨_, vectorize_spec d, Ledger.points_apart_iff _⟩

/-- The `k`th vertex of a zigzag along the image. -/
def zigzagVertex (k : ℕ) : Point2i := ⟨31 * k, 40 * (k % 2)⟩

/-- A zigzag of 256 fresh vertices that ends with a vertex near the last of them. -/
def zigzag : List Point2i := (List.range 255).map zigzagVertex ++ [zigzagVertex 255, ⟨31 * 255 + 20, 60⟩]

theorem zigzag_inside : ∀ v ∈ zigzag, (Mat.fresh 8000 100 startSeed).Inside v := by
  intro v hv
  simp only [zigzag, List.mem_append, List.mem_map, List.mem_range, List.mem_cons, List.not_mem_nil, or_false] at hv
  simp only [Mat.Inside, Mat.fresh]
  rcases hv with ⟨k, hk, rfl⟩ | rfl | rfl <;> simp only [zigzagVertex] <;> omega

/-- One contour, the zigzag, on an image of 8000 by 100 pixels. -/
def zigzagDrawing : Drawing where
  cols := 8000
  rows := 100
  contours := [zigzag]
  nonempty := by simp [zigzag]
  inside := by simpa using zigzag_inside

theorem zigzagVertex_apart {i j : ℕ} (h : i < j) : ¬Within seedRadius (zigzagVertex i) (zigzagVertex j) := by
  simp only [Within, zigzagVertex, seedRadius, abs_le]
  omega

theorem zigzag_meetsSeed : MeetsSeed zigzag := by
  have hpre : ((List.range 255).map zigzagVertex).Pairwise fun u v => ¬Within seedRadius u v :=
    List.pairwise_map.2 (List.pairwise_lt_range.imp zigzagVertex_apart)
  refine ⟨(List.range 255).map zigzagVertex, zigzagVertex 255, [], ⟨31 * 255 + 20, 60⟩, [],
    (List.append_assoc _ [zigzagVertex 255] [_]).symm, ?_, ?_, by decide, by decide⟩
  · intro u hu
    obtain ⟨k, hk, rfl⟩ := List.mem_map.1 hu
    exact zigzagVertex_apart (List.mem_range.1 hk)
  · rw [freshVertices_of_apart hpre, List.length_map, List.length_range]
    rfl

theorem zigzagDrawing_processed : zigzagDrawing.processed = [zigzag] := by
  have hlen : zigzag.length ≠ 2 := by simp [zigzag]
  simp [Drawing.processed, zigzagDrawing, hlen]

theorem exists_points_not_apart (d : Drawing) (h : MeetsSeed d.processed.flatten) :
    ∃ out, vectorize d.cols d.rows d.contours = .ok out ∧
      ¬out.vertices.Pairwise fun u v => ¬Within seedRadius u v :=
  ⟨_, vectorize_spec d, Ledger.not_apart_of_meetsSeed _ h⟩

/-- The zigzag gets two points within `seedRadius` of each other. -/
theorem zigzagDrawing_points_not_apart :
    ∃ out, vectorize zigzagDrawing.cols zigzagDrawing.rows zigzagDrawing.contours = .ok out ∧
      ¬out.vertices.Pairwise fun u v => ¬Within seedRadius u v := by
  apply exists_points_not_apart zigzagDrawing
  rw [zigzagDrawing_processed, List.flatten_singleton]
  exact zigzag_meetsSeed

end DetailIdentifier.Vectorizer
