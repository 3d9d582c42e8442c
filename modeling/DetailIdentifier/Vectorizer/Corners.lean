/-
Drawings with clean corners. Where every vertex lies near one of some corners that are far apart, a run
numbers the corners in the order they are met first, and finds them again under their numbers (`Numbered`).
So `vectorize` gives one point for each corner, and its edges are the sides of the drawing
(`vectorize_corners`).
-/
import DetailIdentifier.Lib.Lists
import DetailIdentifier.Vectorizer.Edges

namespace DetailIdentifier.Vectorizer

/-! ## Paths through corners -/

/-- The vertices of each contour are drawn near the corners of a path. -/
def Draws {κ : Type} (corner : κ → Point2i) (radius : ℤ) : List (List κ) → List (List Point2i) → Prop :=
  List.Forall₂ (List.Forall₂ fun k v => Within radius (corner k) v)

theorem Draws.flatten {κ : Type} {corner : κ → Point2i} {radius : ℤ} {ps : List (List κ)} {cs : List (List Point2i)}
    (h : Draws corner radius ps cs) :
    List.Forall₂ (fun k v => Within radius (corner k) v) ps.flatten cs.flatten := by
  induction h with
  | nil => exact .nil
  | cons hp _ ih =>
    rw [List.flatten_cons, List.flatten_cons]
    exact List.rel_append hp ih

theorem Within.trans {r s : ℤ} {u v w : Point2i} (huv : Within r u v) (hvw : Within s v w) : Within (r + s) u w :=
  ⟨(abs_sub_le ..).trans (add_le_add huv.1 hvw.1), (abs_sub_le ..).trans (add_le_add huv.2 hvw.2)⟩

theorem Within.mono {r s : ℤ} {u v : Point2i} (h : Within r u v) (hrs : r ≤ s) : Within s u v :=
  ⟨h.1.trans hrs, h.2.trans hrs⟩

variable {κ : Type} [DecidableEq κ]

/-! ## First visits -/

section Rank

variable {visited : List κ} {k : κ}

/-- The place of a corner among those visited, in the order of their first visits. -/
def rank (visited : List κ) (k : κ) : ℕ := visited.eraseDups.idxOf k

theorem eraseDups_append_subset {ks : List κ} (h : ks ⊆ visited) : (visited ++ ks).eraseDups = visited.eraseDups := by
  have hnone : ks.removeAll visited = [] := List.filter_eq_nil_iff.2 fun k hk => by simp [h hk]
  rw [List.eraseDups_append, hnone, List.eraseDups_nil, List.append_nil]

theorem eraseDups_append_disjoint {ks : List κ} (h : visited.Disjoint ks) :
    (visited ++ ks).eraseDups = visited.eraseDups ++ ks.eraseDups := by
  have hall : ks.removeAll visited = ks := List.filter_eq_self.2 fun k hk => by
    simp [List.disjoint_right.1 h hk]
  rw [List.eraseDups_append, hall]

theorem eraseDups_concat_mem (hk : k ∈ visited) : (visited ++ [k]).eraseDups = visited.eraseDups :=
  eraseDups_append_subset (List.cons_subset.2 ⟨hk, List.nil_subset _⟩)

theorem eraseDups_concat_new (hk : k ∉ visited) : (visited ++ [k]).eraseDups = visited.eraseDups ++ [k] :=
  eraseDups_append_disjoint (List.disjoint_singleton.2 hk)

theorem rank_append (hk : k ∈ visited) (ks : List κ) : rank (visited ++ ks) k = rank visited k := by
  unfold rank
  rw [List.eraseDups_append, List.idxOf_append_of_mem (List.mem_eraseDups.2 hk)]

theorem rank_lt (hk : k ∈ visited) : rank visited k < visited.eraseDups.length :=
  List.idxOf_lt_length_iff.2 (List.mem_eraseDups.2 hk)

theorem rank_inj {a b : κ} (ha : a ∈ visited) : rank visited a = rank visited b ↔ a = b :=
  List.idxOf_inj (List.mem_eraseDups.2 ha)

theorem rank_new (hk : k ∉ visited) : rank (visited ++ [k]) k = visited.eraseDups.length := by
  unfold rank
  rw [eraseDups_concat_new hk, List.idxOf_append_of_notMem (fun h => hk (List.mem_eraseDups.1 h))]
  simp

end Rank

/-! ## Numbered corners -/

/-- After vertices drawn for the corners visited, the points are the first vertices of the corners, and near a
corner its number is read. -/
structure Numbered (corner : κ → Point2i) (radius : ℤ) (visited : List κ) (drawn : List Point2i) (l : Ledger) :
    Prop where
  size : drawn.length = visited.length
  points : List.Forall₂ (fun k v => drawn[visited.idxOf k]? = some v) visited.eraseDups l.points
  label : ∀ k q, Within radius (corner k) q → l.label q = if k ∈ visited then rank visited k else startSeed

section Runs

variable {corner : κ → Point2i} {radius : ℤ} {visited : List κ} {drawn : List Point2i} {l : Ledger} {k : κ} {v : Point2i}

theorem numbered_nil (corner : κ → Point2i) (radius : ℤ) : Numbered corner radius [] [] ⟨[], []⟩ :=
  ⟨rfl, .nil, fun _ _ _ => rfl⟩

/-- A vertex gets the number of its corner. -/
theorem Numbered.assign (h : Numbered corner radius visited drawn l) (hv : Within radius (corner k) v)
    (hfew : (visited ++ [k]).eraseDups.length ≤ startSeed) : l.assign v = rank (visited ++ [k]) k := by
  unfold Ledger.assign
  rw [h.label k v hv]
  by_cases hk : k ∈ visited
  · rw [eraseDups_concat_mem hk] at hfew
    rw [if_pos hk, if_neg ((rank_lt hk).trans_le hfew).ne, rank_append hk]
  · rw [if_neg hk, if_pos rfl, rank_new hk, h.points.length_eq]

/-- The points before stay the first vertices of their corners, and a corner that is new adds its vertex. -/
theorem Numbered.place_points (h : Numbered corner radius visited drawn l) (hv : Within radius (corner k) v)
    (hfew : (visited ++ [k]).eraseDups.length ≤ startSeed) :
    List.Forall₂ (fun a u => (drawn ++ [v])[(visited ++ [k]).idxOf a]? = some u) (visited ++ [k]).eraseDups
      (l.place v).points := by
  have hbefore : List.Forall₂ (fun a u => (drawn ++ [v])[(visited ++ [k]).idxOf a]? = some u)
      visited.eraseDups l.points := by
    refine ((List.forall₂_and_left _ _).2 ⟨fun a ha => List.mem_eraseDups.1 ha, h.points⟩).imp fun a u ⟨ha, hu⟩ => ?_
    rw [List.idxOf_append_of_mem ha, List.getElem?_append_left (h.size ▸ List.idxOf_lt_length_iff.2 ha)]
    exact hu
  unfold Ledger.place
  rw [h.label k v hv]
  by_cases hk : k ∈ visited
  · rw [eraseDups_concat_mem hk] at hfew ⊢
    rwa [if_pos hk, if_neg ((rank_lt hk).trans_le hfew).ne]
  · rw [if_neg hk, if_pos rfl, eraseDups_concat_new hk]
    refine List.rel_append hbefore (.cons ?_ .nil)
    rw [List.idxOf_append_of_notMem hk, List.idxOf_cons_self, Nat.add_zero, ← h.size, List.getElem?_concat_length]

theorem Numbered.place (h : Numbered corner radius visited drawn l) (hradius : 2 * radius ≤ seedRadius)
    (hapart : Pairwise fun a b => ¬Within (seedRadius + 2 * radius) (corner a) (corner b))
    (hv : Within radius (corner k) v) (hfew : (visited ++ [k]).eraseDups.length ≤ startSeed) :
    Numbered corner radius (visited ++ [k]) (drawn ++ [v]) (l.place v) := by
  refine ⟨by simp [h.size], h.place_points hv hfew, fun a q hq => ?_⟩
  rw [Ledger.label_place]
  by_cases hak : a = k
  · subst hak
    -- vertices of one corner see each other
    have hsee : Within seedRadius v q := (hv.symm.trans hq).mono (by linarith)
    rw [if_pos hsee, if_pos (by simp), h.assign hv hfew]
  · -- and those of different corners do not
    have hnot : ¬Within seedRadius v q := fun hsee =>
      hapart (Ne.symm hak) (((hv.trans hsee).trans hq.symm).mono (by linarith))
    rw [if_neg hnot, h.label a q hq]
    by_cases ha : a ∈ visited
    · rw [if_pos ha, if_pos (List.mem_append_left _ ha), rank_append ha]
    · rw [if_neg ha, if_neg (by simp [ha, hak])]

/-! ## Whole runs -/

theorem Numbered.foldl (hradius : 2 * radius ≤ seedRadius)
    (hapart : Pairwise fun a b => ¬Within (seedRadius + 2 * radius) (corner a) (corner b)) :
    ∀ {ks : List κ} {vs : List Point2i} {visited : List κ} {drawn : List Point2i} {l : Ledger},
      Numbered corner radius visited drawn l → List.Forall₂ (fun k v => Within radius (corner k) v) ks vs →
      (visited ++ ks).eraseDups.length ≤ startSeed →
      Numbered corner radius (visited ++ ks) (drawn ++ vs) (vs.foldl Ledger.place l) ∧
        l.indices vs = ks.map (rank (visited ++ ks))
  | _, _, _, _, _, h, .nil, _ => by
    rw [List.append_nil, List.append_nil]
    exact ⟨h, rfl⟩
  | k :: ks, v :: vs, visited, drawn, l, h, .cons hv hvs, hfew => by
    rw [List.append_cons] at hfew ⊢
    rw [List.append_cons drawn]
    have hfew' : (visited ++ [k]).eraseDups.length ≤ startSeed := by
      rw [List.eraseDups_append, List.length_append] at hfew
      exact (Nat.le_add_right ..).trans hfew
    obtain ⟨hrun, hindices⟩ := (h.place hradius hapart hv hfew').foldl hradius hapart hvs hfew
    refine ⟨hrun, ?_⟩
    rw [Ledger.indices, h.assign hv hfew', hindices, List.map_cons,
      rank_append (List.mem_append_right _ (List.mem_singleton_self k))]

theorem Numbered.paths (hradius : 2 * radius ≤ seedRadius)
    (hapart : Pairwise fun a b => ¬Within (seedRadius + 2 * radius) (corner a) (corner b))
    {ps : List (List κ)} {cs : List (List Point2i)} {visited : List κ} {drawn : List Point2i} {l : Ledger}
    (h : Numbered corner radius visited drawn l)
    (hps : List.Forall₂ (List.Forall₂ fun k v => Within radius (corner k) v) ps cs)
    (hfew : (visited ++ ps.flatten).eraseDups.length ≤ startSeed) :
    l.paths cs = ps.map (List.map (rank (visited ++ ps.flatten))) := by
  induction hps generalizing visited drawn l with
  | nil => rfl
  | @cons p c ps cs hc _ ih =>
    rw [List.flatten_cons, ← List.append_assoc] at hfew ⊢
    have hfew' : (visited ++ p).eraseDups.length ≤ startSeed := by
      rw [List.eraseDups_append, List.length_append] at hfew
      exact (Nat.le_add_right ..).trans hfew
    obtain ⟨hrun, hindices⟩ := h.foldl hradius hapart hc hfew'
    rw [Ledger.paths, hindices, ih hrun hfew, List.map_cons]
    congr 1
    refine List.map_congr_left fun k hk => (rank_append (List.mem_append_right _ hk) _).symm

section Drawing

variable (d : Drawing) {paths : List (List κ)}

/-- The output is that of the paths, each corner with its number. -/
theorem vectorize_draws (hradius : 2 * radius ≤ seedRadius)
    (hapart : Pairwise fun a b => ¬Within (seedRadius + 2 * radius) (corner a) (corner b))
    (hpaths : Draws corner radius paths d.processed) (hfew : paths.flatten.eraseDups.length ≤ startSeed) :
    List.Forall₂ (fun k v => d.processed.flatten[paths.flatten.idxOf k]? = some v) paths.flatten.eraseDups
        (Ledger.after d.processed.flatten).points ∧
      Ledger.paths ⟨[], []⟩ d.processed = paths.map (List.map (rank paths.flatten)) := by
  have hnil := numbered_nil corner radius
  exact ⟨(hnil.foldl hradius hapart hpaths.flatten hfew).1.points, hnil.paths hradius hapart hpaths hfew⟩

/-- Two corners come one after the other on a path, in either order. -/
def Side (p : List κ) (a b : κ) : Prop := ∃ (j : ℕ) (c c' : κ), p[j]? = some c ∧ p[j + 1]? = some c' ∧ s(c, c') = s(a, b)

/-- The sides of a path are walked by the numbers of its corners. -/
theorem walked_rank {visited p : List κ} (hp : p ⊆ visited) {a b : κ} (ha : a ∈ visited) (hb : b ∈ visited) :
    Walked (p.map (rank visited)) (rank visited a) (rank visited b) ↔ Side p a b := by
  unfold Walked Side
  refine exists_congr fun j => ?_
  simp only [List.getElem?_map, Option.map_eq_some_iff]
  constructor
  · rintro ⟨_, _, ⟨c, hc, rfl⟩, ⟨c', hc', rfl⟩, heq⟩
    refine ⟨c, c', hc, hc', ?_⟩
    have hcmem := hp (List.mem_of_getElem? hc)
    have hcmem' := hp (List.mem_of_getElem? hc')
    rcases Sym2.eq_iff.1 heq with ⟨h1, h2⟩ | ⟨h1, h2⟩
    · rw [(rank_inj hcmem).1 h1, (rank_inj hcmem').1 h2]
    · rw [(rank_inj hcmem).1 h1, (rank_inj hcmem').1 h2, Sym2.eq_swap]
  · rintro ⟨c, c', hc, hc', heq⟩
    refine ⟨_, _, ⟨c, hc, rfl⟩, ⟨c', hc', rfl⟩, ?_⟩
    rcases Sym2.eq_iff.1 heq with ⟨rfl, rfl⟩ | ⟨rfl, rfl⟩
    exacts [rfl, Sym2.eq_swap]

/-- Of vertices drawn near corners that are far apart, at most 255 of them, the vectorizer makes one point for
each corner, its first vertex, and one edge for each side of the paths. -/
theorem vectorize_corners (hradius : 2 * radius ≤ seedRadius)
    (hapart : Pairwise fun a b => ¬Within (seedRadius + 2 * radius) (corner a) (corner b))
    (hpaths : Draws corner radius paths d.processed) (hfew : paths.flatten.eraseDups.length ≤ startSeed) :
    ∃ out, vectorize d.cols d.rows d.contours = .ok out ∧
      List.Forall₂ (fun k v => d.processed.flatten[paths.flatten.idxOf k]? = some v ∧ Within radius (corner k) v)
        paths.flatten.eraseDups out.vertices ∧
      (out.edges.Pairwise fun e f => s(e.1, e.2) ≠ s(f.1, f.2)) ∧
      ∀ a ∈ paths.flatten, ∀ b ∈ paths.flatten, a ≠ b →
        ((∃ e ∈ out.edges, s(e.1, e.2) = s(rank paths.flatten a, rank paths.flatten b)) ↔
          ∃ p ∈ paths, Side p a b) := by
  obtain ⟨hpoints, hindices⟩ := vectorize_draws d hradius hapart hpaths hfew
  refine ⟨_, vectorize_spec d, ?_, foldl_join_pairwise _ .nil, fun a ha b hb hab => ?_⟩
  · refine ((List.forall₂_and_left _ _).2 ⟨fun k hk => List.mem_eraseDups.1 hk, hpoints⟩).imp fun k v ⟨hk, hv⟩ => ⟨hv, ?_⟩
    obtain ⟨u, hu, hnear⟩ := hpaths.flatten.getElem?_left (List.getElem?_idxOf hk)
    rw [hv, Option.some.injEq] at hu
    rwa [hu]
  · have hne : rank paths.flatten a ≠ rank paths.flatten b := fun heq => hab ((rank_inj ha).1 heq)
    rw [hindices, edge_iff_walked _ hne]
    simp only [List.mem_map, exists_exists_and_eq_and]
    exact exists_congr fun p => and_congr_right fun hp =>
      walked_rank (fun k hk => List.mem_flatten.2 ⟨p, hp, hk⟩) ha hb

end Drawing

/-- Both sides of the strokes of a triangle, the inner one drawn from the lower corner on. -/
def doubleTriangle : Drawing where
  cols := 200
  rows := 200
  contours := [[⟨0, 0⟩, ⟨100, 0⟩, ⟨0, 100⟩], [⟨5, 90⟩, ⟨4, 5⟩, ⟨88, 3⟩]]
  nonempty := by decide
  inside := by decide

theorem vectorize_doubleTriangle : ∃ out,
    vectorize doubleTriangle.cols doubleTriangle.rows doubleTriangle.contours = .ok out ∧
    List.Forall₂ (fun k v => doubleTriangle.processed.flatten[[0, 1, 2, 2, 0, 1].idxOf k]? = some v ∧
      Within 15 ((![⟨0, 0⟩, ⟨100, 0⟩, ⟨0, 100⟩] : Fin 3 → Point2i) k) v) [0, 1, 2, 2, 0, 1].eraseDups out.vertices ∧
    (out.edges.Pairwise fun e f => s(e.1, e.2) ≠ s(f.1, f.2)) ∧
    ∀ a ∈ ([0, 1, 2, 2, 0, 1] : List (Fin 3)), ∀ b ∈ ([0, 1, 2, 2, 0, 1] : List (Fin 3)), a ≠ b →
      ((∃ e ∈ out.edges, s(e.1, e.2) = s(rank [0, 1, 2, 2, 0, 1] a, rank [0, 1, 2, 2, 0, 1] b)) ↔
        ∃ p ∈ [[0, 1, 2], [2, 0, 1]], Side p a b) :=
  have hpaths : Draws (![⟨0, 0⟩, ⟨100, 0⟩, ⟨0, 100⟩] : Fin 3 → Point2i) 15 [[0, 1, 2], [2, 0, 1]]
      doubleTriangle.processed :=
    .cons (.cons (by decide) (.cons (by decide) (.cons (by decide) .nil)))
      (.cons (.cons (by decide) (.cons (by decide) (.cons (by decide) .nil))) .nil)
  vectorize_corners doubleTriangle (by decide) (by unfold Pairwise; decide) hpaths (by decide)

end Runs

end DetailIdentifier.Vectorizer
