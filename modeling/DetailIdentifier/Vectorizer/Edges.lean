/-
The edges of a run are the simple graph traced by the contours: they join different points, no
two of them join the same points, and two points are joined exactly when consecutive vertices of
a processed contour were assigned them (`vectorize_edges`). The last vertex of a contour and its
first are not consecutive (`vectorize_closing_iff`).
-/
import DetailIdentifier.Vectorizer.Trace

namespace DetailIdentifier.Vectorizer

/-! ## Joining -/

theorem edgeAlreadyExists_iff {u : List (ℕ × ℕ)} {e : ℕ × ℕ} :
    edgeAlreadyExists u e = true ↔ ∃ a ∈ u, s(a.1, a.2) = s(e.1, e.2) := by
  simp only [edgeAlreadyExists, List.any_eq_true, Bool.or_eq_true, Bool.and_eq_true, beq_iff_eq, Sym2.eq_iff]
  refine exists_congr fun a => and_congr_right fun _ => or_congr_right ?_
  exact and_comm

/-- The undirected edges after joining are those before and the new one, unless it is a loop. -/
theorem join_mem (es : List (ℕ × ℕ)) (p : ℕ × ℕ) (x : Sym2 ℕ) :
    (∃ e ∈ join es p, s(e.1, e.2) = x) ↔ (∃ e ∈ es, s(e.1, e.2) = x) ∨ p.1 ≠ p.2 ∧ s(p.1, p.2) = x := by
  unfold join
  split
  · rename_i h
    simp [h]
  · rename_i h
    split
    · rename_i he
      obtain ⟨a, ha, hae⟩ := edgeAlreadyExists_iff.1 he
      refine ⟨.inl, ?_⟩
      rintro (hx | ⟨-, rfl⟩)
      exacts [hx, ⟨a, ha, hae⟩]
    · simp [h, or_and_right, exists_or]

theorem join_pairwise {es : List (ℕ × ℕ)} (h : es.Pairwise fun e f => s(e.1, e.2) ≠ s(f.1, f.2)) (p : ℕ × ℕ) :
    (join es p).Pairwise fun e f => s(e.1, e.2) ≠ s(f.1, f.2) := by
  unfold join
  split
  · exact h
  · split
    · exact h
    · rename_i he
      refine List.pairwise_append.2 ⟨h, List.pairwise_singleton _ _, fun e hes f hf => ?_⟩
      rw [List.mem_singleton] at hf
      subst hf
      exact fun hef => he (edgeAlreadyExists_iff.2 ⟨e, hes, hef⟩)

theorem foldl_join_mem (x : Sym2 ℕ) : ∀ (ps es : List (ℕ × ℕ)), (∃ e ∈ ps.foldl join es, s(e.1, e.2) = x) ↔
    (∃ e ∈ es, s(e.1, e.2) = x) ∨ ∃ p ∈ ps, p.1 ≠ p.2 ∧ s(p.1, p.2) = x
  | [], es => by simp
  | p :: ps, es => by
    rw [List.foldl_cons, foldl_join_mem x ps, join_mem, or_assoc]
    simp

theorem foldl_join_pairwise : ∀ (ps : List (ℕ × ℕ)) {es : List (ℕ × ℕ)},
    (es.Pairwise fun e f => s(e.1, e.2) ≠ s(f.1, f.2)) →
    (ps.foldl join es).Pairwise fun e f => s(e.1, e.2) ≠ s(f.1, f.2)
  | [], _, h => h
  | p :: ps, _, h => foldl_join_pairwise ps (join_pairwise h p)

theorem mem_steps {is : List ℕ} {i i' : ℕ} :
    (i, i') ∈ steps is ↔ ∃ j : ℕ, is[j]? = some i ∧ is[j + 1]? = some i' := by
  simp only [steps, List.mem_iff_getElem?, List.getElem?_zip_eq_some, List.getElem?_tail]

/-- Two indices are those of consecutive vertices, in either order. -/
def Walked (indices : List ℕ) (a b : ℕ) : Prop :=
  ∃ j i i' : ℕ, indices[j]? = some i ∧ indices[j + 1]? = some i' ∧ s(i, i') = s(a, b)

/-- The edges joined are the steps of the paths between different indices. -/
theorem edge_iff_walked (paths : List (List ℕ)) {a b : ℕ} (hab : a ≠ b) :
    (∃ e ∈ (paths.flatMap steps).foldl join [], s(e.1, e.2) = s(a, b)) ↔ ∃ indices ∈ paths, Walked indices a b := by
  rw [foldl_join_mem]
  constructor
  · rintro (⟨e, he, -⟩ | ⟨p, hp, -, hpe⟩)
    · cases he
    · obtain ⟨is, his, hpis⟩ := List.mem_flatMap.1 hp
      obtain ⟨j, h1, h2⟩ := mem_steps.1 hpis
      exact ⟨is, his, j, p.1, p.2, h1, h2, hpe⟩
  · rintro ⟨is, his, j, i, i', h1, h2, he⟩
    refine .inr ⟨(i, i'), List.mem_flatMap.2 ⟨is, his, mem_steps.2 ⟨j, h1, h2⟩⟩, ?_, he⟩
    intro (hii : i = i')
    subst hii
    rcases Sym2.eq_iff.1 he with ⟨rfl, rfl⟩ | ⟨rfl, rfl⟩ <;> exact hab rfl

/-! ## Indices are in range -/

namespace Ledger

/-- Every index placed is the index of a point. -/
def Bounded (l : Ledger) : Prop := ∀ p ∈ l.placed, p.2 < l.points.length

theorem assign_lt {l : Ledger} (h : l.Bounded) (v : Point2i) : l.assign v < (l.place v).points.length := by
  by_cases hl : l.label v = startSeed
  · simp [assign, place, hl]
  · simp only [assign, place, hl, if_false]
    unfold label at hl ⊢
    cases hf : l.placed.find? fun p => Within seedRadius p.1 v with
    | none => simp [hf] at hl
    | some p => exact h p (List.mem_of_find?_eq_some hf)

theorem place_bounded {l : Ledger} (h : l.Bounded) (v : Point2i) : (l.place v).Bounded := by
  intro p hp
  rcases List.mem_cons.1 hp with rfl | hp
  · exact assign_lt h v
  · exact (h p hp).trans_le (points_place_isPrefix l v).length_le

theorem points_foldl_isPrefix : ∀ (vs : List Point2i) (l : Ledger), l.points <+: (vs.foldl place l).points
  | [], _ => List.prefix_rfl
  | v :: vs, l => (points_place_isPrefix l v).trans (points_foldl_isPrefix vs (l.place v))

theorem foldl_bounded : ∀ (vs : List Point2i) {l : Ledger}, l.Bounded → (vs.foldl place l).Bounded
  | [], _, h => h
  | v :: vs, _, h => foldl_bounded vs (place_bounded h v)

theorem indices_lt : ∀ (vs : List Point2i) {l : Ledger}, l.Bounded →
    ∀ i ∈ l.indices vs, i < (vs.foldl place l).points.length
  | [], _, _, i, hi => by cases hi
  | v :: vs, l, h, i, hi => by
    rcases List.mem_cons.1 hi with rfl | hi
    · exact (assign_lt h v).trans_le (points_foldl_isPrefix vs (l.place v)).length_le
    · exact indices_lt vs (place_bounded h v) i hi

theorem paths_lt : ∀ (cs : List (List Point2i)) {l : Ledger}, l.Bounded →
    ∀ is ∈ l.paths cs, ∀ i ∈ is, i < (cs.flatten.foldl place l).points.length
  | [], _, _, is, his => by cases his
  | c :: cs, l, h, is, his => by
    intro i hi
    rw [List.flatten_cons, List.foldl_append]
    rcases List.mem_cons.1 his with rfl | his
    · exact (indices_lt c h i hi).trans_le (points_foldl_isPrefix cs.flatten _).length_le
    · exact paths_lt cs (foldl_bounded c h) is his i hi

end Ledger

/-! ## The assignment of a run -/

/-- The index of each vertex of a contour, in the order of processing. -/
def assignContour : Labels → List Point2i → Except Fault (List ℕ × Labels)
  | s, [] => .ok ([], s)
  | s, v :: vs => do
    let (index, s) ← placeVertex s v
    let (indices, s) ← assignContour s vs
    return (index :: indices, s)

/-- The index of each vertex of each contour. -/
def assign : Labels → List (List Point2i) → Except Fault (List (List ℕ))
  | _, [] => .ok []
  | s, c :: cs => do
    let (indices, s) ← assignContour s c
    return indices :: (← assign s cs)

section Runs

variable {cols rows : ℕ}

theorem assignContour_spec : ∀ (c : List Point2i) {s : Labels} {l : Ledger}, Records cols rows s l →
    (∀ v ∈ c, (Mat.fresh cols rows startSeed).Inside v) →
    ∃ s', assignContour s c = .ok (l.indices c, s') ∧ Records cols rows s' (c.foldl Ledger.place l)
  | [], s, _, h, _ => ⟨s, rfl, h⟩
  | v :: vs, s, l, h, hv => by
    obtain ⟨s₁, hs, hr⟩ := placeVertex_spec h (hv v (List.mem_cons_self ..))
    obtain ⟨s', hs', hr'⟩ := assignContour_spec vs hr fun u hu => hv u (List.mem_cons_of_mem _ hu)
    refine ⟨s', ?_, hr'⟩
    simp only [assignContour, hs, hs', bind, Except.bind]
    rfl

theorem assign_spec : ∀ (cs : List (List Point2i)) {s : Labels} {l : Ledger}, Records cols rows s l →
    (∀ c ∈ cs, ∀ v ∈ c, (Mat.fresh cols rows startSeed).Inside v) → assign s cs = .ok (l.paths cs)
  | [], _, _, _, _ => rfl
  | c :: cs, s, l, h, hv => by
    obtain ⟨s', hs, hr⟩ := assignContour_spec c h (hv c (List.mem_cons_self ..))
    have ih := assign_spec cs hr fun b hb => hv b (List.mem_cons_of_mem _ hb)
    simp only [assign, hs, ih, bind, Except.bind]
    rfl

end Runs

theorem Drawing.processed_inside (d : Drawing) :
    ∀ c ∈ d.processed, ∀ v ∈ c, (Mat.fresh d.cols d.rows startSeed).Inside v :=
  fun c hc => d.inside c (List.mem_filter.1 hc).1

/-- The edges of a run join different points, no two of them the same points, and two different
points are joined exactly when consecutive vertices of a processed contour were assigned them. -/
theorem vectorize_edges (d : Drawing) : ∃ out asg,
    vectorize d.cols d.rows d.contours = .ok out ∧ assign (unseeded d.cols d.rows) d.processed = .ok asg ∧
    (∀ e ∈ out.edges, e.1 ≠ e.2 ∧ e.1 < out.vertices.length ∧ e.2 < out.vertices.length) ∧
    (out.edges.Pairwise fun e f => s(e.1, e.2) ≠ s(f.1, f.2)) ∧
    ∀ a b, a ≠ b → ((∃ e ∈ out.edges, s(e.1, e.2) = s(a, b)) ↔
      ∃ indices ∈ asg, ∃ j i i' : ℕ, indices[j]? = some i ∧ indices[j + 1]? = some i' ∧ s(i, i') = s(a, b)) := by
  have hb : (⟨[], []⟩ : Ledger).Bounded := fun p hp => by cases hp
  refine ⟨_, _, vectorize_spec d, assign_spec d.processed (unseeded_records _ _) d.processed_inside, ?_,
    foldl_join_pairwise _ List.Pairwise.nil, fun a b hab => ?_⟩
  · intro e he
    obtain ⟨p, hp, hne, hpe⟩ := ((foldl_join_mem s(e.1, e.2) _ _).1 ⟨e, he, rfl⟩).resolve_left (by simp)
    obtain ⟨is, his, hpis⟩ := List.mem_flatMap.1 hp
    have hlt := Ledger.paths_lt d.processed hb is his
    have h1 := hlt p.1 (List.of_mem_zip hpis).1
    have h2 := hlt p.2 (List.mem_of_mem_tail (List.of_mem_zip hpis).2)
    -- the edge is the step of some path, in one of the two orientations
    rcases Sym2.eq_iff.1 hpe with ⟨he1, he2⟩ | ⟨he1, he2⟩ <;> rw [← he1, ← he2]
    exacts [⟨hne, h1, h2⟩, ⟨hne.symm, h2, h1⟩]
  · exact edge_iff_walked _ hab

/-! ## Closing sides -/

/-- All sides of a contour are edges, the one back to its first vertex included, where their ends are
different points. -/
def Closed (edges : List (ℕ × ℕ)) (indices : List ℕ) : Prop :=
  ∀ a b, a ≠ b → Walked (indices ++ indices.take 1) a b → ∃ e ∈ edges, s(e.1, e.2) = s(a, b)

/-- The sides of a contour are its steps and the closing side. -/
theorem walked_closed {indices : List ℕ} {a b : ℕ} (ha : indices.head? = some a) (hb : indices.getLast? = some b) {x y : ℕ} :
    Walked (indices ++ indices.take 1) x y ↔ Walked indices x y ∨ s(a, b) = s(x, y) := by
  obtain ⟨rest, rfl⟩ := List.head?_eq_some_iff.1 ha
  rw [List.getLast?_eq_getElem?, List.length_cons, Nat.add_sub_cancel] at hb
  constructor
  · rintro ⟨j, i, i', hi, hi', he⟩
    have hj : j ≤ rest.length := by
      have := (List.getElem?_eq_some_iff.1 hi').1
      simpa using this
    rw [List.getElem?_append_left (by simpa using hj)] at hi
    rcases hj.lt_or_eq with hj | rfl
    · rw [List.getElem?_append_left (by simpa using hj)] at hi'
      exact .inl ⟨j, i, i', hi, hi', he⟩
    · -- the step back to the first vertex
      rw [hb, Option.some.injEq] at hi
      rw [List.getElem?_append_right (by simp), List.length_cons, Nat.sub_self] at hi'
      obtain rfl : a = i' := Option.some.inj hi'
      exact .inr (by rw [hi, ← he, Sym2.eq_swap])
  · rintro (⟨j, i, i', hi, hi', he⟩ | he)
    · have hkeep : ∀ {n m : ℕ}, (a :: rest)[n]? = some m → (a :: rest ++ (a :: rest).take 1)[n]? = some m := fun h =>
        (List.getElem?_append_left (List.getElem?_eq_some_iff.1 h).1).trans h
      exact ⟨j, i, i', hkeep hi, hkeep hi', he⟩
    · refine ⟨rest.length, b, a, ?_, ?_, Sym2.eq_swap.trans he⟩
      · rw [List.getElem?_append_left (by simp), hb]
      · rw [List.getElem?_append_right (by simp), List.length_cons, Nat.sub_self]
        rfl

/-- The side from the last vertex of a processed contour back to its first is there, and the contour is
closed, exactly when the same two points are those of consecutive vertices of some processed contour. -/
theorem vectorize_closing_iff (d : Drawing) : ∃ out asg,
    vectorize d.cols d.rows d.contours = .ok out ∧ assign (unseeded d.cols d.rows) d.processed = .ok asg ∧
    ∀ (k : ℕ) contour indices, d.processed[k]? = some contour → asg[k]? = some indices → 3 ≤ contour.length →
      ∀ a b, indices.head? = some a → indices.getLast? = some b → a ≠ b →
        ((∃ e ∈ out.edges, s(e.1, e.2) = s(a, b)) ↔ ∃ is ∈ asg, Walked is a b) ∧
        (Closed out.edges indices ↔ ∃ is ∈ asg, Walked is a b) := by
  refine ⟨_, _, vectorize_spec d, assign_spec d.processed (unseeded_records _ _) d.processed_inside, ?_⟩
  intro k contour indices _ hindices _ a b ha hb hab
  refine ⟨edge_iff_walked _ hab, ?_⟩
  constructor
  · exact fun hclosed => (edge_iff_walked _ hab).1 (hclosed a b hab ((walked_closed ha hb).2 (.inr rfl)))
  · intro hwalked x y hxy hside
    rcases (walked_closed ha hb).1 hside with hstep | hclosing
    · exact (edge_iff_walked _ hxy).2 ⟨indices, List.mem_of_getElem? hindices, hstep⟩
    · rw [← hclosing]
      exact (edge_iff_walked _ hab).2 hwalked

/-- One triangle, its corners far apart. -/
def triangleDrawing : Drawing where
  cols := 200
  rows := 200
  contours := [[⟨0, 0⟩, ⟨100, 0⟩, ⟨0, 100⟩]]
  nonempty := by decide
  inside := by decide

/-- The triangle lacks its third side. -/
theorem triangleDrawing_open : ∃ out,
    vectorize triangleDrawing.cols triangleDrawing.rows triangleDrawing.contours = .ok out ∧
      assign (unseeded triangleDrawing.cols triangleDrawing.rows) triangleDrawing.processed = .ok [[0, 1, 2]] ∧
      ¬∃ e ∈ out.edges, s(e.1, e.2) = s(0, 2) :=
  ⟨_, vectorize_spec triangleDrawing,
    assign_spec triangleDrawing.processed (unseeded_records _ _) triangleDrawing.processed_inside, by decide⟩

end DetailIdentifier.Vectorizer
