/-
When an edge between two model points of the same two views is right: their vertices should be the
same or joined in the first view and in the second. `build_model` asks the first view's edges both
times (`sameViews_edge_iff`).
-/
import DetailIdentifier.Modeller.Wireframe

namespace DetailIdentifier.Modeller

open Interpreter

variable {β : Type}

/-! ## The test never fails -/

/-- Two vertices of a view are the same, or joined in it. -/
def Adjacent (view : Projection β) (i j : ℕ) : Prop := i = j ∨ (i, j) ∈ view.cedges ∨ (j, i) ∈ view.cedges

instance (view : Projection β) (i j : ℕ) : Decidable (Adjacent view i j) := inferInstanceAs (Decidable (_ ∨ _ ∨ _))

/-- The test where nothing is missing. -/
def linked (projections : List (Projection β)) (m m' : Parents) : Bool :=
  (connected projections m m').toOption.getD false

/-- The views of two model points are there to be read. -/
theorem connected_candidates {projections : List (Projection β)} {m m' : Parents} (hm : m ∈ candidates projections)
    (hm' : m' ∈ candidates projections) : connected projections m m' = .ok (linked projections m m') := by
  obtain ⟨p, -, hp, -⟩ := mem_candidates.1 hm
  obtain ⟨p', q', hp', hq', -⟩ := mem_candidates.1 hm'
  have hok : ∃ b, connected projections m m' = .ok b := by
    simp only [connected, fetch_eq hp, fetch_eq hp', fetch_eq hq', bind, Except.bind, pure, Except.pure]
    split
    · exact ⟨_, rfl⟩
    · split <;> exact ⟨_, rfl⟩
  obtain ⟨b, hb⟩ := hok
  rw [linked, hb]
  rfl

/-- Points of the same two views are linked when the first view's edges join both pairs of vertices. -/
theorem linked_sameViews {projections : List (Projection β)} {i j k l j' l' : ℕ} {p q : Projection β}
    (hp : projections[i]? = some p) (hq : projections[k]? = some q) :
    linked projections ⟨i, j, k, l⟩ ⟨i, j', k, l'⟩ = true ↔ Adjacent p j j' ∧ Adjacent p l l' := by
  have hconnected : connected projections ⟨i, j, k, l⟩ ⟨i, j', k, l'⟩ =
      .ok (joined p.cedges (j == j') j j' && joined p.cedges (l == l') l l') := by
    simp only [connected, fetch_eq hp, fetch_eq hq, bind, Except.bind, pure, Except.pure, if_true]
  rw [linked, hconnected]
  simp only [Except.toOption, Option.getD_some, Bool.and_eq_true, joined_iff, Adjacent]

/-! ## The edges of a model -/

/-- What `build_model` makes of its points: each pair that passes the test, once. -/
theorem Rounded.buildModel_points {fl : ℝ → ℝ} {projections : List (Projection β)} {directions : List (List ProjectionDirection)}
    {points : List (Parents × Point3i)} (h : modelPoints fl projections directions = .ok points) :
    ∃ inRange, buildModel fl projections directions =
      .ok ⟨points.map (·.2), linkedPairs (linked projections) (points.map (·.1)), inRange⟩ := by
  have hcand : ∀ m ∈ points.map (·.1), m ∈ candidates projections := by
    intro m hm
    obtain ⟨⟨m, P⟩, hP, rfl⟩ := List.mem_map.1 hm
    exact mem_modelPoints h hP
  have hedges := modelEdges_eq fun m hm m' hm' => connected_candidates (hcand m hm) (hcand m' hm')
  exact ⟨_, buildModel_eq h hedges⟩

/-- Every edge occurs once, from the smaller index to the greater. Between two points of the same two
views it is right exactly when, unless their vertices are apart in the first view, the first view's
edges join the second view's indices just as the second's own do. -/
theorem sameViews_edge_iff {fl : ℝ → ℝ} {projections : List (Projection β)}
    {directions : List (List ProjectionDirection)} {points : List (Parents × Point3i)}
    (h : Rounded.modelPoints fl projections directions = .ok points) :
    ∃ model, Rounded.buildModel fl projections directions = .ok model ∧ model.points = points.map (·.2) ∧ model.edges.Nodup ∧
      (∀ e ∈ model.edges, e.1 < e.2 ∧ e.2 < model.points.length) ∧
      ∀ (a b i j k l j' l' : ℕ) P Q p q, a < b → points[a]? = some (⟨i, j, k, l⟩, P) →
        points[b]? = some (⟨i, j', k, l'⟩, Q) → projections[i]? = some p → projections[k]? = some q →
        (((a, b) ∈ model.edges ↔ Adjacent p j j' ∧ Adjacent q l l') ↔
          (Adjacent p j j' → (Adjacent p l l' ↔ Adjacent q l l'))) := by
  obtain ⟨inRange, hmodel⟩ := Rounded.buildModel_points h
  refine ⟨_, hmodel, rfl, nodup_linkedPairs _ _, ?_, ?_⟩
  · rintro ⟨a, b⟩ he
    obtain ⟨hab, -, m, -, hm, -⟩ := mem_linkedPairs.1 he
    have hb := (List.getElem?_eq_some_iff.1 hm).1
    simp only [List.length_map] at hb ⊢
    exact ⟨hab, hb⟩
  · intro a b i j k l j' l' P Q p q hab ha hb hp hq
    have hedge : (a, b) ∈ linkedPairs (linked projections) (points.map (·.1)) ↔ Adjacent p j j' ∧ Adjacent p l l' := by
      rw [mem_linkedPairs, ← linked_sameViews hp hq]
      simp only [List.getElem?_map, ha, hb, Option.map_some, Option.some.injEq]
      constructor
      · rintro ⟨-, m, m', rfl, rfl, hl⟩
        exact hl
      · exact fun hl => ⟨hab, _, _, rfl, rfl, hl⟩
    rw [hedge]
    exact and_congr_right_iff

/-! ## The staircase again -/

/-- The edge of the staircase between the points 3 and 4 is right. -/
theorem staircase_edge_right : ∃ model, Rounded.buildModel Binary64.round staircaseViews (vertical 100) = .ok model ∧
    ((3, 4) ∈ model.edges ↔ Adjacent staircase.first 1 1 ∧ Adjacent staircase.second 0 1) := by
  obtain ⟨model, hmodel, -, -, -, hedge⟩ := sameViews_edge_iff modelPoints_staircase
  exact ⟨model, hmodel, (hedge 3 4 0 1 1 0 1 1 _ _ _ _ (by decide) rfl rfl rfl rfl).2
    (by simp only [Adjacent, staircase]; decide)⟩

/-- The points 4 and 5 of the staircase have one vertex in the first view and joined ones in the second,
but no edge. -/
theorem staircase_edge_missing : ∃ points model p q,
    Rounded.modelPoints Binary64.round staircaseViews (vertical 100) = .ok points ∧
    Rounded.buildModel Binary64.round staircaseViews (vertical 100) = .ok model ∧ staircaseViews[0]? = some p ∧ staircaseViews[1]? = some q ∧
    (points.map (·.1))[4]? = some ⟨0, 1, 1, 1⟩ ∧ (points.map (·.1))[5]? = some ⟨0, 1, 1, 2⟩ ∧
    Adjacent p 1 1 ∧ Adjacent q 1 2 ∧ (4, 5) ∉ model.edges :=
  ⟨_, _, _, _, modelPoints_staircase, buildModel_staircase, rfl, rfl, rfl, rfl, .inl rfl,
    .inr (.inl (by simp [staircase])), by decide⟩

end DetailIdentifier.Modeller
