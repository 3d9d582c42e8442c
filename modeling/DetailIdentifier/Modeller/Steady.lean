/-
Aligning a model that is aligned. A pass over points that are level or `CONTOUR_DIFF` apart moves none of
them, and its groups depend only on which points are level (`alignContours_congr`). So an aligned model has
the planes it was aligned to, and `load` writes the same polygons for it (`load_aligned`); and of models with
the same edges, whose points are level alike, it writes the same faces (`load_congr`).
-/
import DetailIdentifier.Modeller.Load

namespace DetailIdentifier.Modeller

variable {axis other : Axis} {points again : List Point3i} {size size' n : ℕ} {s : Contours size} {t : Contours size'}

/-! ## Levels -/

/-- Two points have one coordinate. -/
def Level (axis : Axis) (points : List Point3i) (i j : ℕ) : Prop :=
  points[i]?.map axis.get = points[j]?.map axis.get

instance (axis : Axis) (points : List Point3i) (i j : ℕ) : Decidable (Level axis points i j) :=
  inferInstanceAs (Decidable (_ = _))

theorem level_iff {i j : ℕ} {p q : Point3i} (hp : points[i]? = some p) (hq : points[j]? = some q) :
    Level axis points i j ↔ axis.get p = axis.get q := by
  unfold Level
  rw [hp, hq, Option.map_some, Option.map_some, Option.some.injEq]

/-- The points of a group are at its plane, in the middle of a pass. -/
theorem Aligning.exists_get (hs : Aligning axis points n s) {k : ℕ} {group : List ℕ} {c : ℤ}
    (hgroup : s.res[k]? = some group) (hc : s.available[k]? = some c) :
    ∃ i ∈ group, i < n ∧ ∃ p, s.points[i]? = some p ∧ axis.get p = c := by
  have hmem := List.mem_of_getElem? hgroup
  obtain ⟨i, rest, rfl⟩ := List.exists_cons_of_ne_nil (hs.inhabited group hmem)
  obtain ⟨c', hc', hmoved⟩ := hs.moved.getElem?_left hgroup
  rw [hc, Option.some.injEq] at hc'
  subst hc'
  obtain ⟨-, p, -, hp, hget, -⟩ := hmoved i (List.mem_cons_self ..)
  exact ⟨i, List.mem_cons_self .., hs.index_lt hmem (List.mem_cons_self ..), p, hp, hget⟩

/-- Planes of one coordinate are one plane. -/
theorem Aligning.available_inj (hs : Aligning axis points n s) {j k : ℕ} {c : ℤ} (hj : s.available[j]? = some c)
    (hk : s.available[k]? = some c) : j = k := by
  obtain ⟨hjlt, rfl⟩ := List.getElem?_eq_some_iff.1 hj
  obtain ⟨hklt, hget⟩ := List.getElem?_eq_some_iff.1 hk
  have hapart := List.pairwise_iff_getElem.1 hs.apart
  rcases lt_trichotomy j k with hlt | heq | hgt
  · have := hapart j k hjlt hklt hlt
    rw [hget] at this
    simp [contourDiff] at this
  · exact heq
  · have := hapart k j hklt hjlt hgt
    rw [hget] at this
    simp [contourDiff] at this

/-! ## A pass over points that are level or apart -/

/-- Side by side with a pass that puts the next point level with the same points, a pass over points level
or apart puts it in the same group, and leaves it where it is. -/
theorem alignPoint_again (hs : Aligning axis points n s) (ht : Aligning axis again n t) (hagain : t.points = again)
    (hsnap : ∀ (i j : ℕ) p q, again[i]? = some p → again[j]? = some q →
      axis.get p = axis.get q ∨ contourDiff ≤ |axis.get p - axis.get q|) (hres : t.res = s.res)
    (hn : n < points.length) (hnt : n < again.length) {s' : Contours size} (hstep : alignPoint axis s n = .ok s')
    (hlevel : ∀ i < n, Level axis s'.points i n ↔ Level axis again i n) :
    ∃ t', alignPoint axis t n = .ok t' ∧ t'.points = again ∧ t'.res = s'.res := by
  subst hagain
  have hp : s.points[n]? = some points[n] := (hs.ahead n le_rfl).trans (List.getElem?_eq_getElem hn)
  have hq : t.points[n]? = some t.points[n] := List.getElem?_eq_getElem hnt
  -- near a plane is on it, for the second pass
  have hon : ∀ {k : ℕ} {group : List ℕ} {c : ℤ}, t.res[k]? = some group → t.available[k]? = some c →
      |axis.get t.points[n] - c| < contourDiff → ∃ i ∈ group, i < n ∧ Level axis t.points i n ∧ axis.get t.points[n] = c := by
    intro k group c hgroup hc hnear
    obtain ⟨i, hi, hlt, q, hqi, rfl⟩ := ht.exists_get hgroup hc
    have heq := (hsnap n i _ _ hq hqi).resolve_right (not_le.2 hnear)
    exact ⟨i, hi, hlt, (level_iff hqi hq).2 heq.symm, heq⟩
  rcases alignPoint_cases hs hp with ⟨j, c, group, hc, hgroup, -, heq⟩ | ⟨hfar, heq⟩
  · obtain rfl := Except.ok.inj (heq.symm.trans hstep)
    -- the second pass finds the plane of the group
    obtain ⟨i, hi, hlt, p, hpi, hget⟩ := hs.exists_get hgroup hc
    have hlevel := (hlevel i hlt).1 (by
      rw [level_iff (p := p) (q := axis.set points[n] c), hget, Axis.get_set]
      · rwa [List.getElem?_set_ne hlt.ne']
      · exact List.getElem?_set_self (hs.size ▸ hn))
    have hgroup' : t.res[j]? = some group := hres ▸ hgroup
    obtain ⟨c', hc', hmoved⟩ := ht.moved.getElem?_left hgroup'
    obtain ⟨-, q, -, hqi, hget', -⟩ := hmoved i hi
    have hc'n : c' = axis.get t.points[n] := hget'.symm.trans ((level_iff hqi hq).1 hlevel)
    subst hc'n
    rcases alignPoint_cases ht hq with ⟨k, d, group', hd, hgroup'', hnear, heq'⟩ | ⟨hfar', -⟩
    · obtain ⟨-, -, -, -, rfl⟩ := hon hgroup'' hd hnear
      obtain rfl := ht.available_inj hc' hd
      rw [hgroup', Option.some.injEq] at hgroup''
      subst hgroup''
      refine ⟨_, heq', ?_, ?_⟩
      · rw [Axis.set_get]
        exact List.set_getElem_self hnt
      · simp only [hres]
    · have := hfar' _ (List.mem_of_getElem? hc')
      simp [contourDiff] at this
  · obtain rfl := Except.ok.inj (heq.symm.trans hstep)
    rcases alignPoint_cases ht hq with ⟨k, d, group', hd, hgroup', hnear, -⟩ | ⟨-, heq'⟩
    · -- a plane near the point would be one for the first pass
      exfalso
      obtain ⟨i, hi, hlt, hlevel', -⟩ := hon hgroup' hd hnear
      obtain ⟨c, hc, hmoved⟩ := hs.moved.getElem?_left (hres ▸ hgroup')
      obtain ⟨-, p, -, hpi, rfl, -⟩ := hmoved i hi
      have hget := (level_iff hpi hp).1 ((hlevel i hlt).2 hlevel')
      have := hfar _ (List.mem_of_getElem? hc)
      rw [hget] at this
      simp [contourDiff] at this
    · exact ⟨_, heq', rfl, by simp only [hres]⟩

/-- The points a pass has been through stay. -/
theorem alignPoint_before {s' : Contours size} (hs : Aligning axis points n s) (hn : n < points.length)
    (hstep : alignPoint axis s n = .ok s') {i : ℕ} (hi : i < n) : s'.points[i]? = s.points[i]? := by
  have hp : s.points[n]? = some points[n] := (hs.ahead n le_rfl).trans (List.getElem?_eq_getElem hn)
  rcases alignPoint_cases hs hp with ⟨j, c, group, -, -, -, heq⟩ | ⟨-, heq⟩
  · obtain rfl := Except.ok.inj (heq.symm.trans hstep)
    exact List.getElem?_set_ne hi.ne'
  · obtain rfl := Except.ok.inj (heq.symm.trans hstep)
    rfl

/-- The last point of a pass. -/
theorem aligning_last (hn : n < points.length) {s' : Contours points.length}
    (hrun : (List.range (n + 1)).foldlM (alignPoint axis) ⟨points, [], [], rfl⟩ = .ok s') :
    ∃ s, (List.range n).foldlM (alignPoint axis) ⟨points, [], [], rfl⟩ = .ok s ∧ Aligning axis points n s ∧
      alignPoint axis s n = .ok s' := by
  obtain ⟨s, hrun', hs⟩ := aligning_run axis points n hn.le
  rw [List.range_succ, List.foldlM_append, hrun'] at hrun
  refine ⟨s, hrun', hs, ?_⟩
  rw [← bind_pure (alignPoint axis s n)]
  exact hrun

theorem aligning_again (hsize : again.length = points.length)
    (hsnap : ∀ (i j : ℕ) p q, again[i]? = some p → again[j]? = some q →
      axis.get p = axis.get q ∨ contourDiff ≤ |axis.get p - axis.get q|) : ∀ n, n ≤ points.length → ∀ s,
    (List.range n).foldlM (alignPoint axis) ⟨points, [], [], rfl⟩ = .ok s →
    (∀ i < n, ∀ j < n, Level axis s.points i j ↔ Level axis again i j) →
    ∃ t, (List.range n).foldlM (alignPoint axis) ⟨again, [], [], rfl⟩ = .ok t ∧ t.points = again ∧ t.res = s.res
  | 0, _, s, hrun, _ => by
    obtain rfl := Except.ok.inj hrun
    exact ⟨_, rfl, rfl, rfl⟩
  | n + 1, hn, s', hrun, hlevel => by
    obtain ⟨s, hrun', hs, hstep⟩ := aligning_last (by omega) hrun
    have hbefore : ∀ i < n, ∀ j < n, Level axis s.points i j ↔ Level axis again i j := by
      intro i hi j hj
      rw [← hlevel i (by omega) j (by omega), Level, Level, alignPoint_before hs hn hstep hi,
        alignPoint_before hs hn hstep hj]
    obtain ⟨t, htrun, htpoints, htres⟩ := aligning_again hsize hsnap n (by omega) s hrun' hbefore
    obtain ⟨t₀, htrun₀, ht⟩ := aligning_run axis again n (by omega)
    obtain rfl := Except.ok.inj (htrun₀.symm.trans htrun)
    obtain ⟨t', htstep, hpoints, hres⟩ := alignPoint_again hs ht htpoints hsnap htres hn (by omega) hstep fun i hi =>
      hlevel i (by omega) n (by omega)
    refine ⟨t', ?_, hpoints, hres⟩
    rw [List.range_succ, List.foldlM_append, htrun]
    show alignPoint axis t₀ n >>= pure = _
    rw [bind_pure, htstep]

variable {model model' model'' : Model3d} {groups : List (List ℕ)} {representatives : List ℤ}

/-- A pass over a model whose points are level or apart, beside one that made the same points level. -/
theorem alignContours_congr (h : alignContours axis model = .ok (groups, model')) (hsnap : Snapped axis model'')
    (hsize : model''.points.length = model.points.length)
    (hlevel : ∀ i < model.points.length, ∀ j < model.points.length,
      Level axis model'.points i j ↔ Level axis model''.points i j) :
    alignContours axis model'' = .ok (groups, model'') := by
  obtain ⟨s, hrun, hs⟩ := aligning_run axis model.points _ le_rfl
  rw [alignContours, hrun] at h
  obtain ⟨rfl, rfl⟩ := Prod.mk.inj (Except.ok.inj h)
  obtain ⟨t, htrun, hpoints, hres⟩ := aligning_again hsize hsnap _ le_rfl s hrun hlevel
  rw [← hsize] at htrun
  rw [alignContours, htrun]
  show Except.ok (t.res, model''.withPoints t.points t.sized) = _
  rw [model''.withPoints_self t.sized hpoints, hres]

/-- Points level or apart are not moved. -/
theorem aligning_snapped (hsnap : Snapped axis model) : ∀ n, n ≤ model.points.length → ∀ s,
    (List.range n).foldlM (alignPoint axis) ⟨model.points, [], [], rfl⟩ = .ok s → s.points = model.points
  | 0, _, s, hrun => by
    obtain rfl := Except.ok.inj hrun
    rfl
  | n + 1, hn, s', hrun => by
    obtain ⟨s, hrun', hs, hstep⟩ := aligning_last (by omega) hrun
    have hpoints := aligning_snapped hsnap n (by omega) s hrun'
    have hp : model.points[n]? = some model.points[n] := List.getElem?_eq_getElem hn
    rcases alignPoint_cases (p := model.points[n]) hs (by rw [hpoints]; exact hp) with
      ⟨j, c, group, hc, hgroup, hnear, heq⟩ | ⟨-, heq⟩
    · obtain rfl := Except.ok.inj (heq.symm.trans hstep)
      -- the plane is that of a point before
      obtain ⟨i, -, -, q, hq, rfl⟩ := hs.exists_get hgroup hc
      rw [hpoints] at hq
      have hlevel := (hsnap n i _ _ hp hq).resolve_right (not_le.2 hnear)
      show s.points.set n _ = model.points
      rw [hpoints, ← hlevel, Axis.set_get]
      exact List.set_getElem_self hn
    · obtain rfl := Except.ok.inj (heq.symm.trans hstep)
      exact hpoints

theorem alignContours_snapped (hsnap : Snapped axis model) : ∃ groups, alignContours axis model = .ok (groups, model) := by
  obtain ⟨s, hrun, -⟩ := aligning_run axis model.points _ le_rfl
  refine ⟨s.res, ?_⟩
  rw [alignContours, hrun]
  show Except.ok (s.res, model.withPoints s.points s.sized) = _
  rw [model.withPoints_self s.sized (aligning_snapped hsnap _ le_rfl s hrun)]

/-! ## Aligned models -/

theorem Aligned.get_eq (h : Aligned axis model model' groups representatives) (hne : other ≠ axis) (i : ℕ) :
    model'.points[i]?.map other.get = model.points[i]?.map other.get := by
  rcases lt_or_ge i model.points.length with hi | hi
  · obtain ⟨c, p, p', hp, hp', -, -, hkeep⟩ := h.exists_moved hi
    rw [hp, hp', Option.map_some, Option.map_some, hkeep other hne]
  · rw [List.getElem?_eq_none hi, List.getElem?_eq_none (h.size ▸ hi)]

/-- The three passes over an aligned model find its planes again and move nothing, so `load` does the same
with it as with the model it was aligned from. -/
theorem load_aligned (model : Model3d) : ∃ xs m₁ ys m₂ zs final,
    (alignContoursX model = .ok (xs, m₁) ∧ alignContoursY m₁ = .ok (ys, m₂) ∧ alignContoursZ m₂ = .ok (zs, final)) ∧
    (alignContoursX final = .ok (xs, final) ∧ alignContoursY final = .ok (ys, final) ∧
      alignContoursZ final = .ok (zs, final)) ∧ ∀ fuel, load fuel final = load fuel model := by
  obtain ⟨xs, m₁, rx, hx, hax⟩ := alignContours_aligned .x model
  obtain ⟨ys, m₂, ry, hy, hay⟩ := alignContours_aligned .y m₁
  obtain ⟨zs, final, rz, hz, haz⟩ := alignContours_aligned .z m₂
  have hsnapx : Snapped .x final := (hax.snapped.aligned hay (by decide)).aligned haz (by decide)
  have hsnapy : Snapped .y final := hay.snapped.aligned haz (by decide)
  -- later passes leave the coordinate of the earlier ones
  have hx' : alignContours .x final = .ok (xs, final) :=
    alignContours_congr hx hsnapx (by rw [haz.size, hay.size, hax.size]) fun i _ j _ => by
      unfold Level
      rw [haz.get_eq (by decide), haz.get_eq (by decide), hay.get_eq (by decide), hay.get_eq (by decide)]
  have hy' : alignContours .y final = .ok (ys, final) :=
    alignContours_congr hy hsnapy (by rw [haz.size, hay.size]) fun i _ j _ => by
      unfold Level
      rw [haz.get_eq (by decide), haz.get_eq (by decide)]
  have hz' : alignContours .z final = .ok (zs, final) :=
    alignContours_congr hz haz.snapped haz.size fun _ _ _ _ => Iff.rfl
  refine ⟨xs, m₁, ys, m₂, zs, final, ⟨hx, hy, hz⟩, ⟨hx', hy', hz'⟩, fun fuel => ?_⟩
  rw [← alignContoursX] at hx hx'
  rw [← alignContoursY] at hy hy'
  rw [← alignContoursZ] at hz hz'
  simp only [load, hx, hy, hz, hx', hy', hz', bind, Except.bind]

/-! ## Models alike -/

/-- The faces `load` finds in a model level or apart are those of any other such model with the same edges in
which the same points are level. -/
theorem load_congr {other : Model3d} (hedges : other.edges = model.edges)
    (hsize : other.points.length = model.points.length) (hmodel : ∀ axis, Snapped axis model)
    (hother : ∀ axis, Snapped axis other) (hlevel : ∀ axis, ∀ i < model.points.length, ∀ j < model.points.length,
      Level axis model.points i j ↔ Level axis other.points i j) : ∃ faces : List (List ℕ),
    Loop.Yields (fun fuel => load fuel model) (.ok (faces.map (facet model))) ∧
      Loop.Yields (fun fuel => load fuel other) (.ok (faces.map (facet other))) := by
  have hgroups : ∀ axis, ∃ groups, alignContours axis model = .ok (groups, model) ∧
      alignContours axis other = .ok (groups, other) := fun axis => by
    obtain ⟨groups, h⟩ := alignContours_snapped (hmodel axis)
    exact ⟨groups, h, alignContours_congr h (hother axis) hsize (hlevel axis)⟩
  obtain ⟨xs, hx, hx'⟩ := hgroups .x
  obtain ⟨ys, hy, hy'⟩ := hgroups .y
  obtain ⟨zs, hz, hz'⟩ := hgroups .z
  obtain ⟨outs, houts, hload⟩ := load_of_ok hx hy hz
  obtain ⟨outs', houts', hload'⟩ := load_of_ok hx' hy' hz'
  -- the chains are traced on the edges alone
  have heq : outs = outs' := by
    unfold Traced at houts houts'
    rw [hedges] at houts'
    exact List.right_unique_forall₂' (fun _ _ _ h h' => Except.ok.inj (h.unique h')) houts houts'
  subst heq
  refine ⟨outs.flatMap TraceState.exported, ?_, ?_⟩
  · rwa [List.map_flatMap]
  · rwa [List.map_flatMap]

/-- The box, longer and mirrored. -/
def longBox : Model3d :=
  straightBox.withPoints [⟨0, 900, 0⟩, ⟨100, 900, 0⟩, ⟨100, 200, 0⟩, ⟨0, 200, 0⟩, ⟨0, 900, 300⟩, ⟨100, 900, 300⟩,
    ⟨100, 200, 300⟩, ⟨0, 200, 300⟩] rfl

theorem load_congr_longBox : ∃ faces : List (List ℕ),
    Loop.Yields (fun fuel => load fuel straightBox) (.ok (faces.map (facet straightBox))) ∧
      Loop.Yields (fun fuel => load fuel longBox) (.ok (faces.map (facet longBox))) :=
  load_congr rfl rfl (fun axis => by cases axis <;> decide) (fun axis => by cases axis <;> decide)
    fun axis => by cases axis <;> decide

end DetailIdentifier.Modeller
