/-
What `addFaces` makes of a plane. The loop ends with every point of the plane used
(`trace_covers`), its chains are simple paths (`traced_simple`), and on a plane whose points form
disjoint outlines the chains exported are these outlines, one each (`outlines_exported`).
-/
import DetailIdentifier.Lib.Cycles
import DetailIdentifier.Modeller.Faces

namespace DetailIdentifier.Modeller

variable {edges : List (ℕ × ℕ)} {plane : List ℕ}

/-! ## All points are used -/

/-- When the loop ends, no point of the plane is left. -/
theorem used_of_done {s out : TraceState} (hs : Tracing edges plane s) (h : traceStep edges plane s = .done out) :
    ∀ p ∈ plane, p ∈ s.used := by
  obtain ⟨-, hfull | ⟨-, hall⟩⟩ := traceStep_done_inv h
  · intro p hp
    have hsub : s.used ⊆ plane.toFinset := fun q hq => List.mem_toFinset.2 (hs.onPlane q hq)
    have hcard : plane.toFinset.card ≤ s.used.card := by
      have := plane.toFinset_card_le
      omega
    rw [Finset.eq_of_subset_of_card_le hsub hcard]
    exact List.mem_toFinset.2 hp
  · exact hall

/-- The loop over any plane ends, and then every point of the plane is used. -/
theorem trace_covers (edges : List (ℕ × ℕ)) (plane : List ℕ) :
    ∃ out, Loop.Ends (traceStep edges plane) .start (.ok out) ∧ ∀ p ∈ plane, p ∈ out.used := by
  obtain ⟨out, hout⟩ := trace_ends (tracing_start edges plane)
  obtain ⟨s, hr, hd⟩ := hout.reach
  obtain ⟨rfl, -⟩ := traceStep_done_inv hd
  exact ⟨out, hout, used_of_done (tracing_of_reach hr) hd⟩

/-! ## Simple polygons -/

/-- The chains a completed loop exports are simple paths. -/
theorem exported_of_ends {out : TraceState} (h : Loop.Ends (traceStep edges plane) .start (.ok out)) :
    ∀ f ∈ out.exported, SimplePath edges plane f := by
  obtain ⟨s, hr, hd⟩ := h.reach
  obtain ⟨rfl, -⟩ := traceStep_done_inv hd
  exact exported_simple (tracing_of_reach hr)

/-- A polygon has the corners of its points. -/
theorem polygon_ok {model : Model3d} {ids : List ℕ} {g : Polygon} (h : polygon model ids = .ok g) :
    g.ids = ids ∧ List.Forall₂ (fun k c => ∃ p, model.points[k]? = some p ∧ c = corner p) ids g.corners := by
  obtain ⟨points, hmap, h⟩ := bind_ok_inv h
  cases h
  refine ⟨rfl, List.forall₂_map_right_iff.2 ?_⟩
  exact (List.forall₂_of_mapM hmap).imp fun _ p hp => ⟨p, fetch_inv hp, rfl⟩

theorem addPlane_ok {fuel : ℕ} {model : Model3d} {plane : List ℕ} {polygons : List Polygon}
    (h : addPlane fuel model plane = .ok polygons) : ∃ out, Loop.Ends (traceStep model.edges plane) .start (.ok out) ∧
      List.Forall₂ (fun f g => polygon model f = .ok g) out.exported polygons := by
  unfold addPlane at h
  split at h
  · cases h
  · cases h
  · rename_i out hrun
    exact ⟨out, ⟨fuel, hrun⟩, List.forall₂_of_mapM h⟩

/-- At every head of the loop the chain is a simple path of used points, and so is every polygon
handed to VTK. -/
theorem traced_simple (model : Model3d) :
    (∀ plane s, Loop.Reach (traceStep model.edges plane) .start s →
      SimplePath model.edges plane s.current ∧ ∀ p ∈ s.current, p ∈ s.used) ∧
    (∀ plane out, Loop.Ends (traceStep model.edges plane) .start (.ok out) →
      ∀ f ∈ out.exported, SimplePath model.edges plane f) ∧
    ∀ fuel planes polygons, addFaces fuel model planes = .ok polygons → ∀ g ∈ polygons, ∃ plane ∈ planes,
      SimplePath model.edges plane g.ids ∧
      List.Forall₂ (fun k c => ∃ p, model.points[k]? = some p ∧ c = corner p) g.ids g.corners := by
  refine ⟨fun plane s hr => ⟨(tracing_of_reach hr).current, (tracing_of_reach hr).marked⟩,
    fun plane out => exported_of_ends, ?_⟩
  intro fuel planes polygons h g hg
  obtain ⟨faces, hmap, h⟩ := bind_ok_inv h
  cases h
  obtain ⟨gs, hgs, hg⟩ := List.mem_flatten.1 hg
  obtain ⟨plane, hplane, hadd⟩ := List.exists_of_mem_mapM hmap hgs
  obtain ⟨out, hout, hall⟩ := addPlane_ok hadd
  obtain ⟨f, hf, hpolygon⟩ := hall.exists_left hg
  obtain ⟨rfl, hcorners⟩ := polygon_ok hpolygon
  exact ⟨plane, hplane, exported_of_ends hout _ hf, hcorners⟩

/-! ## Disjoint outlines -/

/-- The points of a plane form disjoint cycles: different points of the plane are joined when they
are neighbours on one of them. -/
structure Outlines (edges : List (ℕ × ℕ)) (plane : List ℕ) (cycles : List (List ℕ)) : Prop where
  three : ∀ c ∈ cycles, 3 ≤ c.length
  points : cycles.flatten.Perm plane
  joined : ∀ a ∈ plane, ∀ b ∈ plane, a ≠ b → (isEdge edges a b = true ↔ ∃ c ∈ cycles, c.Adjacent a b)

section Outlines

variable {cycles : List (List ℕ)}

theorem Outlines.of_sameCycles {cs : List (List ℕ)} (h : Outlines edges plane cycles) (hcs : cs.SameCycles cycles) :
    Outlines edges plane cs := by
  refine ⟨fun c hc => ?_, hcs.flatten_perm.trans h.points, fun a ha b hb hne => (h.joined a ha b hb hne).trans ?_⟩
  · obtain ⟨d, hd, hsame⟩ := hcs.exists_mem hc
    rw [hsame.perm.length_eq]
    exact h.three d hd
  · constructor
    · rintro ⟨d, hd, hadj⟩
      obtain ⟨c, hc, hsame⟩ := hcs.exists_mem_right hd
      exact ⟨c, hc, hsame.adjacent_iff.2 hadj⟩
    · rintro ⟨c, hc, hadj⟩
      obtain ⟨d, hd, hsame⟩ := hcs.exists_mem hc
      exact ⟨d, hd, hsame.adjacent_iff.1 hadj⟩

/-- The points joined to a point of a cycle: its neighbours on the cycle. -/
theorem Outlines.isEdge_iff (h : Outlines edges plane cycles) (hplane : plane.Nodup) {u v : List ℕ} {x y : ℕ}
    (hc : u ++ x :: v ∈ cycles) (hy : y ∈ plane) (hne : y ≠ x) :
    isEdge edges x y = true ↔ (v ++ u).head? = some y ∨ (v ++ u).getLast? = some y := by
  have hnodup : cycles.flatten.Nodup := h.points.nodup_iff.2 hplane
  have hx : x ∈ u ++ x :: v := List.mem_append_right _ (List.mem_cons_self ..)
  have hxplane : x ∈ plane := h.points.mem_iff.1 (List.mem_flatten.2 ⟨_, hc, hx⟩)
  have hrest : v ++ u ≠ [] := by
    intro hnil
    obtain ⟨rfl, rfl⟩ := List.append_eq_nil_iff.1 hnil
    have := h.three _ hc
    simp at this
  rw [h.joined x hxplane y hy hne.symm, ← List.adjacent_of_append_cons ((List.nodup_flatten.1 hnodup).1 _ hc) hrest]
  constructor
  · rintro ⟨d, hd, hadj⟩
    rwa [← List.eq_of_mem_of_nodup_flatten hnodup hd hc hadj.mem.1 hx]
  · exact fun hadj => ⟨_, hc, hadj⟩

/-! ### Following an outline -/

/-- Between two chains: the outlines exported, and those still to come. -/
structure Between (cycles todo : List (List ℕ)) (s : TraceState) : Prop where
  current : s.current = []
  same : (s.faces ++ todo).SameCycles cycles
  used : ∀ p, p ∈ s.used ↔ p ∈ s.faces.flatten

/-- Along an outline: the chain `l ++ [x]` has its `rest` before it. -/
structure Along (cycles : List (List ℕ)) (l : List ℕ) (x : ℕ) (rest : List ℕ) (todo : List (List ℕ))
    (s : TraceState) : Prop where
  current : s.current = l ++ [x]
  same : (s.faces ++ (l ++ x :: rest) :: todo).SameCycles cycles
  used : ∀ p, p ∈ s.used ↔ p ∈ s.faces.flatten ∨ p ∈ l ++ [x]

/-- The heads of the loop on a plane of disjoint outlines. -/
def OnOutlines (cycles : List (List ℕ)) (s : TraceState) : Prop :=
  (∃ todo, Between cycles todo s) ∨ ∃ l x rest todo, Along cycles l x rest todo s

theorem Between.seed {todo : List (List ℕ)} {s : TraceState} (hs : Between cycles todo s)
    (h : Outlines edges plane cycles) {k : ℕ} (hk : k ∈ plane) (hnew : k ∉ s.used) :
    ∃ rest todo, Along cycles [] k rest todo ⟨[k], insert k s.used, s.faces⟩ := by
  have hpoints := (h.of_sameCycles hs.same).points.mem_iff.2 hk
  rw [List.flatten_append, List.mem_append, ← hs.used] at hpoints
  obtain ⟨d, hd, hkd⟩ := List.mem_flatten.1 (hpoints.resolve_left hnew)
  obtain ⟨t, t', rfl⟩ := List.append_of_mem hd
  obtain ⟨w, hw⟩ := List.exists_sameCycle_cons hkd
  refine ⟨w, t ++ t', rfl, ?_, fun p => ?_⟩
  · exact List.SameCycles.replace hw (hs.same.perm_left (List.perm_middle.symm.append_left _))
  · rw [Finset.mem_insert, hs.used, List.nil_append, List.mem_singleton]
    exact or_comm

section Along

variable {l rest : List ℕ} {x : ℕ} {todo : List (List ℕ)} {s : TraceState}

theorem Along.nodup (hs : Along cycles l x rest todo s) (h : Outlines edges plane cycles) (hplane : plane.Nodup) :
    (l ++ x :: rest).Nodup := by
  have hnodup : (s.faces ++ (l ++ x :: rest) :: todo).flatten.Nodup :=
    (h.of_sameCycles hs.same).points.nodup_iff.2 hplane
  exact (List.nodup_flatten.1 hnodup).1 _ (by simp)

theorem Along.onPlane (hs : Along cycles l x rest todo s) (h : Outlines edges plane cycles) :
    ∀ p ∈ l ++ x :: rest, p ∈ plane := fun _ hp =>
  (h.of_sameCycles hs.same).points.mem_iff.1 (List.mem_flatten.2 ⟨_, by simp, hp⟩)

/-- The points joined to the end of the chain. -/
theorem Along.isEdge_iff (hs : Along cycles l x rest todo s) (h : Outlines edges plane cycles) (hplane : plane.Nodup)
    {p : ℕ} (hp : p ∈ plane) (hne : p ≠ x) :
    isEdge edges x p = true ↔ (rest ++ l).head? = some p ∨ (rest ++ l).getLast? = some p :=
  (h.of_sameCycles hs.same).isEdge_iff hplane (by simp) hp hne

/-- A chain that goes on follows its outline; a chain of one point chooses the direction. -/
theorem Along.push (hs : Along cycles l x rest todo s) (h : Outlines edges plane cycles) (hplane : plane.Nodup) {p : ℕ}
    (hnext : nextPoint edges plane s.current = some p) (hp : p ∉ s.current) :
    ∃ r, Along cycles (l ++ [x]) p r todo ⟨s.current ++ [p], insert p s.used, s.faces⟩ := by
  obtain ⟨hpplane, -, back, hback, hedge⟩ := nextPoint_some hnext
  rw [hs.current] at hp hback
  rw [List.getLast?_concat, Option.some.injEq] at hback
  subst hback
  simp only [List.mem_append, List.mem_singleton, not_or] at hp
  have hused : ∀ q, q ∈ insert p s.used ↔ q ∈ s.faces.flatten ∨ q ∈ l ++ [x] ++ [p] := by
    intro q
    rw [Finset.mem_insert, hs.used, List.mem_append (s := l ++ [x]), List.mem_singleton]
    tauto
  -- the outline goes on with `p`, as it is or read backwards
  obtain ⟨r, hr⟩ : ∃ r, (l ++ x :: p :: r).SameCycle (l ++ x :: rest) := by
    rcases (hs.isEdge_iff h hplane hpplane hp.2).1 hedge with hhead | hlast
    · cases rest with
      | nil => exact absurd (List.mem_of_head? hhead) hp.1
      | cons q r =>
        cases hhead
        exact ⟨r, .refl _⟩
    · rcases l.eq_nil_or_concat with rfl | ⟨m, y, rfl⟩
      · rw [List.append_nil] at hlast
        obtain ⟨r, rfl⟩ := List.getLast?_eq_some_iff.1 hlast
        refine ⟨r.reverse, ?_⟩
        have hrev := List.sameCycle_cons_reverse x (r ++ [p])
        rwa [List.reverse_concat] at hrev
      · rw [List.concat_eq_append, ← List.append_assoc, List.getLast?_concat, Option.some.injEq] at hlast
        exact absurd (by simp [hlast]) hp.1
  refine ⟨r, by rw [hs.current], ?_, hused⟩
  rw [List.append_assoc, List.singleton_append]
  exact hs.same.replace hr

/-- A closed chain is the whole outline. -/
theorem Along.closed (hs : Along cycles l x rest todo s) (h : Outlines edges plane cycles) (hplane : plane.Nodup)
    (hlen : 2 ≤ l.length) (hjoined : endsJoined edges s.current = true) : rest = [] := by
  have hnodup := hs.nodup h hplane
  obtain ⟨a, m, rfl⟩ := List.exists_cons_of_length_pos (by omega : 0 < l.length)
  have hm : m ≠ [] := by
    rintro rfl
    simp at hlen
  have hedge : isEdge edges x a = true := by
    rw [hs.current] at hjoined
    unfold endsJoined at hjoined
    rwa [List.getLast?_concat] at hjoined
  have ha : a ∉ m ++ x :: rest := (List.nodup_cons.1 hnodup).1
  simp only [List.mem_append, List.mem_cons, not_or] at ha
  rcases (hs.isEdge_iff h hplane (hs.onPlane h a (by simp)) ha.2.1).1 hedge with hhead | hlast
  · cases rest with
    | nil => rfl
    | cons q r =>
      cases hhead
      exact absurd (List.mem_cons_self ..) ha.2.2
  · rw [List.getLast?_append_of_ne_nil _ (List.cons_ne_nil a m), List.getLast?_cons_of_ne_nil hm] at hlast
    exact absurd (List.mem_of_getLast? hlast) ha.1

/-- A chain that cannot go on is the whole outline. -/
theorem Along.stuck (hs : Along cycles l x rest todo s) (h : Outlines edges plane cycles) (hplane : plane.Nodup)
    (hnext : nextPoint edges plane s.current = none) : rest = [] := by
  cases rest with
  | nil => rfl
  | cons q r =>
    have hnodup := hs.nodup h hplane
    have hq : q ∈ plane := hs.onPlane h q (by simp)
    have hqx : q ≠ x := by
      rintro rfl
      simp [List.nodup_append] at hnodup
    have hnew : q ∉ l ++ [x] := by
      rw [← List.singleton_append, ← List.append_assoc] at hnodup
      exact fun hmem => List.disjoint_of_nodup_append hnodup hmem (List.mem_cons_self ..)
    have hedge := (hs.isEdge_iff h hplane hq hqx).2 (.inl rfl)
    unfold nextPoint at hnext
    have hno := List.find?_eq_none.1 hnext q hq
    rw [hs.current, List.getLast?_concat] at hno
    simp [hnew, hedge] at hno

/-- A finished outline is exported. -/
theorem Along.export (hs : Along cycles l x [] todo s) {used : Finset ℕ} (hused : ∀ p, p ∈ used ↔ p ∈ s.used) :
    Between cycles todo ⟨[], used, s.faces ++ [s.current]⟩ := by
  refine ⟨rfl, ?_, fun p => ?_⟩
  · rw [hs.current, List.append_assoc]
    exact hs.same
  · rw [hused, hs.used, hs.current]
    simp

theorem Along.grows (hs : Along cycles l x rest todo s) (h : Outlines edges plane cycles) (hplane : plane.Nodup)
    {s' : TraceState} (hgrows : Grows edges plane s s') : OnOutlines cycles s' := by
  cases hgrows with
  | @stuck c used faces hnext =>
    obtain rfl := hs.stuck h hplane hnext
    have hlen : 3 ≤ (l ++ [x]).length := (h.of_sameCycles hs.same).three _ (by simp)
    have hc : c = l ++ [x] := hs.current
    rw [if_pos (by rwa [hc])]
    exact .inl ⟨todo, hs.export fun _ => Iff.rfl⟩
  | @back c used faces p hnext hp hlen hjoined =>
    have hc : c = l ++ [x] := hs.current
    rw [hc, List.length_append, List.length_singleton] at hlen
    obtain rfl := hs.closed h hplane (by omega) hjoined
    refine .inl ⟨todo, hs.export fun q => ?_⟩
    have hpused : p ∈ used := (hs.used p).2 (.inr (hs.current ▸ hp))
    rw [Finset.insert_eq_of_mem hpused]
  | @four c used faces p hnext hp hlen hjoined =>
    obtain ⟨r, hr⟩ := hs.push h hplane hnext hp
    have hlen' : (l ++ [x]).length = 3 := by rw [← hs.current]; exact hlen
    obtain rfl := hr.closed h hplane (by omega) hjoined
    exact .inl ⟨todo, hr.export fun _ => Iff.rfl⟩
  | goOn hnext hp =>
    obtain ⟨r, hr⟩ := hs.push h hplane hnext hp
    exact .inr ⟨_, _, r, todo, hr⟩

end Along

theorem onOutlines_step (h : Outlines edges plane cycles) (hplane : plane.Nodup) {s s' : TraceState}
    (ht : Tracing edges plane s) (hs : OnOutlines cycles s) (hstep : traceStep edges plane s = .next s') :
    OnOutlines cycles s' := by
  obtain ⟨-, s₁, hseed, -, hgrows⟩ := traceStep_next ht hstep
  rcases seed_cases hseed with ⟨k, hc, hk, hnew, rfl⟩ | ⟨hc, rfl⟩
  · rcases hs with ⟨todo, hs⟩ | ⟨l, x, rest, todo, hs⟩
    · obtain ⟨rest, todo', hs'⟩ := hs.seed h hk hnew
      exact hs'.grows h hplane hgrows
    · rw [hs.current] at hc
      simp at hc
  · rcases hs with ⟨todo, hs⟩ | ⟨l, x, rest, todo, hs⟩
    · exact absurd hs.current hc
    · exact hs.grows h hplane hgrows

/-! ### The end of the loop -/

theorem eq_nil_of_covered {a b : List ℕ} (h : (a ++ b).Nodup) (hb : ∀ p ∈ b, p ∈ a) : b = [] :=
  List.eq_nil_iff_forall_not_mem.2 fun p hp => List.disjoint_of_nodup_append h (hb p hp) hp

theorem OnOutlines.exported (h : Outlines edges plane cycles) (hplane : plane.Nodup) {s : TraceState}
    (hs : OnOutlines cycles s) (hall : ∀ p ∈ plane, p ∈ s.used) : s.exported.SameCycles cycles := by
  have hnil : ∀ {cs todo : List (List ℕ)}, Outlines edges plane (cs ++ todo) → todo.flatten = [] → todo = [] := by
    intro cs todo hcs hflat
    apply List.eq_nil_iff_forall_not_mem.2
    intro c hc
    have hlen := hcs.three c (List.mem_append_right _ hc)
    rw [List.flatten_eq_nil_iff.1 hflat c hc] at hlen
    simp at hlen
  unfold TraceState.exported
  rcases hs with ⟨todo, hs⟩ | ⟨l, x, rest, todo, hs⟩
  · have hcs := h.of_sameCycles hs.same
    have hnodup := hcs.points.nodup_iff.2 hplane
    rw [List.flatten_append] at hnodup
    have hflat := eq_nil_of_covered hnodup fun p hp =>
      (hs.used p).1 (hall p (hcs.points.mem_iff.1 (by simp [List.flatten_append, hp])))
    have hsame := hs.same
    rw [hnil hcs hflat, List.append_nil] at hsame
    rw [if_pos hs.current]
    exact hsame
  · have hcs := h.of_sameCycles hs.same
    have hpoints : (s.faces.flatten ++ (l ++ [x]) ++ (rest ++ todo.flatten)).Perm plane := by
      have := hcs.points
      simpa using this
    have hflat := eq_nil_of_covered (hpoints.nodup_iff.2 hplane) fun p hp =>
      List.mem_append.2 ((hs.used p).1 (hall p (hpoints.mem_iff.1 (List.mem_append_right _ hp))))
    obtain ⟨rfl, hflat⟩ := List.append_eq_nil_iff.1 hflat
    have hsame := hs.same
    rw [← hs.current, List.append_cons] at hsame hcs
    rw [hnil hcs hflat, List.append_nil] at hsame
    rw [if_neg (by simp [hs.current])]
    exact hsame

/-- The loop over a plane of disjoint outlines exports the outlines. -/
theorem exported_sameCycles (h : Outlines edges plane cycles) (hplane : plane.Nodup) {out : TraceState}
    (ho : Loop.Ends (traceStep edges plane) .start (.ok out)) : out.exported.SameCycles cycles := by
  obtain ⟨s, hr, hd⟩ := ho.reach
  obtain ⟨rfl, -⟩ := traceStep_done_inv hd
  have hstart : OnOutlines cycles .start := .inl ⟨cycles, rfl, .refl cycles, by simp [TraceState.start]⟩
  refine OnOutlines.exported h hplane ?_ (used_of_done (tracing_of_reach hr) hd)
  exact hr.invariant_of_reach hstart fun t t' hrt ht => onOutlines_step h hplane (tracing_of_reach hrt) ht

/-- On a plane of disjoint outlines the chains exported are the outlines, one each, and so are the
polygons of the plane. -/
theorem outlines_exported (model : Model3d) (plane : List ℕ) (hplane : plane.Nodup) (cycles : List (List ℕ))
    (h : Outlines model.edges plane cycles) :
    ∃ out, Loop.Ends (traceStep model.edges plane) .start (.ok out) ∧ out.exported.SameCycles cycles ∧
      ((∀ k ∈ plane, k < model.points.length) → ∃ least, ∀ fuel, least ≤ fuel →
        addPlane fuel model plane = .ok (out.exported.map (facet model))) := by
  obtain ⟨out, fuel, hrun⟩ := trace_ends (tracing_start model.edges plane)
  exact ⟨out, ⟨fuel, hrun⟩, exported_sameCycles h hplane ⟨fuel, hrun⟩,
    fun hvalid => ⟨fuel, fun _ hle => addPlane_eq hvalid hrun hle⟩⟩

/-- A triangle, a square and a pentagon whose points and edges are mixed up, with an edge leaving
the plane. -/
theorem outlines_exported_three :
    ∃ out, Loop.Ends (traceStep [(7, 2), (2, 9), (7, 9), (0, 3), (5, 3), (5, 8), (0, 8), (9, 12), (1, 4), (6, 4), (6, 10),
        (10, 11), (11, 1)] [3, 7, 1, 2, 5, 9, 10, 4, 8, 0, 11, 6]) .start (.ok out) ∧
      out.exported.SameCycles [[2, 9, 7], [0, 3, 5, 8], [1, 4, 6, 10, 11]] :=
  have ⟨out, hout, hsame, _⟩ := outlines_exported
    ⟨List.replicate 13 ⟨0, 0, 0⟩, [(7, 2), (2, 9), (7, 9), (0, 3), (5, 3), (5, 8), (0, 8), (9, 12), (1, 4), (6, 4), (6, 10),
      (10, 11), (11, 1)], by decide⟩
    [3, 7, 1, 2, 5, 9, 10, 4, 8, 0, 11, 6] (by decide) [[2, 9, 7], [0, 3, 5, 8], [1, 4, 6, 10, 11]] ⟨by decide, by decide, by decide⟩
  ⟨out, hout, hsame⟩

end Outlines

end DetailIdentifier.Modeller
