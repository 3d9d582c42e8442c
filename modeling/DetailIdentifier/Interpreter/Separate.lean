/-
`separate_projections`: the strokes are split into projections by taking the last stroke left and
collecting every stroke that touches the vertex indices collected so far.

The loops refine a list of `Component`s, index level: a component holds the strokes it took, the
vertex indices they touch, and any two of its strokes are linked. The components share no vertex
index and together take every stroke once (`separate_spec`), so they are the connected components
of the drawing (`separateProjections_components`).
-/
import DetailIdentifier.Lib.Loop
import DetailIdentifier.Interpreter.Projection

namespace DetailIdentifier.Interpreter

/-! ## The loops -/

/-- The state of the loop that collects one projection. -/
structure Collect where
  nextProjection : Std.TreeSet ℕ
  cEdges : List (Point2i × Point2i)
  edges : List (ℕ × ℕ)

/-- The predicate of the edge search: some collected index is an end of the edge. -/
def touches (s : Std.TreeSet ℕ) (p : ℕ × ℕ) : Bool := s.toList.any fun t => t == p.1 || t == p.2

/-- `std::make_pair(vertices[e.first], vertices[e.second])`. -/
def readEdge (vertices : List Point2i) (e : ℕ × ℕ) : Option (Point2i × Point2i) := do
  return (← vertices[e.1]?, ← vertices[e.2]?)

/-- One pass of `while (!no_change)`: the first edge that touches the collected indices moves. -/
def collectStep (vertices : List Point2i) (c : Collect) : Loop.Step Collect Collect Fault :=
  match c.edges.find? (touches c.nextProjection) with
  | none => .done c
  | some t =>
    match readEdge vertices t with
    | none => .fail .outOfRange
    | some e => .next
        { nextProjection := (c.nextProjection.insert t.1).insert t.2
          cEdges := c.cEdges ++ [e]
          edges := c.edges.eraseP (touches c.nextProjection) }

/-- The state of the loop over the edges left. -/
structure Separate (β : Type) where
  projections : List (Projection β)
  edges : List (ℕ × ℕ)

variable {β : Type} [Inhabited β]

/-- One pass of `while (!edges.empty())`. -/
def separateStep (vertices : List Point2i) (s : Separate β) : Loop.Step (Separate β) (List (Projection β)) Fault :=
  match s.edges.getLast? with
  | none => .done s.projections
  | some e =>
    match readEdge vertices e with
    | none => .fail .outOfRange
    | some ce =>
      match Loop.run (collectStep vertices) (s.edges.length + 1)
          ⟨((∅ : Std.TreeSet ℕ).insert e.1).insert e.2, [ce], s.edges.dropLast⟩ with
      | none => .fail .outOfFuel
      | some (.error f) => .fail f
      | some (.ok c) =>
        match c.nextProjection.toList.mapM (vertices[·]?) with
        | none => .fail .outOfRange
        | some vs => .next
            { projections := s.projections ++
                [{ vertices := vs
                   edges := c.cEdges
                   cedges := c.cEdges.map fun e => (vs.idxOf e.1, vs.idxOf e.2)
                   boundingBox := default
                   s := none }]
              edges := c.edges }

/-- `separate_projections`. -/
def separateProjections (vertices : List Point2i) (edges : List (ℕ × ℕ)) : Except Fault (List (Projection β)) :=
  (Loop.run (separateStep vertices) (edges.length + 1) ⟨[], edges⟩).getD (.error .outOfFuel)

/-! ## Components -/

/-- Two strokes with a common vertex index. -/
def Share (e f : ℕ × ℕ) : Prop := e.1 = f.1 ∨ e.1 = f.2 ∨ e.2 = f.1 ∨ e.2 = f.2

/-- A chain of strokes of `E` from `e` to `f`, each sharing a vertex index with the next. -/
def Linked (E : List (ℕ × ℕ)) : ℕ × ℕ → ℕ × ℕ → Prop :=
  Relation.ReflTransGen fun e f => e ∈ E ∧ f ∈ E ∧ Share e f

theorem Share.symm {e f : ℕ × ℕ} (h : Share e f) : Share f e := by
  unfold Share at *; omega

theorem Linked.mono {E F : List (ℕ × ℕ)} (h : E ⊆ F) {e f : ℕ × ℕ} (hl : Linked E e f) : Linked F e f :=
  Relation.ReflTransGen.mono (fun _ _ ⟨h1, h2, h3⟩ => ⟨h h1, h h2, h3⟩) _ _ hl

theorem Linked.symm {E : List (ℕ × ℕ)} {e f : ℕ × ℕ} (h : Linked E e f) : Linked E f e := by
  induction h with
  | refl => exact .refl
  | tail _ hs ih => exact .head ⟨hs.2.1, hs.1, hs.2.2.symm⟩ ih

/-- A set of linked strokes with the vertex indices they touch. -/
structure Component where
  indices : Std.TreeSet ℕ
  edges : List (ℕ × ℕ)
  touched : ∀ i, i ∈ indices ↔ ∃ e ∈ edges, i = e.1 ∨ i = e.2
  linked : ∀ e ∈ edges, ∀ f ∈ edges, Linked edges e f

namespace Component

variable (inp : Input) (c : Component)

/-- The projection the code builds of a component. -/
def toProjection : Projection β where
  vertices := c.indices.toList.map inp.coord
  edges := c.edges.map inp.stroke
  cedges := (c.edges.map inp.stroke).map fun e =>
    ((c.indices.toList.map inp.coord).idxOf e.1, (c.indices.toList.map inp.coord).idxOf e.2)
  boundingBox := default
  s := none

theorem nodup_indices : c.indices.toList.Nodup :=
  c.indices.distinct_toList.imp fun h1 h2 => h1 (by simp [h2])

theorem left_mem {e : ℕ × ℕ} (h : e ∈ c.edges) : e.1 ∈ c.indices := (c.touched _).2 ⟨e, h, .inl rfl⟩

theorem right_mem {e : ℕ × ℕ} (h : e ∈ c.edges) : e.2 ∈ c.indices := (c.touched _).2 ⟨e, h, .inr rfl⟩

end Component

/-! ## Collecting one projection -/

theorem touches_iff {s : Std.TreeSet ℕ} {p : ℕ × ℕ} : touches s p = true ↔ p.1 ∈ s ∨ p.2 ∈ s := by
  simp only [touches, List.any_eq_true, Bool.or_eq_true, beq_iff_eq, Std.TreeSet.mem_toList]
  constructor
  · rintro ⟨t, ht, rfl | rfl⟩; exacts [.inl ht, .inr ht]
  · rintro (h | h); exacts [⟨_, h, .inl rfl⟩, ⟨_, h, .inr rfl⟩]

theorem readEdge_eq (inp : Input) {e : ℕ × ℕ}
    (h : e.1 < inp.vertices.length ∧ e.2 < inp.vertices.length) :
    readEdge inp.vertices e = some (inp.stroke e) := by
  unfold readEdge
  rw [inp.getElem?_coord h.1, inp.getElem?_coord h.2]
  rfl

theorem mapM_coord (inp : Input) : ∀ (l : List ℕ), (∀ i ∈ l, i < inp.vertices.length) →
    l.mapM (inp.vertices[·]?) = some (l.map inp.coord)
  | [], _ => rfl
  | i :: l, h => by
    rw [List.mapM_cons, inp.getElem?_coord (h i (List.mem_cons_self ..)),
      mapM_coord inp l fun j hj => h j (List.mem_cons_of_mem _ hj)]
    rfl

/-- The first edge found and what `erase` leaves are a permutation of the edges searched. -/
theorem perm_eraseP {α : Type} {p : α → Bool} {a : α} : ∀ {l : List α}, l.find? p = some a →
    (a :: l.eraseP p).Perm l
  | [], h => by cases h
  | b :: l, h => by
    rw [List.find?_cons] at h
    split at h
    · rename_i hb
      cases h; rw [List.eraseP_cons_of_pos hb]
    · rename_i hb
      rw [List.eraseP_cons_of_neg (by simp [hb])]
      exact (List.Perm.swap _ _ _).trans ((perm_eraseP h).cons _)

/-- The strokes `es` collected out of `E`, and the state of the loop that collected them. -/
structure CollectInv (inp : Input) (E es : List (ℕ × ℕ)) (c : Collect) : Prop where
  drawn : c.cEdges = es.map inp.stroke
  perm : (es ++ c.edges).Perm E
  touched : ∀ i, i ∈ c.nextProjection ↔ ∃ e ∈ es, i = e.1 ∨ i = e.2
  linked : ∀ e ∈ es, ∀ f ∈ es, Linked es e f

theorem collectInv_init (inp : Input) {E rest : List (ℕ × ℕ)} {e : ℕ × ℕ} (h : (e :: rest).Perm E) :
    CollectInv inp E [e] ⟨((∅ : Std.TreeSet ℕ).insert e.1).insert e.2, [inp.stroke e], rest⟩ := by
  refine ⟨rfl, h, fun i => ?_, ?_⟩
  · simp only [Std.TreeSet.mem_insert, compare_eq_iff_eq, Std.TreeSet.not_mem_emptyc, or_false,
      List.mem_singleton, exists_eq_left]
    omega
  · intro a ha b hb
    rw [List.mem_singleton] at ha hb
    subst ha; subst hb; exact .refl

/-- A stroke that touches the collected indices joins the strokes collected so far. -/
theorem linked_snoc {es : List (ℕ × ℕ)} {t a : ℕ × ℕ} (hl : ∀ e ∈ es, ∀ f ∈ es, Linked es e f)
    (ha : a ∈ es) (hs : Share a t) : ∀ e ∈ es ++ [t], ∀ f ∈ es ++ [t], Linked (es ++ [t]) e f := by
  have sub : es ⊆ es ++ [t] := List.subset_append_left _ _
  have key : ∀ e ∈ es ++ [t], Linked (es ++ [t]) a e := by
    intro e he
    rcases List.mem_append.1 he with he | he
    · exact (hl a ha e he).mono sub
    · rw [List.mem_singleton] at he; subst he
      exact .single ⟨sub ha, by simp, hs⟩
  exact fun e he f hf => (key e he).symm.trans (key f hf)

theorem collectInv_step {inp : Input} {E es : List (ℕ × ℕ)} {c c' : Collect}
    (hE : ∀ e ∈ E, e.1 < inp.vertices.length ∧ e.2 < inp.vertices.length)
    (hc : CollectInv inp E es c) (h : collectStep inp.vertices c = .next c') :
    ∃ t, CollectInv inp E (es ++ [t]) c' ∧ c'.edges.length < c.edges.length := by
  unfold collectStep at h
  split at h
  · cases h
  · rename_i t ht
    have hp := perm_eraseP ht
    have htE : t ∈ E := hc.perm.subset (List.mem_append_right _ (hp.subset (List.mem_cons_self ..)))
    rw [readEdge_eq inp (hE t htE)] at h
    cases h
    -- the edge found moves from the edges left to the end of those collected
    refine ⟨t, ⟨by simp [hc.drawn], ?_, fun i => ?_, ?_⟩, ?_⟩
    · rw [List.append_assoc]
      exact (hp.append_left es).trans hc.perm
    · have := hc.touched i
      simp only [Std.TreeSet.mem_insert, compare_eq_iff_eq, this, List.mem_append, List.mem_singleton]
      constructor
      · rintro (rfl | rfl | ⟨e, he, h⟩)
        · exact ⟨t, .inr rfl, .inr rfl⟩
        · exact ⟨t, .inr rfl, .inl rfl⟩
        · exact ⟨e, .inl he, h⟩
      · rintro ⟨e, he | rfl, h⟩
        · exact .inr (.inr ⟨e, he, h⟩)
        · rcases h with rfl | rfl; exacts [.inr (.inl rfl), .inl rfl]
    · have htouch : t.1 ∈ c.nextProjection ∨ t.2 ∈ c.nextProjection :=
        touches_iff.1 (List.find?_some ht)
      obtain ⟨a, ha, hs⟩ : ∃ a ∈ es, Share a t := by
        rcases htouch with h | h <;> obtain ⟨a, ha, h⟩ := (hc.touched _).1 h <;>
          exact ⟨a, ha, by unfold Share; omega⟩
      exact linked_snoc hc.linked ha hs
    · have := hp.length_eq
      simp only [List.length_cons] at this
      show (c.edges.eraseP (touches c.nextProjection)).length < c.edges.length
      omega

theorem collect_not_fail {inp : Input} {E es : List (ℕ × ℕ)} {c : Collect} {f : Fault}
    (hE : ∀ e ∈ E, e.1 < inp.vertices.length ∧ e.2 < inp.vertices.length)
    (hc : CollectInv inp E es c) : collectStep inp.vertices c ≠ .fail f := by
  unfold collectStep
  split
  · simp
  · rename_i t ht
    have htE : t ∈ E := hc.perm.subset (List.mem_append_right _ (List.mem_of_find?_eq_some ht))
    rw [readEdge_eq inp (hE t htE)]
    simp

/-- The collecting loop ends with a component, and no edge left touches it. -/
theorem collect_spec {inp : Input} {E : List (ℕ × ℕ)} {e : ℕ × ℕ}
    (hE : ∀ e ∈ E, e.1 < inp.vertices.length ∧ e.2 < inp.vertices.length) (he : E.getLast? = some e) :
    ∃ (c : Collect) (k : Component), Loop.run (collectStep inp.vertices) (E.length + 1)
        ⟨((∅ : Std.TreeSet ℕ).insert e.1).insert e.2, [inp.stroke e], E.dropLast⟩ = some (.ok c) ∧
      c.nextProjection = k.indices ∧ c.cEdges = k.edges.map inp.stroke ∧ (k.edges ++ c.edges).Perm E ∧
      c.edges.length < E.length ∧ ∀ f ∈ c.edges, f.1 ∉ k.indices ∧ f.2 ∉ k.indices := by
  have hperm : (e :: E.dropLast).Perm E := by
    obtain ⟨hne, rfl⟩ := List.getLast?_eq_some_iff.1 he
    simpa using (List.perm_append_singleton e hne).symm
  have hstep : ∀ c c' : Collect, (∃ es, CollectInv inp E es c ∧ es ≠ []) → collectStep inp.vertices c = .next c' →
      (∃ es, CollectInv inp E es c' ∧ es ≠ []) ∧ c'.edges.length < c.edges.length := by
    rintro c c' ⟨es, hc, -⟩ h
    obtain ⟨t, ht, hlt⟩ := collectInv_step hE hc h
    exact ⟨⟨_, ht, by simp⟩, hlt⟩
  -- every pass erases an edge, so more fuel than edges is enough
  obtain ⟨r, s', hrun, ⟨es, hs', hne⟩, hdone⟩ := Loop.run_ok (fun c : Collect => c.edges.length) hstep
    (fun _ _ ⟨_, hc, _⟩ => collect_not_fail hE hc) (E.length + 1)
    ⟨((∅ : Std.TreeSet ℕ).insert e.1).insert e.2, [inp.stroke e], E.dropLast⟩
    ⟨[e], collectInv_init inp hperm, by simp⟩ (by simp only [List.length_dropLast]; omega)
  unfold collectStep at hdone
  split at hdone
  · rename_i hnone
    cases hdone
    refine ⟨r, ⟨r.nextProjection, es, hs'.touched, hs'.linked⟩, hrun, rfl, hs'.drawn, hs'.perm, ?_, ?_⟩
    · have := hs'.perm.length_eq
      have : 0 < es.length := List.length_pos_of_ne_nil hne
      simp only [List.length_append] at *; omega
    · intro f hf
      have := List.find?_eq_none.1 hnone f hf
      rw [touches_iff, not_or] at this
      exact this
  · split at hdone <;> cases hdone

/-! ## All projections -/

/-- No common vertex index. -/
def Component.Disjoint (a b : Component) : Prop := ∀ i ∈ a.indices, i ∉ b.indices

/-- The components built so far: they share no vertex index, the edges left touch none of them,
and with those edges they are the strokes of the drawing. -/
structure SeparateInv (inp : Input) (comps : List Component) (s : Separate β) : Prop where
  drawn : s.projections = comps.map (Component.toProjection inp)
  perm : (comps.flatMap Component.edges ++ s.edges).Perm inp.edges
  disjoint : comps.Pairwise Component.Disjoint
  untouched : ∀ k ∈ comps, ∀ e ∈ s.edges, e.1 ∉ k.indices ∧ e.2 ∉ k.indices

/-- One pass of the outer loop adds one component, disjoint from the earlier ones. -/
theorem separateStep_spec {inp : Input} {comps : List Component} {s : Separate β}
    (hs : SeparateInv inp comps s) (hne : s.edges ≠ []) :
    ∃ k s', separateStep inp.vertices s = .next s' ∧ SeparateInv inp (comps ++ [k]) s' ∧
      s'.edges.length < s.edges.length := by
  have hE : ∀ e ∈ s.edges, e.1 < inp.vertices.length ∧ e.2 < inp.vertices.length :=
    fun e he => inp.inRange e (hs.perm.subset (List.mem_append_right _ he))
  obtain ⟨e, he⟩ : ∃ e, s.edges.getLast? = some e := ⟨_, List.getLast?_eq_some_getLast hne⟩
  obtain ⟨c, k, hrun, hnext, hdrawn, hperm, hlt, hout⟩ := collect_spec hE he
  have hk : ∀ f ∈ k.edges, f ∈ s.edges := fun f hf => hperm.subset (List.mem_append_left _ hf)
  have hread : c.nextProjection.toList.mapM (inp.vertices[·]?) = some (k.indices.toList.map inp.coord) := by
    rw [hnext]
    apply mapM_coord inp
    intro i hi
    obtain ⟨f, hf, rfl | rfl⟩ := (k.touched i).1 (Std.TreeSet.mem_toList.1 hi)
    exacts [(hE f (hk f hf)).1, (hE f (hk f hf)).2]
  refine ⟨k, ⟨s.projections ++ [k.toProjection inp], c.edges⟩, ?_, ⟨?_, ?_, ?_, ?_⟩, hlt⟩
  · unfold separateStep
    simp only [he, readEdge_eq inp (hE e (List.mem_of_getLast? he)), hrun, hread, hdrawn]
    rfl
  · simp [hs.drawn]
  · simp only [List.flatMap_append, List.flatMap_singleton, List.append_assoc]
    exact (hperm.append_left _).trans hs.perm
  · rw [List.pairwise_append]
    refine ⟨hs.disjoint, List.pairwise_singleton _ _, fun a ha b hb i hia hib => ?_⟩
    rw [List.mem_singleton] at hb; subst hb
    -- an index of the new component is an end of one of its edges, which were left before
    obtain ⟨f, hf, rfl | rfl⟩ := (b.touched i).1 hib
    · exact (hs.untouched a ha f (hk f hf)).1 hia
    · exact (hs.untouched a ha f (hk f hf)).2 hia
  · intro a ha f hf
    rcases List.mem_append.1 ha with ha | ha
    · exact hs.untouched a ha f (hperm.subset (List.mem_append_right _ hf))
    · rw [List.mem_singleton] at ha; subst ha
      exact hout f hf

/-- What `separate_projections` computes, index level: components that share no vertex index and
together take every stroke once. -/
structure Separation (inp : Input) (comps : List Component) : Prop where
  perm : (comps.flatMap Component.edges).Perm inp.edges
  disjoint : comps.Pairwise Component.Disjoint

/-- `separate_projections` terminates, reads no vertex out of range, and returns the projections of
a separation. -/
theorem separate_spec (inp : Input) : ∃ comps, Separation inp comps ∧
    separateProjections inp.vertices inp.edges = .ok (comps.map (Component.toProjection (β := β) inp)) := by
  have hcase : ∀ s : Separate β, s.edges = [] ∧ separateStep inp.vertices s = .done s.projections ∨ s.edges ≠ [] := by
    intro s
    by_cases h : s.edges = []
    · left; unfold separateStep; rw [h]; exact ⟨rfl, rfl⟩
    · exact .inr h
  have hstep : ∀ s s' : Separate β, (∃ comps, SeparateInv inp comps s) → separateStep inp.vertices s = .next s' →
      (∃ comps, SeparateInv inp comps s') ∧ s'.edges.length < s.edges.length := by
    rintro s s' ⟨comps, hs⟩ h
    rcases hcase s with ⟨-, hd⟩ | hne
    · rw [hd] at h; cases h
    · obtain ⟨k, s'', h', hk, hlt⟩ := separateStep_spec hs hne
      rw [h'] at h; cases h
      exact ⟨⟨_, hk⟩, hlt⟩
  have hfail : ∀ (s : Separate β) f, (∃ comps, SeparateInv inp comps s) → separateStep inp.vertices s ≠ .fail f := by
    rintro s f ⟨comps, hs⟩
    rcases hcase s with ⟨-, hd⟩ | hne
    · rw [hd]; simp
    · obtain ⟨k, s'', h', -, -⟩ := separateStep_spec hs hne
      rw [h']; simp
  obtain ⟨r, s', hrun, ⟨comps, hs'⟩, hdone⟩ := Loop.run_ok (fun s : Separate β => s.edges.length) hstep hfail
    (inp.edges.length + 1) ⟨[], inp.edges⟩ ⟨[], rfl, List.Perm.refl _, List.Pairwise.nil, by simp⟩
    (Nat.lt_succ_self _)
  rcases hcase s' with ⟨hnil, h⟩ | hne
  · rw [h] at hdone; cases hdone
    refine ⟨comps, ⟨by simpa [hnil] using hs'.perm, hs'.disjoint⟩, ?_⟩
    unfold separateProjections
    rw [hrun, ← hs'.drawn]; rfl
  · obtain ⟨k, s'', h, -, -⟩ := separateStep_spec hs' hne
    rw [h] at hdone; cases hdone

/-! ## Connected components -/

namespace Separation

variable {inp : Input} {comps : List Component} (h : Separation inp comps) {a b : ℕ} {k l : Component}

include h in
/-- A vertex index lies in the component of one position only. -/
theorem position_unique (hk : comps[a]? = some k) (hl : comps[b]? = some l) {i : ℕ} (hik : i ∈ k.indices)
    (hil : i ∈ l.indices) : a = b := by
  obtain ⟨ha, rfl⟩ := List.getElem?_eq_some_iff.1 hk
  obtain ⟨hb, rfl⟩ := List.getElem?_eq_some_iff.1 hl
  have hdis := List.pairwise_iff_getElem.1 h.disjoint
  rcases Nat.lt_trichotomy a b with hab | hab | hab
  · exact absurd hil (hdis a b ha hb hab i hik)
  · exact hab
  · exact absurd hik (hdis b a hb ha hab i hil)

include h in
/-- Strokes that share a vertex index lie in one component. -/
theorem position_of_share (hk : comps[a]? = some k) (hl : comps[b]? = some l) {e f : ℕ × ℕ} (he : e ∈ k.edges)
    (hf : f ∈ l.edges) (hs : Share e f) : a = b := by
  obtain ⟨i, hie, hif⟩ : ∃ i, (i = e.1 ∨ i = e.2) ∧ (i = f.1 ∨ i = f.2) := by
    rcases hs with hs | hs | hs | hs
    exacts [⟨e.1, .inl rfl, .inl hs⟩, ⟨e.1, .inl rfl, .inr hs⟩, ⟨e.2, .inr rfl, .inl hs⟩, ⟨e.2, .inr rfl, .inr hs⟩]
  exact h.position_unique hk hl ((k.touched i).2 ⟨e, he, hie⟩) ((l.touched i).2 ⟨f, hf, hif⟩)

include h in
/-- A stroke of the drawing lies in a component. -/
theorem exists_position {e : ℕ × ℕ} (he : e ∈ inp.edges) : ∃ (a : ℕ) (k : Component), comps[a]? = some k ∧ e ∈ k.edges := by
  obtain ⟨k, hk, hek⟩ := List.mem_flatMap.1 (h.perm.symm.subset he)
  obtain ⟨a, ha⟩ := List.mem_iff_getElem?.1 hk
  exact ⟨a, k, ha, hek⟩

include h in
/-- Two strokes lie in one component exactly when they are linked. -/
theorem position_eq_iff (hk : comps[a]? = some k) (hl : comps[b]? = some l) {e f : ℕ × ℕ} (he : e ∈ k.edges)
    (hf : f ∈ l.edges) : a = b ↔ Linked inp.edges e f := by
  constructor
  · rintro rfl
    rw [hk] at hl
    cases hl
    exact (k.linked e he f hf).mono fun x hx => h.perm.subset (List.mem_flatMap.2 ⟨k, List.mem_of_getElem? hk, hx⟩)
  · intro hlink
    -- by induction along the chain, wherever the last stroke lies
    induction hlink generalizing b l with
    | refl => exact h.position_unique hk hl (k.left_mem he) (l.left_mem hf)
    | tail _ hs ih =>
      obtain ⟨hx, -, hshare⟩ := hs
      obtain ⟨c, m, hm, hxm⟩ := h.exists_position hx
      exact (ih hm hxm).trans (h.position_of_share hm hl hxm hf hshare)

end Separation

/-- What `separate_projections` draws in one projection: the strokes `es`, and the points of the vertex
indices they touch, in increasing order. -/
structure Shows (inp : Input) (es : List (ℕ × ℕ)) (p : Projection β) : Prop where
  nonempty : es ≠ []
  edges : p.edges = es.map inp.stroke
  vertices : ∃ indices : List ℕ, indices.Pairwise (· < ·) ∧ (∀ i, i ∈ indices ↔ ∃ e ∈ es, i = e.1 ∨ i = e.2) ∧
    p.vertices = indices.map inp.coord

theorem Component.ascending (k : Component) : k.indices.toList.Pairwise (· < ·) :=
  Std.TreeSet.ordered_toList.imp fun h => Nat.compare_eq_lt.1 h

theorem Component.shows (inp : Input) {k : Component} (h : k.edges ≠ []) :
    Shows inp k.edges (k.toProjection (β := β) inp) := by
  refine ⟨h, rfl, k.indices.toList, k.ascending, fun i => ?_, rfl⟩
  rw [Std.TreeSet.mem_toList, k.touched]

/-- Every projection starts with the stroke taken from the end of those left. -/
theorem collect_cEdges_ne_nil {vertices : List Point2i} {fuel : ℕ} {c c' : Collect} (hc : c.cEdges ≠ [])
    (h : Loop.run (collectStep vertices) fuel c = some (.ok c')) : c'.cEdges ≠ [] := by
  obtain ⟨s, hr, hd⟩ := Loop.Ends.reach ⟨fuel, h⟩
  have hs : s.cEdges ≠ [] := by
    refine hr.invariant (I := fun c => c.cEdges ≠ []) hc fun c c' _ hstep => ?_
    unfold collectStep at hstep
    split at hstep
    · cases hstep
    · split at hstep <;> cases hstep
      simp
  unfold collectStep at hd
  split at hd
  · cases hd
    exact hs
  · split at hd <;> cases hd

theorem separateStep_ne_nil {vertices : List Point2i} {s s' : Separate β} (hs : ∀ p ∈ s.projections, p.edges ≠ [])
    (h : separateStep vertices s = .next s') : ∀ p ∈ s'.projections, p.edges ≠ [] := by
  unfold separateStep at h
  split at h
  · cases h
  · split at h
    · cases h
    · split at h
      · cases h
      · cases h
      · rename_i c hc
        split at h <;> cases h
        intro p hp
        rcases List.mem_append.1 hp with hp | hp
        · exact hs p hp
        · rw [List.mem_singleton] at hp
          subst hp
          exact collect_cEdges_ne_nil (by simp) hc

theorem separate_edges_ne_nil {vertices : List Point2i} {edges : List (ℕ × ℕ)} {ps : List (Projection β)}
    (h : separateProjections vertices edges = .ok ps) : ∀ p ∈ ps, p.edges ≠ [] := by
  unfold separateProjections at h
  cases hrun : Loop.run (separateStep (β := β) vertices) (edges.length + 1) ⟨[], edges⟩ with
  | none => rw [hrun] at h; cases h
  | some o =>
    rw [hrun] at h
    cases h
    obtain ⟨s, hr, hd⟩ := Loop.Ends.reach ⟨_, hrun⟩
    have hs := hr.invariant (I := fun s => ∀ p ∈ s.projections, p.edges ≠ []) (by simp) fun _ _ => separateStep_ne_nil
    unfold separateStep at hd
    repeat' split at hd
    all_goals cases hd
    exact hs

/-- Every component has a stroke. -/
theorem components_drawn {inp : Input} {comps : List Component}
    (h : separateProjections (β := β) inp.vertices inp.edges = .ok (comps.map (Component.toProjection inp))) :
    ∀ k ∈ comps, k.edges ≠ [] := by
  intro k hk
  have hne := separate_edges_ne_nil h _ (List.mem_map_of_mem hk)
  simpa [Component.toProjection] using hne

/-- `separate_projections` computes the connected components of the drawing: every stroke is drawn in
one projection, two of them in the same one exactly when a chain of strokes links them, and every
projection shows its strokes and the points they touch. -/
theorem separateProjections_components (inp : Input) : ∃ (ps : List (Projection β)) (groups : List (List (ℕ × ℕ))),
    separateProjections inp.vertices inp.edges = .ok ps ∧ groups.flatten.Perm inp.edges ∧
    (∀ (a b : ℕ) es fs, groups[a]? = some es → groups[b]? = some fs →
      ∀ e ∈ es, ∀ f ∈ fs, a = b ↔ Linked inp.edges e f) ∧
    List.Forall₂ (Shows inp) groups ps := by
  obtain ⟨comps, hsep, hcomps⟩ := separate_spec (β := β) inp
  refine ⟨_, comps.map Component.edges, hcomps, ?_, fun a b es fs hes hfs e he f hf => ?_, ?_⟩
  · rw [← List.flatMap_def]
    exact hsep.perm
  · rw [List.getElem?_map] at hes hfs
    obtain ⟨k, hk, rfl⟩ := Option.map_eq_some_iff.1 hes
    obtain ⟨l, hl, rfl⟩ := Option.map_eq_some_iff.1 hfs
    exact hsep.position_eq_iff hk hl he hf
  · rw [List.forall₂_map_left_iff, List.forall₂_map_right_iff]
    exact List.forall₂_same.2 fun k hk => k.shows inp (components_drawn hcomps k hk)

end DetailIdentifier.Interpreter
