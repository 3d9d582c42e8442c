/-
The three representations inside a projection: coordinate vertices, coordinate edges and index
edges. `Law` says that they agree and that the projection is the part of the drawing on its
vertices. Every separated projection satisfies it (`law_toProjection`), a merge of two projections
without a common vertex keeps it (`Law.merge`), and so does every step of `prune`
(`lawful_step`).
-/
import DetailIdentifier.Interpreter.Prune

namespace DetailIdentifier.Interpreter

variable {β π : Type}

/-! ## The law -/

/-- The strokes of the drawing as pairs of points. -/
def Input.strokes (inp : Input) : List (Point2i × Point2i) := inp.edges.map inp.stroke

/-- An index edge of `p` names the ends of a coordinate edge. -/
def Names (vertices : List Point2i) (c : ℕ × ℕ) (e : Point2i × Point2i) : Prop :=
  vertices[c.1]? = some e.1 ∧ vertices[c.2]? = some e.2

/-- `p` is the part of the drawing on its vertices, in all three representations. -/
structure Law (inp : Input) (p : Projection β) : Prop where
  distinct : p.vertices.Nodup
  names : List.Forall₂ (Names p.vertices) p.cedges p.edges
  whole : ∀ e ∈ inp.strokes, e.1 ∈ p.vertices ↔ e.2 ∈ p.vertices
  copy : p.edges.Perm (inp.strokes.filter fun e => e.1 ∈ p.vertices)

theorem Law.withBox {inp : Input} {p : Projection β} (h : Law inp p) (b : β) : Law inp (p.withBox b) :=
  ⟨h.distinct, h.names, h.whole, h.copy⟩

/-! ## Merging -/

/-- No common vertex. -/
def Apart (p q : Projection β) : Prop := p.vertices.Disjoint q.vertices

theorem Names.append_right {vs ws : List Point2i} {c : ℕ × ℕ} {e : Point2i × Point2i} (h : Names vs c e) :
    Names (vs ++ ws) c e := by
  obtain ⟨h1, h2⟩ := h
  have l1 := (List.getElem?_eq_some_iff.1 h1).1
  have l2 := (List.getElem?_eq_some_iff.1 h2).1
  exact ⟨by rw [List.getElem?_append_left l1]; exact h1, by rw [List.getElem?_append_left l2]; exact h2⟩

theorem Names.shift {vs ws : List Point2i} {c : ℕ × ℕ} {e : Point2i × Point2i} (h : Names ws c e) :
    Names (vs ++ ws) (c.1 + vs.length, c.2 + vs.length) e := by
  unfold Names at *
  simpa [List.getElem?_append_right] using h

/-- The offset taken before the insertion is right for every index edge that `merge` moves. -/
theorem names_merge {target src : Projection β} (ht : List.Forall₂ (Names target.vertices) target.cedges target.edges)
    (hs : List.Forall₂ (Names src.vertices) src.cedges src.edges) :
    List.Forall₂ (Names (merge target src).vertices) (merge target src).cedges (merge target src).edges := by
  refine List.rel_append (ht.imp fun _ _ h => h.append_right) ?_
  rw [← hs.length_eq, List.take_length, List.forall₂_map_left_iff]
  exact hs.imp fun _ _ h => h.shift

theorem Law.merge {inp : Input} {target src : Projection β} (ht : Law inp target) (hs : Law inp src)
    (hd : Apart target src) : Law inp (merge target src) := by
  refine ⟨ht.distinct.append hs.distinct hd, names_merge ht.names hs.names, fun e he => ?_, ?_⟩
  · show e.1 ∈ target.vertices ++ src.vertices ↔ e.2 ∈ target.vertices ++ src.vertices
    rw [List.mem_append, List.mem_append, ht.whole e he, hs.whole e he]
  · have split := List.filter_or_perm (fun e => decide (e.1 ∈ target.vertices)) (fun e => decide (e.1 ∈ src.vertices))
      inp.strokes fun e _ h => by simpa using hd (by simpa using h)
    have hfun : (fun e : Point2i × Point2i => decide (e.1 ∈ (Interpreter.merge target src).vertices)) =
        fun e => decide (e.1 ∈ target.vertices) || decide (e.1 ∈ src.vertices) := by
      funext e; simp [Interpreter.merge]
    rw [hfun]
    exact (ht.copy.append hs.copy).trans split.symm

/-! ## Separated projections -/

section Separated

variable [Inhabited β] {inp : Input} (hd : inp.vertices.Nodup) {comps : List Component} (h : Separation inp comps)

include h in
theorem Separation.inRange {k : Component} (hk : k ∈ comps) {i : ℕ} (hi : i ∈ k.indices) : i < inp.vertices.length := by
  obtain ⟨e, he, rfl | rfl⟩ := (k.touched i).1 hi <;>
    have := inp.inRange e (h.perm.subset (List.mem_flatMap.2 ⟨k, hk, he⟩)) <;> omega

include h in
theorem Separation.unique {k l : Component} (hk : k ∈ comps) (hl : l ∈ comps) {i : ℕ} (hik : i ∈ k.indices)
    (hil : i ∈ l.indices) : k = l := by
  have : Std.Symm Component.Disjoint := ⟨fun a b hab i hb ha => hab i ha hb⟩
  by_contra hne
  exact h.disjoint.forall hk hl hne i hik hil

include hd h in
/-- A component's projection has exactly the points of its indices. -/
theorem Separation.mem_vertices {k : Component} (hk : k ∈ comps) {i : ℕ} (hi : i < inp.vertices.length) :
    inp.coord i ∈ (k.toProjection (β := β) inp).vertices ↔ i ∈ k.indices := by
  simp only [Component.toProjection, List.mem_map, Std.TreeSet.mem_toList]
  constructor
  · rintro ⟨j, hj, hji⟩
    rwa [← inp.coord_injOn hd (h.inRange hk hj) hi hji]
  · exact fun h => ⟨i, h, rfl⟩

include hd h in
/-- A component's projection has an end of a stroke exactly when it has the stroke. -/
theorem Separation.end_mem_vertices {k : Component} (hk : k ∈ comps) {e : ℕ × ℕ} (he : e ∈ inp.edges) {i : ℕ}
    (hi : i = e.1 ∨ i = e.2) : inp.coord i ∈ (k.toProjection (β := β) inp).vertices ↔ e ∈ k.edges := by
  have hlt : i < inp.vertices.length := by
    have := inp.inRange e he
    omega
  rw [h.mem_vertices hd hk hlt]
  refine ⟨fun hik => ?_, fun hek => (k.touched i).2 ⟨e, hek, hi⟩⟩
  obtain ⟨l, hl, hel⟩ := List.mem_flatMap.1 (h.perm.symm.subset he)
  rwa [h.unique hk hl hik ((l.touched i).2 ⟨e, hel, hi⟩)]

include hd h in
/-- The edges of a component's projection are the strokes of the drawing that start among its vertices. -/
theorem Separation.edges_perm {k : Component} (hk : k ∈ comps) : (k.toProjection (β := β) inp).edges.Perm
    (inp.strokes.filter fun e => e.1 ∈ (k.toProjection (β := β) inp).vertices) := by
  have hfirst : ∀ e ∈ inp.edges, (inp.stroke e).1 ∈ (k.toProjection (β := β) inp).vertices ↔ e ∈ k.edges :=
    fun e he => h.end_mem_vertices hd hk he (.inl rfl)
  obtain ⟨s, t, rfl⟩ := List.append_of_mem hk
  have hrest : ∀ l ∈ s ++ t, Component.Disjoint k l := by
    have sym : ∀ {a b : Component}, a.Disjoint b → b.Disjoint a := fun hab i hb ha => hab i ha hb
    exact (List.pairwise_cons.1 ((List.perm_middle.pairwise_iff sym).1 h.disjoint)).1
  refine List.Perm.trans (List.Perm.of_eq ?_) ((h.perm.map inp.stroke).filter _)
  -- component by component, the test holds of the strokes of `k` and of no others
  rw [List.map_flatMap]
  refine (List.filter_flatMap_eq (f := fun l : Component => l.edges.map inp.stroke) ?_ ?_).symm
  · rintro x hx
    obtain ⟨e, he, rfl⟩ := List.mem_map.1 hx
    simpa using (hfirst e (h.perm.subset (List.mem_flatMap.2 ⟨k, hk, he⟩))).2 he
  · intro l hl x hx
    obtain ⟨e, he, rfl⟩ := List.mem_map.1 hx
    have hlc : l ∈ s ++ k :: t := List.perm_middle.symm.subset (List.mem_cons_of_mem _ hl)
    refine decide_eq_false fun hx => hrest l hl e.1 (k.left_mem ?_) (l.left_mem he)
    exact (hfirst e (h.perm.subset (List.mem_flatMap.2 ⟨l, hlc, he⟩))).1 hx

include hd h in
theorem law_toProjection {k : Component} (hk : k ∈ comps) : Law inp (k.toProjection (β := β) inp) := by
  refine ⟨?_, ?_, fun e he => ?_, h.edges_perm hd hk⟩
  · refine List.Nodup.map_on (fun i hi j hj hij => ?_) k.nodup_indices
    rw [Std.TreeSet.mem_toList] at hi hj
    exact inp.coord_injOn hd (h.inRange hk hi) (h.inRange hk hj) hij
  · simp only [Component.toProjection, List.forall₂_map_left_iff, List.forall₂_map_right_iff]
    refine List.forall₂_same.2 fun e he => ⟨List.getElem?_idxOf ?_, List.getElem?_idxOf ?_⟩ <;>
      refine List.mem_map_of_mem (Std.TreeSet.mem_toList.2 ?_)
    exacts [k.left_mem he, k.right_mem he]
  · obtain ⟨f, hf, rfl⟩ := List.mem_map.1 he
    exact (h.end_mem_vertices hd hk hf (.inl rfl)).trans (h.end_mem_vertices hd hk hf (.inr rfl)).symm

end Separated

/-! ## Runs of `prune` -/

/-- Every projection of the list satisfies the law, also one about to be erased, and no two of the
settled ones have a common vertex. -/
structure Lawful (inp : Input) (s : PruneState β π) : Prop where
  law : ∀ p ∈ s.projections, Law inp p
  apart : s.settled.Pairwise Apart

theorem Apart.symm {p q : Projection β} (h : Apart p q) : Apart q p := List.Disjoint.symm h

theorem lawful_step [Box β π] {inp : Input} {s s' : PruneState β π} (hs : Lawful inp s) (h : pruneStep s = .next s') :
    Lawful inp s' := by
  rcases prune_cases h with ⟨hset, hsub⟩ | ⟨target, src, t, k, hkt, hset, ht, hk, hp, hset'⟩
  · exact ⟨fun p hp => hs.law p (hsub hp), by rw [hset]; exact hs.apart⟩
  · obtain ⟨rest, h1, h2⟩ := List.exists_perm_set_eraseIdx hkt hk ht
    have hap := (h1.pairwise_iff Apart.symm).1 (hset ▸ hs.apart)
    obtain ⟨hsrc, hap⟩ := List.pairwise_cons.1 hap
    obtain ⟨htarget, hap⟩ := List.pairwise_cons.1 hap
    constructor
    · -- the merged one takes the target's place, and the source still stands behind it
      intro p hpm
      rw [hp] at hpm
      rcases List.mem_or_eq_of_mem_set hpm with hpm | rfl
      · exact hs.law p hpm
      · exact (hs.law target (List.mem_of_getElem? ht)).merge (hs.law src (List.mem_of_getElem? hk))
          (hsrc target (List.mem_cons_self ..)).symm
    · rw [hset', hp]
      refine ((h2 (merge target src)).pairwise_iff Apart.symm).2 (List.pairwise_cons.2 ⟨fun q hq => ?_, hap⟩)
      exact List.disjoint_append_left.2 ⟨htarget q hq, hsrc q (List.mem_cons_of_mem _ hq)⟩

theorem lawful_start [Inhabited β] {inp : Input} (hd : inp.vertices.Nodup) {comps : List Component}
    (h : Separation inp comps) (boxes : ℕ → β) :
    Lawful inp (pruneStart (π := π) (giveBoxes boxes (comps.map (Component.toProjection inp)))) := by
  have hget : ∀ (i : ℕ) (hi : i < (giveBoxes boxes (comps.map (Component.toProjection (β := β) inp))).length),
      ∃ hi' : i < comps.length, (giveBoxes boxes (comps.map (Component.toProjection (β := β) inp)))[i] =
        (comps[i].toProjection inp).withBox (boxes i) := by
    intro i hi
    exact ⟨by simpa [giveBoxes] using hi, by simp [giveBoxes]⟩
  constructor
  · intro p hp
    obtain ⟨i, hi, rfl⟩ := List.getElem_of_mem hp
    obtain ⟨hi', heq⟩ := hget i hi
    show Law inp (giveBoxes boxes (comps.map (Component.toProjection inp)))[i]
    rw [heq]
    exact (law_toProjection (β := β) hd h (List.getElem_mem hi')).withBox _
  · show List.Pairwise Apart (giveBoxes boxes (comps.map (Component.toProjection inp)))
    apply List.pairwise_iff_getElem.2
    intro i j hi hj hij
    obtain ⟨hi', ei⟩ := hget i hi
    obtain ⟨hj', ej⟩ := hget j hj
    rw [ei, ej]
    have hdis := List.pairwise_iff_getElem.1 h.disjoint i j hi' hj' hij
    intro v hv hv'
    obtain ⟨x, hx, rfl⟩ := List.mem_map.1 hv
    rw [Std.TreeSet.mem_toList] at hx
    have hxr := h.inRange (List.getElem_mem hi') hx
    exact hdis x hx ((h.mem_vertices (β := β) hd (List.getElem_mem hj') hxr).1 hv')

/-- The law spelled out: as many index edges as edges, distinct vertices, index edges in range that
name the ends of their edges, and the edges exactly the strokes of the drawing with both ends
among the vertices. -/
structure Agree (inp : Input) (p : Projection β) : Prop where
  sizes : p.cedges.length = p.edges.length
  distinct : p.vertices.Nodup
  bound : ∀ c ∈ p.cedges, c.1 < p.vertices.length ∧ c.2 < p.vertices.length
  first : ∀ (k : ℕ) (c : ℕ × ℕ) (e : Point2i × Point2i), p.cedges[k]? = some c → p.edges[k]? = some e →
    p.vertices[c.1]? = some e.1
  second : ∀ (k : ℕ) (c : ℕ × ℕ) (e : Point2i × Point2i), p.cedges[k]? = some c → p.edges[k]? = some e →
    p.vertices[c.2]? = some e.2
  copy : p.edges.Perm (inp.strokes.filter fun e => e.1 ∈ p.vertices ∧ e.2 ∈ p.vertices)

theorem Law.agree {inp : Input} {p : Projection β} (h : Law inp p) : Agree inp p := by
  have hk : ∀ (k : ℕ) (c : ℕ × ℕ) (e : Point2i × Point2i), p.cedges[k]? = some c → p.edges[k]? = some e →
      Names p.vertices c e := by
    intro k c e hc he
    obtain ⟨hkc, rfl⟩ := List.getElem?_eq_some_iff.1 hc
    obtain ⟨hke, rfl⟩ := List.getElem?_eq_some_iff.1 he
    simpa using (List.forall₂_iff_get.1 h.names).2 k hkc hke
  refine ⟨h.names.length_eq, h.distinct, fun c hc => ?_, fun k c e hc he => (hk k c e hc he).1,
    fun k c e hc he => (hk k c e hc he).2, ?_⟩
  · obtain ⟨k, hkc, rfl⟩ := List.getElem_of_mem hc
    have hn := hk k _ _ (List.getElem?_eq_getElem hkc) (List.getElem?_eq_getElem (h.names.length_eq ▸ hkc))
    exact ⟨(List.getElem?_eq_some_iff.1 hn.1).1, (List.getElem?_eq_some_iff.1 hn.2).1⟩
  · refine h.copy.trans (List.Perm.of_eq (List.filter_congr fun e he => ?_))
    have := h.whole e he
    simp only [decide_eq_decide]
    tauto

/-- The three representations inside a projection never drift apart: when the vertices of the
drawing are distinct, they agree in every separated projection and in every projection of every
state `prune` passes through, after each merge in particular. -/
theorem projections_agree [Inhabited β] [Box β π] (inp : Input) (hd : inp.vertices.Nodup) :
    ∃ ps : List (Projection β), separateProjections inp.vertices inp.edges = .ok ps ∧ (∀ p ∈ ps, Agree inp p) ∧
      ∀ (boxes : ℕ → β) (s : PruneState β π), Loop.Reach pruneStep (pruneStart (giveBoxes boxes ps)) s →
        ∀ p ∈ s.projections, Agree inp p := by
  obtain ⟨comps, hsep, hcomps⟩ := separate_spec (β := β) inp
  refine ⟨_, hcomps, fun p hp => ?_, fun boxes s hr p hp => ?_⟩
  · obtain ⟨k, hk, rfl⟩ := List.mem_map.1 hp
    exact (law_toProjection hd hsep hk).agree
  · have := hr.invariant (I := Lawful inp) (lawful_start hd hsep boxes) fun _ _ => lawful_step
    exact (this.law p hp).agree

theorem projections_agree_nestedStrokes : ∃ ps : List (Projection UprightRect),
    separateProjections nestedStrokes.vertices nestedStrokes.edges = .ok ps ∧ (∀ p ∈ ps, Agree nestedStrokes p) ∧
      ∀ (boxes : ℕ → UprightRect) (s : PruneState UprightRect (ℤ × ℤ)),
        Loop.Reach pruneStep (pruneStart (giveBoxes boxes ps)) s → ∀ p ∈ s.projections, Agree nestedStrokes p :=
  projections_agree nestedStrokes (by decide)

end DetailIdentifier.Interpreter
