/-
`generate_interpretation`, from the vectorized drawing to what the modeller is handed: the strokes are
separated into views, the views get their boxes and are pruned, and the two that must be left get their
coordinate systems. Of OpenCV it uses `cv::minAreaRect` and the conversion of a center to a pixel,
parameters here; the images are left out, but for what is read and computed to draw them.

What `merge` keeps holds of every view of every run of `prune` (`prune_all`). So every view shows its
strokes (`View`), and how a run ends depends on nothing but the views that `prune` leaves
(`generateInterpretation_interpreted`). Where no box holds the center of another these are the connected
components of the drawing (`generateInterpretation_apart`).
-/
import DetailIdentifier.Interpreter.CastLines
import DetailIdentifier.Interpreter.Law
import DetailIdentifier.Interpreter.Passes

namespace DetailIdentifier.Interpreter

/-! ## The code -/

section Code

variable {β π : Type}

/-- `c.bounding_box = cv::minAreaRect(c.vertices)`, for every projection. -/
def boxed (minAreaRect : List Point2i → β) (ps : List (Projection β)) : List (Projection β) :=
  ps.map fun c => c.withBox (minAreaRect c.vertices)

/-- `prune` on explicit fuel. -/
def prune [Box β π] (fuel : ℕ) (projections : List (Projection β)) : Except Fault (List (Projection β)) :=
  (Loop.run pruneStep fuel (pruneStart (π := π) projections)).getD (.error .outOfFuel)

/-- The strokes drawn into `interpreter_out`, read through the index edges. -/
def interpreterOut (projections : List (Projection β)) : Except Fault (List (Point2i × Point2i)) := do
  let strokes ← projections.mapM fun p => p.cedges.mapM fun e => do
    let v ← fetch p.vertices e.1
    let w ← fetch p.vertices e.2
    return (v, w)
  return strokes.flatten

end Code

/-- `select_main_projection`; the search for one is commented out. -/
def selectMainProjection (_ : List (List ProjectionDirection)) : ℕ := 0

/-- `interpreter::output`, without the image. -/
structure Output where
  projectionDirections : List (List ProjectionDirection)
  mainProjection : ℕ
  projections : List (Projection RotatedRect)

/-- `generate_interpretation`. -/
noncomputable def generateInterpretation (minAreaRect : List Point2i → RotatedRect) (toPoint : ℝ × ℝ → Point2i)
    (fuel : ℕ) (vertices : List Point2i) (edges : List (ℕ × ℕ)) : Except Fault Output := do
  let potentialProjections ← separateProjections vertices edges
  let potentialProjections ← prune fuel (boxed minAreaRect potentialProjections)
  let _ ← drawDirections toPoint potentialProjections
  let projectionDirections := calculateProjectionDirections potentialProjections
  let mainProjection := selectMainProjection projectionDirections
  let potentialProjections ← assignCoordinateSystems potentialProjections projectionDirections mainProjection
  let _ ← interpreterOut potentialProjections
  return ⟨projectionDirections, mainProjection, potentialProjections⟩

/-! ## Views -/

variable {β π : Type}

/-- A view shows a stroke at least, and its index edges name the ends of its strokes. -/
structure View (p : Projection β) : Prop where
  drawn : p.edges ≠ []
  names : List.Forall₂ (Names p.vertices) p.cedges p.edges

theorem View.withBox {p : Projection β} (h : View p) (b : β) : View (p.withBox b) := ⟨h.drawn, h.names⟩

theorem View.merge {target src : Projection β} (ht : View target) (hs : View src) : View (merge target src) :=
  ⟨List.append_ne_nil_of_left_ne_nil ht.drawn _, names_merge ht.names hs.names⟩

theorem View.vertices_ne_nil {p : Projection β} (h : View p) : p.vertices ≠ [] := by
  intro hnil
  obtain ⟨e, he⟩ := List.exists_mem_of_ne_nil _ h.drawn
  obtain ⟨c, -, hc, -⟩ := h.names.exists_left he
  rw [hnil] at hc
  cases hc

/-- The strokes drawn are those of the views. -/
theorem interpreterOut_eq {ps : List (Projection β)} (h : ∀ p ∈ ps, View p) :
    interpreterOut ps = .ok (ps.flatMap Projection.edges) := by
  have hview : ∀ p ∈ ps, (p.cedges.mapM fun e => do
      let v ← fetch p.vertices e.1
      let w ← fetch p.vertices e.2
      return (v, w) : Except Fault (List (Point2i × Point2i))) = .ok p.edges := by
    intro p hp
    have hnames := (h p hp).names
    generalize p.cedges = cs at hnames ⊢
    generalize p.edges = es at hnames ⊢
    induction hnames with
    | nil => rfl
    | cons hc _ ih =>
      rw [List.mapM_cons, ih, fetch_eq hc.1, fetch_eq hc.2]
      rfl
  rw [interpreterOut, List.mapM_eq_map hview, List.flatMap_def]
  rfl

/-- The index edges of a component name the ends of its strokes, also where two indices have one
point. -/
theorem Component.view [Inhabited β] (inp : Input) {k : Component} (hk : k.edges ≠ []) :
    View (k.toProjection (β := β) inp) := by
  refine ⟨by simpa [Component.toProjection] using hk, ?_⟩
  simp only [Component.toProjection, List.forall₂_map_left_iff, List.forall₂_map_right_iff]
  refine List.forall₂_same.2 fun e he => ⟨List.getElem?_idxOf ?_, List.getElem?_idxOf ?_⟩ <;>
    refine List.mem_map_of_mem (Std.TreeSet.mem_toList.2 ?_)
  exacts [k.left_mem he, k.right_mem he]

/-! ## Pruning -/

/-- What holds of all projections and is kept by a merge holds of all that `prune` leaves. -/
theorem prune_all [Box β π] {P : Projection β → Prop} (hmerge : ∀ a b, P a → P b → P (merge a b))
    {ps out : List (Projection β)} (h : ∀ p ∈ ps, P p) (ho : Loop.Ends pruneStep (pruneStart (π := π) ps) (.ok out)) :
    ∀ p ∈ out, P p := by
  obtain ⟨s, hr, hd⟩ := ho.reach
  obtain ⟨-, -, rfl⟩ := pruneStep_done_inv hd
  refine hr.invariant (I := fun t => ∀ p ∈ t.projections, P p) h fun t t' ht hstep => ?_
  rcases prune_cases hstep with ⟨-, hsub⟩ | ⟨target, src, i, j, -, -, hi, hj, hset, -⟩
  · exact fun p hp => ht p (hsub hp)
  · intro p hp
    rw [hset] at hp
    rcases List.mem_or_eq_of_mem_set hp with hp | rfl
    · exact ht p hp
    · exact hmerge _ _ (ht _ (List.mem_of_getElem? hi)) (ht _ (List.mem_of_getElem? hj))

theorem prune_yields [Box β π] {ps : List (Projection β)} {o : Except Fault (List (Projection β))}
    (h : Loop.Ends pruneStep (pruneStart (π := π) ps) o) : Loop.Yields (fun fuel => prune fuel ps) o :=
  h.yields.comp (g := fun _ r => r.getD (.error .outOfFuel)) ⟨0, fun _ _ => rfl⟩

/-- The views that `prune` leaves show the drawing: every stroke once, and every point that a stroke
touches. -/
theorem Separation.pruned {inp : Input} {comps : List Component} (h : Separation inp comps)
    {minAreaRect : List Point2i → RotatedRect} {views : List (Projection RotatedRect)}
    (ho : Loop.Ends pruneStep (pruneStart (boxed minAreaRect (comps.map (Component.toProjection inp)))) (.ok views)) :
    (views.flatMap Projection.edges).Perm inp.strokes ∧
      (views.flatMap Projection.vertices).Perm (inp.touched.map inp.coord) := by
  have key : ∀ {α : Type} (f : Projection RotatedRect → List α), (∀ a b, f (merge a b) = f a ++ f b) →
      (∀ p b, f (p.withBox b) = f p) → (views.flatMap f).Perm (comps.flatMap fun k => f (k.toProjection inp)) := by
    intro α f hmerge hbox
    refine (prune_conserves f hmerge ho).trans (List.Perm.of_eq ?_)
    show List.flatMap f ((comps.map (Component.toProjection inp)).map _) = _
    rw [List.flatMap_map, List.flatMap_map]
    simp only [hbox]
  constructor
  · refine (key Projection.edges (fun _ _ => rfl) fun _ _ => rfl).trans ?_
    rw [show (comps.flatMap fun k => (k.toProjection (β := RotatedRect) inp).edges) =
      (comps.flatMap Component.edges).map inp.stroke from List.map_flatMap.symm]
    exact h.perm.map _
  · refine (key Projection.vertices (fun _ _ => rfl) fun _ _ => rfl).trans ?_
    rw [show (comps.flatMap fun k => (k.toProjection (β := RotatedRect) inp).vertices) =
      (comps.flatMap fun k => k.indices.toList).map inp.coord from List.map_flatMap.symm]
    exact h.indices_perm.map _

/-! ## Outcomes -/

/-- What two views become: the first is the main one, and its zero point is its first vertex. -/
noncomputable def arranged (p q : Projection RotatedRect) (z z' : Point2i) : Output where
  projectionDirections := calculateProjectionDirections [p, q]
  mainProjection := 0
  projections := [{ p with s := some (mainSystem (calculateDirection p q) z) },
    { q with s := some (sideSystem (calculateDirection p q) z') }]

/-- How `generate_interpretation` ends on what `prune` leaves: only two views are interpreted, and all
lines between views must be drawn. -/
inductive Interpreted (toPoint : ℝ × ℝ → Point2i) :
    Except Fault (List (Projection RotatedRect)) → Except Fault Output → Prop where
  | overrun : Interpreted toPoint (.error .outOfRange) (.error .outOfRange)
  | undefined {views} : ¬LinesFit toPoint views → Interpreted toPoint (.ok views) (.error .undefined)
  | few {views} : views.length < 2 → Interpreted toPoint (.ok views) (.error .outOfRange)
  | many {views} : LinesFit toPoint views → 2 < views.length → Interpreted toPoint (.ok views) (.error .assertion)
  | two {p q z z'} : LinesFit toPoint [p, q] → View p → View q → p.vertices[0]? = some z →
      q.vertices.argmin (calculateDistance z (calculateDirection p q)) = some z' →
      Interpreted toPoint (.ok [p, q]) (.ok (arranged p q z z'))

theorem View.exists_first {p : Projection β} (h : View p) : ∃ z, p.vertices[0]? = some z := by
  cases hv : p.vertices with
  | nil => exact absurd hv h.vertices_ne_nil
  | cons z vs => exact ⟨z, rfl⟩

/-- Without a second view there is no direction to share. -/
theorem assign_few {views : List (Projection RotatedRect)} (h : ∀ p ∈ views, View p) (hlen : views.length < 2) :
    assignCoordinateSystems views (calculateProjectionDirections views) 0 = .error .outOfRange := by
  match views, hlen with
  | [], _ => rfl
  | [p], _ =>
    obtain ⟨z, hz⟩ := (h p (List.mem_singleton_self p)).exists_first
    have hmain : fetch [p] 0 = .ok p := rfl
    have hdirection : fetchDirection (calculateProjectionDirections [p]) 0 1 = .error .outOfRange := rfl
    simp only [Rounded.assignCoordinateSystems, hmain, fetch_eq hz, hdirection, bind, Except.bind]

theorem assign_many {views : List (Projection RotatedRect)} (h : ∀ p ∈ views, View p) (hlen : 2 < views.length) :
    assignCoordinateSystems views (calculateProjectionDirections views) 0 = .error .assertion := by
  match views, hlen with
  | p :: q :: r :: rest, _ =>
    obtain ⟨z, hz⟩ := (h p (List.mem_cons_self ..)).exists_first
    have hmain : fetch (p :: q :: r :: rest) 0 = .ok p := rfl
    have hdirection : fetchDirection (calculateProjectionDirections (p :: q :: r :: rest)) 0 1 = _ :=
      fetchDirection_table rfl rfl
    have hne : (p :: q :: r :: rest).length ≠ 2 := by simp
    simp only [Rounded.assignCoordinateSystems, hmain, fetch_eq hz, hdirection, if_pos hne, bind, Except.bind, throw, throwThe,
      MonadExceptOf.throw]

/-- The part of `generate_interpretation` after `prune`. -/
theorem generateInterpretation_eq {minAreaRect : List Point2i → RotatedRect} {toPoint : ℝ × ℝ → Point2i} {fuel : ℕ}
    {vertices : List Point2i} {edges : List (ℕ × ℕ)} {ps : List (Projection RotatedRect)}
    {o : Except Fault (List (Projection RotatedRect))} (hs : separateProjections vertices edges = .ok ps)
    (hp : prune fuel (boxed minAreaRect ps) = o) :
    generateInterpretation minAreaRect toPoint fuel vertices edges = (do
      let views ← o
      let _ ← drawDirections toPoint views
      let assigned ← assignCoordinateSystems views (calculateProjectionDirections views) 0
      let _ ← interpreterOut assigned
      return ⟨calculateProjectionDirections views, 0, assigned⟩) := by
  rw [generateInterpretation, hs, ← hp]
  rfl

theorem linesFit_of_few {toPoint : ℝ × ℝ → Point2i} {views : List (Projection RotatedRect)} (hlen : views.length < 2) :
    LinesFit toPoint views := by
  match views, hlen with
  | [], _ => exact .nil
  | [p], _ => exact List.pairwise_singleton _ p

theorem interpreted_of_views (toPoint : ℝ × ℝ → Point2i) {views : List (Projection RotatedRect)}
    (h : ∀ p ∈ views, View p) : Interpreted toPoint (.ok views) (do
      let _ ← drawDirections toPoint views
      let assigned ← assignCoordinateSystems views (calculateProjectionDirections views) 0
      let _ ← interpreterOut assigned
      return ⟨calculateProjectionDirections views, 0, assigned⟩) := by
  by_cases hfit : LinesFit toPoint views
  case neg =>
    rw [drawDirections_undefined hfit]
    exact .undefined hfit
  obtain ⟨lines, hlines⟩ := drawDirections_eq hfit
  rw [hlines]
  rcases Nat.lt_trichotomy views.length 2 with hlen | hlen | hlen
  · rw [assign_few h hlen]
    exact .few hlen
  · obtain ⟨p, q, rfl⟩ := List.length_eq_two.1 hlen
    have hp := h p (by simp)
    have hq := h q (by simp)
    obtain ⟨z, hz⟩ := hp.exists_first
    obtain ⟨z', hz'⟩ : ∃ z', q.vertices.argmin (calculateDistance z (calculateDirection p q)) = some z' :=
      Option.ne_none_iff_exists'.1 fun hnone => hq.vertices_ne_nil (List.argmin_eq_none.1 hnone)
    have hout : interpreterOut (arranged p q z z').projections = .ok _ := interpreterOut_eq (by
      simp only [arranged, List.forall_mem_cons, List.not_mem_nil, false_imp_iff, implies_true, and_true]
      exact ⟨⟨hp.drawn, hp.names⟩, hq.drawn, hq.names⟩)
    rw [assignCoordinateSystems_two (fetchDirection_two p q) hz hz']
    simp only [arranged] at hout
    simp only [bind, Except.bind, hout, pure, Except.pure]
    exact .two hfit hp hq hz hz'
  · rw [assign_many h hlen]
    exact .many hfit hlen

/-- The interpreter's run on a drawing: its strokes are separated, `prune` ends, and how the run ends
follows from what `prune` leaves. -/
theorem generateInterpretation_interpreted (minAreaRect : List Point2i → RotatedRect) (toPoint : ℝ × ℝ → Point2i)
    (inp : Input) : ∃ comps o result, Separation inp comps ∧ (∀ k ∈ comps, k.edges ≠ []) ∧
      separateProjections inp.vertices inp.edges = .ok (comps.map (Component.toProjection (β := RotatedRect) inp)) ∧
      Loop.Ends pruneStep (pruneStart (boxed minAreaRect (comps.map (Component.toProjection inp)))) o ∧
      Interpreted toPoint o result ∧
      Loop.Yields (fun fuel => generateInterpretation minAreaRect toPoint fuel inp.vertices inp.edges) result := by
  obtain ⟨comps, hsep, hcomps⟩ := separate_spec (β := RotatedRect) inp
  have hne := components_drawn hcomps
  obtain ⟨o, ho⟩ := prune_terminates (boxed minAreaRect (comps.map (Component.toProjection inp)))
  obtain ⟨least, hprune⟩ := prune_yields ho
  refine ⟨comps, o, _, hsep, hne, hcomps, ho, ?_, least, fun fuel hle => generateInterpretation_eq hcomps (hprune fuel hle)⟩
  cases o with
  | error f =>
    obtain ⟨s, -, hf⟩ := ho.reach_fail
    obtain ⟨rfl, -⟩ := pruneStep_fail_iff.1 hf
    exact .overrun
  | ok views =>
    refine interpreted_of_views toPoint (prune_all (fun _ _ => View.merge) ?_ ho)
    simp only [boxed, List.forall_mem_map]
    exact fun k hk => (k.view inp (hne k hk)).withBox _

section Outcomes

variable {toPoint : ℝ × ℝ → Point2i} {views : List (Projection RotatedRect)} {o : Except Fault Output}
  (h : Interpreted toPoint (.ok views) o)

include h

theorem Interpreted.ok_iff : (∃ out, o = .ok out) ↔ views.length = 2 ∧ LinesFit toPoint views := by
  cases h with
  | undefined hfit => simp [hfit]
  | few hlen => simp [hlen.ne]
  | many _ hlen => simp [hlen.ne']
  | two hfit => simp [hfit]

theorem Interpreted.outOfRange_iff : o = .error .outOfRange ↔ views.length < 2 := by
  cases h with
  | undefined hfit => exact iff_of_false (by simp) fun hlen => hfit (linesFit_of_few hlen)
  | few hlen => exact iff_of_true rfl hlen
  | many _ hlen => exact iff_of_false (by simp) hlen.not_gt
  | two => simp

theorem Interpreted.assertion_iff : o = .error .assertion ↔ 2 < views.length ∧ LinesFit toPoint views := by
  cases h with
  | undefined hfit => simp [hfit]
  | few hlen => exact iff_of_false (by simp) fun hmany => hmany.1.not_gt hlen
  | many hfit hlen => exact iff_of_true rfl ⟨hlen, hfit⟩
  | two => simp

theorem Interpreted.undefined_iff : o = .error .undefined ↔ ¬LinesFit toPoint views := by
  cases h with
  | undefined hfit => exact iff_of_true rfl hfit
  | few hlen => exact iff_of_false (by simp) (not_not.2 (linesFit_of_few hlen))
  | many hfit => exact iff_of_false (by simp) (not_not.2 hfit)
  | two hfit => exact iff_of_false (by simp) (not_not.2 hfit)

end Outcomes

/-! ## Boxes apart -/

/-- No box holds the center of another, as `inside` tells. -/
def BoxesApart [Box β π] (ps : List (Projection β)) : Prop :=
  ps.Pairwise fun p q => Box.inside q.boundingBox (Box.center p.boundingBox) = false ∧
    Box.inside p.boundingBox (Box.center q.boundingBox) = false

theorem BoxesApart.not_inside [Box β π] {ps : List (Projection β)} (h : BoxesApart ps) {i j : ℕ} {p q : Projection β}
    (hij : i ≠ j) (hi : ps[i]? = some p) (hj : ps[j]? = some q) :
    Box.inside q.boundingBox (Box.center p.boundingBox) = false := by
  obtain ⟨hil, rfl⟩ := List.getElem?_eq_some_iff.1 hi
  obtain ⟨hjl, rfl⟩ := List.getElem?_eq_some_iff.1 hj
  rcases Nat.lt_or_gt_of_ne hij with hlt | hgt
  · exact (List.pairwise_iff_getElem.1 h i j hil hjl hlt).1
  · exact (List.pairwise_iff_getElem.1 h j i hjl hil hgt).2

/-- A run on boxes apart: nothing was merged, and the center read is that of `projections[i]`. -/
structure Idle [Box β π] (ps : List (Projection β)) (s : PruneState β π) : Prop where
  same : s.projections = ps
  pass : match s.phase with
    | .outer => True
    | .inner center _ removedAny => removedAny = false ∧ ∃ p, ps[s.i]? = some p ∧ Box.center p.boundingBox = center
    | _ => False

theorem idle_step [Box β π] {ps : List (Projection β)} (hap : BoxesApart ps) {s s' : PruneState β π} (hs : Idle ps s)
    (h : pruneStep s = .next s') : Idle ps s' := by
  -- a merge would need a center inside another box
  have hout : ∀ {i j : ℕ} {center : π} {pj : Projection β}, (∃ p, ps[i]? = some p ∧ Box.center p.boundingBox = center) →
      ps[j]? = some pj → i ≠ j → Box.inside pj.boundingBox center = false := by
    rintro i j center pj ⟨p, hp, rfl⟩ hj hij
    exact hap.not_inside hij hp hj
  obtain ⟨rfl, hpass⟩ := hs
  cases Moves.of_next h with
  | enter hi => exact ⟨rfl, rfl, _, hi, rfl⟩
  | advance => exact ⟨rfl, trivial⟩
  | again => exact Bool.noConfusion hpass.1
  | skip => exact ⟨rfl, hpass⟩
  | giveWay hj _ hij hin | absorb hj _ hij hin =>
    rw [hout hpass.2 hj hij] at hin
    cases hin
  | dropI | dropJ => exact hpass.elim

/-- `prune` leaves boxes apart as they are. -/
theorem prune_apart [Box β π] {ps : List (Projection β)} (hap : BoxesApart ps) :
    Loop.Ends pruneStep (pruneStart (π := π) ps) (.ok ps) := by
  obtain ⟨o, ho⟩ := prune_terminates (π := π) ps
  have hidle : ∀ s, Loop.Reach pruneStep (pruneStart ps) s → Idle ps s := fun s hr =>
    hr.invariant ⟨rfl, trivial⟩ fun _ _ hs => idle_step hap hs
  cases o with
  | error f =>
    obtain ⟨s, hr, hf⟩ := ho.reach_fail
    obtain ⟨-, center, j, removedAny, pj, hphase, -, -, -, hi⟩ := pruneStep_fail_iff.1 hf
    obtain ⟨hsame, hpass⟩ := hidle s hr
    rw [hphase] at hpass
    obtain ⟨-, p, hp, -⟩ := hpass
    rw [hsame, hp] at hi
    cases hi
  | ok out =>
    obtain ⟨s, hr, hd⟩ := ho.reach
    obtain ⟨-, -, rfl⟩ := pruneStep_done_inv hd
    rwa [(hidle s hr).same] at ho

/-- The strokes linked to one. -/
def linkedTo (inp : Input) (e : ℕ × ℕ) : Set (ℕ × ℕ) := {f | Linked inp.edges e f}

/-- The number of connected components of a drawing. -/
noncomputable def componentCount (inp : Input) : ℕ := (linkedTo inp '' {e | e ∈ inp.edges}).ncard

theorem linkedTo_eq_iff {inp : Input} {e f : ℕ × ℕ} : linkedTo inp e = linkedTo inp f ↔ Linked inp.edges e f := by
  constructor
  · intro h
    have hmem : f ∈ linkedTo inp e := h ▸ .refl
    exact hmem
  · intro h
    exact Set.ext fun g => ⟨fun hg => h.symm.trans hg, fun hg => h.trans hg⟩

/-- The projections show one component each. -/
theorem Separation.componentCount_eq {inp : Input} {comps : List Component} (h : Separation inp comps)
    (hne : ∀ k ∈ comps, k.edges ≠ []) : componentCount inp = comps.length := by
  have hstroke : ∀ a : Fin comps.length, ∃ e, e ∈ comps[a].edges := fun a =>
    List.exists_mem_of_ne_nil _ (hne _ (List.getElem_mem _))
  choose stroke hmem using hstroke
  have hget : ∀ a : Fin comps.length, comps[(a : ℕ)]? = some comps[a] := fun a => List.getElem?_eq_getElem a.2
  have hinj : Function.Injective fun a => linkedTo inp (stroke a) := fun a b hab =>
    Fin.ext ((h.position_eq_iff (hget a) (hget b) (hmem a) (hmem b)).2 (linkedTo_eq_iff.1 hab))
  have himage : linkedTo inp '' {e | e ∈ inp.edges} = (fun a => linkedTo inp (stroke a)) '' Set.univ := by
    apply Set.Subset.antisymm
    · rintro _ ⟨e, he, rfl⟩
      obtain ⟨a, k, hk, hek⟩ := h.exists_position he
      have hlt := (List.getElem?_eq_some_iff.1 hk).1
      exact ⟨⟨a, hlt⟩, trivial,
        linkedTo_eq_iff.2 ((h.position_eq_iff (hget ⟨a, hlt⟩) hk (hmem ⟨a, hlt⟩) hek).1 rfl)⟩
    · rintro _ ⟨a, -, rfl⟩
      exact ⟨stroke a, h.perm.subset (List.mem_flatMap.2 ⟨_, List.getElem_mem a.2, hmem a⟩), rfl⟩
  rw [componentCount, himage, Set.ncard_image_of_injective _ hinj, Set.ncard_univ, Nat.card_fin]

/-- Where no box of a separated view holds the center of another, the number of components decides how a
run ends, and whether the lines between the views can be drawn. -/
theorem generateInterpretation_apart (minAreaRect : List Point2i → RotatedRect) (toPoint : ℝ × ℝ → Point2i) (inp : Input)
    {ps : List (Projection RotatedRect)} (hs : separateProjections inp.vertices inp.edges = .ok ps)
    (hap : BoxesApart (boxed minAreaRect ps)) :
    ∃ result, Loop.Yields (fun fuel => generateInterpretation minAreaRect toPoint fuel inp.vertices inp.edges) result ∧
      ((∃ out, result = .ok out) ↔ componentCount inp = 2 ∧ LinesFit toPoint (boxed minAreaRect ps)) ∧
      (result = .error .outOfRange ↔ componentCount inp < 2) ∧
      (result = .error .assertion ↔ 2 < componentCount inp ∧ LinesFit toPoint (boxed minAreaRect ps)) ∧
      (result = .error .undefined ↔ ¬LinesFit toPoint (boxed minAreaRect ps)) := by
  obtain ⟨comps, o, result, hsep, hne, hcomps, ho, hresult, hyields⟩ :=
    generateInterpretation_interpreted minAreaRect toPoint inp
  rw [hs] at hcomps
  cases hcomps
  cases ho.unique (prune_apart hap)
  have hcount : componentCount inp = (boxed minAreaRect (comps.map (Component.toProjection inp))).length := by
    rw [hsep.componentCount_eq hne, boxed, List.length_map, List.length_map]
  rw [hcount]
  exact ⟨result, hyields, hresult.ok_iff, hresult.outOfRange_iff, hresult.assertion_iff, hresult.undefined_iff⟩

/-! ## Two rectangles -/

/-- `cv::minAreaRect` of points whose smallest box is upright. -/
def uprightBox (vertices : List Point2i) : UprightRect :=
  let xs := vertices.map Point2i.x
  let ys := vertices.map Point2i.y
  let left := xs.foldl min (xs.headD 0)
  let right := xs.foldl max (xs.headD 0)
  let top := ys.foldl min (ys.headD 0)
  let bottom := ys.foldl max (ys.headD 0)
  ⟨((left + right) / 2, (top + bottom) / 2), right - left, bottom - top⟩

noncomputable def uprightRect (vertices : List Point2i) : RotatedRect := (uprightBox vertices).toRotated

/-- `cv::Point2f` to `cv::Point2i`. -/
noncomputable def roundPoint (c : ℝ × ℝ) : Point2i := ⟨round c.1, round c.2⟩

/-- Three sides of a rectangle, and of another one to the right and below. -/
def twoRectangles : Input where
  vertices := [⟨0, 0⟩, ⟨100, 0⟩, ⟨100, 60⟩, ⟨0, 60⟩, ⟨300, 200⟩, ⟨400, 200⟩, ⟨400, 260⟩, ⟨300, 260⟩]
  edges := [(0, 1), (1, 2), (2, 3), (4, 5), (5, 6), (6, 7)]
  inRange := by decide

/-- They are the two views, the second one first. -/
theorem separate_twoRectangles : ∃ p q : Projection RotatedRect,
    separateProjections twoRectangles.vertices twoRectangles.edges = .ok [p, q] ∧
      p.vertices = twoRectangles.vertices.drop 4 ∧ q.vertices = twoRectangles.vertices.take 4 :=
  ⟨_, _, rfl, rfl, rfl⟩

theorem boxed_twoRectangles {p q : Projection RotatedRect} (hp : p.vertices = twoRectangles.vertices.drop 4)
    (hq : q.vertices = twoRectangles.vertices.take 4) : boxed uprightRect [p, q] =
      [p.withBox (UprightRect.toRotated ⟨(350, 230), 100, 60⟩), q.withBox (UprightRect.toRotated ⟨(50, 30), 100, 60⟩)] := by
  simp only [boxed, List.map_cons, List.map_nil, uprightRect, hp, hq]
  rfl

/-- The boxes are apart, and neither lies above the other. -/
theorem boxesApart_twoRectangles {p q : Projection RotatedRect} (hp : p.vertices = twoRectangles.vertices.drop 4)
    (hq : q.vertices = twoRectangles.vertices.take 4) :
    BoxesApart (boxed uprightRect [p, q]) ∧ LinesFit roundPoint (boxed uprightRect [p, q]) := by
  rw [boxed_twoRectangles hp hq]
  refine ⟨List.pairwise_pair.2 ?_, List.pairwise_pair.2 ?_⟩
  · simp only [Projection.withBox, inside_toRotated]
    decide
  · have hcenter : roundPoint (UprightRect.toRotated ⟨(350, 230), 100, 60⟩).center = ⟨350, 230⟩ := by
      simp only [roundPoint, UprightRect.toRotated, round_intCast]
    simp only [Projection.withBox, hcenter]
    rw [lineFits_iff (by decide) (by decide)]
    · norm_num [UprightRect.toRotated]
    · norm_num [UprightRect.toRotated]

theorem generateInterpretation_twoRectangles : ∃ out,
    Loop.Yields (fun fuel => generateInterpretation uprightRect roundPoint fuel twoRectangles.vertices twoRectangles.edges)
      (.ok out) := by
  obtain ⟨p, q, hs, hp, hq⟩ := separate_twoRectangles
  obtain ⟨hap, hfit⟩ := boxesApart_twoRectangles hp hq
  obtain ⟨result, hyields, hok, -⟩ := generateInterpretation_apart uprightRect roundPoint twoRectangles hs hap
  suffices hcount : componentCount twoRectangles = 2 by
    obtain ⟨out, rfl⟩ := hok.2 ⟨hcount, hfit⟩
    exact ⟨out, hyields⟩
  obtain ⟨comps, hsep, hcomps⟩ := separate_spec (β := RotatedRect) twoRectangles
  rw [hsep.componentCount_eq (components_drawn hcomps),
    ← List.length_map (Component.toProjection (β := RotatedRect) twoRectangles), ← Except.ok.inj (hs.symm.trans hcomps)]
  rfl

end DetailIdentifier.Interpreter
