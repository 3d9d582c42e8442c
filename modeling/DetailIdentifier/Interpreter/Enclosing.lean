/-
Bounding boxes and merges. `merge` moves vertices but leaves the box of its target alone, so the
boxes of a run enclose their vertices exactly as long as every merge finds the vertices it moves
inside that box (`prune_encloses_iff`).
-/
import DetailIdentifier.Interpreter.Passes

namespace DetailIdentifier.Interpreter

variable {β π : Type}

/-! ## Enclosing boxes -/

/-- A point inside a rotated box or on its border; the angle is in degrees. -/
noncomputable def encloses (rect : RotatedRect) (v : Point2i) : Prop :=
  let angle := rect.angle * Real.pi / (180 : ℤ)
  let dx := (v.x : ℝ) - rect.center.1
  let dy := (v.y : ℝ) - rect.center.2
  |(2 : ℤ) * (dx * Real.cos angle + dy * Real.sin angle)| ≤ rect.width ∧
    |(2 : ℤ) * (-dx * Real.sin angle + dy * Real.cos angle)| ≤ rect.height

/-- The same for an upright box. -/
def UprightRect.Encloses (r : UprightRect) (v : Point2i) : Prop :=
  |2 * (v.x - r.center.1)| ≤ r.width ∧ |2 * (v.y - r.center.2)| ≤ r.height

instance (r : UprightRect) (v : Point2i) : Decidable (r.Encloses v) := inferInstanceAs (Decidable (_ ∧ _))

theorem encloses_toRotated {r : UprightRect} {v : Point2i} : encloses r.toRotated v ↔ r.Encloses v := by
  simp only [encloses, UprightRect.toRotated, UprightRect.Encloses, zero_mul, zero_div, Real.cos_zero, Real.sin_zero,
    mul_one, mul_zero, add_zero, zero_add]
  norm_cast

/-- The bounding box of a projection encloses all of its vertices. -/
def Projection.Enclosed (encl : β → Point2i → Prop) (p : Projection β) : Prop :=
  ∀ v ∈ p.vertices, encl p.boundingBox v

instance (encl : β → Point2i → Prop) [∀ b v, Decidable (encl b v)] (p : Projection β) : Decidable (p.Enclosed encl) :=
  inferInstanceAs (Decidable (∀ v ∈ p.vertices, _))

theorem enclosed_merge {encl : β → Point2i → Prop} {target src : Projection β} :
    (merge target src).Enclosed encl ↔ target.Enclosed encl ∧ ∀ v ∈ src.vertices, encl target.boundingBox v :=
  List.forall_mem_append

/-! ## Runs -/

/-- If the next step merges two projections, the box of the one that is kept encloses the vertices of
the other. -/
def PruneState.MergesInside [Box β π] (encl : β → Point2i → Prop) (s : PruneState β π) : Prop :=
  match s.phase with
  | .inner center j _ =>
    ∀ pj ∈ s.projections[j]?, ∀ pi ∈ s.projections[s.i]?, s.i ≠ j → Box.inside pj.boundingBox center = true →
      if Box.larger pj.boundingBox pi.boundingBox then ∀ v ∈ pi.vertices, encl pj.boundingBox v
      else ∀ v ∈ pj.vertices, encl pi.boundingBox v
  | _ => True

instance [Box β π] (encl : β → Point2i → Prop) [∀ b v, Decidable (encl b v)] (s : PruneState β π) :
    Decidable (s.MergesInside encl) := by
  unfold PruneState.MergesInside
  split <;> infer_instance

variable [Box β π] {encl : β → Point2i → Prop}

theorem enclosed_set {ps : List (Projection β)} {t : ℕ} {target src : Projection β} (hps : ∀ p ∈ ps, p.Enclosed encl)
    (ht : ps[t]? = some target) (hsrc : ∀ v ∈ src.vertices, encl target.boundingBox v) :
    ∀ p ∈ ps.set t (merge target src), p.Enclosed encl := by
  intro p hp
  rcases List.mem_or_eq_of_mem_set hp with hp | rfl
  · exact hps p hp
  · exact enclosed_merge.2 ⟨hps target (List.mem_of_getElem? ht), hsrc⟩

theorem enclosed_step {s s' : PruneState β π} (hs : ∀ p ∈ s.projections, p.Enclosed encl) (hm : s.MergesInside encl)
    (h : pruneStep s = .next s') : ∀ p ∈ s'.projections, p.Enclosed encl := by
  cases Moves.of_next h with
  | enter | advance | again | skip => exact hs
  | giveWay hj hi hij hin hl =>
    have hsrc := hm _ hj _ hi hij hin
    rw [if_pos hl] at hsrc
    exact enclosed_set hs hj hsrc
  | absorb hj hi hij hin hl =>
    have hsrc := hm _ hj _ hi hij hin
    rw [hl, if_neg Bool.false_ne_true] at hsrc
    exact enclosed_set hs hi hsrc
  | dropI | dropJ => exact fun p hp => hs p ((List.eraseIdx_sublist _ _).subset hp)

/-- A merge whose result is enclosed moves only vertices inside the box. -/
theorem mergesInside_of_next {s : PruneState β π}
    (h : ∀ s', pruneStep s = .next s' → ∀ p ∈ s'.projections, p.Enclosed encl) : s.MergesInside encl := by
  obtain ⟨ps, i, phase⟩ := s
  cases phase with
  | inner center j removedAny =>
    intro pj hj pi hi hij hin
    have hmem : ∀ {t : ℕ} {p : Projection β} (q : Projection β), ps[t]? = some p → q ∈ ps.set t q := fun q ht =>
      List.mem_set (List.getElem?_eq_some_iff.1 ht).1 q
    split
    · rename_i hl
      exact (enclosed_merge.1 (h _ (Moves.giveWay hj hi hij hin hl).next _ (hmem _ hj))).2
    · rename_i hl
      exact (enclosed_merge.1 (h _ (Moves.absorb hj hi hij hin (Bool.eq_false_iff.2 hl)).next _ (hmem _ hi))).2
  | outer | eraseI | eraseJ => trivial

/-- From boxes that enclose their vertices, all boxes of a run do so exactly when every merge moves
only vertices inside the box that is kept; and then the boxes of the result do. -/
theorem prune_encloses_iff (encl : β → Point2i → Prop) (ps : List (Projection β)) (hps : ∀ p ∈ ps, p.Enclosed encl) :
    ((∀ s : PruneState β π, Loop.Reach pruneStep (pruneStart ps) s → ∀ p ∈ s.projections, p.Enclosed encl) ↔
      ∀ s : PruneState β π, Loop.Reach pruneStep (pruneStart ps) s → s.MergesInside encl) ∧
    ((∀ s : PruneState β π, Loop.Reach pruneStep (pruneStart ps) s → s.MergesInside encl) →
      ∀ out, Loop.Ends pruneStep (pruneStart (π := π) ps) (.ok out) → ∀ p ∈ out, p.Enclosed encl) := by
  have hall : (∀ s : PruneState β π, Loop.Reach pruneStep (pruneStart ps) s → s.MergesInside encl) →
      ∀ s : PruneState β π, Loop.Reach pruneStep (pruneStart ps) s → ∀ p ∈ s.projections, p.Enclosed encl :=
    fun h s hr => hr.invariant_of_reach (I := fun s => ∀ p ∈ s.projections, p.Enclosed encl) hps
      fun t t' hrt ht => enclosed_step ht (h t hrt)
  refine ⟨⟨fun h s hr => mergesInside_of_next fun s' hstep => h s' (hr.tail hstep), hall⟩, fun h out hout => ?_⟩
  obtain ⟨s, hr, hd⟩ := hout.reach
  obtain ⟨-, -, rfl⟩ := pruneStep_done_inv hd
  exact hall h s hr

theorem prune_encloses_nestedOutlines : (∀ p ∈ nestedOutlines, p.Enclosed UprightRect.Encloses) ∧
    ∀ out : List (Projection UprightRect), Loop.Ends pruneStep (pruneStart nestedOutlines) (.ok out) →
      ∀ p ∈ out, p.Enclosed UprightRect.Encloses := by
  refine ⟨by decide, (prune_encloses_iff UprightRect.Encloses nestedOutlines (by decide)).2 fun s hr => ?_⟩
  have hall : ∀ s ∈ Loop.states pruneStep 30 (pruneStart nestedOutlines), s.MergesInside UprightRect.Encloses := by
    decide
  exact hall s (hr.mem_states run_nestedOutlines)

/-- A square, and a long thin rectangle across it. -/
def crossedOutlines : List (Projection UprightRect) := [outline 0 0 20 20, outline 5 0 60 2]

/-- The square absorbs the thin rectangle, whose corners lie outside its box. -/
theorem crossedOutlines_stick_out :
    (∀ p ∈ crossedOutlines.map (Projection.mapBox UprightRect.toRotated), p.Enclosed encloses) ∧
    ∃ out, Loop.Ends pruneStep (pruneStart (crossedOutlines.map (Projection.mapBox UprightRect.toRotated))) (.ok out) ∧
      ∃ p ∈ out, ∃ v ∈ p.vertices, ¬encloses p.boundingBox v := by
  have hupright : ∀ p ∈ crossedOutlines, p.Enclosed UprightRect.Encloses := by decide
  have hrun : Loop.Ends pruneStep (pruneStart crossedOutlines) (.ok [merge (outline 0 0 20 20) (outline 5 0 60 2)]) :=
    ⟨20, rfl⟩
  refine ⟨List.forall_mem_map.2 fun p hp v hv => encloses_toRotated.2 (hupright p hp v hv),
    _, prune_mapBox toRotated_maps hrun, _, List.mem_singleton_self _, ⟨65, 2⟩, by decide, fun h => ?_⟩
  exact absurd (encloses_toRotated.1 h) (by decide)

end DetailIdentifier.Interpreter
