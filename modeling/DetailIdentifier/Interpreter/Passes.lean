/-
What the passes of `prune` achieve. Positions before `i` are done: their centers lie in no other
box. That holds as long as `projections[i]` absorbs later projections only. When it absorbs an
earlier one, everything behind moves forward while `i` and the center read before stay: a projection
is passed over, the center is no longer that of `projections[i]`, and `i` may lie past the end.
-/
import DetailIdentifier.Interpreter.Prune

namespace DetailIdentifier.Interpreter

variable {β π : Type}

/-! ## Boxes -/

/-- The boxes of the projections; a merge leaves them alone. -/
def PruneState.boxes (s : PruneState β π) : List β := s.projections.map Projection.boundingBox

theorem map_boundingBox_set {ps : List (Projection β)} {t : ℕ} {target : Projection β} (ht : ps[t]? = some target)
    (src : Projection β) : (ps.set t (merge target src)).map Projection.boundingBox = ps.map Projection.boundingBox := by
  apply List.ext_getElem?
  intro k
  rw [List.getElem?_map, List.getElem?_map, List.getElem?_set]
  split
  · rename_i hk
    subst hk
    rw [if_pos (List.getElem?_eq_some_iff.1 ht).1, ht]
    rfl
  · rfl

theorem map_boundingBox_eraseIdx (ps : List (Projection β)) (k : ℕ) :
    (ps.eraseIdx k).map Projection.boundingBox = (ps.map Projection.boundingBox).eraseIdx k :=
  (List.eraseIdx_map ..).symm

/-! ## Projections that are done -/

/-- The center of the box at `k` lies in no other box. -/
def Clean [Box β π] (boxes : List β) (k : ℕ) : Prop :=
  ∀ j a b, j ≠ k → boxes[j]? = some a → boxes[k]? = some b → Box.inside a (Box.center b) = false

theorem Clean.eraseIdx [Box β π] {boxes : List β} {k e : ℕ} (h : Clean boxes k) (hk : k < e) :
    Clean (boxes.eraseIdx e) k := by
  intro j a b hj ha hb
  rw [List.getElem?_eraseIdx] at ha hb
  rw [if_pos hk] at hb
  -- what stands at `j` now stood at `j` or behind it
  split at ha
  · exact h j a b hj ha hb
  · exact h (j + 1) a b (by omega) ha hb

/-- The next step lets `projections[i]` absorb `projections[j]`. -/
def PruneState.Absorbs [Box β π] (s : PruneState β π) (center : π) (j : ℕ) : Prop :=
  ∃ removedAny pi pj, s.phase = .inner center j removedAny ∧ s.projections[j]? = some pj ∧
    s.projections[s.i]? = some pi ∧ s.i ≠ j ∧ Box.inside pj.boundingBox center = true ∧
    Box.larger pj.boundingBox pi.boundingBox = false

/-- `projections[i]` absorbs a projection before it. -/
def PruneState.AbsorbsEarlier [Box β π] (s : PruneState β π) : Prop := ∃ center j, s.Absorbs center j ∧ j < s.i

instance [Box β π] (s : PruneState β π) : Decidable s.AbsorbsEarlier :=
  match h : s.phase with
  | .inner center j removedAny =>
    decidable_of_iff (j < s.i ∧ ∃ pj ∈ s.projections[j]?, ∃ pi ∈ s.projections[s.i]?,
        Box.inside pj.boundingBox center = true ∧ Box.larger pj.boundingBox pi.boundingBox = false) (by
      constructor
      · rintro ⟨hlt, pj, hj, pi, hi, hin, hl⟩
        exact ⟨center, j, ⟨removedAny, pi, pj, h, hj, hi, by omega, hin, hl⟩, hlt⟩
      · rintro ⟨center', j', ⟨removedAny', pi, pj, hphase, hj, hi, -, hin, hl⟩, hlt⟩
        rw [h] at hphase
        cases hphase
        exact ⟨hlt, pj, hj, pi, hi, hin, hl⟩)
  | .outer | .eraseI | .eraseJ .. => isFalse fun ⟨_, _, ⟨_, _, _, hphase, _⟩, _⟩ => by rw [h] at hphase; cases hphase

/-- Inside a pass: the center read is that of `projections[i]`, and as long as nothing was removed it
lies in no box passed over. -/
structure InPass [Box β π] (boxes : List β) (i : ℕ) (center : π) (j : ℕ) (removedAny : Bool) : Prop where
  own : ∃ b, boxes[i]? = some b ∧ Box.center b = center
  passed : removedAny = false → ∀ j' a, j' < j → j' ≠ i → boxes[j']? = some a → Box.inside a center = false

/-- A pass that went over every other projection and removed none. -/
theorem InPass.clean [Box β π] {boxes : List β} {i : ℕ} {center : π} {j : ℕ} (h : InPass boxes i center j false)
    (hj : boxes.length ≤ j) : Clean boxes i := by
  intro j' a b hne ha hb
  obtain ⟨⟨b', hb', rfl⟩, hpassed⟩ := h
  rw [hb'] at hb
  cases hb
  have hlt := (List.getElem?_eq_some_iff.1 ha).1
  exact hpassed rfl j' a (by omega) hne ha

/-- The state of a run in which no projection absorbs an earlier one. -/
structure Settles [Box β π] (boxes : List β) (i : ℕ) (phase : Phase π) : Prop where
  before : ∀ k < i, Clean boxes k
  pass : match phase with
    | .inner center j removedAny => InPass boxes i center j removedAny
    | .eraseJ center j => i < j ∧ InPass boxes i center j true
    | _ => True

theorem settles_start [Box β π] (ps : List (Projection β)) :
    Settles (pruneStart (π := π) ps).boxes (pruneStart (π := π) ps).i (pruneStart (π := π) ps).phase :=
  ⟨fun k hk => absurd hk (Nat.not_lt_zero k), trivial⟩

theorem settles_step [Box β π] {s s' : PruneState β π} (hs : Settles s.boxes s.i s.phase) (hno : ¬s.AbsorbsEarlier)
    (h : pruneStep s = .next s') : Settles s'.boxes s'.i s'.phase := by
  cases Moves.of_next h with
  | enter hi =>
    refine ⟨hs.before, ⟨⟨_, ?_, rfl⟩, fun _ j' _ hj' => absurd hj' (Nat.not_lt_zero j')⟩⟩
    rw [PruneState.boxes, List.getElem?_map, hi]
    rfl
  | @advance ps i center j hj =>
    simp only [PruneState.boxes] at hs ⊢
    refine ⟨fun k hk => ?_, trivial⟩
    by_cases hki : k = i
    · subst hki
      exact hs.pass.clean (by simpa using List.getElem?_eq_none_iff.1 hj)
    · exact hs.before k (by omega)
  | again hj => exact ⟨hs.before, trivial⟩
  | @skip ps i center j removedAny pj hj hin =>
    simp only [PruneState.boxes] at hs ⊢
    obtain ⟨hown, hpassed⟩ := hs.pass
    refine ⟨hs.before, ⟨hown, fun hr j' a hlt hne ha => ?_⟩⟩
    by_cases hjj : j' = j
    · subst hjj
      rw [List.getElem?_map, hj] at ha
      cases ha
      exact hin hne.symm
    · exact hpassed hr j' a (by omega) hne ha
  | giveWay hj hi hij =>
    simp only [PruneState.boxes, map_boundingBox_set hj] at hs ⊢
    exact ⟨hs.before, trivial⟩
  | @absorb ps i center j removedAny pi pj hj hi hij hin hl =>
    have hlt : i < j := by
      rcases Nat.lt_or_gt_of_ne hij with h | h
      · exact h
      · exact absurd ⟨center, j, ⟨removedAny, pi, pj, rfl, hj, hi, hij, hin, hl⟩, h⟩ hno
    simp only [PruneState.boxes, map_boundingBox_set hi] at hs ⊢
    exact ⟨hs.before, hlt, hs.pass.own, fun h => Bool.noConfusion h⟩
  | @dropI ps i =>
    simp only [PruneState.boxes, map_boundingBox_eraseIdx] at hs ⊢
    exact ⟨fun k hk => (hs.before k hk).eraseIdx hk, trivial⟩
  | @dropJ ps i center j =>
    simp only [PruneState.boxes, map_boundingBox_eraseIdx] at hs ⊢
    obtain ⟨hij, ⟨b, hb, hc⟩, -⟩ := hs.pass
    refine ⟨fun k hk => (hs.before k hk).eraseIdx (by omega), ⟨b, ?_, hc⟩, fun h => Bool.noConfusion h⟩
    rw [List.getElem?_eraseIdx, if_pos hij, hb]

theorem settles_of_reach [Box β π] {ps : List (Projection β)}
    (hno : ∀ s : PruneState β π, Loop.Reach pruneStep (pruneStart ps) s → ¬s.AbsorbsEarlier) {s : PruneState β π}
    (h : Loop.Reach pruneStep (pruneStart ps) s) : Settles s.boxes s.i s.phase :=
  h.invariant_of_reach (settles_start ps) fun _ _ hreach ih => settles_step ih (hno _ hreach)

/-- When no projection ever absorbs an earlier one, the center read stays that of `projections[i]`. -/
theorem center_own [Box β π] {ps : List (Projection β)}
    (hno : ∀ s : PruneState β π, Loop.Reach pruneStep (pruneStart ps) s → ¬s.AbsorbsEarlier) {s : PruneState β π}
    (h : Loop.Reach pruneStep (pruneStart ps) s) {center : π} {j : ℕ} {removedAny : Bool}
    (hphase : s.phase = .inner center j removedAny) : ∃ b, s.boxes[s.i]? = some b ∧ Box.center b = center := by
  have hs := settles_of_reach hno h
  rw [hphase] at hs
  exact hs.pass.own

/-- When no projection ever absorbs an earlier one, no center of a resulting projection lies in the
box of another. -/
theorem prune_fixpoint [Box β π] {ps out : List (Projection β)}
    (hno : ∀ s : PruneState β π, Loop.Reach pruneStep (pruneStart ps) s → ¬s.AbsorbsEarlier)
    (h : Loop.Ends pruneStep (pruneStart (π := π) ps) (.ok out)) (i j : ℕ) (p q : Projection β) (hij : i ≠ j)
    (hp : out[i]? = some p) (hq : out[j]? = some q) : Box.inside q.boundingBox (Box.center p.boundingBox) = false := by
  obtain ⟨s, hr, hd⟩ := h.reach
  have hs := settles_of_reach hno hr
  obtain ⟨-, hi, rfl⟩ := pruneStep_done_inv hd
  have hlt := (List.getElem?_eq_some_iff.1 hp).1
  have hle := List.getElem?_eq_none_iff.1 hi
  refine hs.before i (by omega) j _ _ hij.symm ?_ ?_ <;> rw [PruneState.boxes, List.getElem?_map]
  · rw [hq]
    rfl
  · rw [hp]
    rfl

/-- A rectangle of four strokes, with the sides of its box along the axes. -/
def outline (x y halfWidth halfHeight : ℤ) : Projection UprightRect :=
  let a : Point2i := ⟨x - halfWidth, y - halfHeight⟩
  let b : Point2i := ⟨x + halfWidth, y - halfHeight⟩
  let c : Point2i := ⟨x + halfWidth, y + halfHeight⟩
  let d : Point2i := ⟨x - halfWidth, y + halfHeight⟩
  ⟨[a, b, c, d], [(a, b), (b, c), (c, d), (d, a)], [(0, 1), (1, 2), (2, 3), (3, 0)],
    ⟨(x, y), (2 : ℤ) * halfWidth, (2 : ℤ) * halfHeight⟩, none⟩

/-- A rectangle inside a larger one, and one far away. -/
def nestedOutlines : List (Projection UprightRect) := [outline 0 0 20 20, outline 5 5 5 5, outline 90 0 9 9]

theorem run_nestedOutlines : Loop.run pruneStep 30 (pruneStart nestedOutlines) =
    some (.ok [merge (outline 0 0 20 20) (outline 5 5 5 5), outline 90 0 9 9]) := rfl

theorem nestedOutlines_forward (s : PruneState UprightRect (ℤ × ℤ)) (h : Loop.Reach pruneStep (pruneStart nestedOutlines) s) :
    ¬s.AbsorbsEarlier :=
  have hall : ∀ s ∈ Loop.states pruneStep 30 (pruneStart nestedOutlines), ¬s.AbsorbsEarlier := by decide
  hall s (h.mem_states run_nestedOutlines)

theorem prune_fixpoint_nestedOutlines : ∃ out : List (Projection UprightRect), out.length = 2 ∧
    Loop.Ends pruneStep (pruneStart nestedOutlines) (.ok out) ∧
    ∀ (i j : ℕ) (p q : Projection UprightRect), i ≠ j → out[i]? = some p → out[j]? = some q →
      Box.inside q.boundingBox (Box.center p.boundingBox) = false :=
  ⟨_, rfl, ⟨30, run_nestedOutlines⟩, prune_fixpoint nestedOutlines_forward ⟨30, run_nestedOutlines⟩⟩

/-- The second rectangle absorbs the first one. The others move forward, the third is merged into the
second, and the fourth is not compared with the center of the second. -/
def shiftedOutlines : List (Projection UprightRect) :=
  [outline 0 4 5 5, outline 0 0 50 1, outline 300 0 5 5, outline 0 (-10) 15 11]

theorem shiftedOutlines_not_fixpoint : ∃ ps out : List (Projection RotatedRect),
    Loop.Ends pruneStep (pruneStart ps) (.ok out) ∧ ∃ (i j : ℕ) (p q : Projection RotatedRect), i ≠ j ∧
      out[i]? = some p ∧ out[j]? = some q ∧ Box.inside q.boundingBox (Box.center p.boundingBox) = true := by
  have hrun : Loop.Ends pruneStep (pruneStart shiftedOutlines) _ := ⟨40, rfl⟩
  refine ⟨_, _, prune_mapBox toRotated_maps hrun, 0, 1, _, _, by decide, rfl, rfl, ?_⟩
  exact (toRotated_maps.inside ..).trans rfl

/-! ## Termination -/

/-- How far a run is from its end: projections, positions left for `i`, then for `j`. A pass that
removed something comes before the one it is repeated in. -/
def PruneState.rest (s : PruneState β π) : ℕ ×ₗ ℕ ×ₗ ℕ ×ₗ ℕ :=
  let n := s.settled.length
  match s.phase with
  | .outer => toLex (n, toLex (n - s.i, toLex (1, 0)))
  | .inner _ j removedAny => toLex (n, toLex (n - s.i, toLex (if removedAny then 2 else 0, n - j)))
  | _ => toLex (n, toLex (n - s.i, toLex (3, 0)))

/-- `i` is a position while nothing was removed in a pass, and the one to be erased always is. -/
def PruneState.Bounded (s : PruneState β π) : Prop :=
  match s.phase with
  | .outer => True
  | .inner _ _ removedAny => removedAny = false → s.i < s.projections.length
  | .eraseI => s.i < s.projections.length
  | .eraseJ _ j => j < s.projections.length

theorem rest_lt [Box β π] {s s' : PruneState β π} (hs : s.Bounded) (h : pruneStep s = .next s') :
    s'.Bounded ∧ s'.rest < s.rest := by
  cases Moves.of_next h with
  | enter hi =>
    refine ⟨fun _ => (List.getElem?_eq_some_iff.1 hi).1, ?_⟩
    simp [PruneState.rest, PruneState.settled, Prod.Lex.toLex_lt_toLex]
  | @advance ps i center j hj =>
    have hi : i < ps.length := hs rfl
    refine ⟨trivial, ?_⟩
    simp only [PruneState.rest, PruneState.settled, Prod.Lex.toLex_lt_toLex]
    exact .inr ⟨trivial, .inl (by omega)⟩
  | again hj =>
    refine ⟨trivial, ?_⟩
    simp [PruneState.rest, PruneState.settled, Prod.Lex.toLex_lt_toLex]
  | skip hj hin =>
    have hlt := (List.getElem?_eq_some_iff.1 hj).1
    refine ⟨hs, ?_⟩
    simp only [PruneState.rest, PruneState.settled, Prod.Lex.toLex_lt_toLex]
    exact .inr ⟨trivial, .inr ⟨trivial, .inr ⟨trivial, by omega⟩⟩⟩
  | giveWay hj hi hij =>
    have hlt := (List.getElem?_eq_some_iff.1 hi).1
    refine ⟨by simpa [PruneState.Bounded] using hlt, ?_⟩
    simp only [PruneState.rest, PruneState.settled, Prod.Lex.toLex_lt_toLex, List.length_eraseIdx, List.length_set,
      if_pos hlt]
    exact .inl (by omega)
  | absorb hj hi hij =>
    have hlt := (List.getElem?_eq_some_iff.1 hj).1
    refine ⟨by simpa [PruneState.Bounded] using hlt, ?_⟩
    simp only [PruneState.rest, PruneState.settled, Prod.Lex.toLex_lt_toLex, List.length_eraseIdx, List.length_set,
      if_pos hlt]
    exact .inl (by omega)
  | dropI =>
    refine ⟨trivial, ?_⟩
    simp [PruneState.rest, PruneState.settled, Prod.Lex.toLex_lt_toLex]
  | dropJ =>
    refine ⟨fun h => Bool.noConfusion h, ?_⟩
    simp [PruneState.rest, PruneState.settled, Prod.Lex.toLex_lt_toLex]

theorem prune_terminates [Box β π] (ps : List (Projection β)) :
    ∃ o, Loop.Ends pruneStep (pruneStart (π := π) ps) o :=
  Loop.ends_of_wellFounded (wellFounded_lt (α := ℕ ×ₗ ℕ ×ₗ ℕ ×ₗ ℕ)) (I := PruneState.Bounded)
    (μ := PruneState.rest) (fun _ _ => rest_lt) _ trivial

/-! ## Reads past the end -/

/-- The positions a step reads, merges or erases; `projections[i]` is read for the center only inside
the loop's condition. -/
def PruneState.accesses [Box β π] (s : PruneState β π) : List ℕ :=
  match s.phase with
  | .outer => if s.i < s.projections.length then [s.i] else []
  | .inner center j _ =>
    match s.projections[j]? with
    | none => []
    | some pj => if s.i = j then [] else if Box.inside pj.boundingBox center then [j, s.i] else [j]
  | .eraseI => [s.i]
  | .eraseJ _ j => [j]

/-- The last projection absorbs an earlier one, and the box of a projection behind that one contains
the center. -/
def PruneState.Overruns [Box β π] (s : PruneState β π) : Prop :=
  ∃ center j k pk, s.Absorbs center j ∧ j < s.i ∧ s.i + 1 = s.projections.length ∧ j < k ∧
    s.projections[k]? = some pk ∧ Box.inside pk.boundingBox center = true

/-- Where a run stands: `i` is a position, unless the last projection has absorbed an earlier one in
this pass. -/
def Trail [Box β π] (ps : List (Projection β)) (s : PruneState β π) : Prop :=
  match s.phase with
  | .outer => True
  | .inner center j _ => s.i < s.projections.length ∨ ∃ s₀ j₀, Loop.Reach pruneStep (pruneStart ps) s₀ ∧
      s₀.Absorbs center j₀ ∧ j₀ < s₀.i ∧ s₀.i + 1 = s₀.projections.length ∧ s.boxes = s₀.boxes.eraseIdx j₀ ∧ j₀ ≤ j
  | .eraseI => s.i < s.projections.length
  | .eraseJ center j => s.i < s.projections.length ∧ j < s.projections.length ∧ s.i ≠ j ∧
      ∃ s₀, Loop.Reach pruneStep (pruneStart ps) s₀ ∧ s₀.Absorbs center j ∧ s₀.i = s.i ∧ s₀.boxes = s.boxes

theorem length_boxes (s : PruneState β π) : s.boxes.length = s.projections.length := List.length_map ..

theorem trail_step [Box β π] {ps : List (Projection β)} {s s' : PruneState β π}
    (hr : Loop.Reach pruneStep (pruneStart ps) s) (hs : Trail ps s) (h : pruneStep s = .next s') : Trail ps s' := by
  cases Moves.of_next h with
  | enter hi => exact .inl (List.getElem?_eq_some_iff.1 hi).1
  | advance | again | dropI => exact trivial
  | skip hj hin =>
    rcases hs with hs | ⟨s₀, j₀, hr₀, habs, hlt, hlast, hboxes, hle⟩
    · exact .inl hs
    · exact .inr ⟨s₀, j₀, hr₀, habs, hlt, hlast, hboxes, by omega⟩
  | giveWay hj hi hij =>
    have hlt := (List.getElem?_eq_some_iff.1 hi).1
    simpa [Trail] using hlt
  | @absorb qs i center j removedAny pi pj hj hi hij hin hl =>
    have hlti := (List.getElem?_eq_some_iff.1 hi).1
    have hltj := (List.getElem?_eq_some_iff.1 hj).1
    refine ⟨by simpa using hlti, by simpa using hltj, hij, _, hr,
      ⟨removedAny, pi, pj, rfl, hj, hi, hij, hin, hl⟩, rfl, ?_⟩
    simp only [PruneState.boxes, map_boundingBox_set hi]
  | @dropJ qs i center j =>
    obtain ⟨hi, hj, hij, s₀, hr₀, habs, hsi, hboxes⟩ := hs
    simp only at hi hj hij hsi
    have hlen : s₀.projections.length = qs.length := by
      rw [← length_boxes, hboxes, length_boxes]
    have herase := List.length_eraseIdx_of_lt hj
    by_cases hlast : i + 1 = qs.length
    · refine .inr ⟨s₀, j, hr₀, habs, by omega, by omega, ?_, le_refl _⟩
      rw [hboxes]
      simp only [PruneState.boxes, map_boundingBox_eraseIdx]
    · refine .inl ?_
      simp only [herase]
      omega

/-- A step that fails comes after an overrun. -/
theorem overruns_of_fail [Box β π] {ps : List (Projection β)} {s : PruneState β π} {f : Fault}
    (hr : Loop.Reach pruneStep (pruneStart ps) s) (h : pruneStep s = .fail f) :
    ∃ s₀ : PruneState β π, Loop.Reach pruneStep (pruneStart ps) s₀ ∧ s₀.Overruns := by
  have htrail := hr.invariant_of_reach (I := Trail ps) trivial fun _ _ => trail_step
  obtain ⟨-, center, j, removedAny, pj, hphase, hj, hij, hin, hi⟩ := pruneStep_fail_iff.1 h
  rw [Trail, hphase] at htrail
  rcases htrail with hlt | ⟨s₀, j₀, hr₀, habs, hlt, hlast, hboxes, hle⟩
  · exact absurd hlt (not_lt.2 (List.getElem?_eq_none_iff.1 hi))
  · -- what stands at `j` now stood one place behind before the erasure
    have hbox : s₀.boxes[j + 1]? = some pj.boundingBox := by
      have hget : s.boxes[j]? = some pj.boundingBox := by rw [PruneState.boxes, List.getElem?_map, hj]; rfl
      rwa [hboxes, List.getElem?_eraseIdx, if_neg (by omega)] at hget
    rw [PruneState.boxes, List.getElem?_map] at hbox
    obtain ⟨pk, hpk, hbk⟩ := Option.map_eq_some_iff.1 hbox
    exact ⟨s₀, hr₀, center, j₀, j + 1, pk, habs, hlt, hlast, by omega, hpk, by rw [hbk]; exact hin⟩

/-- With `i` past the end, the pass fails at the first box that contains the center. -/
theorem fail_of_past_end [Box β π] : ∀ (d : ℕ) (ps : List (Projection β)) (i : ℕ) (center : π) (j : ℕ) (removedAny : Bool)
    (pk : Projection β), ps.length ≤ i → ps[j + d]? = some pk → Box.inside pk.boundingBox center = true →
    ∃ s, Loop.Reach pruneStep ⟨ps, i, .inner center j removedAny⟩ s ∧ pruneStep s = .fail .outOfRange
  | d, ps, i, center, j, removedAny, pk, hi, hk, hin => by
    have hlt := (List.getElem?_eq_some_iff.1 hk).1
    have hj : ps[j]? = some (ps[j]) := List.getElem?_eq_getElem (by omega)
    by_cases hjin : Box.inside (ps[j]).boundingBox center = true
    · refine ⟨_, .refl, pruneStep_fail_iff.2 ⟨rfl, center, j, removedAny, ps[j], rfl, hj, ?_, hjin, ?_⟩⟩
      · show i ≠ j
        omega
      · exact List.getElem?_eq_none hi
    · cases d with
      | zero =>
        rw [Nat.add_zero, hj] at hk
        cases hk
        exact absurd hin hjin
      | succ d =>
        have hskip : Moves (⟨ps, i, .inner center j removedAny⟩ : PruneState β π) _ :=
          .skip hj fun _ => Bool.eq_false_iff.2 hjin
        obtain ⟨s, hr, hf⟩ := fail_of_past_end d ps i center (j + 1) removedAny pk hi
          (by rwa [Nat.add_right_comm]) hin
        exact ⟨s, hr.head hskip.next, hf⟩

theorem fail_of_overruns [Box β π] {s : PruneState β π} (h : s.Overruns) :
    ∃ s', Loop.Reach pruneStep s s' ∧ pruneStep s' = .fail .outOfRange := by
  obtain ⟨center, j, k, pk, ⟨removedAny, pi, pj, hphase, hj, hi, hij, hin, hl⟩, hlt, hlast, hjk, hk, hkin⟩ := h
  obtain ⟨ps, i, phase⟩ := s
  simp only at hphase hj hi hij hlt hlast hk
  subst hphase
  have habsorb : Moves (⟨ps, i, .inner center j removedAny⟩ : PruneState β π) _ := .absorb hj hi hij hin hl
  have hdrop : Moves (⟨ps.set i (merge pi pj), i, .eraseJ center j⟩ : PruneState β π) _ := .dropJ
  -- the box at `k` stands at `k - 1` after the erasure
  have hboxes : ((ps.set i (merge pi pj)).eraseIdx j).map Projection.boundingBox =
      (ps.map Projection.boundingBox).eraseIdx j := by
    rw [map_boundingBox_eraseIdx, map_boundingBox_set hi]
  have hget : (((ps.set i (merge pi pj)).eraseIdx j).map Projection.boundingBox)[j + (k - 1 - j)]? =
      some pk.boundingBox := by
    rw [hboxes, List.getElem?_eraseIdx, if_neg (by omega), show j + (k - 1 - j) + 1 = k by omega, List.getElem?_map, hk]
    rfl
  rw [List.getElem?_map] at hget
  obtain ⟨pk', hpk', hbox⟩ := Option.map_eq_some_iff.1 hget
  have hlen : ((ps.set i (merge pi pj)).eraseIdx j).length ≤ i := by
    rw [List.length_eraseIdx_of_lt (by rw [List.length_set]; omega), List.length_set]
    omega
  obtain ⟨s', hr, hf⟩ := fail_of_past_end _ _ i center j true pk' hlen hpk' (by rw [hbox]; exact hkin)
  exact ⟨s', (hr.head hdrop.next).head habsorb.next, hf⟩

/-- A step that does not fail stays inside the list. -/
theorem accesses_lt [Box β π] {ps : List (Projection β)} {s : PruneState β π} (hs : Trail ps s)
    (hok : ∀ f, pruneStep s ≠ .fail f) : ∀ k ∈ s.accesses, k < s.projections.length := by
  obtain ⟨qs, i, phase⟩ := s
  cases phase with
  | outer =>
    intro k hk
    simp only [PruneState.accesses] at hk
    split at hk
    · rename_i hi
      rwa [List.mem_singleton.1 hk]
    · cases hk
  | inner center j removedAny =>
    intro k hk
    simp only [PruneState.accesses] at hk
    split at hk
    · cases hk
    · rename_i pj hj
      have hlt := (List.getElem?_eq_some_iff.1 hj).1
      split at hk
      · cases hk
      · rename_i hij
        split at hk
        · rename_i hin
          rcases List.mem_cons.1 hk with rfl | hk
          · exact hlt
          · rw [List.mem_singleton.1 hk]
            by_contra hi
            -- a position past the end would make this step fail
            exact hok _ (pruneStep_fail_iff.2 ⟨rfl, center, j, removedAny, pj, rfl, hj, hij, hin,
              List.getElem?_eq_none (not_lt.1 hi)⟩)
        · rwa [List.mem_singleton.1 hk]
  | eraseI =>
    intro k hk
    rwa [List.mem_singleton.1 hk]
  | eraseJ center j =>
    intro k hk
    rw [List.mem_singleton.1 hk]
    exact hs.2.1

/-- A step that fails has read past the end. -/
theorem exists_access_of_fail [Box β π] {s : PruneState β π} {f : Fault} (h : pruneStep s = .fail f) :
    ∃ k ∈ s.accesses, ¬k < s.projections.length := by
  obtain ⟨-, center, j, removedAny, pj, hphase, hj, hij, hin, hi⟩ := pruneStep_fail_iff.1 h
  refine ⟨s.i, ?_, not_lt.2 (List.getElem?_eq_none_iff.1 hi)⟩
  simp [PruneState.accesses, hphase, hj, hij, hin]

/-- `prune` always terminates, and it reads, merges and erases inside the list exactly when the last
projection never absorbs an earlier one while a box behind that one contains the center. -/
theorem prune_inRange_iff [Box β π] (ps : List (Projection β)) :
    (∃ o, Loop.Ends pruneStep (pruneStart (π := π) ps) o) ∧
    ((∀ s : PruneState β π, Loop.Reach pruneStep (pruneStart ps) s → ∀ k ∈ s.accesses, k < s.projections.length) ↔
      ∀ s : PruneState β π, Loop.Reach pruneStep (pruneStart ps) s → ¬s.Overruns) := by
  refine ⟨prune_terminates ps, fun h s hr hover => ?_, fun h s hr => ?_⟩
  · obtain ⟨s', hr', hf⟩ := fail_of_overruns hover
    obtain ⟨k, hk, hpast⟩ := exists_access_of_fail hf
    exact hpast (h s' (hr.trans hr') k hk)
  · refine accesses_lt (hr.invariant_of_reach (I := Trail ps) trivial fun _ _ => trail_step) fun f hf => ?_
    obtain ⟨s₀, hr₀, hover⟩ := overruns_of_fail hr hf
    exact h s₀ hr₀ hover

/-- After the second rectangle has absorbed the first it stands at 0, its box contains the center read
before, and `projections[1]` is read from a list of one. -/
theorem shiftedOutlines_out_of_range : ∃ (ps : List (Projection RotatedRect)) (s : PruneState RotatedRect (ℝ × ℝ)),
    Loop.Reach pruneStep (pruneStart ps) s ∧ ∃ k ∈ s.accesses, ¬k < s.projections.length := by
  have hrun : Loop.Ends pruneStep (pruneStart (shiftedOutlines.take 2)) (.error .outOfRange) := ⟨20, rfl⟩
  obtain ⟨s, hr, hf⟩ := (prune_mapBox toRotated_maps hrun).reach_fail
  exact ⟨_, s, hr, exists_access_of_fail hf⟩

end DetailIdentifier.Interpreter
