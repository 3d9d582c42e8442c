/-
`merge` and `prune` as a state machine, and what every run of it conserves: the strokes and the
vertices of the drawing (`prune_conserves_strokes`).

A merge and the erasure after it are two steps, so that the state between them is a state of the
run. `settled` is the list without the projection that is about to be erased; the two steps
together move one projection of it into another (`settled_step`).
-/
import DetailIdentifier.Lib.Lists
import DetailIdentifier.Interpreter.Separate
import DetailIdentifier.Interpreter.Box

namespace DetailIdentifier.Interpreter

variable {β π : Type}

/-! ## The loops -/

/-- `merge(target, src)`: `cedges` move by the number of vertices `target` had. -/
def merge (target src : Projection β) : Projection β :=
  { target with
    vertices := target.vertices ++ src.vertices
    edges := target.edges ++ src.edges
    cedges := target.cedges ++ (src.cedges.take src.edges.length).map fun c =>
      (c.1 + target.vertices.length, c.2 + target.vertices.length) }

/-- Where `prune` stands: at the head of the outer loop, at the head of the inner one, or between
a merge and the erasure of `projections[i]` or `projections[j]`. -/
inductive Phase (π : Type) where
  | outer
  | inner (center : π) (j : ℕ) (removedAny : Bool)
  | eraseI
  | eraseJ (center : π) (j : ℕ)

structure PruneState (β π : Type) where
  projections : List (Projection β)
  i : ℕ
  phase : Phase π

/-- One step of `prune`. After `erase(begin() + j)` the code's `--j` and the loop's `++j` cancel,
also at `j = 0`, where they wrap around. -/
def pruneStep [Box β π] (s : PruneState β π) : Loop.Step (PruneState β π) (List (Projection β)) Fault :=
  match s.phase with
  | .outer =>
    match s.projections[s.i]? with
    | none => .done s.projections
    | some p => .next { s with phase := .inner (Box.center p.boundingBox) 0 false }
  | .inner center j removedAny =>
    match s.projections[j]? with
    | none => .next (if removedAny then { s with phase := .outer } else { s with i := s.i + 1, phase := .outer })
    | some pj =>
      if s.i = j then .next { s with phase := .inner center (j + 1) removedAny }
      else if Box.inside pj.boundingBox center then
        match s.projections[s.i]? with
        | none => .fail .outOfRange
        | some pi =>
          -- the inner loop breaks with the first merge and goes on after the second
          if Box.larger pj.boundingBox pi.boundingBox then
            .next { s with projections := s.projections.set j (merge pj pi), phase := .eraseI }
          else
            .next { s with projections := s.projections.set s.i (merge pi pj), phase := .eraseJ center j }
      else .next { s with phase := .inner center (j + 1) removedAny }
  | .eraseI => .next { s with projections := s.projections.eraseIdx s.i, phase := .outer }
  | .eraseJ center j => .next { s with projections := s.projections.eraseIdx j, phase := .inner center j true }

/-- `prune` starts at the head of the outer loop with `i = 0`. -/
def pruneStart (projections : List (Projection β)) : PruneState β π := ⟨projections, 0, .outer⟩

/-- `c.bounding_box = b`. -/
def Projection.withBox (p : Projection β) (b : β) : Projection β := { p with boundingBox := b }

/-- The loop of `generate_interpretation` that gives the separated projections their boxes. -/
def giveBoxes (boxes : ℕ → β) (ps : List (Projection β)) : List (Projection β) :=
  ps.mapIdx fun k p => p.withBox (boxes k)

/-! ## One step -/

/-- The projections without the one about to be erased. -/
def PruneState.settled (s : PruneState β π) : List (Projection β) :=
  match s.phase with
  | .eraseI => s.projections.eraseIdx s.i
  | .eraseJ _ j => s.projections.eraseIdx j
  | _ => s.projections

/-- The run ends when `i` has passed the last projection. -/
theorem pruneStep_done_inv [Box β π] {s : PruneState β π} {r : List (Projection β)} (h : pruneStep s = .done r) :
    s.phase = .outer ∧ s.projections[s.i]? = none ∧ r = s.projections := by
  obtain ⟨ps, i, ph⟩ := s
  cases ph with
  | outer =>
    simp only [pruneStep] at h
    split at h <;> cases h
    exact ⟨rfl, ‹_›, rfl⟩
  | inner center j b =>
    simp only [pruneStep] at h
    repeat' split at h
    all_goals cases h
  | eraseI => cases h
  | eraseJ center j => cases h

theorem prune_done [Box β π] {s : PruneState β π} {r : List (Projection β)} (h : pruneStep s = .done r) :
    r = s.settled := by
  obtain ⟨hphase, -, rfl⟩ := pruneStep_done_inv h
  simp only [PruneState.settled, hphase]

/-- The steps of `prune`: into and out of the inner loop, over a projection, the two merges and the
two erasures. -/
inductive Moves [Box β π] : PruneState β π → PruneState β π → Prop where
  | enter {ps i p} : ps[i]? = some p → Moves ⟨ps, i, .outer⟩ ⟨ps, i, .inner (Box.center p.boundingBox) 0 false⟩
  | advance {ps i center j} : ps[j]? = none → Moves ⟨ps, i, .inner center j false⟩ ⟨ps, i + 1, .outer⟩
  | again {ps i center j} : ps[j]? = none → Moves ⟨ps, i, .inner center j true⟩ ⟨ps, i, .outer⟩
  | skip {ps i center j removedAny pj} : ps[j]? = some pj → (i ≠ j → Box.inside pj.boundingBox center = false) →
      Moves ⟨ps, i, .inner center j removedAny⟩ ⟨ps, i, .inner center (j + 1) removedAny⟩
  | giveWay {ps i center j removedAny pi pj} : ps[j]? = some pj → ps[i]? = some pi → i ≠ j →
      Box.inside pj.boundingBox center = true → Box.larger pj.boundingBox pi.boundingBox = true →
      Moves ⟨ps, i, .inner center j removedAny⟩ ⟨ps.set j (merge pj pi), i, .eraseI⟩
  | absorb {ps i center j removedAny pi pj} : ps[j]? = some pj → ps[i]? = some pi → i ≠ j →
      Box.inside pj.boundingBox center = true → Box.larger pj.boundingBox pi.boundingBox = false →
      Moves ⟨ps, i, .inner center j removedAny⟩ ⟨ps.set i (merge pi pj), i, .eraseJ center j⟩
  | dropI {ps i} : Moves ⟨ps, i, .eraseI⟩ ⟨ps.eraseIdx i, i, .outer⟩
  | dropJ {ps i center j} : Moves ⟨ps, i, .eraseJ center j⟩ ⟨ps.eraseIdx j, i, .inner center j true⟩

theorem Moves.of_next [Box β π] {s s' : PruneState β π} (h : pruneStep s = .next s') : Moves s s' := by
  obtain ⟨ps, i, ph⟩ := s
  cases ph with
  | outer =>
    simp only [pruneStep] at h
    split at h <;> cases h
    exact .enter ‹_›
  | inner center j removedAny =>
    simp only [pruneStep] at h
    split at h
    · cases removedAny <;> cases h
      exacts [.advance ‹_›, .again ‹_›]
    · rename_i pj hj
      split at h
      · rename_i hij
        cases h
        exact .skip hj fun hne => absurd hij hne
      · rename_i hij
        split at h
        · rename_i hin
          split at h
          · cases h
          · rename_i pi hi
            split at h <;> rename_i hl <;> cases h
            exacts [.giveWay hj hi hij hin hl, .absorb hj hi hij hin (Bool.eq_false_iff.2 hl)]
        · rename_i hin
          cases h
          exact .skip hj fun _ => Bool.eq_false_iff.2 hin
  | eraseI => cases h; exact .dropI
  | eraseJ center j => cases h; exact .dropJ

theorem Moves.next [Box β π] {s s' : PruneState β π} (h : Moves s s') : pruneStep s = .next s' := by
  cases h with
  | enter hi => simp only [pruneStep, hi]
  | advance hj => simp [pruneStep, hj]
  | again hj => simp [pruneStep, hj]
  | skip hj hin =>
    simp only [pruneStep, hj]
    split
    · rfl
    · rename_i hij
      rw [hin hij, if_neg Bool.false_ne_true]
  | giveWay hj hi hij hin hl => simp only [pruneStep, hj, hi, hin, hl, hij, if_true, if_false]
  | absorb hj hi hij hin hl => simp only [pruneStep, hj, hi, hin, hl, hij, if_true, if_false, Bool.false_eq_true]
  | dropI => rfl
  | dropJ => rfl

/-- A step fails when it needs the box of a projection that is no longer there. -/
theorem pruneStep_fail_iff [Box β π] {s : PruneState β π} {f : Fault} : pruneStep s = .fail f ↔
    f = .outOfRange ∧ ∃ center j removedAny pj, s.phase = .inner center j removedAny ∧ s.projections[j]? = some pj ∧
      s.i ≠ j ∧ Box.inside pj.boundingBox center = true ∧ s.projections[s.i]? = none := by
  obtain ⟨ps, i, ph⟩ := s
  constructor
  · intro h
    cases ph with
    | inner center j removedAny =>
      simp only [pruneStep] at h
      split at h
      · cases h
      · rename_i pj hj
        split at h
        · cases h
        · rename_i hij
          split at h
          · rename_i hin
            split at h
            · rename_i hi
              cases h
              exact ⟨rfl, center, j, removedAny, pj, rfl, hj, hij, hin, hi⟩
            · split at h <;> cases h
          · cases h
    | outer =>
      simp only [pruneStep] at h
      split at h <;> cases h
    | eraseI => cases h
    | eraseJ center j => cases h
  · rintro ⟨rfl, center, j, removedAny, pj, rfl, hj, hij, hin, hi⟩
    simp only [pruneStep, hj, hi, hin, hij, if_true, if_false]

/-- What one step does: it keeps the projections, erases the one already merged away, or merges
one projection into another (both of the list before), which then is about to be erased. -/
theorem prune_cases [Box β π] {s s' : PruneState β π} (h : pruneStep s = .next s') :
    (s'.settled = s.settled ∧ s'.projections ⊆ s.projections) ∨
    ∃ (target src : Projection β) (t k : ℕ), k ≠ t ∧ s.settled = s.projections ∧
      s.projections[t]? = some target ∧ s.projections[k]? = some src ∧
      s'.projections = s.projections.set t (merge target src) ∧ s'.settled = s'.projections.eraseIdx k := by
  cases Moves.of_next h with
  | enter | advance | again | skip => exact .inl ⟨rfl, List.Subset.refl _⟩
  | giveWay hj hi hij => exact .inr ⟨_, _, _, _, hij, rfl, hj, hi, rfl, rfl⟩
  | absorb hj hi hij => exact .inr ⟨_, _, _, _, hij.symm, rfl, hi, hj, rfl, rfl⟩
  | dropI | dropJ => exact .inl ⟨rfl, (List.eraseIdx_sublist _ _).subset⟩

/-- One step keeps the settled projections or replaces two of them by their merge. -/
theorem settled_step [Box β π] {s s' : PruneState β π} (h : pruneStep s = .next s') :
    s'.settled = s.settled ∨
    ∃ target src rest, s.settled.Perm (src :: target :: rest) ∧ s'.settled.Perm (merge target src :: rest) := by
  rcases prune_cases h with ⟨h, -⟩ | ⟨target, src, t, k, hkt, hs, ht, hk, hp, hs'⟩
  · exact .inl h
  · obtain ⟨rest, h1, h2⟩ := List.exists_perm_set_eraseIdx hkt hk ht
    exact .inr ⟨target, src, rest, by rw [hs]; exact h1, by rw [hs', hp]; exact h2 _⟩

/-! ## Projections of another kind -/

section Map

variable {β' π' : Type} (F : Projection β → Projection β') (f : β → β') (g : π → π')

def Projection.mapBox (p : Projection β) : Projection β' := ⟨p.vertices, p.edges, p.cedges, f p.boundingBox, p.s⟩

@[simp] theorem Projection.boundingBox_mapBox (p : Projection β) : (p.mapBox f).boundingBox = f p.boundingBox := rfl

/-- A map of projections that moves their boxes by `f` and goes through a merge. -/
structure Carries : Prop where
  box : ∀ p, (F p).boundingBox = f p.boundingBox
  merge : ∀ a b, merge (F a) (F b) = F (merge a b)

theorem carries_mapBox : Carries (Projection.mapBox f) f := ⟨fun _ => rfl, fun _ _ => rfl⟩

def Phase.map : Phase π → Phase π'
  | .outer => .outer
  | .inner center j removedAny => .inner (g center) j removedAny
  | .eraseI => .eraseI
  | .eraseJ center j => .eraseJ (g center) j

def PruneState.map (s : PruneState β π) : PruneState β' π' := ⟨s.projections.map F, s.i, s.phase.map g⟩

def PruneState.mapBox (s : PruneState β π) : PruneState β' π' :=
  ⟨s.projections.map (Projection.mapBox f), s.i, s.phase.map g⟩

variable {F f g}

/-- `prune` does the same where the tests on the boxes come out the same. -/
theorem pruneStep_map [Box β π] [Box β' π'] (hF : Carries F f) (h : Box.Maps f g) (s : PruneState β π) :
    pruneStep (s.map F g) = (pruneStep s).map (PruneState.map F g) (List.map F) := by
  obtain ⟨ps, i, phase⟩ := s
  cases phase with
  | outer =>
    simp only [pruneStep, PruneState.map, Phase.map, List.getElem?_map]
    cases ps[i]? with
    | none => rfl
    | some p => simp only [Option.map_some, hF.box, h.center]; rfl
  | inner center j removedAny =>
    simp only [pruneStep, PruneState.map, Phase.map, List.getElem?_map]
    cases ps[j]? with
    | none => cases removedAny <;> rfl
    | some pj =>
      simp only [Option.map_some, hF.box, h.inside]
      split
      · rfl
      · split
        · cases ps[i]? with
          | none => rfl
          | some pi =>
            simp only [Option.map_some, hF.box, h.larger, hF.merge, ← List.map_set]
            split <;> rfl
        · rfl
  | eraseI | eraseJ => simp only [pruneStep, PruneState.map, Phase.map, Loop.Step.map, List.eraseIdx_map]

theorem prune_map [Box β π] [Box β' π'] (hF : Carries F f) (h : Box.Maps f g) {ps : List (Projection β)}
    {o : Except Fault (List (Projection β))} (ho : Loop.Ends pruneStep (pruneStart ps) o) :
    Loop.Ends pruneStep (pruneStart (ps.map F)) (o.map (List.map F)) :=
  Loop.Ends.map (pruneStep_map hF h) ho

theorem pruneStep_mapBox [Box β π] [Box β' π'] (h : Box.Maps f g) (s : PruneState β π) :
    pruneStep (s.mapBox f g) = (pruneStep s).map (PruneState.mapBox f g) (List.map (Projection.mapBox f)) :=
  pruneStep_map (carries_mapBox f) h s

theorem prune_mapBox [Box β π] [Box β' π'] (h : Box.Maps f g) {ps : List (Projection β)}
    {o : Except Fault (List (Projection β))} (ho : Loop.Ends pruneStep (pruneStart ps) o) :
    Loop.Ends pruneStep (pruneStart (ps.map (Projection.mapBox f))) (o.map (List.map (Projection.mapBox f))) :=
  prune_map (carries_mapBox f) h ho

end Map

/-! ## Conservation -/

/-- What `merge` appends is conserved by every run of `prune`. -/
theorem prune_conserves [Box β π] {α : Type} (f : Projection β → List α)
    (hf : ∀ a b, f (merge a b) = f a ++ f b) {s : PruneState β π} {out : List (Projection β)}
    (h : Loop.Ends pruneStep s (.ok out)) : (out.flatMap f).Perm (s.settled.flatMap f) := by
  obtain ⟨s', hr, hd⟩ := h.reach
  rw [prune_done hd]
  refine hr.invariant (I := fun t => (t.settled.flatMap f).Perm (s.settled.flatMap f)) (.refl _) ?_
  intro a b ha hab
  rcases settled_step hab with hab | ⟨target, src, rest, h1, h2⟩
  · rw [hab]; exact ha
  · refine ((h2.flatMap_right f).trans ?_).trans ((h1.symm.flatMap_right f).trans ha)
    simp only [List.flatMap_cons, hf, ← List.append_assoc]
    exact List.perm_append_comm.append_right _

theorem flatMap_giveBoxes {α : Type} (f : Projection β → List α)
    (hf : ∀ (p : Projection β) b, f (p.withBox b) = f p) (boxes : ℕ → β) (ps : List (Projection β)) :
    (giveBoxes boxes ps).flatMap f = ps.flatMap f := by
  rw [List.flatMap_def, List.flatMap_def]
  congr 1
  exact List.ext_getElem (by simp [giveBoxes]) fun i _ _ => by simp [giveBoxes, hf]

/-- The components of a separation hold each touched index once. -/
theorem Separation.indices_perm {inp : Input} {comps : List Component} (h : Separation inp comps) :
    (comps.flatMap fun k => k.indices.toList).Perm inp.touched := by
  refine (List.perm_ext_iff_of_nodup ?_ inp.nodup_touched).2 fun i => ?_
  · rw [List.nodup_flatMap]
    exact ⟨fun k _ => k.nodup_indices, h.disjoint.imp fun hd i ha hb =>
      hd i (Std.TreeSet.mem_toList.1 ha) (Std.TreeSet.mem_toList.1 hb)⟩
  · rw [inp.mem_touched, List.mem_flatMap]
    constructor
    · rintro ⟨k, hk, hi⟩
      obtain ⟨e, he, hi⟩ := (k.touched i).1 (Std.TreeSet.mem_toList.1 hi)
      exact ⟨e, h.perm.subset (List.mem_flatMap.2 ⟨k, hk, he⟩), hi⟩
    · rintro ⟨e, he, hi⟩
      obtain ⟨k, hk, he⟩ := List.mem_flatMap.1 (h.perm.symm.subset he)
      exact ⟨k, hk, Std.TreeSet.mem_toList.2 ((k.touched i).2 ⟨e, he, hi⟩)⟩

/-- No stroke of the drawing is lost or duplicated: whatever bounding boxes the separated
projections get, when `prune` runs to completion the strokes of the resulting projections are the
strokes of the drawing and their vertices are the distinct vertices that occur in some stroke,
each counted once. -/
theorem prune_conserves_strokes [Inhabited β] [Box β π] (inp : Input) (boxes : ℕ → β) (ps out : List (Projection β))
    (hs : separateProjections inp.vertices inp.edges = .ok ps)
    (hp : Loop.Ends pruneStep (pruneStart (giveBoxes boxes ps)) (.ok out)) :
    (out.flatMap Projection.edges).Perm (inp.edges.map inp.stroke) ∧
      (out.flatMap Projection.vertices).Perm (inp.touched.map inp.coord) := by
  obtain ⟨comps, hsep, hcomps⟩ := separate_spec (β := β) inp
  rw [hs] at hcomps
  cases hcomps
  have start : (pruneStart (π := π) (giveBoxes boxes (comps.map (Component.toProjection inp)))).settled =
      giveBoxes boxes (comps.map (Component.toProjection inp)) := rfl
  constructor
  · have h := prune_conserves Projection.edges (fun _ _ => rfl) hp
    rw [start, flatMap_giveBoxes _ (fun _ _ => rfl), List.flatMap_map] at h
    apply h.trans
    rw [show (comps.flatMap fun k => (k.toProjection (β := β) inp).edges) =
      (comps.flatMap Component.edges).map inp.stroke from List.map_flatMap.symm]
    exact hsep.perm.map _
  · have h := prune_conserves Projection.vertices (fun _ _ => rfl) hp
    rw [start, flatMap_giveBoxes _ (fun _ _ => rfl), List.flatMap_map] at h
    apply h.trans
    rw [show (comps.flatMap fun k => (k.toProjection (β := β) inp).vertices) =
      (comps.flatMap fun k => k.indices.toList).map inp.coord from List.map_flatMap.symm]
    exact hsep.indices_perm.map _

/-- Two strokes apart from each other, whose boxes lie around the same center. -/
def nestedStrokes : Input where
  vertices := [⟨0, 0⟩, ⟨10, 10⟩, ⟨4, 6⟩, ⟨6, 4⟩]
  edges := [(0, 1), (2, 3)]
  inRange := by decide

theorem prune_conserves_nestedStrokes : ∃ ps out : List (Projection UprightRect),
    separateProjections nestedStrokes.vertices nestedStrokes.edges = .ok ps ∧ ps.length = 2 ∧ out.length = 1 ∧
      (out.flatMap Projection.edges).Perm (nestedStrokes.edges.map nestedStrokes.stroke) ∧
      (out.flatMap Projection.vertices).Perm (nestedStrokes.touched.map nestedStrokes.coord) :=
  ⟨_, _, rfl, rfl, rfl, prune_conserves_strokes nestedStrokes
    (fun k => if k = 0 then ⟨(5, 5), 2, 2⟩ else ⟨(5, 5), 10, 10⟩) _ [_] rfl ⟨20, rfl⟩⟩

end DetailIdentifier.Interpreter
