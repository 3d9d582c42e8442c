/-
Which input projections `prune` merges. A ghost follows the run: for every projection the list of
input positions merged into it (`Assembled`). Two inputs in one group are linked by boxes that
contain each other's centers as long as every merge compares with the center of `projections[i]`
itself (`prune_merges_related`); the center read at the start of a pass may be another's by then.
-/
import DetailIdentifier.Interpreter.Passes

namespace DetailIdentifier.Interpreter

variable {β π : Type}

/-! ## Groups -/

/-- What a step does to the list of projections: nothing, `t` takes over `k`, or `k` is erased. -/
inductive Event where
  | keep
  | merge (t k : ℕ)
  | erase (k : ℕ)

/-- The event on a list with an operation of its own for the merge. -/
def Event.act {α : Type} (op : α → α → α) (l : List α) : Event → List α
  | keep => l
  | merge t k =>
    match l[t]?, l[k]? with
    | some a, some b => l.set t (op a b)
    | _, _ => l
  | erase k => l.eraseIdx k

def PruneState.event [Box β π] (s : PruneState β π) : Event :=
  match s.phase with
  | .outer => .keep
  | .inner center j _ =>
    match s.projections[j]?, s.projections[s.i]? with
    | some pj, some pi =>
      if s.i = j then .keep
      else if Box.inside pj.boundingBox center then
        if Box.larger pj.boundingBox pi.boundingBox then .merge j s.i else .merge s.i j
      else .keep
    | _, _ => .keep
  | .eraseI => .erase s.i
  | .eraseJ _ j => .erase j

/-- `prune` with the groups of input positions beside its projections. -/
def groupStep [Box β π] : PruneState β π × List (List ℕ) →
    Loop.Step (PruneState β π × List (List ℕ)) (List (Projection β) × List (List ℕ)) Fault :=
  Loop.ghost pruneStep fun s groups => s.event.act (· ++ ·) groups

/-- Every input stands alone at first. -/
def groupStart (ps : List (Projection β)) : PruneState β π × List (List ℕ) :=
  (pruneStart ps, (List.range ps.length).map fun k => [k])

/-! ## One step -/

/-- The position about to be erased. -/
def PruneState.pending (s : PruneState β π) : Option ℕ :=
  match s.phase with
  | .eraseI => some s.i
  | .eraseJ _ j => some j
  | _ => none

/-- Next, `projections[i]` and `projections[j]` are merged, whichever way. -/
structure PruneState.Meets [Box β π] (s : PruneState β π) (center : π) (j : ℕ) (pi pj : Projection β) : Prop where
  phase : ∃ removedAny, s.phase = .inner center j removedAny
  first : s.projections[s.i]? = some pi
  second : s.projections[j]? = some pj
  ne : s.i ≠ j
  inside : Box.inside pj.boundingBox center = true

/-- A step keeps everything, merges one of `projections[i]` and `projections[j]` into the other, which
then is about to be erased, or erases it. -/
theorem event_cases [Box β π] {s s' : PruneState β π} (h : pruneStep s = .next s') :
    (s.event = .keep ∧ s'.projections = s.projections ∧ s.pending = none ∧ s'.pending = none) ∨
    (∃ center j pi pj t k, s.Meets center j pi pj ∧ s.event = .merge t k ∧ (t = j ∧ k = s.i ∨ t = s.i ∧ k = j) ∧
      s'.projections = (Event.merge t k).act merge s.projections ∧ s.pending = none ∧ s'.pending = some k) ∨
    ∃ k, s.event = .erase k ∧ s'.projections = s.projections.eraseIdx k ∧ s.pending = some k ∧ s'.pending = none := by
  cases Moves.of_next h with
  | enter hi => exact .inl ⟨rfl, rfl, rfl, rfl⟩
  | advance hj | again hj => exact .inl ⟨by simp only [PruneState.event, hj], rfl, rfl, rfl⟩
  | @skip ps i center j removedAny pj hj hin =>
    refine .inl ⟨?_, rfl, rfl, rfl⟩
    simp only [PruneState.event, hj]
    cases hi : ps[i]? with
    | none => rfl
    | some pi =>
      by_cases hij : i = j
      · simp only [hij, if_true]
      · simp only [hij, hin hij, if_false, Bool.false_eq_true]
  | @giveWay ps i center j removedAny pi pj hj hi hij hin hl =>
    refine .inr (.inl ⟨center, j, pi, pj, j, i, ⟨⟨_, rfl⟩, hi, hj, hij, hin⟩, ?_, .inl ⟨rfl, rfl⟩, ?_, rfl, rfl⟩)
    · simp only [PruneState.event, hj, hi, hij, hin, hl, if_false, if_true]
    · simp only [Event.act, hj, hi]
  | @absorb ps i center j removedAny pi pj hj hi hij hin hl =>
    refine .inr (.inl ⟨center, j, pi, pj, i, j, ⟨⟨_, rfl⟩, hi, hj, hij, hin⟩, ?_, .inr ⟨rfl, rfl⟩, ?_, rfl, rfl⟩)
    · simp only [PruneState.event, hj, hi, hij, hin, hl, if_false, if_true, Bool.false_eq_true]
    · simp only [Event.act, hj, hi]
  | dropI | dropJ => exact .inr (.inr ⟨_, rfl, rfl, rfl, rfl⟩)

/-- The event of a step is what it does to the projections. -/
theorem pruneStep_projections [Box β π] {s s' : PruneState β π} (h : pruneStep s = .next s') :
    s'.projections = s.event.act merge s.projections := by
  rcases event_cases h with ⟨he, hp, -⟩ | ⟨_, _, _, _, t, k, -, he, -, hp, -⟩ | ⟨k, he, hp, -⟩
  all_goals rw [he, hp]
  · rfl
  · rfl

/-- An event on two lists whose items correspond. -/
theorem Event.act_forall₂ {α γ : Type} {R : α → γ → Prop} {op : α → α → α} {op' : γ → γ → γ}
    (hop : ∀ a b c d, R a c → R b d → R (op a b) (op' c d)) {l : List α} {m : List γ} (h : List.Forall₂ R l m)
    (e : Event) : List.Forall₂ R (e.act op l) (e.act op' m) := by
  cases e with
  | keep => exact h
  | erase k => exact h.eraseIdx k
  | merge t k =>
    simp only [Event.act]
    cases ht : l[t]? with
    | none => simpa only [h.getElem?_none ht] using h
    | some a =>
      obtain ⟨c, hc, hac⟩ := h.getElem?_left ht
      cases hk : l[k]? with
      | none => simpa only [hc, h.getElem?_none hk] using h
      | some b =>
        obtain ⟨d, hd, hbd⟩ := h.getElem?_left hk
        simpa only [hc, hd] using h.set (hop a b c d hac hbd) t

/-- `prune` makes the same groups where the tests on the boxes come out the same. -/
theorem event_mapBox {β' π' : Type} [Box β π] [Box β' π'] {f : β → β'} {g : π → π'} (h : Box.Maps f g)
    (s : PruneState β π) : (s.mapBox f g).event = s.event := by
  obtain ⟨ps, i, phase⟩ := s
  cases phase with
  | inner center j removedAny =>
    simp only [PruneState.event, PruneState.mapBox, Phase.map, List.getElem?_map]
    cases ps[j]? with
    | none => rfl
    | some pj =>
      cases ps[i]? with
      | none => rfl
      | some pi => simp only [Option.map_some, Projection.boundingBox_mapBox, h.inside, h.larger]
  | outer | eraseI | eraseJ => rfl

theorem groupStep_mapBox {β' π' : Type} [Box β π] [Box β' π'] {f : β → β'} {g : π → π'} (h : Box.Maps f g)
    {ps : List (Projection β)} {o : Except Fault (List (Projection β) × List (List ℕ))}
    (ho : Loop.Ends groupStep (groupStart (π := π) ps) o) :
    Loop.Ends groupStep (groupStart (π := π') (ps.map (Projection.mapBox f)))
      (o.map (Prod.map (List.map (Projection.mapBox f)) id)) := by
  have hstep : ∀ x : PruneState β π × List (List ℕ), groupStep (Prod.map (PruneState.mapBox f g) id x) =
      (groupStep x).map (Prod.map (PruneState.mapBox f g) id) (Prod.map (List.map (Projection.mapBox f)) id) :=
    Loop.ghost_map (pruneStep_mapBox h) fun s => by rw [event_mapBox h]
  rw [groupStart, List.length_map]
  exact Loop.Ends.map hstep ho

/-! ## What a group is -/

/-- The input projections a group names. -/
def parts (ps : List (Projection β)) (g : List ℕ) : List (Projection β) := g.filterMap (ps[·]?)

/-- A projection made of the inputs of its group, in order, with the box of the first. -/
structure Assembled (ps : List (Projection β)) (p : Projection β) (g : List ℕ) : Prop where
  head : ∃ k rest a, g = k :: rest ∧ ps[k]? = some a ∧ p.boundingBox = a.boundingBox
  vertices : p.vertices = (parts ps g).flatMap Projection.vertices
  edges : p.edges = (parts ps g).flatMap Projection.edges

theorem Assembled.merge {ps : List (Projection β)} {p q : Projection β} {g h : List ℕ} (hp : Assembled ps p g)
    (hq : Assembled ps q h) : Assembled ps (merge p q) (g ++ h) := by
  obtain ⟨⟨k, rest, a, rfl, ha, hbox⟩, hv, he⟩ := hp
  refine ⟨⟨k, rest ++ h, a, rfl, ha, hbox⟩, ?_, ?_⟩
  · rw [parts, List.filterMap_append, List.flatMap_append]
    exact congrArg₂ (· ++ ·) hv hq.vertices
  · rw [parts, List.filterMap_append, List.flatMap_append]
    exact congrArg₂ (· ++ ·) he hq.edges

theorem assembled_start [Box β π] (ps : List (Projection β)) :
    List.Forall₂ (Assembled ps) ps ((List.range ps.length).map fun k => [k]) := by
  refine List.forall₂_iff_get.2 ⟨by simp, fun k hk _ => ?_⟩
  simp only [List.get_eq_getElem, List.getElem_map, List.getElem_range]
  have hget : ps[k]? = some ps[k] := List.getElem?_eq_getElem hk
  exact ⟨⟨k, [], ps[k], rfl, hget, rfl⟩, by simp [parts, hget], by simp [parts, hget]⟩

/-! ## Chains -/

/-- The center of the input at `b` lies in the box of the input at `a`. -/
def Contains [Box β π] (ps : List (Projection β)) (a b : ℕ) : Prop :=
  ∃ p q, ps[a]? = some p ∧ ps[b]? = some q ∧ Box.inside p.boundingBox (Box.center q.boundingBox) = true

instance [Box β π] (ps : List (Projection β)) (a b : ℕ) : Decidable (Contains ps a b) :=
  decidable_of_iff (∃ p ∈ ps[a]?, ∃ q ∈ ps[b]?, Box.inside p.boundingBox (Box.center q.boundingBox) = true)
    ⟨fun ⟨p, hp, q, hq, h⟩ => ⟨p, q, hp, hq, h⟩, fun ⟨p, q, hp, hq, h⟩ => ⟨p, hp, q, hq, h⟩⟩

theorem contains_mapBox {β' π' : Type} [Box β π] [Box β' π'] {f : β → β'} {g : π → π'} (h : Box.Maps f g)
    (ps : List (Projection β)) (a b : ℕ) : Contains (ps.map (Projection.mapBox f)) a b ↔ Contains ps a b := by
  simp only [Contains, List.getElem?_map]
  constructor
  · rintro ⟨p, q, hp, hq, hin⟩
    obtain ⟨p₀, hp₀, rfl⟩ := Option.map_eq_some_iff.1 hp
    obtain ⟨q₀, hq₀, rfl⟩ := Option.map_eq_some_iff.1 hq
    refine ⟨p₀, q₀, hp₀, hq₀, ?_⟩
    rwa [Projection.boundingBox_mapBox, Projection.boundingBox_mapBox, h.center, h.inside] at hin
  · rintro ⟨p, q, hp, hq, hin⟩
    refine ⟨p.mapBox f, q.mapBox f, by rw [hp]; rfl, by rw [hq]; rfl, ?_⟩
    rwa [Projection.boundingBox_mapBox, Projection.boundingBox_mapBox, h.center, h.inside]

/-- A chain of inputs, the box of one of every two neighbours containing the center of the other. -/
def Chained [Box β π] (ps : List (Projection β)) : ℕ → ℕ → Prop :=
  Relation.ReflTransGen fun a b => Contains ps a b ∨ Contains ps b a

theorem chained_mapBox {β' π' : Type} [Box β π] [Box β' π'] {f : β → β'} {g : π → π'} (h : Box.Maps f g)
    (ps : List (Projection β)) : Chained (ps.map (Projection.mapBox f)) = Chained ps := by
  simp only [Chained, contains_mapBox h]

theorem Chained.symm [Box β π] {ps : List (Projection β)} {a b : ℕ} (h : Chained ps a b) : Chained ps b a := by
  induction h with
  | refl => exact .refl
  | tail _ hs ih => exact .head hs.symm ih

/-- Two groups may be merged when the box of one projection contains the center of the other. -/
theorem chained_append [Box β π] {ps : List (Projection β)} {p q : Projection β} {g h : List ℕ}
    (hp : Assembled ps p g) (hq : Assembled ps q h) (hg : ∀ a ∈ g, ∀ b ∈ g, Chained ps a b)
    (hh : ∀ a ∈ h, ∀ b ∈ h, Chained ps a b)
    (hin : Box.inside p.boundingBox (Box.center q.boundingBox) = true) : ∀ a ∈ g ++ h, ∀ b ∈ g ++ h, Chained ps a b := by
  obtain ⟨k, rest, a₀, rfl, ha₀, hbox⟩ := hp.head
  obtain ⟨l, rest', b₀, rfl, hb₀, hbox'⟩ := hq.head
  have hkl : Chained ps k l := .single (.inl ⟨a₀, b₀, ha₀, hb₀, by rwa [← hbox, ← hbox']⟩)
  -- every member is linked to the first of the first group
  have key : ∀ a ∈ k :: rest ++ l :: rest', Chained ps k a := by
    intro a ha
    rcases List.mem_append.1 ha with ha | ha
    · exact hg k (List.mem_cons_self ..) a ha
    · exact hkl.trans (hh l (List.mem_cons_self ..) a ha)
  exact fun a ha b hb => (key a ha).symm.trans (key b hb)

/-! ## Runs -/

/-- A list without the item at the position about to be erased. -/
def left {α : Type} (pending : Option ℕ) (l : List α) : List α :=
  match pending with
  | none => l
  | some k => l.eraseIdx k

/-- The groups of a run: one for each projection, and every input in one of those that stay. -/
structure Grouped (ps : List (Projection β)) (x : PruneState β π × List (List ℕ)) : Prop where
  assembled : List.Forall₂ (Assembled ps) x.1.projections x.2
  once : (left x.1.pending x.2).flatten.Perm (List.range ps.length)

theorem grouped_start [Box β π] (ps : List (Projection β)) : Grouped ps (groupStart (π := π) ps) := by
  refine ⟨assembled_start ps, List.Perm.of_eq ?_⟩
  show ((List.range ps.length).map fun k => [k]).flatten = _
  rw [← List.flatMap_def, List.flatMap_singleton']

theorem grouped_step [Box β π] {ps : List (Projection β)} {x x' : PruneState β π × List (List ℕ)} (hx : Grouped ps x)
    (h : groupStep x = .next x') : Grouped ps x' := by
  obtain ⟨s, groups⟩ := x
  obtain ⟨s', groups'⟩ := x'
  obtain ⟨hs, hg⟩ := Loop.ghost_next_inv h
  simp only at hs hg
  subst hg
  refine ⟨?_, ?_⟩
  · rw [pruneStep_projections hs]
    exact Event.act_forall₂ (fun _ _ _ _ => Assembled.merge) hx.assembled s.event
  · have honce := hx.once
    rcases event_cases hs with ⟨he, -, hp, hp'⟩ | ⟨center, j, pi, pj, t, k, hm, he, htk, -, hp, hp'⟩ | ⟨k, he, -, hp, hp'⟩
    · simp only [hp, hp', he] at honce ⊢
      exact honce
    · simp only [hp, hp', he, left] at honce ⊢
      -- the merged group stands for both, so nothing is lost with the one erased
      obtain ⟨gi, hgi, -⟩ := hx.assembled.getElem?_left hm.first
      obtain ⟨gj, hgj, -⟩ := hx.assembled.getElem?_left hm.second
      rcases htk with ⟨rfl, rfl⟩ | ⟨rfl, rfl⟩ <;> simp only [Event.act, hgi, hgj]
      · exact (List.flatten_set_eraseIdx_perm hm.ne hgi hgj).trans honce
      · exact (List.flatten_set_eraseIdx_perm hm.ne.symm hgj hgi).trans honce
    · simp only [hp, hp', he, left, Event.act] at honce ⊢
      exact honce

/-- Merging groups that meet keeps every group a chain. -/
theorem chained_step [Box β π] {ps : List (Projection β)} {s s' : PruneState β π} {groups groups' : List (List ℕ)}
    (hx : Grouped ps (s, groups)) (hc : ∀ g ∈ groups, ∀ a ∈ g, ∀ b ∈ g, Chained ps a b)
    (hown : ∀ center j pi pj, s.Meets center j pi pj → center = Box.center pi.boundingBox)
    (h : groupStep (s, groups) = .next (s', groups')) : ∀ g ∈ groups', ∀ a ∈ g, ∀ b ∈ g, Chained ps a b := by
  obtain ⟨hs, hg⟩ := Loop.ghost_next_inv h
  simp only at hs hg
  subst hg
  rcases event_cases hs with ⟨he, -⟩ | ⟨center, j, pi, pj, t, k, hm, he, htk, -⟩ | ⟨k, he, -⟩ <;> rw [he]
  · exact hc
  · obtain ⟨gi, hgi, hpi⟩ := hx.assembled.getElem?_left hm.first
    obtain ⟨gj, hgj, hpj⟩ := hx.assembled.getElem?_left hm.second
    have hin := hm.inside
    rw [hown center j pi pj hm] at hin
    have hjoin := chained_append hpj hpi (hc gj (List.mem_of_getElem? hgj)) (hc gi (List.mem_of_getElem? hgi)) hin
    intro g hg
    rcases htk with ⟨rfl, rfl⟩ | ⟨rfl, rfl⟩ <;> simp only [Event.act, hgi, hgj] at hg <;>
      rcases List.mem_or_eq_of_mem_set hg with hg | rfl
    · exact hc g hg
    · exact hjoin
    · exact hc g hg
    · intro a ha b hb
      exact hjoin a (List.perm_append_comm.subset ha) b (List.perm_append_comm.subset hb)
  · exact fun g hg => hc g ((List.eraseIdx_sublist _ _).subset hg)

/-- Two inputs end up in one projection only if a chain links them, when every merge of a run
compares with the center of `projections[i]` itself. -/
theorem prune_merges_related [Box β π] {ps out : List (Projection β)}
    (hown : ∀ s : PruneState β π, Loop.Reach pruneStep (pruneStart ps) s → ∀ center j pi pj, s.Meets center j pi pj →
      center = Box.center pi.boundingBox)
    (h : Loop.Ends pruneStep (pruneStart (π := π) ps) (.ok out)) :
    ∃ groups, Loop.Ends groupStep (groupStart (π := π) ps) (.ok (out, groups)) ∧
      List.Forall₂ (Assembled ps) out groups ∧ groups.flatten.Perm (List.range ps.length) ∧
      ∀ g ∈ groups, ∀ a ∈ g, ∀ b ∈ g, Chained ps a b := by
  obtain ⟨groups, hends⟩ : ∃ groups, Loop.Ends groupStep (groupStart (π := π) ps) (.ok (out, groups)) := h.ghost _
  obtain ⟨⟨s, groups'⟩, hr, hd⟩ := hends.reach
  obtain ⟨hdone, hg⟩ := Loop.ghost_done_inv hd
  simp only at hdone hg
  subst hg
  obtain ⟨hphase, -, rfl⟩ := pruneStep_done_inv hdone
  have hinv : Grouped ps (s, groups') ∧ ∀ g ∈ groups', ∀ a ∈ g, ∀ b ∈ g, Chained ps a b := by
    refine hr.invariant_of_reach (I := fun x => Grouped ps x ∧ ∀ g ∈ x.2, ∀ a ∈ g, ∀ b ∈ g, Chained ps a b)
      ⟨grouped_start ps, ?_⟩ fun x x' hreach hx hstep =>
        ⟨grouped_step hx.1 hstep, chained_step hx.1 hx.2 (hown x.1 hreach.erase) hstep⟩
    intro g hg a ha b hb
    obtain ⟨k, -, rfl⟩ := List.mem_map.1 hg
    rw [List.mem_singleton.1 ha, List.mem_singleton.1 hb]
    exact .refl
  obtain ⟨⟨hassembled, honce⟩, hchained⟩ := hinv
  refine ⟨groups', hends, hassembled, ?_, hchained⟩
  simpa only [PruneState.pending, hphase, left] using honce

theorem prune_merges_related_nestedOutlines : ∃ (out : List (Projection UprightRect)) (groups : List (List ℕ)),
    Loop.Ends groupStep (groupStart nestedOutlines) (.ok (out, groups)) ∧
      List.Forall₂ (Assembled nestedOutlines) out groups ∧
      groups.flatten.Perm (List.range nestedOutlines.length) ∧
      ∀ g ∈ groups, ∀ a ∈ g, ∀ b ∈ g, Chained nestedOutlines a b := by
  have hown : ∀ s : PruneState UprightRect (ℤ × ℤ), Loop.Reach pruneStep (pruneStart nestedOutlines) s →
      ∀ center j pi pj, s.Meets center j pi pj → center = Box.center pi.boundingBox := by
    intro s hr center j pi pj hm
    obtain ⟨removedAny, hphase⟩ := hm.phase
    obtain ⟨b, hb, hc⟩ := center_own nestedOutlines_forward hr hphase
    rw [PruneState.boxes, List.getElem?_map, hm.first] at hb
    cases hb
    exact hc.symm
  exact ⟨_, prune_merges_related hown ⟨30, run_nestedOutlines⟩⟩

/-- The third rectangle lies far from the others, and is merged with them. -/
theorem shiftedOutlines_unrelated : ∃ (ps out : List (Projection RotatedRect)) (groups : List (List ℕ)),
    Loop.Ends groupStep (groupStart ps) (.ok (out, groups)) ∧ ∃ g ∈ groups, ∃ a ∈ g, ∃ b ∈ g, ¬Chained ps a b := by
  have hrun : Loop.Ends groupStep (groupStart (shiftedOutlines.take 3)) (.ok (_, [[1, 0, 2]])) := ⟨40, rfl⟩
  refine ⟨_, _, _, groupStep_mapBox toRotated_maps hrun, _, List.mem_cons_self .., 2, by simp, 1, by simp, fun h => ?_⟩
  have halone : ∀ c < 3, Contains (shiftedOutlines.take 3) 2 c ∨ Contains (shiftedOutlines.take 3) c 2 → c = 2 := by
    decide
  have h2 : ∀ c, Chained (shiftedOutlines.take 3) 2 c → c = 2 := by
    intro c hc
    induction hc with
    | refl => rfl
    | tail _ hs ih =>
      subst ih
      refine halone _ ?_ hs
      rcases hs with ⟨_, _, -, hq, -⟩ | ⟨_, _, hp, -⟩
      exacts [(List.getElem?_eq_some_iff.1 hq).1, (List.getElem?_eq_some_iff.1 hp).1]
  rw [chained_mapBox toRotated_maps] at h
  exact absurd (h2 1 h) (by decide)

end DetailIdentifier.Interpreter
