/-
`addFaces`: tracing outlines through the points of a plane. A chain starts at an unused point and
goes on to the first point of the plane joined to its end. It is exported when it comes back to its
first point, when four points close it, and when it cannot go on; what is left of a chain when all
points are used is exported too. The last two need not be closed (`exported_faces_iff`).
-/
import DetailIdentifier.Lib.Loop
import DetailIdentifier.Modeller.Build

namespace DetailIdentifier.Modeller

/-! ## The loop -/

/-- Whether a model edge joins two points, in either direction. -/
def isEdge (edges : List (ℕ × ℕ)) (a b : ℕ) : Bool :=
  edges.any fun p => (p.1 == a && p.2 == b) || (p.2 == a && p.1 == b)

/-- Whether a model edge joins `current.back()` and `current.front()`. -/
def endsJoined (edges : List (ℕ × ℕ)) (current : List ℕ) : Bool :=
  match current.getLast?, current.head? with
  | some back, some front => isEdge edges back front
  | _, _ => false

/-- The locals of the loop over a plane, and the chains exported so far. -/
structure TraceState where
  current : List ℕ
  used : Finset ℕ
  faces : List (List ℕ)
deriving DecidableEq

def TraceState.start : TraceState := ⟨[], ∅, []⟩

/-- An empty chain starts at the first unused point of the plane; `none` when there is none. -/
def seed (plane : List ℕ) (s : TraceState) : Option TraceState :=
  if s.current = [] then
    (plane.find? (· ∉ s.used)).map fun k => { s with current := [k], used := insert k s.used }
  else some s

/-- The next point of a chain. The first one is searched again once there are four. -/
def nextPoint (edges : List (ℕ × ℕ)) (plane current : List ℕ) : Option ℕ :=
  plane.find? fun p =>
    !(current.contains p && (current.head? != some p || current.length < 4)) &&
      current.getLast?.any fun back => isEdge edges back p

/-- The search, and whether it found a point. -/
def search (edges : List (ℕ × ℕ)) (plane : List ℕ) (s : TraceState) : TraceState × Bool :=
  match nextPoint edges plane s.current with
  | none => (s, false)
  | some p => ({ s with current := s.current ++ [p], used := insert p s.used }, true)

/-- The rest of the body: whether the chain is finished, and what is exported then. -/
def finish (edges : List (ℕ × ℕ)) (s : TraceState) (found : Bool) : TraceState :=
  let back : Bool := 2 < s.current.length && s.current.head? == s.current.getLast?
  let current := if back then s.current.dropLast else s.current
  if found && !back && !(current.length == 4 && endsJoined edges current) then { s with current := current }
  else { s with current := [], faces := if 2 < current.length then s.faces ++ [current] else s.faces }

/-- One pass of the loop over a plane. -/
def traceStep (edges : List (ℕ × ℕ)) (plane : List ℕ) (s : TraceState) : Loop.Step TraceState TraceState Fault :=
  if plane.length = s.used.card then .done s
  else
    -- the break for equal sizes inside `current.empty()` repeats the condition of the loop
    match seed plane s with
    | none => .done s
    | some s => .next (finish edges (search edges plane s).1 (search edges plane s).2)

/-- The chains handed to VTK: those of the loop, and what is left of the last one. -/
def TraceState.exported (s : TraceState) : List (List ℕ) :=
  if s.current = [] then s.faces else s.faces ++ [s.current]

theorem forall_exported {P : List ℕ → Prop} {s : TraceState} :
    (∀ f ∈ s.exported, P f) ↔ (∀ f ∈ s.faces, P f) ∧ (s.current ≠ [] → P s.current) := by
  unfold TraceState.exported
  split
  · rename_i h
    simp [h]
  · rename_i h
    rw [List.forall_mem_append, List.forall_mem_singleton]
    simp [h]

/-! ## Polygons -/

/-- `cv::Point3d`. -/
structure Point3d where
  x : ℚ
  y : ℚ
  z : ℚ
deriving DecidableEq

/-- `visibility_rate`. -/
def visibilityRate : Int := 10

/-- A polygon: its points in the model, and its corners. -/
structure Polygon where
  ids : List ℕ
  corners : List Point3d
deriving DecidableEq

def corner (p : Point3i) : Point3d := ⟨p.x / visibilityRate, p.y / visibilityRate, p.z / visibilityRate⟩

def polygon (model : Model3d) (ids : List ℕ) : Except Fault Polygon := do
  let points ← ids.mapM (fetch model.points)
  return ⟨ids, points.map corner⟩

/-- The polygons of a plane. -/
def addPlane (fuel : ℕ) (model : Model3d) (plane : List ℕ) : Except Fault (List Polygon) :=
  match Loop.run (traceStep model.edges plane) fuel .start with
  | none => .error .outOfFuel
  | some (.error e) => .error e
  | some (.ok s) => s.exported.mapM (polygon model)

/-- `addFaces`, with the same fuel for the loop over every plane. -/
def addFaces (fuel : ℕ) (model : Model3d) (planes : List (List ℕ)) : Except Fault (List Polygon) := do
  let polygons ← planes.mapM (addPlane fuel model)
  return polygons.flatten

/-! ## One pass -/

variable {edges : List (ℕ × ℕ)} {plane : List ℕ}

theorem isEdge_iff {a b : ℕ} : isEdge edges a b = true ↔ (a, b) ∈ edges ∨ (b, a) ∈ edges := by
  simp only [isEdge, List.any_eq_true, Bool.or_eq_true, Bool.and_eq_true, beq_iff_eq]
  constructor
  · rintro ⟨⟨x, y⟩, hp, ⟨rfl, rfl⟩ | ⟨rfl, rfl⟩⟩
    exacts [.inl hp, .inr hp]
  · rintro (h | h)
    exacts [⟨_, h, .inl ⟨rfl, rfl⟩⟩, ⟨_, h, .inr ⟨rfl, rfl⟩⟩]

theorem seed_cases {s s₁ : TraceState} (h : seed plane s = some s₁) :
    (∃ k, s.current = [] ∧ k ∈ plane ∧ k ∉ s.used ∧ s₁ = ⟨[k], insert k s.used, s.faces⟩) ∨
      s.current ≠ [] ∧ s₁ = s := by
  unfold seed at h
  split at h
  · rename_i hc
    obtain ⟨k, hk, rfl⟩ := Option.map_eq_some_iff.1 h
    exact .inl ⟨k, hc, List.mem_of_find?_eq_some hk, by simpa using List.find?_some hk, rfl⟩
  · rename_i hc
    cases h
    exact .inr ⟨hc, rfl⟩

/-- A next point is new, or the first of four or more, and joined to the last. -/
theorem nextPoint_some {current : List ℕ} {p : ℕ} (h : nextPoint edges plane current = some p) :
    p ∈ plane ∧ (p ∉ current ∨ current.head? = some p ∧ 4 ≤ current.length) ∧
      ∃ back, current.getLast? = some back ∧ isEdge edges back p = true := by
  have hp := List.find?_some h
  simp only [Bool.and_eq_true, Bool.not_eq_true', Bool.and_eq_false_iff, Bool.or_eq_false_iff, List.contains_eq_mem,
    decide_eq_false_iff_not, bne_eq_false_iff_eq, Option.any_eq_true, not_lt] at hp
  exact ⟨List.mem_of_find?_eq_some h, hp.1, hp.2⟩

/-- A pass over a chain `c`: it is stuck, comes back to its first point, is closed by a fourth one, or
goes on. -/
inductive Grows (edges : List (ℕ × ℕ)) (plane : List ℕ) : TraceState → TraceState → Prop where
  | stuck {c used faces} : nextPoint edges plane c = none →
      Grows edges plane ⟨c, used, faces⟩ ⟨[], used, if 2 < c.length then faces ++ [c] else faces⟩
  | back {c used faces p} : nextPoint edges plane c = some p → p ∈ c → 4 ≤ c.length → endsJoined edges c = true →
      Grows edges plane ⟨c, used, faces⟩ ⟨[], insert p used, faces ++ [c]⟩
  | four {c used faces p} : nextPoint edges plane c = some p → p ∉ c → c.length = 3 →
      endsJoined edges (c ++ [p]) = true →
      Grows edges plane ⟨c, used, faces⟩ ⟨[], insert p used, faces ++ [c ++ [p]]⟩
  | goOn {c used faces p} : nextPoint edges plane c = some p → p ∉ c →
      ¬(c.length = 3 ∧ endsJoined edges (c ++ [p]) = true) →
      Grows edges plane ⟨c, used, faces⟩ ⟨c ++ [p], insert p used, faces⟩

theorem head?_ne_getLast? {c : List ℕ} (hc : c.Nodup) (hlen : 2 < c.length) : c.head? ≠ c.getLast? := by
  rw [List.head?_eq_getElem?, List.getLast?_eq_getElem?]
  intro h
  have := (List.getElem?_inj (by omega) hc).1 h
  omega

/-- A chain that ends where it began loses its last point, and is finished. -/
theorem finish_back (s : TraceState) (found : Bool) (hlen : 2 < s.current.length)
    (h : s.current.head? = s.current.getLast?) :
    finish edges s found = { s with
      current := []
      faces := if 2 < s.current.dropLast.length then s.faces ++ [s.current.dropLast] else s.faces } := by
  simp [finish, hlen, h]

/-- A chain without repetitions is not taken for one that came back. -/
theorem finish_simple {s : TraceState} (hs : s.current.Nodup) (found : Bool) :
    finish edges s found =
      if found && !(s.current.length == 4 && endsJoined edges s.current) then s
      else { s with
        current := []
        faces := if 2 < s.current.length then s.faces ++ [s.current] else s.faces } := by
  have hback : (decide (2 < s.current.length) && s.current.head? == s.current.getLast?) = false := by
    rw [Bool.and_eq_false_iff]
    by_cases hlen : 2 < s.current.length
    · exact .inr (beq_eq_false_iff_ne.2 (head?_ne_getLast? hs hlen))
    · exact .inl (decide_eq_false hlen)
  simp only [finish, hback, Bool.false_eq_true, if_false, Bool.not_false, Bool.and_true]

theorem nodup_append_singleton {c : List ℕ} {p : ℕ} (hc : c.Nodup) (hp : p ∉ c) : (c ++ [p]).Nodup := by
  rw [← List.concat_eq_append]
  exact hc.concat hp

theorem grows_of_search {s : TraceState} (hs : s.current.Nodup) :
    Grows edges plane s (finish edges (search edges plane s).1 (search edges plane s).2) := by
  obtain ⟨c, used, faces⟩ := s
  simp only at hs
  unfold search
  cases hnext : nextPoint edges plane c with
  | none =>
    simp only
    rw [finish_simple hs, Bool.false_and, if_neg Bool.false_ne_true]
    exact .stuck hnext
  | some p =>
    obtain ⟨-, hnew, b, hb, hbp⟩ := nextPoint_some hnext
    by_cases hp : p ∈ c
    · obtain ⟨hhead, hlen⟩ := hnew.resolve_left (not_not_intro hp)
      have hends : (c ++ [p]).head? = (c ++ [p]).getLast? := by simp [hhead]
      simp only
      rw [finish_back _ _ (by simp; omega) hends, List.dropLast_concat, if_pos (by omega)]
      exact .back hnext hp hlen (by simp only [endsJoined, hb, hhead, hbp])
    · simp only
      rw [finish_simple (nodup_append_singleton hs hp)]
      by_cases hfour : c.length = 3 ∧ endsJoined edges (c ++ [p]) = true
      · rw [if_neg (by simp [hfour]), if_pos (by simp [hfour.1])]
        exact .four hnext hp hfour.1 hfour.2
      · rw [if_pos (by simpa [or_iff_not_imp_left] using hfour)]
        exact .goOn hnext hp hfour

theorem traceStep_next_iff {s s' : TraceState} : traceStep edges plane s = .next s' ↔
    plane.length ≠ s.used.card ∧ ∃ s₁, seed plane s = some s₁ ∧
      finish edges (search edges plane s₁).1 (search edges plane s₁).2 = s' := by
  unfold traceStep
  by_cases hlen : plane.length = s.used.card
  · simp [hlen]
  · rw [if_neg hlen]
    cases seed plane s with
    | none => simp
    | some s₁ => simp [hlen]

theorem traceStep_ne_fail (s : TraceState) (f : Fault) : traceStep edges plane s ≠ .fail f := by
  intro h
  unfold traceStep at h
  split at h
  · cases h
  · split at h <;> cases h

/-- The loop ends with all points used, or when there is no point left to start from. -/
theorem traceStep_done_inv {s out : TraceState} (h : traceStep edges plane s = .done out) :
    out = s ∧ (plane.length = s.used.card ∨ s.current = [] ∧ ∀ k ∈ plane, k ∈ s.used) := by
  unfold traceStep at h
  split at h
  · rename_i hlen
    cases h
    exact ⟨rfl, .inl hlen⟩
  · split at h
    · rename_i hseed
      cases h
      refine ⟨rfl, .inr ?_⟩
      unfold seed at hseed
      split at hseed
      · rename_i hc
        rw [Option.map_eq_none_iff, List.find?_eq_none] at hseed
        exact ⟨hc, fun k hk => by simpa using hseed k hk⟩
      · cases hseed
    · cases h

/-! ## Runs -/

/-- Pairwise different points of the plane, joined one to the next by model edges. -/
structure SimplePath (edges : List (ℕ × ℕ)) (plane c : List ℕ) : Prop where
  nodup : c.Nodup
  joined : c.IsChain fun a b => isEdge edges a b = true
  onPlane : c ⊆ plane

theorem SimplePath.concat {c : List ℕ} {p back : ℕ} (hc : SimplePath edges plane c) (hp : p ∈ plane) (hnew : p ∉ c)
    (hback : c.getLast? = some back) (hedge : isEdge edges back p = true) : SimplePath edges plane (c ++ [p]) := by
  refine ⟨nodup_append_singleton hc.nodup hnew, ?_, ?_⟩
  · refine List.isChain_append.2 ⟨hc.joined, .singleton p, fun a ha b hb => ?_⟩
    rw [hback, Option.mem_some_iff] at ha
    simp only [List.head?_cons, Option.mem_some_iff] at hb
    rw [← ha, ← hb]
    exact hedge
  · exact List.append_subset.2 ⟨hc.onPlane, by simpa using hp⟩

/-- The heads of the loop: the chain and all exported ones are simple paths, and their points are used. -/
structure Tracing (edges : List (ℕ × ℕ)) (plane : List ℕ) (s : TraceState) : Prop where
  current : SimplePath edges plane s.current
  faces : ∀ f ∈ s.faces, SimplePath edges plane f
  marked : ∀ p ∈ s.current, p ∈ s.used
  onPlane : ∀ p ∈ s.used, p ∈ plane

theorem tracing_start (edges : List (ℕ × ℕ)) (plane : List ℕ) : Tracing edges plane .start :=
  ⟨⟨List.nodup_nil, .nil, List.nil_subset _⟩, by simp [TraceState.start], by simp [TraceState.start],
    by simp [TraceState.start]⟩

theorem tracing_seed {s s₁ : TraceState} (hs : Tracing edges plane s) (h : seed plane s = some s₁) :
    Tracing edges plane s₁ := by
  rcases seed_cases h with ⟨k, -, hk, -, rfl⟩ | ⟨-, rfl⟩
  · refine ⟨⟨List.nodup_singleton k, .singleton k, by simpa using hk⟩, hs.faces, by simp, ?_⟩
    intro p hp
    rcases Finset.mem_insert.1 hp with rfl | hp
    exacts [hk, hs.onPlane p hp]
  · exact hs

theorem tracing_grows {s s' : TraceState} (hs : Tracing edges plane s) (h : Grows edges plane s s') :
    Tracing edges plane s' := by
  have hempty : SimplePath edges plane [] := ⟨List.nodup_nil, .nil, List.nil_subset _⟩
  have hinsert : ∀ p ∈ plane, ∀ q ∈ insert p s.used, q ∈ plane := by
    intro p hp q hq
    rcases Finset.mem_insert.1 hq with rfl | hq
    exacts [hp, hs.onPlane q hq]
  have hexport : ∀ f, SimplePath edges plane f → ∀ g ∈ s.faces ++ [f], SimplePath edges plane g := fun f hf =>
    List.forall_mem_append.2 ⟨hs.faces, List.forall_mem_singleton.2 hf⟩
  cases h with
  | stuck =>
    refine ⟨hempty, ?_, by simp, hs.onPlane⟩
    split
    · exact hexport _ hs.current
    · exact hs.faces
  | back hnext =>
    exact ⟨hempty, hexport _ hs.current, by simp, hinsert _ (nextPoint_some hnext).1⟩
  | four hnext hp =>
    obtain ⟨hplane, -, b, hb, hedge⟩ := nextPoint_some hnext
    exact ⟨hempty, hexport _ (hs.current.concat hplane hp hb hedge), by simp, hinsert _ hplane⟩
  | goOn hnext hp =>
    obtain ⟨hplane, -, b, hb, hedge⟩ := nextPoint_some hnext
    refine ⟨hs.current.concat hplane hp hb hedge, hs.faces, fun q hq => ?_, hinsert _ hplane⟩
    rcases List.mem_append.1 hq with hq | hq
    · exact Finset.mem_insert_of_mem (hs.marked q hq)
    · rw [List.mem_singleton.1 hq]
      exact Finset.mem_insert_self ..

/-- What a pass does from the head of the loop. -/
theorem traceStep_next {s s' : TraceState} (hs : Tracing edges plane s) (h : traceStep edges plane s = .next s') :
    plane.length ≠ s.used.card ∧ ∃ s₁, seed plane s = some s₁ ∧ s₁.faces = s.faces ∧ Grows edges plane s₁ s' := by
  obtain ⟨hlen, s₁, hseed, rfl⟩ := traceStep_next_iff.1 h
  refine ⟨hlen, s₁, hseed, ?_, grows_of_search (tracing_seed hs hseed).current.nodup⟩
  rcases seed_cases hseed with ⟨_, -, -, -, rfl⟩ | ⟨-, rfl⟩ <;> rfl

theorem exists_next {s s₁ : TraceState} (hs : Tracing edges plane s) (hlen : plane.length ≠ s.used.card)
    (hseed : seed plane s = some s₁) : ∃ s', traceStep edges plane s = .next s' ∧ Grows edges plane s₁ s' :=
  ⟨_, traceStep_next_iff.2 ⟨hlen, s₁, hseed, rfl⟩, grows_of_search (tracing_seed hs hseed).current.nodup⟩

theorem tracing_step {s s' : TraceState} (hs : Tracing edges plane s) (h : traceStep edges plane s = .next s') :
    Tracing edges plane s' := by
  obtain ⟨-, s₁, hseed, -, hgrows⟩ := traceStep_next hs h
  exact tracing_grows (tracing_seed hs hseed) hgrows

theorem tracing_of_reach {s : TraceState} (h : Loop.Reach (traceStep edges plane) .start s) : Tracing edges plane s :=
  h.invariant (tracing_start edges plane) fun _ _ => tracing_step

/-! ## Termination -/

/-- How much a simple path can still grow; a chain not begun cannot. -/
def room (plane : List ℕ) (s : TraceState) : ℕ := if s.current = [] then 0 else plane.length + 1 - s.current.length

/-- How far the loop is from its end: the unused points, then the room. -/
def rest (plane : List ℕ) (s : TraceState) : ℕ ×ₗ ℕ := toLex ((plane.toFinset \ s.used).card, room plane s)

theorem SimplePath.length_le {c : List ℕ} (hc : SimplePath edges plane c) : c.length ≤ plane.length :=
  (List.subperm_of_subset hc.nodup hc.onPlane).length_le

theorem Grows.used_subset {s s' : TraceState} (h : Grows edges plane s s') : s.used ⊆ s'.used := by
  cases h with
  | stuck => exact Finset.Subset.refl _
  | back | four | goOn => exact Finset.subset_insert ..

theorem Grows.room_lt {s s' : TraceState} (hs : Tracing edges plane s) (hne : s.current ≠ [])
    (h : Grows edges plane s s') : room plane s' < room plane s := by
  have hlen := hs.current.length_le
  have hlen' := (tracing_grows hs h).current.length_le
  unfold room
  rw [if_neg hne]
  cases h with
  | stuck | back | four =>
    rw [if_pos rfl]
    omega
  | goOn =>
    simp only [List.length_append, List.length_singleton] at hlen'
    rw [if_neg (by simp)]
    simp only [List.length_append, List.length_singleton]
    omega

theorem rest_lt {s s' : TraceState} (hs : Tracing edges plane s) (h : traceStep edges plane s = .next s') :
    rest plane s' < rest plane s := by
  obtain ⟨-, s₁, hseed, -, hgrows⟩ := traceStep_next hs h
  have hsub := Finset.card_le_card (Finset.sdiff_subset_sdiff (Finset.Subset.refl plane.toFinset) hgrows.used_subset)
  rw [rest, rest, Prod.Lex.toLex_lt_toLex]
  rcases seed_cases hseed with ⟨k, hc, hk, hused, rfl⟩ | ⟨hne, rfl⟩
  · -- the first point of a chain was not used before
    refine .inl (lt_of_le_of_lt hsub (Finset.card_lt_card ?_))
    refine (Finset.ssubset_iff_of_subset
      (Finset.sdiff_subset_sdiff (Finset.Subset.refl _) (Finset.subset_insert ..))).2 ⟨k, ?_, ?_⟩
    · exact Finset.mem_sdiff.2 ⟨List.mem_toFinset.2 hk, hused⟩
    · exact fun h => (Finset.mem_sdiff.1 h).2 (Finset.mem_insert_self ..)
  · rcases Nat.lt_or_eq_of_le hsub with hlt | heq
    · exact .inl hlt
    · exact .inr ⟨heq, hgrows.room_lt hs hne⟩

/-- From the head of the loop, the loop ends. -/
theorem trace_ends {s : TraceState} (hs : Tracing edges plane s) :
    ∃ out, Loop.Ends (traceStep edges plane) s (.ok out) := by
  obtain ⟨o, ho⟩ := Loop.ends_of_wellFounded (wellFounded_lt (α := ℕ ×ₗ ℕ)) (I := Tracing edges plane)
    (μ := rest plane) (fun _ _ ht h => ⟨tracing_step ht h, rest_lt ht h⟩) s hs
  cases o with
  | ok out => exact ⟨out, ho⟩
  | error f =>
    obtain ⟨s', -, hf⟩ := ho.reach_fail
    exact absurd hf (traceStep_ne_fail s' f)

theorem faces_subset_of_reach {s s' : TraceState} (hs : Tracing edges plane s)
    (h : Loop.Reach (traceStep edges plane) s s') : s.faces ⊆ s'.faces := by
  refine (h.invariant (I := fun t => Tracing edges plane t ∧ s.faces ⊆ t.faces) ⟨hs, List.Subset.refl _⟩ ?_).2
  rintro t t' ⟨ht, hsub⟩ hstep
  obtain ⟨-, t₁, -, hfaces, hgrows⟩ := traceStep_next ht hstep
  refine ⟨tracing_step ht hstep, List.Subset.trans hsub ?_⟩
  rw [← hfaces]
  cases hgrows with
  | stuck =>
    split
    · exact List.subset_append_left ..
    · exact List.Subset.refl _
  | back | four => exact List.subset_append_left ..
  | goOn => exact List.Subset.refl _

/-- What is exported stays exported. -/
theorem mem_exported {s out : TraceState} (hs : Tracing edges plane s)
    (h : Loop.Ends (traceStep edges plane) s (.ok out)) : ∀ f ∈ s.faces, f ∈ out.exported := by
  obtain ⟨s', hr, hd⟩ := h.reach
  obtain ⟨rfl, -⟩ := traceStep_done_inv hd
  exact fun f hf => (forall_exported.1 fun f hf => hf).1 f (faces_subset_of_reach hs hr hf)

/-! ## Faces -/

/-- A polygon of at least three points, the last joined to the first. -/
structure IsFace (edges : List (ℕ × ℕ)) (f : List ℕ) : Prop where
  three : 3 ≤ f.length
  closed : ∃ first last, f.head? = some first ∧ f.getLast? = some last ∧ ((last, first) ∈ edges ∨ (first, last) ∈ edges)

theorem endsJoined_iff {f : List ℕ} : endsJoined edges f = true ↔
    ∃ first last, f.head? = some first ∧ f.getLast? = some last ∧ ((last, first) ∈ edges ∨ (first, last) ∈ edges) := by
  unfold endsJoined
  cases f.getLast? <;> cases f.head? <;> simp [isEdge_iff]

theorem isFace_iff {f : List ℕ} : IsFace edges f ↔ 3 ≤ f.length ∧ endsJoined edges f = true := by
  rw [endsJoined_iff]
  exact ⟨fun h => ⟨h.three, h.closed⟩, fun h => ⟨h.1, h.2⟩⟩

/-- A chain of three or more points cannot go on, and its ends are not joined. -/
def Stuck (edges : List (ℕ × ℕ)) (plane c : List ℕ) : Prop :=
  nextPoint edges plane c = none ∧ 2 < c.length ∧ endsJoined edges c = false

/-- A chain goes on to the last unused point of the plane, and is no closed outline with it. -/
def Exhausts (edges : List (ℕ × ℕ)) (plane c : List ℕ) (used : Finset ℕ) : Prop :=
  ∃ p, nextPoint edges plane c = some p ∧ plane.length = (insert p used).card ∧
    ¬(2 ≤ c.length ∧ endsJoined edges (c ++ [p]) = true)

/-- The next pass breaks a chain off while it is open. -/
def BreaksOff (edges : List (ℕ × ℕ)) (plane : List ℕ) (s : TraceState) : Prop :=
  plane.length ≠ s.used.card ∧ ∃ s₁, seed plane s = some s₁ ∧
    (Stuck edges plane s₁.current ∨ Exhausts edges plane s₁.current s₁.used)

/-- What is exported is closed, and so is what is left when all points are used. -/
structure AllClosed (edges : List (ℕ × ℕ)) (plane : List ℕ) (s : TraceState) : Prop where
  faces : ∀ f ∈ s.faces, IsFace edges f
  left : plane.length = s.used.card → s.current = [] ∨ IsFace edges s.current

theorem allClosed_step {s s' : TraceState} (hs : Tracing edges plane s) (hc : AllClosed edges plane s)
    (hno : ¬BreaksOff edges plane s) (h : traceStep edges plane s = .next s') : AllClosed edges plane s' := by
  obtain ⟨hlen, s₁, hseed, hfaces, hgrows⟩ := traceStep_next hs h
  have hkeep : ∀ f ∈ s₁.faces, IsFace edges f := by
    rw [hfaces]
    exact hc.faces
  have hexport : ∀ f, IsFace edges f → ∀ g ∈ s₁.faces ++ [f], IsFace edges g := fun f hf =>
    List.forall_mem_append.2 ⟨hkeep, List.forall_mem_singleton.2 hf⟩
  cases hgrows with
  | @stuck c used faces hnext =>
    refine ⟨?_, fun _ => .inl rfl⟩
    split
    · rename_i h2
      refine hexport c (isFace_iff.2 ⟨h2, ?_⟩)
      by_contra hopen
      exact hno ⟨hlen, _, hseed, .inl ⟨hnext, h2, Bool.eq_false_iff.2 hopen⟩⟩
    · exact hkeep
  | @back c used faces p hnext hp h4 hjoined =>
    exact ⟨hexport c (isFace_iff.2 ⟨by omega, hjoined⟩), fun _ => .inl rfl⟩
  | @four c used faces p hnext hp h3 hjoined =>
    exact ⟨hexport _ (isFace_iff.2 ⟨by simp [h3], hjoined⟩), fun _ => .inl rfl⟩
  | @goOn c used faces p hnext hp =>
    refine ⟨hkeep, fun hfull => .inr (isFace_iff.2 ?_)⟩
    by_contra hopen
    refine hno ⟨hlen, _, hseed, .inr ⟨p, hnext, hfull, fun hclosed => hopen ⟨?_, hclosed.2⟩⟩⟩
    rw [List.length_append, List.length_singleton]
    exact Nat.succ_le_succ hclosed.1

/-- A chain that is stuck is exported. -/
theorem Grows.of_stuck {s s' : TraceState} (h : Grows edges plane s s') (hc : Stuck edges plane s.current) :
    s.current ∈ s'.faces := by
  obtain ⟨hnone, h2, -⟩ := hc
  cases h with
  | stuck =>
    rw [if_pos h2]
    exact List.mem_append_right _ (List.mem_singleton_self _)
  | back hnext | four hnext | goOn hnext =>
    rw [hnone] at hnext
    cases hnext

/-- A chain that takes the last unused point is left open. -/
theorem Grows.of_exhausts {s s' : TraceState} (hs : Tracing edges plane s) (h : Grows edges plane s s')
    (hc : Exhausts edges plane s.current s.used) (hunused : 4 ≤ s.current.length → plane.length ≠ s.used.card) :
    s'.current ≠ [] ∧ ¬IsFace edges s'.current ∧ plane.length = s'.used.card := by
  obtain ⟨p, hsome, hfull, hopen⟩ := hc
  cases h with
  | stuck hnext =>
    rw [hsome] at hnext
    cases hnext
  | @back c used faces q hnext hq h4 =>
    rw [hsome] at hnext
    cases hnext
    -- a point of the chain was used before
    rw [Finset.insert_eq_of_mem (hs.marked p hq)] at hfull
    exact absurd hfull (hunused h4)
  | @four c used faces q hnext hq h3 hjoined =>
    rw [hsome] at hnext
    cases hnext
    refine absurd ⟨?_, hjoined⟩ hopen
    show 2 ≤ c.length
    omega
  | @goOn c used faces q hnext hq =>
    rw [hsome] at hnext
    cases hnext
    refine ⟨by simp, fun hf => hopen ?_, hfull⟩
    obtain ⟨h3, hjoined⟩ := isFace_iff.1 hf
    rw [List.length_append, List.length_singleton] at h3
    exact ⟨Nat.le_of_succ_le_succ h3, hjoined⟩

/-- A pass that breaks off an open chain has it exported. -/
theorem exported_of_breaksOff {s out : TraceState} (hs : Tracing edges plane s) (hb : BreaksOff edges plane s)
    (h : Loop.Ends (traceStep edges plane) s (.ok out)) : ∃ f ∈ out.exported, ¬IsFace edges f := by
  obtain ⟨hlen, s₁, hseed, hbreak⟩ := hb
  obtain ⟨s', hstep, hgrows⟩ := exists_next hs hlen hseed
  have hs' := tracing_step hs hstep
  -- the run from the next head has the same outcome
  obtain ⟨out', hout'⟩ := trace_ends hs'
  cases (hout'.next hstep).unique h
  rcases hbreak with hstuck | hexhausts
  · exact ⟨_, mem_exported hs' hout' _ (hgrows.of_stuck hstuck), fun hf =>
      Bool.eq_false_iff.1 hstuck.2.2 (isFace_iff.1 hf).2⟩
  · have hunused : 4 ≤ s₁.current.length → plane.length ≠ s₁.used.card := by
      intro h4
      rcases seed_cases hseed with ⟨k, -, -, -, rfl⟩ | ⟨-, rfl⟩
      · simp at h4
      · exact hlen
    obtain ⟨hne, hopen, hfull⟩ := hgrows.of_exhausts (tracing_seed hs hseed) hexhausts hunused
    have hdone : traceStep edges plane s' = .done s' := by
      unfold traceStep
      rw [if_pos hfull]
    cases hout'.unique (.of_done hdone)
    exact ⟨_, (forall_exported.1 fun f hf => hf).2 hne, hopen⟩

/-- The loop over a plane ends, and all it exports is closed exactly when no pass breaks off an open
chain. -/
theorem exported_faces_iff (edges : List (ℕ × ℕ)) (plane : List ℕ) :
    ∃ out, Loop.Ends (traceStep edges plane) .start (.ok out) ∧
      ((∀ f ∈ out.exported, IsFace edges f) ↔
        ∀ s, Loop.Reach (traceStep edges plane) .start s → ¬BreaksOff edges plane s) := by
  obtain ⟨out, hout⟩ := trace_ends (tracing_start edges plane)
  refine ⟨out, hout, fun h s hr hb => ?_, fun h => ?_⟩
  · have hs := tracing_of_reach hr
    obtain ⟨out', hout'⟩ := trace_ends hs
    cases (hr.ends hout').unique hout
    obtain ⟨f, hf, hopen⟩ := exported_of_breaksOff hs hb hout'
    exact hopen (h f hf)
  · obtain ⟨s, hr, hd⟩ := hout.reach
    obtain ⟨rfl, hend⟩ := traceStep_done_inv hd
    have hclosed := hr.invariant_of_reach (I := AllClosed edges plane)
      ⟨by simp [TraceState.start], fun _ => .inl rfl⟩
      fun t t' hrt ht hstep => allClosed_step (tracing_of_reach hrt) ht (h t hrt) hstep
    refine forall_exported.2 ⟨hclosed.faces, fun hne => ?_⟩
    rcases hend with hfull | ⟨hc, -⟩
    · exact (hclosed.left hfull).resolve_left hne
    · exact absurd hc hne

/-- Three points in a row are exported inside the loop, and two after it. -/
theorem openStrokes_exported :
    (∃ out, Loop.Ends (traceStep [(0, 1), (1, 2)] [0, 1, 2, 3]) .start (.ok out) ∧ [0, 1, 2] ∈ out.exported ∧
      ¬IsFace [(0, 1), (1, 2)] [0, 1, 2]) ∧
    ∃ out, Loop.Ends (traceStep [(0, 1)] [0, 1]) .start (.ok out) ∧ [0, 1] ∈ out.exported ∧
      ¬IsFace [(0, 1)] [0, 1] := by
  refine ⟨⟨⟨[], {3, 2, 1, 0}, [[0, 1, 2]]⟩, ⟨5, rfl⟩, by decide, fun h => ?_⟩,
    ⟨[0, 1], {1, 0}, []⟩, ⟨2, rfl⟩, by decide, fun h => ?_⟩
  · exact absurd (isFace_iff.1 h).2 (by decide)
  · exact absurd h.three (by decide)

/-! ## All planes -/

section AllPlanes

variable {model : Model3d}

/-- The polygon of a chain of points of the model. -/
def facet (model : Model3d) (ids : List ℕ) : Polygon :=
  ⟨ids, ids.map fun k => corner (model.points.getD k ⟨0, 0, 0⟩)⟩

theorem polygon_eq {ids : List ℕ} (h : ∀ k ∈ ids, k < model.points.length) :
    polygon model ids = .ok (facet model ids) := by
  have hfetch : ∀ k ∈ ids, fetch model.points k = .ok (model.points.getD k ⟨0, 0, 0⟩) := fun k hk =>
    fetch_eq (by rw [List.getD_eq_getElem?_getD, List.getElem?_eq_getElem (h k hk)]; rfl)
  rw [polygon, List.mapM_eq_map hfetch]
  show Except.ok (Polygon.mk ids _) = _
  rw [List.map_map]
  rfl

theorem exported_simple {edges : List (ℕ × ℕ)} {plane : List ℕ} {out : TraceState} (h : Tracing edges plane out) :
    ∀ f ∈ out.exported, SimplePath edges plane f :=
  forall_exported.2 ⟨h.faces, fun _ => h.current⟩

/-- On points of the model, enough fuel gives the polygons of the chains exported. -/
theorem addPlane_eq {plane : List ℕ} (h : ∀ k ∈ plane, k < model.points.length) {out : TraceState} {least : ℕ}
    (hrun : Loop.run (traceStep model.edges plane) least .start = some (.ok out)) {fuel : ℕ} (hle : least ≤ fuel) :
    addPlane fuel model plane = .ok (out.exported.map (facet model)) := by
  obtain ⟨s, hr, hd⟩ := Loop.Ends.reach ⟨least, hrun⟩
  obtain ⟨rfl, -⟩ := traceStep_done_inv hd
  rw [addPlane, Loop.run_mono hrun hle]
  exact List.mapM_eq_map fun f hf => polygon_eq fun k hk =>
    h k ((exported_simple (tracing_of_reach hr) f hf).onPlane hk)

/-- `addFaces` hands over the chains its loops export, plane by plane. -/
theorem addFaces_eq : ∀ {planes : List (List ℕ)}, (∀ plane ∈ planes, ∀ k ∈ plane, k < model.points.length) →
    ∃ outs, List.Forall₂ (fun plane out => Loop.Ends (traceStep model.edges plane) .start (.ok out)) planes outs ∧
      ∃ least, ∀ fuel, least ≤ fuel →
        addFaces fuel model planes = .ok (outs.flatMap fun out => out.exported.map (facet model))
  | [], _ => ⟨[], .nil, 0, fun _ _ => rfl⟩
  | plane :: planes, h => by
    obtain ⟨outs, hends, least, hplanes⟩ := addFaces_eq fun plane hplane => h plane (List.mem_cons_of_mem _ hplane)
    obtain ⟨out, least', hrun⟩ := trace_ends (tracing_start model.edges plane)
    refine ⟨out :: outs, .cons ⟨least', hrun⟩ hends, max least least', fun fuel hle => ?_⟩
    have hplane := addPlane_eq (h plane (List.mem_cons_self ..)) hrun (le_of_max_le_right hle)
    have hrest := hplanes fuel (le_of_max_le_left hle)
    obtain ⟨polygons, hmap, hflat⟩ := bind_ok_inv hrest
    rw [addFaces, List.mapM_cons, hplane, hmap, List.flatMap_cons, ← Except.ok.inj hflat, ← List.flatten_cons]
    rfl

end AllPlanes

end DetailIdentifier.Modeller
