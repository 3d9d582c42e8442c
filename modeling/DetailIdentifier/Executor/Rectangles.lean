/-
Two rectangles, such as the views of a box, from their contours to separated views. Each is drawn with a
contour on either side of its strokes, the first one through the corners. The first contour leaves a side
open and the second one closes it, so the vectorizer finds both rectangles (`edges_eq`), and the
separation of strokes gives them back, the last one first (`separate_rectangles`).
-/
import DetailIdentifier.Executor.Process
import DetailIdentifier.Interpreter.Shift
import DetailIdentifier.Vectorizer.Corners

namespace DetailIdentifier.Executor

open Vectorizer (Drawing vectorize vectorize_spec Within Side Draws Ledger rank steps join edgeAlreadyExists
  edgeAlreadyExists_iff mem_steps eraseDups_append_subset eraseDups_append_disjoint vectorize_draws)
open Interpreter

/-! ## Rectangles -/

/-- The corners of a rectangle in the order of a walk round it, each by whether it lies across from the first
corner and whether below it (or above). -/
def walk (vertical : Bool) : ℕ → Bool × Bool
  | 0 => (false, false)
  | 1 => if vertical then (false, true) else (true, false)
  | 2 => (true, true)
  | _ => if vertical then (true, false) else (false, true)

/-- The same corner, or the next or the last one of the walk. -/
def beside (i j : ℕ) : Bool := i = j || (i + 1) % 4 = j || (j + 1) % 4 = i

/-- A rectangle: its first corner, and how far the others are to the right of it and below it (to the left
and above, where negative). The first contour starts along a vertical side or a horizontal one; the second
passes by the corners `inner`. -/
structure Rectangle where
  start : Point2i
  across : ℤ
  down : ℤ
  vertical : Bool
  inner : List (Fin 4)
  wide : 60 < |across|
  tall : 60 < |down|

namespace Rectangle

variable (b : Rectangle)

def corner (k : Fin 4) : Point2i where
  x := b.start.x + if (walk b.vertical k).1 then b.across else 0
  y := b.start.y + if (walk b.vertical k).2 then b.down else 0

def outline : List Point2i := (List.finRange 4).map b.corner

/-- The sides, in either direction. -/
def sides : List (Sym2 Point2i) :=
  [s(b.corner 0, b.corner 1), s(b.corner 1, b.corner 2), s(b.corner 2, b.corner 3), s(b.corner 3, b.corner 0)]

end Rectangle

/-- A view with the corners and the sides of a rectangle, once each. -/
structure ShowsRectangle (p : Projection RotatedRect) (r : Rectangle) : Prop where
  vertices : p.vertices = r.outline
  sides : (p.edges.map fun e => s(e.1, e.2)).Perm r.sides

/-- A second contour: it goes along the sides, and along the one that the first contour leaves open. -/
structure Closes (p : List (Fin 4)) : Prop where
  length : p.length ≠ 2
  along : p.IsChain fun j k : Fin 4 => beside j k = true
  closing : Side p 0 3

/-- The corners of both rectangles. -/
inductive Corner where
  | first (k : Fin 4)
  | second (k : Fin 4)
deriving DecidableEq

def Corner.number : Corner → ℕ
  | .first k => k
  | .second k => 4 + k

/-- The radius vertices of the second contours keep to: the tolerance of `approxPolyDP`. -/
def cornerRadius : ℤ := 15

/-- Two rectangles apart from each other, each with its two contours. -/
structure RectangleDrawing extends Drawing where
  first : Rectangle
  second : Rectangle
  firstInner : List Point2i
  secondInner : List Point2i
  drawn : contours = [first.outline, firstInner, second.outline, secondInner]
  firstDrawn : List.Forall₂ (fun k v => Within cornerRadius (first.corner k) v) first.inner firstInner
  secondDrawn : List.Forall₂ (fun k v => Within cornerRadius (second.corner k) v) second.inner secondInner
  firstCloses : Closes first.inner
  secondCloses : Closes second.inner
  apart : ∀ j k, ¬Within 60 (first.corner j) (second.corner k)

/-! ## Sides -/

section Sides

variable {es : List (ℕ × ℕ)} {x y : ℕ}

/-- Sides that are there already add nothing. -/
theorem foldl_join_present : ∀ {l : List (ℕ × ℕ)},
    (∀ e ∈ l, e.1 = e.2 ∨ ∃ a ∈ es, s(a.1, a.2) = s(e.1, e.2)) → l.foldl join es = es
  | [], _ => rfl
  | e :: l, h => by
    have hjoin : join es e = es := by
      unfold join
      rcases h e (List.mem_cons_self ..) with heq | hmem
      · rw [if_pos heq]
      · rw [if_pos (edgeAlreadyExists_iff.2 hmem), ite_self]
    rw [List.foldl_cons, hjoin]
    exact foldl_join_present fun f hf => h f (List.mem_cons_of_mem _ hf)

/-- One side that is missing is added once, in the direction it is met first. -/
theorem foldl_join_missing (hxy : x ≠ y) (hnew : ∀ a ∈ es, s(a.1, a.2) ≠ s(x, y)) : ∀ {l : List (ℕ × ℕ)},
    (∀ e ∈ l, e.1 = e.2 ∨ (∃ a ∈ es, s(a.1, a.2) = s(e.1, e.2)) ∨ s(e.1, e.2) = s(x, y)) →
    (∃ e ∈ l, s(e.1, e.2) = s(x, y)) → ∃ e, (e = (x, y) ∨ e = (y, x)) ∧ l.foldl join es = es ++ [e]
  | [], _, ⟨_, he, _⟩ => by cases he
  | e :: l, h, hmeets => by
    have hrest : ∀ f ∈ l, f.1 = f.2 ∨ (∃ a ∈ es, s(a.1, a.2) = s(f.1, f.2)) ∨ s(f.1, f.2) = s(x, y) :=
      fun f hf => h f (List.mem_cons_of_mem _ hf)
    by_cases he : s(e.1, e.2) = s(x, y)
    · have hjoin : join es e = es ++ [e] := by
        unfold join
        rw [if_neg, if_neg]
        · rw [edgeAlreadyExists_iff]
          exact fun ⟨a, ha, heq⟩ => hnew a ha (heq.trans he)
        · intro heq
          have hdiag : s(e.1, e.2).IsDiag := Sym2.mk_isDiag_iff.2 heq
          rw [he] at hdiag
          exact hxy (Sym2.mk_isDiag_iff.1 hdiag)
      refine ⟨e, ?_, ?_⟩
      · rcases Sym2.eq_iff.1 he with ⟨h1, h2⟩ | ⟨h1, h2⟩
        · exact .inl (Prod.ext h1 h2)
        · exact .inr (Prod.ext h1 h2)
      · rw [List.foldl_cons, hjoin]
        refine foldl_join_present fun f hf => (hrest f hf).imp_right ?_
        rintro (⟨a, ha, heq⟩ | heq)
        · exact ⟨a, List.mem_append_left _ ha, heq⟩
        · exact ⟨e, by simp, he.trans heq.symm⟩
    · have hjoin : [e].foldl join es = es := foldl_join_present fun f hf => by
        rw [List.mem_singleton.1 hf]
        exact (h e (List.mem_cons_self ..)).imp_right fun hor => hor.resolve_right he
      obtain ⟨f, hf, hfeq⟩ := hmeets
      rw [List.foldl_cons, show join es e = es from hjoin]
      refine foldl_join_missing hxy hnew hrest ⟨f, ?_, hfeq⟩
      rcases List.mem_cons.1 hf with rfl | hf
      exacts [absurd hfeq he, hf]

theorem besides_sides : ∀ c c' : Fin 4, beside c c' = true →
    c = c' ∨ s(c, c') = s(0, 1) ∨ s(c, c') = s(1, 2) ∨ s(c, c') = s(2, 3) ∨ s(c, c') = s(0, 3) := by
  decide

/-- A second contour adds the side the first one leaves open. -/
theorem Closes.join {p : List (Fin 4)} (hp : Closes p) (es : List (ℕ × ℕ)) (n : ℕ)
    (hnew : ∀ a ∈ es, s(a.1, a.2) ≠ s(n, n + 3))
    (hsides : (n, n + 1) ∈ es ∧ (n + 1, n + 2) ∈ es ∧ (n + 2, n + 3) ∈ es) :
    ∃ e, (e = (n, n + 3) ∨ e = (n + 3, n)) ∧ (steps (p.map fun k => n + k.val)).foldl join es = es ++ [e] := by
  refine foldl_join_missing (by omega) hnew (fun e he => ?_) ?_
  · obtain ⟨j, h1, h2⟩ := mem_steps.1 he
    obtain ⟨c, hc, hc1⟩ := Option.map_eq_some_iff.1 (List.getElem?_map.symm.trans h1)
    obtain ⟨c', hc', hc2⟩ := Option.map_eq_some_iff.1 (List.getElem?_map.symm.trans h2)
    have hbeside : beside c c' = true := by
      have := List.isChain_iff_getElem.1 hp.along j (List.getElem?_eq_some_iff.1 hc').1
      rwa [(List.getElem?_eq_some_iff.1 hc).2, (List.getElem?_eq_some_iff.1 hc').2] at this
    have hside : ∀ a b : Fin 4, s(c, c') = s(a, b) → s(e.1, e.2) = s(n + a.val, n + b.val) := by
      intro a b heq
      rw [← hc1, ← hc2]
      exact congrArg (Sym2.map fun k : Fin 4 => n + k.val) heq
    rcases besides_sides c c' hbeside with rfl | heq | heq | heq | heq
    · exact .inl (hc1.symm.trans hc2)
    · exact .inr (.inl ⟨_, hsides.1, (hside _ _ heq).symm⟩)
    · exact .inr (.inl ⟨_, hsides.2.1, (hside _ _ heq).symm⟩)
    · exact .inr (.inl ⟨_, hsides.2.2, (hside _ _ heq).symm⟩)
    · exact .inr (.inr (hside _ _ heq))
  · obtain ⟨j, c, c', hc, hc', heq⟩ := hp.closing
    refine ⟨(n + c.val, n + c'.val), mem_steps.2 ⟨j, ?_, ?_⟩, ?_⟩
    · rw [List.getElem?_map, hc]
      rfl
    · rw [List.getElem?_map, hc']
      rfl
    rcases Sym2.eq_iff.1 heq with ⟨rfl, rfl⟩ | ⟨rfl, rfl⟩
    · rfl
    · exact Sym2.eq_swap

end Sides

/-! ## The vectorized box -/

namespace Rectangle

variable {v : Rectangle}

theorem walk_inj : ∀ (vertical : Bool) (j k : Fin 4), walk vertical j = walk vertical k → j = k := by
  decide

/-- The corners of a rectangle are far apart. -/
theorem not_within (v : Rectangle) {j k : Fin 4} (hjk : j ≠ k) : ¬Within 60 (v.corner j) (v.corner k) := by
  have hacross := v.wide
  have hdown := v.tall
  rintro ⟨hx, hy⟩
  simp only [corner, add_sub_add_left_eq_sub] at hx hy
  apply hjk
  apply walk_inj v.vertical
  refine Prod.ext ?_ ?_
  · by_contra hne
    cases h1 : (walk v.vertical j).1 <;> cases h2 : (walk v.vertical k).1 <;> simp [h1, h2] at hne hx <;> omega
  · by_contra hne
    cases h1 : (walk v.vertical j).2 <;> cases h2 : (walk v.vertical k).2 <;> simp [h1, h2] at hne hy <;> omega

@[simp] theorem length_outline (v : Rectangle) : v.outline.length = 4 := by
  simp [outline]

theorem getElem?_outline (v : Rectangle) (k : Fin 4) : v.outline[k.val]? = some (v.corner k) := by
  have hk : (List.finRange 4)[k.val]? = some k := by
    revert k
    decide
  rw [outline, List.getElem?_map, hk, Option.map_some]

end Rectangle

namespace RectangleDrawing

variable (b : RectangleDrawing)

def corner : Corner → Point2i
  | .first k => b.first.corner k
  | .second k => b.second.corner k

/-- The corners the contours pass by. -/
def paths : List (List Corner) :=
  [(List.finRange 4).map .first, b.first.inner.map .first, (List.finRange 4).map .second, b.second.inner.map .second]

theorem corners_apart :
    Pairwise fun j k => ¬Within (Vectorizer.seedRadius + 2 * cornerRadius) (b.corner j) (b.corner k) := by
  have hsum : Vectorizer.seedRadius + 2 * cornerRadius = 60 := rfl
  intro j k hjk
  rw [hsum]
  rcases j with j | j <;> rcases k with k | k
  · exact b.first.not_within fun h => hjk (by rw [h])
  · exact b.apart j k
  · exact fun h => b.apart k j h.symm
  · exact b.second.not_within fun h => hjk (by rw [h])

theorem processed_eq : b.processed = b.contours := by
  rw [Drawing.processed, List.filter_eq_self, b.drawn]
  have h1 := b.firstCloses.length
  have h2 := b.secondCloses.length
  rw [b.firstDrawn.length_eq] at h1
  rw [b.secondDrawn.length_eq] at h2
  simp [h1, h2]

theorem outline_drawn (v : Rectangle) {κ : Type} (f : Fin 4 → κ) (corner : κ → Point2i)
    (h : ∀ k, corner (f k) = v.corner k) :
    List.Forall₂ (fun k u => Within cornerRadius (corner k) u) ((List.finRange 4).map f) v.outline :=
  List.forall₂_map_left_iff.2 (List.forall₂_map_right_iff.2 (List.forall₂_same.2 fun k _ => by
    rw [h]
    simp [Within, cornerRadius]))

theorem draws : Draws b.corner cornerRadius b.paths b.processed := by
  rw [b.processed_eq, b.drawn]
  exact .cons (outline_drawn _ _ _ fun _ => rfl) (.cons (List.forall₂_map_left_iff.2 b.firstDrawn)
    (.cons (outline_drawn _ _ _ fun _ => rfl) (.cons (List.forall₂_map_left_iff.2 b.secondDrawn) .nil)))

theorem visited_eq : b.paths.flatten = (List.finRange 4).map .first ++ (b.first.inner.map .first ++
    ((List.finRange 4).map .second ++ b.second.inner.map .second)) := by
  simp [paths]

/-- Each corner is numbered by its place in the first contour of its view. -/
theorem eraseDups_visited :
    b.paths.flatten.eraseDups = (List.finRange 4).map .first ++ (List.finRange 4).map .second := by
  rw [visited_eq, ← List.append_assoc, ← List.append_assoc, eraseDups_append_subset, eraseDups_append_disjoint,
    eraseDups_append_subset]
  · decide
  · simp [List.subset_def]
  · intro k hk hk'
    simp only [List.mem_append, List.mem_map] at hk hk'
    obtain ⟨j, -, rfl⟩ := hk'
    rcases hk with ⟨i, -, h⟩ | ⟨i, -, h⟩ <;> cases h
  · simp [List.subset_def]

theorem few_corners : b.paths.flatten.eraseDups.length ≤ Vectorizer.startSeed := by
  rw [eraseDups_visited]
  decide

theorem rank_eq : rank b.paths.flatten = Corner.number := by
  funext k
  rw [rank, eraseDups_visited]
  rcases k with k | k <;> revert k <;> decide

/-- The numbers met on the contours. -/
theorem ledger_paths : Ledger.paths ⟨[], []⟩ b.processed =
    [[0, 1, 2, 3], b.first.inner.map fun k => 0 + k.val, [4, 5, 6, 7], b.second.inner.map fun k => 4 + k.val] := by
  rw [(vectorize_draws b.toDrawing (by decide) b.corners_apart b.draws b.few_corners).2, rank_eq]
  simp only [paths, List.map_cons, List.map_nil, List.map_map, Function.comp_def, Corner.number, Nat.zero_add]
  rfl

/-- Both rectangles are found, each with its open side last. -/
theorem edges_eq : ∃ e₁ e₂, (e₁ = (0, 3) ∨ e₁ = (3, 0)) ∧ (e₂ = (4, 7) ∨ e₂ = (7, 4)) ∧
    (vectorized b.toDrawing).edges = [(0, 1), (1, 2), (2, 3), e₁, (4, 5), (5, 6), (6, 7), e₂] := by
  obtain ⟨e₁, he₁, hfirst⟩ := b.firstCloses.join [(0, 1), (1, 2), (2, 3)] 0 (by decide) (by decide)
  have houtline : (steps [4, 5, 6, 7]).foldl join ([(0, 1), (1, 2), (2, 3)] ++ [e₁]) =
      [(0, 1), (1, 2), (2, 3), e₁, (4, 5), (5, 6), (6, 7)] := by
    rcases he₁ with rfl | rfl <;> rfl
  obtain ⟨e₂, he₂, hsecond⟩ := b.secondCloses.join [(0, 1), (1, 2), (2, 3), e₁, (4, 5), (5, 6), (6, 7)] 4
    (by rcases he₁ with rfl | rfl <;> decide) (by simp)
  refine ⟨e₁, e₂, he₁, he₂, ?_⟩
  show ((Ledger.paths ⟨[], []⟩ b.processed).flatMap steps).foldl join [] = _
  rw [ledger_paths]
  simp only [List.flatMap_cons, List.flatMap_nil, List.append_nil, List.foldl_append]
  rw [show (steps [0, 1, 2, 3]).foldl join [] = [(0, 1), (1, 2), (2, 3)] from rfl, hfirst, houtline, hsecond]
  rfl

/-- The first vertex of a corner of the first view, and of the second. -/
theorem drawn_first (k : Fin 4) : b.processed.flatten[b.paths.flatten.idxOf (.first k)]? = some (b.first.corner k) := by
  have hidx : b.paths.flatten.idxOf (.first k) = k.val := by
    rw [visited_eq, List.idxOf_append_of_mem (by simp)]
    revert k
    decide
  rw [hidx, b.processed_eq, b.drawn, List.flatten_cons, List.getElem?_append_left (by simp), Rectangle.getElem?_outline]

theorem drawn_second (k : Fin 4) :
    b.processed.flatten[b.paths.flatten.idxOf (.second k)]? = some (b.second.corner k) := by
  have hidx : b.paths.flatten.idxOf (.second k) = 4 + (b.first.inner.length + k.val) := by
    have hk : ((List.finRange 4).map Corner.second).idxOf (.second k) = k.val := by
      revert k
      decide
    rw [visited_eq, List.idxOf_append_of_notMem (by simp), List.idxOf_append_of_notMem (by simp),
      List.idxOf_append_of_mem (by simp), hk, List.length_map, List.length_map, List.length_finRange]
  rw [hidx, b.processed_eq, b.drawn, List.flatten_cons, List.flatten_cons, List.flatten_cons, b.firstDrawn.length_eq,
    List.getElem?_append_right (by simp), Rectangle.length_outline, Nat.add_sub_cancel_left,
    List.getElem?_append_right (by simp), Nat.add_sub_cancel_left, List.getElem?_append_left (by simp),
    Rectangle.getElem?_outline]

theorem vertices_eq : (vectorized b.toDrawing).vertices = b.first.outline ++ b.second.outline := by
  have hpoints := (vectorize_draws b.toDrawing (by decide) b.corners_apart b.draws b.few_corners).1
  have hdrawn : List.Forall₂ (fun k v => b.processed.flatten[b.paths.flatten.idxOf k]? = some v)
      b.paths.flatten.eraseDups (b.first.outline ++ b.second.outline) := by
    rw [eraseDups_visited]
    refine List.rel_append ?_ ?_
    · exact List.forall₂_map_left_iff.2 (List.forall₂_map_right_iff.2 (List.forall₂_same.2 fun k _ => b.drawn_first k))
    · exact List.forall₂_map_left_iff.2 (List.forall₂_map_right_iff.2 (List.forall₂_same.2 fun k _ => b.drawn_second k))
  exact List.right_unique_forall₂' (fun _ _ _ h h' => Option.some.inj (h.symm.trans h')) hpoints hdrawn

/-! ## The separated views -/

theorem nodup_outlines : (b.first.outline ++ b.second.outline).Nodup := by
  have hinj : Function.Injective b.corner := by
    intro j k heq
    by_contra hjk
    have hnot : ¬Within (Vectorizer.seedRadius + 2 * cornerRadius) (b.corner j) (b.corner k) := b.corners_apart hjk
    rw [heq] at hnot
    exact hnot (by simp [Within, Vectorizer.seedRadius, cornerRadius])
  have hmap : b.first.outline ++ b.second.outline =
      ((List.finRange 4).map Corner.first ++ (List.finRange 4).map Corner.second).map b.corner := by
    rw [List.map_append, List.map_map, List.map_map]
    rfl
  rw [hmap]
  exact List.Nodup.map hinj (by decide)

/-- Eight points in a row. -/
def pointRow : List Point2i := (List.range 8).map fun i => ⟨i, 0⟩

/-- Four points of the row as corners of a rectangle. -/
def rowSides (n : ℤ) : List (Sym2 Point2i) :=
  [s(⟨n, 0⟩, ⟨n + 1, 0⟩), s(⟨n + 1, 0⟩, ⟨n + 2, 0⟩), s(⟨n + 2, 0⟩, ⟨n + 3, 0⟩), s(⟨n + 3, 0⟩, ⟨n, 0⟩)]

/-- A view of four points of the row, carried to the corners of a rectangle. -/
theorem showsRectangle_move {f : Point2i → Point2i} {n : ℤ} {r : Rectangle} {p : Projection RotatedRect}
    (hf : ∀ k : Fin 4, f ⟨n + k, 0⟩ = r.corner k) (hp : p.vertices = (List.finRange 4).map fun k => ⟨n + k, 0⟩)
    (hsides : (p.edges.map fun e => s(e.1, e.2)).Perm (rowSides n)) : ShowsRectangle (p.move f id) r where
  vertices := by
    show p.vertices.map f = (List.finRange 4).map r.corner
    rw [hp, List.map_map]
    exact List.map_congr_left fun k _ => hf k
  sides := by
    have hmap : ((p.move f id).edges.map fun e => s(e.1, e.2)) = (p.edges.map fun e => s(e.1, e.2)).map (Sym2.map f) := by
      simp only [Projection.move, List.map_map]
      rfl
    have hrow : (rowSides n).map (Sym2.map f) = r.sides := by
      have h0 := hf 0
      have h1 := hf 1
      have h2 := hf 2
      have h3 := hf 3
      simp only [Fin.val_zero, Fin.val_one, Fin.val_two, Nat.cast_zero, Nat.cast_one, add_zero] at h0 h1 h2 h3
      simp only [rowSides, Rectangle.sides, List.map_cons, List.map_nil, Sym2.map_mk, ← h0, ← h1, ← h2, ← h3]
      rfl
    rw [hmap, ← hrow]
    exact hsides.map _

/-- The vectorizer finds the corners and the sides of both rectangles, and separating the strokes gives a
view of each, the one drawn last first. -/
theorem separate_rectangles : ∃ edges, ∃ p q : Projection RotatedRect,
    vectorize b.cols b.rows b.contours = .ok ⟨b.first.outline ++ b.second.outline, edges⟩ ∧ edges.length = 8 ∧
      separateProjections (b.first.outline ++ b.second.outline) edges = .ok [p, q] ∧
      ShowsRectangle p b.second ∧ ShowsRectangle q b.first := by
  obtain ⟨e₁, e₂, he₁, he₂, hedges⟩ := b.edges_eq
  -- only the indices count, so eight points in a row can be looked at instead
  obtain ⟨f, hf, hmap⟩ := List.exists_injective_map (l := pointRow) (by decide) b.nodup_outlines (by simp [pointRow])
  obtain ⟨p, q, hunit, hp, hq, hpSides, hqSides⟩ : ∃ p q : Projection RotatedRect,
      separateProjections pointRow [(0, 1), (1, 2), (2, 3), e₁, (4, 5), (5, 6), (6, 7), e₂] = .ok [p, q] ∧
        p.vertices = ((List.finRange 4).map fun k => ⟨4 + k, 0⟩) ∧ q.vertices = ((List.finRange 4).map fun k => ⟨0 + k, 0⟩) ∧
        (p.edges.map fun e => s(e.1, e.2)).Perm (rowSides 4) ∧ (q.edges.map fun e => s(e.1, e.2)).Perm (rowSides 0) := by
    rcases he₁ with rfl | rfl <;> rcases he₂ with rfl | rfl <;>
      exact ⟨_, _, rfl, rfl, rfl, by decide, by decide⟩
  have hpoint : ∀ {k : ℕ}, k < 8 → some (f ⟨k, 0⟩) = (b.first.outline ++ b.second.outline)[k]? := by
    intro k hk
    rw [← hmap, List.getElem?_map]
    interval_cases k <;> rfl
  refine ⟨(vectorized b.toDrawing).edges, p.move f id, q.move f id, ?_, ?_, ?_, showsRectangle_move (fun k => ?_) hp hpSides,
    showsRectangle_move (fun k => ?_) hq hqSides⟩
  · rw [← b.vertices_eq]
    exact vectorize_spec b.toDrawing
  · exact (congrArg List.length hedges).trans rfl
  · show separateProjections _ (vectorized b.toDrawing).edges = _
    rw [hedges, ← hmap, separateProjections_move hf, hunit]
    rfl
  · have h := hpoint (k := 4 + k) (by omega)
    rw [List.getElem?_append_right (by simp), Rectangle.length_outline, Nat.add_sub_cancel_left,
      Rectangle.getElem?_outline] at h
    exact_mod_cast Option.some.inj h
  · have h := hpoint (k := k) (by omega)
    rw [List.getElem?_append_left (by simp), Rectangle.getElem?_outline] at h
    rw [zero_add]
    exact Option.some.inj h

end RectangleDrawing

/-- The views of a box 200 wide, 100 deep and 150 high; the walk round the second starts at the opposite
corner. -/
def boxViews : RectangleDrawing where
  cols := 400
  rows := 600
  contours := [[⟨50, 50⟩, ⟨50, 200⟩, ⟨250, 200⟩, ⟨250, 50⟩], [⟨55, 57⟩, ⟨240, 56⟩, ⟨243, 190⟩, ⟨58, 194⟩],
    [⟨250, 500⟩, ⟨250, 400⟩, ⟨50, 400⟩, ⟨50, 500⟩], [⟨56, 408⟩, ⟨242, 409⟩, ⟨244, 494⟩, ⟨57, 492⟩]]
  nonempty := by decide
  inside := by decide
  first := ⟨⟨50, 50⟩, 200, 150, true, [0, 3, 2, 1], by decide, by decide⟩
  second := ⟨⟨250, 500⟩, -200, -100, true, [2, 1, 0, 3], by decide, by decide⟩
  firstInner := [⟨55, 57⟩, ⟨240, 56⟩, ⟨243, 190⟩, ⟨58, 194⟩]
  secondInner := [⟨56, 408⟩, ⟨242, 409⟩, ⟨244, 494⟩, ⟨57, 492⟩]
  drawn := by decide
  firstDrawn := .cons (by decide) (.cons (by decide) (.cons (by decide) (.cons (by decide) .nil)))
  secondDrawn := .cons (by decide) (.cons (by decide) (.cons (by decide) (.cons (by decide) .nil)))
  firstCloses := ⟨by decide, by decide, 0, 0, 3, rfl, rfl, rfl⟩
  secondCloses := ⟨by decide, by decide, 2, 0, 3, rfl, rfl, rfl⟩
  apart := by decide

theorem separate_boxViews : ∃ edges, ∃ p q : Projection RotatedRect,
    vectorize 400 600 boxViews.contours = .ok ⟨boxViews.first.outline ++ boxViews.second.outline, edges⟩ ∧
      separateProjections (boxViews.first.outline ++ boxViews.second.outline) edges = .ok [p, q] ∧
      ShowsRectangle p boxViews.second ∧ ShowsRectangle q boxViews.first := by
  obtain ⟨edges, p, q, hvectorize, -, h⟩ := boxViews.separate_rectangles
  exact ⟨edges, p, q, hvectorize, h⟩

end DetailIdentifier.Executor
