/-
The label image after every processed vertex. `visits` follows a run and notes each vertex with its
index and the image it leaves; it stops where the run fails. Whatever the contours are, a run fails at
an empty contour only, and every image holds the index of the last vertex near each pixel
(`visits_label`).
-/
import DetailIdentifier.Vectorizer.Trace

namespace DetailIdentifier.Vectorizer

/-! ## Following a run -/

/-- A processed vertex with its index, and the label image once its neighbourhood is seeded. -/
structure Visit where
  vertex : Point2i
  index : ℕ
  minimal : Mat

/-- The visits of the loop over the vertices of a contour after its first. -/
def lineVisits (t : Tracer) : List Point2i → List Visit
  | [] => []
  | v :: vs =>
    match lineTo t v with
    | .error _ => []
    | .ok t' => ⟨v, t'.index, t'.labels.minimal⟩ :: lineVisits t' vs

/-- The visits of the loop body over the contours. -/
def contourVisits (s : Labels × List (ℕ × ℕ)) (contour : List Point2i) : List Visit :=
  if contour.length = 2 then []
  else
    match contour with
    | [] => []
    | v :: vs =>
      match placeVertex s.1 v with
      | .error _ => []
      | .ok r => ⟨v, r.1, r.2.minimal⟩ :: lineVisits { index := r.1, labels := r.2, edges := s.2 } vs

/-- The visits of a run. -/
def visits (s : Labels × List (ℕ × ℕ)) : List (List Point2i) → List Visit
  | [] => []
  | c :: cs =>
    contourVisits s c ++
      match traceContour s c with
      | .error _ => []
      | .ok s' => visits s' cs

/-- The index of the last of some visits within `seedRadius` of a pixel. -/
def lastIndex (us : List Visit) (q : Point2i) : ℕ :=
  ((us.reverse.find? fun u => Within seedRadius u.vertex q).map (·.index)).getD startSeed

/-! ## The last image -/

/-- The image after some visits. -/
def lastImage (m : Mat) (us : List Visit) : Mat := us.foldl (fun _ u => u.minimal) m

theorem lineVisits_lastImage : ∀ (vs : List Point2i) {t t' : Tracer}, vs.foldlM lineTo t = .ok t' →
    lastImage t.labels.minimal (lineVisits t vs) = t'.labels.minimal
  | [], _, _, h => by
    cases h
    rfl
  | v :: vs, t, t', h => by
    rw [List.foldlM_cons] at h
    obtain ⟨t₁, h1, h2⟩ := bind_ok_inv h
    rw [lineVisits, h1]
    exact lineVisits_lastImage vs h2

theorem contourVisits_lastImage {s s' : Labels × List (ℕ × ℕ)} {c : List Point2i} (h : traceContour s c = .ok s') :
    lastImage s.1.minimal (contourVisits s c) = s'.1.minimal := by
  unfold traceContour at h
  unfold contourVisits
  by_cases h2 : c.length = 2
  · rw [if_pos h2] at h ⊢
    cases h
    rfl
  · rw [if_neg h2] at h ⊢
    cases c with
    | nil => cases h
    | cons v vs =>
      obtain ⟨r, hr, h⟩ := bind_ok_inv h
      obtain ⟨t, ht, h⟩ := bind_ok_inv h
      cases h
      simp only [hr]
      exact lineVisits_lastImage vs ht

/-- A run that ends has noted the image it ends with. -/
theorem visits_lastImage : ∀ (cs : List (List Point2i)) {s s' : Labels × List (ℕ × ℕ)},
    cs.foldlM traceContour s = .ok s' → lastImage s.1.minimal (visits s cs) = s'.1.minimal
  | [], _, _, h => by
    cases h
    rfl
  | c :: cs, s, s', h => by
    rw [List.foldlM_cons] at h
    obtain ⟨s₁, h1, h2⟩ := bind_ok_inv h
    rw [visits, h1, lastImage, List.foldl_append]
    show lastImage (lastImage s.1.minimal (contourVisits s c)) (visits s₁ cs) = _
    rw [contourVisits_lastImage h1]
    exact visits_lastImage cs h2

/-! ## The images of a run -/

section Images

variable {cols rows : ℕ}

/-- An image of the given size that shows the labels of a ledger. -/
structure Shows (cols rows : ℕ) (m : Mat) (l : Ledger) : Prop where
  cols : m.cols = cols
  rows : m.rows = rows
  px : ∀ q, m.Inside q → m.px q = l.label q

theorem Records.shows {s : Labels} {l : Ledger} (h : Records cols rows s l) : Shows cols rows s.minimal l :=
  ⟨h.cols, h.rows, h.px⟩

/-- The visits enter the vertices in a ledger one by one, and their images show it. -/
inductive Logged (cols rows : ℕ) : Ledger → List Point2i → List Visit → Prop where
  | nil {l : Ledger} : Logged cols rows l [] []
  | cons {l : Ledger} {vs : List Point2i} {u : Visit} {us : List Visit} : u.index = l.assign u.vertex →
      Shows cols rows u.minimal (l.place u.vertex) → Logged cols rows (l.place u.vertex) vs us →
      Logged cols rows l (u.vertex :: vs) (u :: us)

theorem Logged.append {l : Ledger} {vs ws : List Point2i} {us us' : List Visit} (h : Logged cols rows l vs us)
    (h' : Logged cols rows (vs.foldl Ledger.place l) ws us') : Logged cols rows l (vs ++ ws) (us ++ us') := by
  induction h with
  | nil => exact h'
  | cons hi hs _ ih => exact .cons hi hs (ih h')

theorem Logged.vertices {l : Ledger} {vs : List Point2i} {us : List Visit} (h : Logged cols rows l vs us) :
    us.map (·.vertex) = vs := by
  induction h with
  | nil => rfl
  | cons _ _ _ ih => rw [List.map_cons, ih]

/-- After each visit the image shows the ledger of the visits up to it. -/
theorem Logged.shows {l : Ledger} {vs : List Point2i} {us : List Visit} (h : Logged cols rows l vs us) :
    ∀ {n u}, us[n]? = some u → ∃ l', Shows cols rows u.minimal l' ∧
      l'.placed = ((us.take (n + 1)).map fun u => (u.vertex, u.index)).reverse ++ l.placed := by
  induction h with
  | nil =>
    intro n u hu
    cases hu
  | @cons l vs u₀ us hi hs _ ih =>
    intro n u hu
    cases n with
    | zero =>
      cases hu
      refine ⟨_, hs, ?_⟩
      simp [Ledger.place, hi]
    | succ n =>
      obtain ⟨l', hs', hl'⟩ := ih hu
      refine ⟨l', hs', ?_⟩
      rw [hl', Ledger.place, List.take_succ_cons, List.map_cons, List.reverse_cons, List.append_assoc, hi]
      rfl

/-- The label in a ledger of some visits is the index of the last one near. -/
theorem label_of_placed {l : Ledger} {us : List Visit}
    (h : l.placed = (us.map fun u => (u.vertex, u.index)).reverse) (q : Point2i) : l.label q = lastIndex us q := by
  rw [Ledger.label, h, lastIndex, ← List.map_reverse, List.find?_map, Option.map_map]
  rfl

theorem lineVisits_logged : ∀ (vs : List Point2i) {t : Tracer} {l : Ledger}, Records cols rows t.labels l →
    (∀ v ∈ vs, (Mat.fresh cols rows startSeed).Inside v) → Logged cols rows l vs (lineVisits t vs)
  | [], _, _, _, _ => .nil
  | v :: vs, t, l, h, hv => by
    obtain ⟨t', ht, hr, hi, -⟩ := lineTo_spec h (hv v (List.mem_cons_self ..))
    rw [lineVisits, ht]
    exact .cons (u := ⟨v, t'.index, t'.labels.minimal⟩) hi hr.shows
      (lineVisits_logged vs hr fun u hu => hv u (List.mem_cons_of_mem _ hu))

theorem contourVisits_logged {s : Labels} {l : Ledger} (h : Records cols rows s l) (es : List (ℕ × ℕ))
    {c : List Point2i} (h2 : c.length ≠ 2) (hv : ∀ v ∈ c, (Mat.fresh cols rows startSeed).Inside v) :
    Logged cols rows l c (contourVisits (s, es) c) := by
  cases c with
  | nil => exact .nil
  | cons v vs =>
    obtain ⟨s', hs, hr⟩ := placeVertex_spec h (hv v (List.mem_cons_self ..))
    rw [contourVisits, if_neg h2]
    simp only [hs]
    exact .cons (u := ⟨v, l.assign v, s'.minimal⟩) rfl hr.shows
      (lineVisits_logged vs hr fun u hu => hv u (List.mem_cons_of_mem _ hu))

/-- The vertices processed by a run: those of the contours that are not skipped, up to an empty one. -/
def reachedVertices (contours : List (List Point2i)) : List Point2i :=
  ((contours.takeWhile (· ≠ [])).filter (·.length ≠ 2)).flatten

theorem visits_logged : ∀ (cs : List (List Point2i)) {s : Labels} {l : Ledger} (es : List (ℕ × ℕ)),
    Records cols rows s l → (∀ c ∈ cs, ∀ v ∈ c, (Mat.fresh cols rows startSeed).Inside v) →
    Logged cols rows l (reachedVertices cs) (visits (s, es) cs)
  | [], _, _, _, _, _ => .nil
  | c :: cs, s, l, es, h, hv => by
    have hcs : ∀ c ∈ cs, ∀ v ∈ c, (Mat.fresh cols rows startSeed).Inside v := fun b hb => hv b (List.mem_cons_of_mem _ hb)
    by_cases hc : c = []
    · subst hc
      exact .nil
    · by_cases h2 : c.length = 2
      · have hreached : reachedVertices (c :: cs) = reachedVertices cs := by
          simp [reachedVertices, hc, h2]
        have hskip : traceContour (s, es) c = .ok (s, es) := by
          unfold traceContour
          rw [if_pos h2]
          rfl
        have hnone : contourVisits (s, es) c = [] := by
          unfold contourVisits
          rw [if_pos h2]
        rw [hreached, visits, hskip, hnone]
        exact visits_logged cs es h hcs
      · have hreached : reachedVertices (c :: cs) = c ++ reachedVertices cs := by
          simp [reachedVertices, hc, h2]
        obtain ⟨s', hs', hr⟩ := traceContour_spec h es hc h2 (hv c (List.mem_cons_self ..))
        rw [hreached, visits, hs']
        exact (contourVisits_logged h es h2 (hv c (List.mem_cons_self ..))).append (visits_logged cs _ hr hcs)

end Images

/-! ## The law of the label image -/

/-- For contours with their vertices in the image, every vertex up to an empty contour is processed;
after each, every pixel is labelled with the index of the last processed vertex near it; and no
neighbourhood, of a vertex anywhere, is seeded outside the image. -/
theorem visits_label (cols rows : ℕ) (contours : List (List Point2i))
    (hv : ∀ c ∈ contours, ∀ v ∈ c, (Mat.fresh cols rows startSeed).Inside v) :
    (visits (unseeded cols rows, []) contours).map (·.vertex) = reachedVertices contours ∧
      (∀ n u, (visits (unseeded cols rows, []) contours)[n]? = some u →
        u.minimal.cols = cols ∧ u.minimal.rows = rows ∧ ∀ q, u.minimal.Inside q →
          u.minimal.px q = lastIndex ((visits (unseeded cols rows, []) contours).take (n + 1)) q) ∧
      ∀ m center value, ∃ m', seedNeighborhood m center value seedRadius = .ok m' := by
  have hlogged := visits_logged contours [] (unseeded_records cols rows) hv
  refine ⟨hlogged.vertices, fun n u hu => ?_, fun m center value => ⟨_, seedNeighborhood_eq _ _ _ _⟩⟩
  obtain ⟨l, hshows, hplaced⟩ := hlogged.shows hu
  refine ⟨hshows.cols, hshows.rows, fun q hq => ?_⟩
  rw [hshows.px q hq]
  exact label_of_placed (by rw [hplaced, List.append_nil]) q

/-- The third vertex lies at the edge of the first one's neighbourhood. -/
def nearReturn : List (List Point2i) := [[⟨10, 10⟩, ⟨60, 10⟩, ⟨12, 40⟩]]

theorem nearReturn_label :
    (visits (unseeded 100 100, []) nearReturn).map (·.vertex) = reachedVertices nearReturn ∧
      (∀ n u, (visits (unseeded 100 100, []) nearReturn)[n]? = some u →
        u.minimal.cols = 100 ∧ u.minimal.rows = 100 ∧ ∀ q, u.minimal.Inside q →
          u.minimal.px q = lastIndex ((visits (unseeded 100 100, []) nearReturn).take (n + 1)) q) ∧
      ∀ m center value, ∃ m', seedNeighborhood m center value seedRadius = .ok m' :=
  visits_label 100 100 nearReturn (by decide)

end DetailIdentifier.Vectorizer
