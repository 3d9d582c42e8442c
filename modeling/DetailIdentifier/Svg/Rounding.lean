/-
Relative paths with rational offsets. A location holds integers, so every point has the fraction of
its offset cut off before the next offset is added to it: each offset moves a point by less than one
unit from where the offsets before it and itself would take it, and the moves add up
(`relative_drift`).
-/
import DetailIdentifier.Svg.Semantics

namespace DetailIdentifier.Svg

/-! ## Texts -/

/-- The text of a rational number. -/
structure Word where
  text : List Char
  value : ℚ
  reads : Decimal.parse text = some value

theorem Word.text_ne_nil (w : Word) : w.text ≠ [] := by
  intro h
  have hr := w.reads
  rw [h, Decimal.parse_nil] at hr
  cases hr

/-- The text of an offset. -/
structure OffsetText where
  x : Word
  gap : Gap
  y : Word

def OffsetText.text (o : OffsetText) : List Char := o.x.text ++ o.gap.text ++ o.y.text

def OffsetText.value (o : OffsetText) : ℚ × ℚ := (o.x.value, o.y.value)

/-- One offset or more, with the blanks around them. -/
structure Offsets where
  after : ℕ
  head : OffsetText
  tail : List (Gap × OffsetText)
  next : ℕ

namespace Offsets

def body (o : Offsets) : List Char :=
  blanks o.after ++ (o.head.text ++ o.tail.flatMap fun p => p.1.text ++ p.2.text) ++ blanks o.next

def values (o : Offsets) : List (ℚ × ℚ) := o.head.value :: o.tail.map (·.2.value)

end Offsets

/-- An `m` with an offset and any number of `l`. -/
structure RelativePath where
  after : ℕ
  move : OffsetText
  next : ℕ
  lines : List Offsets

namespace RelativePath

def opening (p : RelativePath) : Offsets := ⟨p.after, p.move, [], p.next⟩

/-- Its command letters, each with what stands behind it. -/
def pieces (p : RelativePath) : List (Char × Offsets) := ('m', p.opening) :: p.lines.map fun o => ('l', o)

def text (p : RelativePath) : List Char := p.pieces.flatMap fun i => i.1 :: i.2.body

def offsets (p : RelativePath) : List (ℚ × ℚ) := p.move.value :: p.lines.flatMap Offsets.values

end RelativePath

/-! ## Reading the offsets -/

namespace Offsets

/-- The words of the offsets with what stands before each. -/
def items (pre : List Char) (o : Offsets) : List (List Char × Word) :=
  [(pre, o.head.x), (o.head.gap.text, o.head.y)] ++ o.tail.flatMap fun p => [(p.1.text, p.2.x), (p.2.gap.text, p.2.y)]

/-- The raw coordinates of the offsets. -/
def coordinates (values : List (ℚ × ℚ)) : List ℚ := values.flatMap fun q => [q.1, q.2]

theorem length_coordinates (values : List (ℚ × ℚ)) : (coordinates values).length = 2 * values.length := by
  induction values with
  | nil => rfl
  | cons q qs ih =>
    have hcons : coordinates (q :: qs) = q.1 :: q.2 :: coordinates qs := rfl
    rw [hcons, List.length_cons, List.length_cons, ih, List.length_cons]
    omega

theorem items_text (pre : List Char) (o : Offsets) :
    (o.items pre).flatMap (fun i => i.1 ++ i.2.text) =
      pre ++ (o.head.text ++ o.tail.flatMap fun p => p.1.text ++ p.2.text) := by
  simp [items, OffsetText.text, List.flatMap_assoc]

theorem items_value (pre : List Char) (o : Offsets) : (o.items pre).map (·.2.value) = coordinates o.values := by
  simp only [items, values, coordinates, OffsetText.value, List.map_append, List.map_cons, List.map_nil,
    List.flatMap_cons, List.map_flatMap, List.flatMap_map]

theorem items_separator {letter : Char} {symbols : List Char} (hl : letter ∈ symbols) (o : Offsets) :
    ∀ i ∈ o.items (letter :: blanks o.after), i.1 ≠ [] ∧ ∀ c ∈ i.1, isParamSeparator symbols c = true := by
  intro i hi
  rcases List.mem_append.1 hi with hi | hi
  · simp only [List.mem_cons, List.not_mem_nil, or_false] at hi
    rcases hi with rfl | rfl
    exacts [letter_separator hl _, gap_separator symbols _]
  · obtain ⟨p, -, hp⟩ := List.mem_flatMap.1 hi
    simp only [List.mem_cons, List.not_mem_nil, or_false] at hp
    rcases hp with rfl | rfl
    exacts [gap_separator symbols _, gap_separator symbols _]

end Offsets

theorem mapM_words : ∀ (ws : List Word), (ws.map Word.text).mapM lexicalCast = .ok (ws.map Word.value)
  | [] => rfl
  | w :: ws => by
    have hw : lexicalCast w.text = .ok w.value := by
      simp only [lexicalCast, Numbers.lexicalCast, exactNumbers, w.reads]
    rw [List.map_cons, List.mapM_cons, hw, mapM_words ws]
    rfl

theorem fetchParams_offsets (o : Offsets) {letter : Char} {symbols : List Char} (hl : letter ∈ symbols)
    (hs : ∀ c ∈ symbols, isPathLetter c = true) :
    exactNumbers.fetchParams (letter :: o.body) 2 symbols = .ok (Offsets.coordinates o.values) := by
  have hmap : (((o.items (letter :: blanks o.after)).map fun i => (i.1, i.2.text)).map (·.2)).mapM lexicalCast =
      .ok (Offsets.coordinates o.values) := by
    have h := mapM_words ((o.items (letter :: blanks o.after)).map (·.2))
    rw [List.map_map, List.map_map, show Word.value ∘ (fun i : List Char × Word => i.2) = fun i => i.2.value from rfl,
      o.items_value] at h
    rwa [List.map_map]
  have h := fetchParams_items exactNumbers ((o.items (letter :: blanks o.after)).map fun i => (i.1, i.2.text)) o.next
    (fun i hi => by
      obtain ⟨j, hj, rfl⟩ := List.mem_map.1 hi
      exact ⟨o.items_separator hl j hj, j.2.text_ne_nil, fun c => decimal_not_separator hs j.2.reads⟩)
    hmap (by rw [Offsets.length_coordinates]; omega)
  rw [List.flatMap_map, o.items_text] at h
  simpa [Offsets.body] using h

/-! ## Command texts -/

theorem OffsetText.not_isPathLetter (o : OffsetText) {c : Char} (h : c ∈ o.text) : isPathLetter c = false := by
  simp only [OffsetText.text, List.mem_append] at h
  rcases h with (h | h) | h
  exacts [decimal_not_isPathLetter o.x.reads h, gap_not_isPathLetter _ h, decimal_not_isPathLetter o.y.reads h]

theorem Offsets.body_not_isPathLetter (o : Offsets) {c : Char} (h : c ∈ o.body) : isPathLetter c = false := by
  simp only [Offsets.body, List.mem_append, List.mem_flatMap] at h
  rcases h with (h | h | ⟨p, -, h | h⟩) | h
  · rw [mem_blanks h]; decide
  · exact o.head.not_isPathLetter h
  · exact gap_not_isPathLetter _ h
  · exact p.2.not_isPathLetter h
  · rw [mem_blanks h]; decide

theorem Offsets.body_ne_nil (o : Offsets) : o.body ≠ [] := by
  simp [Offsets.body, OffsetText.text, Word.text_ne_nil]

theorem isSpace_of_isPathLetter {c : Char} (h : isPathLetter c = true) : isSpace c = false := by
  have hall : ∀ c ∈ pathLetters, isSpace c = false := by simp [pathLetters, isSpace]
  exact hall c (List.contains_iff_mem.1 h)

/-- Letters with something behind each are the commands of a text. -/
theorem commandTexts_pieces : ∀ (ps : List (Char × List Char)),
    (∀ p ∈ ps, isPathLetter p.1 = true ∧ p.2 ≠ [] ∧ ∀ c ∈ p.2, isPathLetter c = false) →
    commandTexts (ps.flatMap fun p => p.1 :: p.2) = ps.map fun p => p.1 :: p.2
  | [], _ => rfl
  | p :: ps, h => by
    obtain ⟨hl, hne, hbody⟩ := h p (List.mem_cons_self ..)
    have ih := commandTexts_pieces ps fun q hq => h q (List.mem_cons_of_mem _ hq)
    have hflush : ∀ cur : List Char,
        Tokenizer.tokenize (fun _ => false) isPathLetter cur (ps.flatMap fun p => p.1 :: p.2) =
          Tokenizer.flush cur ++ Tokenizer.tokenize (fun _ => false) isPathLetter [] (ps.flatMap fun p => p.1 :: p.2) := by
      intro cur
      cases ps with
      | nil => simp [Tokenizer.tokenize]
      | cons q qs =>
        obtain ⟨hq, -⟩ := h q (List.mem_cons_of_mem _ (List.mem_cons_self ..))
        rw [List.flatMap_cons, List.cons_append, Tokenizer.tokenize_kept hq, Tokenizer.tokenize_kept hq]
        rfl
    unfold commandTexts at ih ⊢
    rw [List.flatMap_cons, List.cons_append, Tokenizer.tokenize_kept hl,
      Tokenizer.tokenize_word _ p.2 [] fun c hc => ⟨hbody c hc, rfl⟩, List.nil_append, hflush,
      Tokenizer.flush_of_ne_nil hne]
    simp only [Tokenizer.flush_nil, List.nil_append, List.cons_append, glue, ih, List.map_cons,
      Tokenizer.trim_singleton (isSpace_of_isPathLetter hl)]

theorem commandTexts_relative (p : RelativePath) : commandTexts p.text = p.pieces.map fun i => i.1 :: i.2.body := by
  have h := commandTexts_pieces (p.pieces.map fun i => (i.1, i.2.body)) fun i hi => by
    obtain ⟨j, hj, rfl⟩ := List.mem_map.1 hi
    refine ⟨?_, j.2.body_ne_nil, fun c => j.2.body_not_isPathLetter⟩
    show isPathLetter j.1 = true
    rcases List.mem_cons.1 hj with rfl | hj
    · exact show isPathLetter 'm' = true by decide
    · obtain ⟨o, -, rfl⟩ := List.mem_map.1 hj
      exact show isPathLetter 'l' = true by decide
  rw [List.flatMap_map, List.map_map] at h
  exact h

/-! ## The points of a path -/

/-- The points that relative offsets lead to, one after the other. -/
def roundedEnds (p : Location) : List (ℚ × ℚ) → List Location
  | [] => []
  | q :: qs => p.move q.1 q.2 :: roundedEnds (p.move q.1 q.2) qs

theorem roundedEnds_append : ∀ (qs qs' : List (ℚ × ℚ)) (p : Location),
    roundedEnds p (qs ++ qs') = roundedEnds p qs ++ roundedEnds ((roundedEnds p qs).getLastD p) qs'
  | [], _, _ => rfl
  | q :: qs, qs', p => by
    rw [List.cons_append, roundedEnds, roundedEnds, roundedEnds_append qs qs', List.getLastD_cons]
    rfl

theorem length_roundedEnds : ∀ (qs : List (ℚ × ℚ)) (p : Location), (roundedEnds p qs).length = qs.length
  | [], _ => rfl
  | q :: qs, p => congrArg (· + 1) (length_roundedEnds qs (p.move q.1 q.2))

theorem lines_offsets : ∀ (qs : List (ℚ × ℚ)) (p : Location),
    exactNumbers.lines p (Offsets.coordinates qs) = .ok ((roundedEnds p qs).map .line)
  | [], _ => rfl
  | q :: qs, p => by
    show exactNumbers.lines p (q.1 :: q.2 :: Offsets.coordinates qs) = _
    have hmoved : exactNumbers.moved p q.1 q.2 = .ok (p.move q.1 q.2) := rfl
    simp only [Numbers.lines, hmoved, lines_offsets qs, bind, Except.bind]
    rfl

/-- The opening command starts the subpath. -/
theorem command_opening (p : RelativePath) :
    exactNumbers.command ⟨[], []⟩ ('m' :: p.opening.body) =
      .ok ⟨[[]], [.start ((⟨0, 0⟩ : Location).move p.move.value.1 p.move.value.2)]⟩ := by
  have hfetch := fetchParams_offsets p.opening (show 'm' ∈ ['M', 'm'] by decide) (by simp [isPathLetter, pathLetters])
  have hmove : exactNumbers.pathParsers 'm' ('m' :: p.opening.body) [] =
      .ok [.start ((⟨0, 0⟩ : Location).move p.move.value.1 p.move.value.2)] := by
    show exactNumbers.moveTo relativeLocation ('m' :: p.opening.body) [] = _
    unfold Numbers.moveTo
    rw [hfetch]
    rfl
  exact command_cons exactNumbers ⟨[], []⟩ 'm' hmove

/-- A command `l` appends a line for each of its offsets. -/
theorem command_line (o : Offsets) (finished : List (List PathElement)) (e : Location) (es : List Location) :
    exactNumbers.command ⟨finished, .start e :: es.map .line⟩ ('l' :: o.body) =
      .ok ⟨finished, .start e :: (es ++ roundedEnds (es.getLastD e) o.values).map .line⟩ := by
  have hfetch := fetchParams_offsets o (show 'l' ∈ ['L', 'l'] by decide) (by simp [isPathLetter, pathLetters])
  have hlast : relativeLocation (.start e :: es.map .line) = es.getLastD e := by
    rw [relativeLocation_eq, endOf, endOf_lines]
    rfl
  have hline : exactNumbers.pathParsers 'l' ('l' :: o.body) (.start e :: es.map .line) =
      .ok ((roundedEnds (es.getLastD e) o.values).map .line) := by
    show exactNumbers.straightLine relativeLocation ('l' :: o.body) _ = _
    unfold Numbers.straightLine
    rw [hfetch, hlast]
    exact lines_offsets _ _
  refine (command_cons exactNumbers ⟨finished, .start e :: es.map .line⟩ 'l' hline).trans ?_
  rw [List.map_append]
  rfl

theorem foldlM_lines : ∀ (ls : List Offsets) (finished : List (List PathElement)) (e : Location) (es : List Location),
    (ls.map fun o => 'l' :: o.body).foldlM exactNumbers.command ⟨finished, .start e :: es.map .line⟩ =
      .ok ⟨finished, .start e :: (es ++ roundedEnds (es.getLastD e) (ls.flatMap Offsets.values)).map .line⟩
  | [], _, _, es => by
    simp [roundedEnds, pure, Except.pure]
  | o :: ls, finished, e, es => by
    rw [List.map_cons, List.foldlM_cons, command_line]
    simp only [bind, Except.bind, foldlM_lines ls]
    rw [List.flatMap_cons, roundedEnds_append, List.append_assoc, List.getLastD_append]

/-- The points of a path are stored as it goes. -/
theorem parsePath_relative (p : RelativePath) (doc : Document) :
    ∃ e es, roundedEnds ⟨0, 0⟩ p.offsets = e :: es ∧
      parsePath p.text doc = .ok (run doc (.addPoint e :: replay e (es.map .line))) := by
  refine ⟨_, _, rfl, ?_⟩
  have hfold := foldlM_lines p.lines [[]] ((⟨0, 0⟩ : Location).move p.move.value.1 p.move.value.2) []
  rw [List.map_nil, List.nil_append] at hfold
  unfold parsePath Numbers.parsePath
  rw [parseSubpaths_texts, commandTexts_relative, RelativePath.pieces, List.map_cons, List.foldlM_cons,
    command_opening, List.map_map]
  simp only [bind, Except.bind]
  show Except.bind ((p.lines.map fun o => 'l' :: o.body).foldlM exactNumbers.command _) _ = _
  rw [hfold]
  simp only [Except.bind, Subpaths.calls, List.cons_append, List.nil_append, List.flatMap_cons, List.flatMap_nil,
    List.append_nil, replay]
  rfl

/-! ## Drift -/

/-- A location less than `n` units off a point in both coordinates. -/
def Near (n : ℕ) (l : Location) (q : ℚ × ℚ) : Prop := |(l.x : ℚ) - q.1| < n ∧ |(l.y : ℚ) - q.2| < n

/-- An offset adds less than one unit to what a point is off. -/
theorem near_move {n : ℕ} {p : Location} {c : ℚ × ℚ} (hx : |(p.x : ℚ) - c.1| ≤ n) (hy : |(p.y : ℚ) - c.2| ≤ n)
    (q : ℚ × ℚ) : Near (n + 1) (p.move q.1 q.2) (c + q) := by
  have hstep : ∀ a b x : ℚ, |a - b| ≤ n → |(toInt (x + a) : ℚ) - (b + x)| < ((n + 1 : ℕ) : ℚ) := by
    intro a b x h
    have hcut := abs_toInt_sub_lt (x + a)
    rw [abs_lt] at hcut ⊢
    rw [abs_le] at h
    push_cast
    constructor <;> linarith
  exact ⟨hstep _ _ _ hx, hstep _ _ _ hy⟩

theorem roundedEnds_near : ∀ (qs : List (ℚ × ℚ)) {m : ℕ} {p : Location} {c : ℚ × ℚ},
    |(p.x : ℚ) - c.1| ≤ m → |(p.y : ℚ) - c.2| ≤ m → ∀ {n : ℕ} {e : Location}, (roundedEnds p qs)[n]? = some e →
      Near (m + n + 1) e (c + (qs.take (n + 1)).sum)
  | [], _, _, _, _, _, _, _, h => by simp [roundedEnds] at h
  | q :: qs, m, p, c, hx, hy, n, e, h => by
    have hq := near_move hx hy q
    cases n with
    | zero =>
      cases h
      simpa using hq
    | succ n =>
      have h' := roundedEnds_near qs hq.1.le hq.2.le (n := n) h
      rw [List.take_succ_cons, List.sum_cons, ← add_assoc c]
      have hn : m + (n + 1) + 1 = m + 1 + n + 1 := by omega
      rw [hn]
      exact h'

/-- Every point of a relative path is less than one unit for each offset up to it off the sum of
these offsets. -/
theorem relative_drift (p : RelativePath) (doc : Document) :
    ∃ e es, parsePath p.text doc = .ok (run doc (.addPoint e :: replay e (es.map .line))) ∧
      (e :: es).length = p.offsets.length ∧
      ∀ n l, (e :: es)[n]? = some l → Near (n + 1) l (p.offsets.take (n + 1)).sum := by
  obtain ⟨e, es, hends, hparse⟩ := parsePath_relative p doc
  refine ⟨e, es, hparse, by rw [← hends, length_roundedEnds], fun n l hl => ?_⟩
  rw [← hends] at hl
  have h := roundedEnds_near p.offsets (m := 0) (c := 0) (by simp) (by simp) hl
  rwa [zero_add, zero_add] at h

def Word.zero : Word := ⟨['0'], 0, by decide +kernel⟩

def Word.half : Word := ⟨"0.5".toList, 1 / 2, by decide +kernel⟩

/-- Three steps of one half to the right. -/
def halfSteps : RelativePath where
  after := 1
  move := ⟨.zero, .blank, .zero⟩
  next := 1
  lines := [⟨1, ⟨.half, .blank, .zero⟩, [(.blank, ⟨.half, .blank, .zero⟩), (.blank, ⟨.half, .blank, .zero⟩)], 0⟩]

/-- The steps of `m 0 0 l 0.5 0 0.5 0 0.5 0` are all lost: the path ends where it started. -/
theorem halfSteps_stay : halfSteps.text = "m 0 0 l 0.5 0 0.5 0 0.5 0".toList ∧
    ∃ e es, parsePath halfSteps.text (.new 0 0) = .ok (run (.new 0 0) (.addPoint e :: replay e (es.map .line))) ∧
      ¬∀ n l, (e :: es)[n]? = some l → Near 1 l (halfSteps.offsets.take (n + 1)).sum := by
  refine ⟨by decide +kernel, ⟨0, 0⟩, [⟨0, 0⟩, ⟨0, 0⟩, ⟨0, 0⟩], ?_, fun h => ?_⟩
  · obtain ⟨e, es, hends, hparse⟩ := parsePath_relative halfSteps (.new 0 0)
    have hstay : roundedEnds ⟨0, 0⟩ halfSteps.offsets = [⟨0, 0⟩, ⟨0, 0⟩, ⟨0, 0⟩, ⟨0, 0⟩] := by decide +kernel
    rw [hstay] at hends
    cases hends
    exact hparse
  · have hsum : (halfSteps.offsets.take 4).sum = (3 / 2, 0) := by decide +kernel
    have h3 := (h 3 ⟨0, 0⟩ rfl).1
    rw [hsum] at h3
    norm_num at h3

end DetailIdentifier.Svg
