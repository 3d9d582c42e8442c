/-
What path data means. A pen draws the commands; `svgEnds` is where the pairs of a command take it
in SVG, `parserEnds` where they take the parser, which counts every pair but the first of a command
from the one before, for `M` and `L` too.

The parser's subpaths are what a pen draws with `parserEnds` (`Draws.exec_cases`). So it draws what
SVG says exactly when in every `M` and `L` all pairs but the last are zero, no two numbers stand side
by side and the points are `int`s (`parsePath_eq_reference_iff`).
-/
import DetailIdentifier.Svg.Reading

namespace DetailIdentifier.Svg

/-! ## The pen -/

/-- The current point and the start of the subpath, once there is one. -/
@[ext]
structure Pen where
  current : Location
  start : Option Location
deriving DecidableEq, Repr

/-- The pen before any command. -/
def Pen.new : Pen := ⟨⟨0, 0⟩, none⟩

/-- The segments through a list of points. -/
def through (p : Location) : List Location → List Segment
  | [] => []
  | e :: es => ⟨p, e⟩ :: through e es

/-- The points that relative or absolute pairs take a pen to. -/
abbrev Ends := Bool → Location → List (Int × Int) → List Location

/-- SVG: absolute pairs are points, relative ones are counted from the point before. -/
def svgEnds : Ends
  | false, _, pairs => pairs.map fun q => ⟨q.1, q.2⟩
  | true, current, pairs => relativeEnds current pairs

/-- The parser: only the first absolute pair is a point. -/
def parserEnds : Ends
  | false, _, pairs => relativeEnds ⟨0, 0⟩ pairs
  | true, current, pairs => relativeEnds current pairs

namespace Pen

variable (ends : Ends) (pen : Pen)

/-- The points a command takes the pen to. -/
def points : PathCommand → List Location
  | .moveTo r a => ends r pen.current a.pairs
  | .lineTo r a => ends r pen.current a.pairs
  | .close _ => []

/-- A command moves the pen and draws segments. Where nothing opened a subpath, its first line's end
does; the data of a path starts with an `M` or `m`. -/
def draw : PathCommand → Pen × List Segment
  | .moveTo r a =>
    match ends r pen.current a.pairs with
    | [] => (pen, [])
    | e :: es => (⟨es.getLastD e, some e⟩, through e es)
  | .lineTo r a =>
    let es := ends r pen.current a.pairs
    (⟨es.getLastD pen.current, pen.start.or es.head?⟩, through pen.current es)
  | .close _ =>
    let start := pen.start.getD pen.current
    (⟨start, some start⟩, [⟨pen.current, start⟩])

/-- The calls a command makes: the point an `M` or `m` starts at, and the segments. -/
def calls (c : PathCommand) : List Call :=
  (match c with
    | .moveTo r a => ((ends r pen.current a.pairs).head?.map Call.addPoint).toList
    | _ => []) ++ (pen.draw ends c).2.map fun e => .addSegment e.start e.stop

end Pen

/-- The segments of a list of commands. -/
def drawAll (ends : Ends) (pen : Pen) : List PathCommand → List Segment
  | [] => []
  | c :: cs => (pen.draw ends c).2 ++ drawAll ends (pen.draw ends c).1 cs

/-- The points of a list of commands. -/
def visited (ends : Ends) (pen : Pen) : List PathCommand → List Location
  | [] => []
  | c :: cs => pen.points ends c ++ visited ends (pen.draw ends c).1 cs

/-- The segments of path data in SVG. -/
def reference (cs : List PathCommand) : List Segment := drawAll svgEnds .new cs

/-- The points of path data in SVG. -/
def referencePoints (cs : List PathCommand) : List Location := visited svgEnds .new cs

theorem segments_map_addSegment (es : List Segment) :
    (es.map fun e => Call.addSegment e.start e.stop).flatMap Call.segments = es := by
  rw [List.flatMap_map]
  exact List.flatMap_singleton' es

theorem Pen.calls_segments (ends : Ends) (pen : Pen) (c : PathCommand) :
    (pen.calls ends c).flatMap Call.segments = (pen.draw ends c).2 := by
  unfold calls
  rw [List.flatMap_append, segments_map_addSegment]
  cases c with
  | moveTo r a =>
    simp only
    cases (ends r pen.current a.pairs).head? <;> rfl
  | lineTo r a => rfl
  | close r => rfl

/-! ## The parser draws with `parserEnds` -/

/-- The point a subpath ends at. -/
def endOf (previous : Location) : List PathElement → Location
  | [] => previous
  | e :: es => endOf e.endpoint es

theorem endOf_eq_getLast : ∀ (es : List PathElement) (p : Location),
    endOf p es = (es.getLast?.map PathElement.endpoint).getD p
  | [], _ => rfl
  | e :: es, p => by
    rw [endOf, endOf_eq_getLast es, List.getLast?_cons]
    cases es.getLast? <;> rfl

theorem relativeLocation_eq (es : List PathElement) : relativeLocation es = endOf ⟨0, 0⟩ es := by
  rw [endOf_eq_getLast, relativeLocation]
  cases es.getLast? <;> rfl

theorem endOf_append : ∀ (es es' : List PathElement) (p : Location), endOf p (es ++ es') = endOf (endOf p es) es'
  | [], _, _ => rfl
  | e :: es, es', _ => endOf_append es es' e.endpoint

theorem endOf_lines : ∀ (es : List Location) (p : Location), endOf p (es.map .line) = es.getLastD p
  | [], _ => rfl
  | e :: es, p => by
    rw [List.map_cons, endOf, endOf_lines es, List.getLastD_cons]
    rfl

theorem replay_append : ∀ (es es' : List PathElement) (p : Location),
    replay p (es ++ es') = replay p es ++ replay (endOf p es) es'
  | [], _, _ => rfl
  | .start l :: es, es', _ => congrArg (_ :: ·) (replay_append es es' l)
  | .line l :: es, es', _ => congrArg (_ :: ·) (replay_append es es' l)

theorem replay_lines : ∀ (es : List Location) (p : Location),
    replay p (es.map .line) = (through p es).map fun e => .addSegment e.start e.stop
  | [], _ => rfl
  | e :: es, p => by
    rw [List.map_cons, replay, replay_lines es e]
    rfl

/-- The subpaths read so far are those a pen drew by `calls`. -/
structure Draws (s : Subpaths) (pen : Pen) (calls : List Call) : Prop where
  drawn : s.calls = calls
  current : endOf ⟨0, 0⟩ s.current = pen.current
  start : s.current.head?.map PathElement.endpoint = pen.start
  isInt : s.IsInt

theorem draws_init : Draws ⟨[], []⟩ .new [] := ⟨rfl, rfl, rfl, fun _ he => absurd he List.not_mem_nil⟩

theorem head?_map_line (es : List Location) : (es.map PathElement.line).head?.map PathElement.endpoint = es.head? := by
  cases es <;> rfl

section Draws

variable {s : Subpaths} {pen : Pen} {calls : List Call}

/-- Lines appended to the current subpath add the segments through their ends. -/
theorem Draws.append_lines (h : Draws s pen calls) {es : List Location} (hes : ∀ l ∈ es, l.IsInt) :
    Draws { s with current := s.current ++ es.map .line } ⟨es.getLastD pen.current, pen.start.or es.head?⟩
      (calls ++ (through pen.current es).map fun e => .addSegment e.start e.stop) := by
  refine ⟨?_, ?_, ?_, fun e he => ?_⟩
  · rw [← h.drawn, ← h.current, ← replay_lines]
    simp only [Subpaths.calls, List.flatMap_append, List.flatMap_cons, List.flatMap_nil, List.append_nil, replay_append,
      List.append_assoc]
  · rw [endOf_append, h.current, endOf_lines]
  · rw [← h.start, List.head?_append, ← head?_map_line]
    cases s.current.head? <;> rfl
  · rcases List.mem_append.1 he with he | he
    · exact h.isInt e he
    · obtain ⟨l, hl, rfl⟩ := List.mem_map.1 he
      exact hes l hl

/-- A new subpath of a starting point and lines adds the point and the segments through their ends. -/
theorem Draws.append_subpath (h : Draws s pen calls) {e : Location} {es : List Location} (hes : ∀ l ∈ e :: es, l.IsInt) :
    Draws ⟨s.finished ++ [s.current], .start e :: es.map .line⟩ ⟨es.getLastD e, some e⟩
      (calls ++ .addPoint e :: (through e es).map fun f => .addSegment f.start f.stop) := by
  refine ⟨?_, ?_, rfl, fun f hf => ?_⟩
  · rw [← h.drawn, ← replay_lines]
    simp only [Subpaths.calls, List.flatMap_append, List.flatMap_cons, List.flatMap_nil, List.append_nil, replay,
      List.append_assoc]
  · rw [endOf, endOf_lines]
    rfl
  · rcases List.mem_cons.1 hf with rfl | hf
    · exact hes e (List.mem_cons_self ..)
    · obtain ⟨l, hl, rfl⟩ := List.mem_map.1 hf
      exact hes l (List.mem_cons_of_mem _ hl)

theorem Draws.relativeEnds_base (h : Draws s pen calls) (r : Bool) (pairs : List (Int × Int)) :
    relativeEnds (PathCommand.base r s.current) pairs = parserEnds r pen.current pairs := by
  rw [PathCommand.base, relativeLocation_eq, h.current]
  cases r <;> rfl

/-- What a command that draws comes to: it has numbers side by side, it leaves the `int`s, or the parser moves
its pen as the command says. -/
theorem drawing_cases {c : PathCommand} {s' : Subpaths} (hclose : c.isClose = false)
    (hexec : c.exec s = if c.tight then .error .badLexicalCast
      else if ∀ l ∈ pen.points parserEnds c, l.IsInt then .ok s' else .error .overflow)
    (hdraws : (∀ l ∈ pen.points parserEnds c, l.IsInt) →
      Draws s' (pen.draw parserEnds c).1 (calls ++ pen.calls parserEnds c))
    (hlen : s'.current.length = c.size s.current.length) :
    (c.tight = true ∧ c.exec s = .error .badLexicalCast) ∨
    (c.isClose = true ∧ s.current.length < 2 ∧ c.exec s = .error (.logicError "Too few elements for closing path")) ∨
    (c.tight = false ∧ c.isClose = false ∧ (¬∀ l ∈ pen.points parserEnds c, l.IsInt) ∧ c.exec s = .error .overflow) ∨
    c.tight = false ∧ (c.isClose = true → 2 ≤ s.current.length) ∧ (∀ l ∈ pen.points parserEnds c, l.IsInt) ∧
      ∃ s', c.exec s = .ok s' ∧ Draws s' (pen.draw parserEnds c).1 (calls ++ pen.calls parserEnds c) ∧
        s'.current.length = c.size s.current.length := by
  cases ht : c.tight with
  | true => exact .inl ⟨rfl, hexec.trans (if_pos ht)⟩
  | false =>
    rw [if_neg (ht ▸ Bool.false_ne_true)] at hexec
    by_cases hpoints : ∀ l ∈ pen.points parserEnds c, l.IsInt
    · exact .inr (.inr (.inr ⟨rfl, fun hc => absurd hc (hclose ▸ Bool.false_ne_true), hpoints, s',
        hexec.trans (if_pos hpoints), hdraws hpoints, hlen⟩))
    · exact .inr (.inr (.inl ⟨rfl, hclose, hpoints, hexec.trans (if_neg hpoints)⟩))

/-- What a command comes to: it has numbers side by side, it closes too early, it leaves the `int`s, or
the parser moves its pen as the command says. -/
theorem Draws.exec_cases (h : Draws s pen calls) (c : PathCommand) :
    (c.tight = true ∧ c.exec s = .error .badLexicalCast) ∨
    (c.isClose = true ∧ s.current.length < 2 ∧ c.exec s = .error (.logicError "Too few elements for closing path")) ∨
    (c.tight = false ∧ c.isClose = false ∧ (¬∀ l ∈ pen.points parserEnds c, l.IsInt) ∧ c.exec s = .error .overflow) ∨
    c.tight = false ∧ (c.isClose = true → 2 ≤ s.current.length) ∧ (∀ l ∈ pen.points parserEnds c, l.IsInt) ∧
      ∃ s', c.exec s = .ok s' ∧ Draws s' (pen.draw parserEnds c).1 (calls ++ pen.calls parserEnds c) ∧
        s'.current.length = c.size s.current.length := by
  cases c with
  | moveTo r a =>
    have hends := h.relativeEnds_base r a.pairs
    refine drawing_cases rfl (by rw [Pen.points, ← hends]; rfl) (fun hpoints => ?_) ?_
    · rw [Pen.points, ← hends] at hpoints
      have hdraws := h.append_subpath hpoints
      simp only [Pen.draw, Pen.calls, ← hends]
      exact hdraws
    · simp [PathCommand.size, Args.pairs, length_relativeEnds]
  | lineTo r a =>
    have hends := h.relativeEnds_base r a.pairs
    refine drawing_cases rfl (by rw [Pen.points, ← hends]; rfl) (fun hpoints => ?_) ?_
    · rw [Pen.points, ← hends] at hpoints
      have hdraws := h.append_lines hpoints
      simp only [Pen.draw, Pen.calls, ← hends]
      exact hdraws
    · simp [PathCommand.size, length_relativeEnds]
  | close r =>
    refine .inr ?_
    by_cases hlen : s.current.length < 2
    · exact .inl ⟨rfl, hlen, if_pos hlen⟩
    · refine .inr (.inr ⟨rfl, fun _ => Nat.not_lt.1 hlen, fun l hl => absurd hl List.not_mem_nil, ?_⟩)
      cases hs : s.current with
      | nil => rw [hs] at hlen; exact absurd (by decide) hlen
      | cons e es =>
        have hstart : pen.start = some e.endpoint := by rw [← h.start, hs]; rfl
        have hexec : (PathCommand.close r).exec s = .ok { s with current := s.current ++ [e.endpoint].map .line } := by
          rw [PathCommand.exec, if_neg hlen, hs]
          rfl
        have hdraws := @Draws.append_lines s pen calls h [e.endpoint] fun l hl => by
          rw [List.mem_singleton.1 hl]
          exact h.isInt e (by rw [hs]; exact List.mem_cons_self ..)
        refine ⟨_, hexec, ?_, by simp [PathCommand.size, hs]⟩
        rw [hstart, Option.some_or] at hdraws
        simp only [Pen.draw, Pen.calls, hstart, Option.getD_some]
        exact hdraws

end Draws

/-! ## Path data -/

/-- A subpath: an `M` or `m`, any number of `L` or `l`, and possibly a `Z` or `z` after a segment. -/
structure Subpath where
  relative : Bool
  move : Args
  lines : List (Bool × Args)
  close : Option Bool
  closable : close ≠ none → move.tail ≠ [] ∨ lines ≠ []

def Subpath.commands (p : Subpath) : List PathCommand :=
  .moveTo p.relative p.move :: (p.lines.map fun l => .lineTo l.1 l.2) ++ p.close.toList.map .close

/-- The text of any number of subpaths, with blanks around the letters and no leading blank; a `Z`
or `z` is followed by a blank or the end. -/
structure PathData where
  subpaths : List Subpath
  layout : List Laid
  spells : layout.map Laid.command = subpaths.flatMap Subpath.commands
  closed : ∀ l ∈ layout.dropLast, l.command.isClose = true → 0 < l.after + l.next

def PathData.commands (p : PathData) : List PathCommand := p.subpaths.flatMap Subpath.commands

def PathData.text (p : PathData) : List Char := p.layout.flatMap Laid.text

theorem spaced_of_closed : ∀ (ls : List Laid),
    (∀ l ∈ ls.dropLast, l.command.isClose = true → 0 < l.after + l.next) → Spaced ls
  | [], _ => trivial
  | [_], _ => ⟨fun h => absurd rfl h, trivial⟩
  | l :: l' :: ls, h => by
    refine ⟨fun _ hbody => ?_, spaced_of_closed (l' :: ls) fun k hk => h k (List.mem_cons_of_mem _ hk)⟩
    have hjoined := l.joined_iff.2 hbody
    have hpos := h l (List.mem_cons_self ..) (Laid.isClose_of_joined hjoined)
    simp only [Laid.joined, Bool.and_eq_true, beq_iff_eq] at hjoined
    omega

theorem PathData.spaced (p : PathData) : Spaced p.layout := spaced_of_closed p.layout p.closed

/-- From `n` elements of the current subpath on, every closing has two elements before it. -/
def Closable (n : ℕ) : List PathCommand → Prop
  | [] => True
  | c :: cs => (c.isClose = true → 2 ≤ n) ∧ Closable (c.size n) cs

theorem closable_append : ∀ (cs cs' : List PathCommand) (n : ℕ),
    Closable n (cs ++ cs') ↔ Closable n cs ∧ Closable (cs.foldl PathCommand.size n) cs'
  | [], _, _ => (and_iff_right trivial).symm
  | c :: cs, cs', n => by
    rw [List.cons_append, Closable, Closable, closable_append cs cs', and_assoc]
    rfl

/-- Lines need no elements before them and add some. -/
theorem closable_lines : ∀ (ls : List (Bool × Args)) (n : ℕ),
    Closable n (ls.map fun l => .lineTo l.1 l.2) ∧
      n + ls.length ≤ (ls.map fun l => PathCommand.lineTo l.1 l.2).foldl PathCommand.size n
  | [], _ => ⟨trivial, le_rfl⟩
  | l :: ls, n => by
    obtain ⟨h1, h2⟩ := closable_lines ls (n + l.2.pairs.length)
    refine ⟨⟨fun h => absurd h Bool.false_ne_true, h1⟩, ?_⟩
    rw [List.map_cons, List.foldl_cons]
    refine le_trans ?_ h2
    simp only [Args.pairs, List.length_cons]
    omega

theorem Subpath.closable_commands (p : Subpath) (n : ℕ) : Closable n p.commands := by
  unfold Subpath.commands
  rw [List.cons_append]
  refine ⟨fun h => absurd h Bool.false_ne_true, (closable_append _ _ _).2 ⟨(closable_lines _ _).1, ?_⟩⟩
  cases hc : p.close with
  | none => trivial
  | some r =>
    refine ⟨fun _ => le_trans ?_ (closable_lines p.lines _).2, trivial⟩
    have h := p.closable (by simp [hc])
    simp only [PathCommand.size, Args.pairs, List.length_cons, List.length_map]
    rcases h with h | h <;> have := List.length_pos_of_ne_nil h <;> omega

theorem closable_subpaths : ∀ (ps : List Subpath) (n : ℕ), Closable n (ps.flatMap Subpath.commands)
  | [], _ => trivial
  | p :: ps, n => by
    rw [List.flatMap_cons]
    exact (closable_append _ _ _).2 ⟨p.closable_commands n, closable_subpaths ps _⟩

/-- The parser can read commands with numbers apart and points that are `int`s. -/
def Readable (ends : Ends) (pen : Pen) (cs : List PathCommand) : Prop :=
  (∀ c ∈ cs, c.tight = false) ∧ ∀ l ∈ visited ends pen cs, l.IsInt

theorem readable_cons {ends : Ends} {pen : Pen} {c : PathCommand} {cs : List PathCommand} : Readable ends pen (c :: cs) ↔
    c.tight = false ∧ (∀ l ∈ pen.points ends c, l.IsInt) ∧ Readable ends (pen.draw ends c).1 cs := by
  simp only [Readable, visited, List.forall_mem_cons, List.forall_mem_append]
  tauto

/-- Of commands with closings in place the parser reads those it can, and draws them. -/
theorem Draws.run : ∀ (cs : List PathCommand) {s : Subpaths} {pen : Pen} {calls : List Call},
    Draws s pen calls → Closable s.current.length cs →
    ((∃ s', cs.foldlM (fun s c => c.exec s) s = .ok s') ↔ Readable parserEnds pen cs) ∧
    ∀ s', cs.foldlM (fun s c => c.exec s) s = .ok s' →
      s'.calls.flatMap Call.segments = calls.flatMap Call.segments ++ drawAll parserEnds pen cs
  | [], s, pen, calls, h, _ => by
    refine ⟨iff_of_true ⟨s, rfl⟩ ⟨by simp, by simp [visited]⟩, fun s' hs' => ?_⟩
    cases hs'
    rw [h.drawn, drawAll, List.append_nil]
  | c :: cs, s, pen, calls, h, hc => by
    rw [readable_cons, List.foldlM_cons]
    rcases h.exec_cases c with ⟨ht, he⟩ | ⟨hclose, hlen, he⟩ | ⟨ht, -, hpoints, he⟩ | ⟨ht, -, hpoints, s₁, hs₁, hdraws, hlen⟩
    · rw [he]
      refine ⟨iff_of_false (fun ⟨_, hh⟩ => by cases hh) fun hh => ?_, fun s' hs' => by cases hs'⟩
      rw [ht] at hh
      cases hh.1
    · exact absurd (hc.1 hclose) (Nat.not_le.2 hlen)
    · rw [he]
      exact ⟨iff_of_false (fun ⟨_, hh⟩ => by cases hh) fun hh => hpoints hh.2.1, fun s' hs' => by cases hs'⟩
    · obtain ⟨hok, hdraw⟩ := Draws.run cs hdraws (by rw [hlen]; exact hc.2)
      rw [hs₁]
      refine ⟨hok.trans (by rw [and_iff_right ht, and_iff_right hpoints]), fun s' hs' => ?_⟩
      rw [hdraw s' hs', List.flatMap_append, Pen.calls_segments, drawAll, List.append_assoc]

/-- The parser reads path data when it can, and draws it with `parserEnds`. -/
theorem parsePath_draws (p : PathData) (doc : Document) :
    ((∃ doc', doubleNumbers.parsePath p.text doc = .ok doc') ↔ Readable parserEnds .new p.commands) ∧
    ∀ doc', doubleNumbers.parsePath p.text doc = .ok doc' →
      doc'.edges = doc.edges ++ drawAll parserEnds .new p.commands := by
  obtain ⟨hok, hdraw⟩ := draws_init.run p.commands (closable_subpaths p.subpaths _)
  have hparse : doubleNumbers.parsePath p.text doc =
      (p.commands.foldlM (fun s c => PathCommand.exec s c) ⟨[], []⟩).bind fun s => .ok (run doc s.calls) := by
    rw [Numbers.parsePath, PathData.text, parseSubpaths_spaced p.spaced, p.spells]
    rfl
  rw [hparse, ← hok]
  cases hs : p.commands.foldlM (fun s c => PathCommand.exec s c) ⟨[], []⟩ with
  | error e => exact ⟨iff_of_false (fun ⟨_, h⟩ => by cases h) (fun ⟨_, h⟩ => by cases h), fun _ h => by cases h⟩
  | ok s =>
    refine ⟨iff_of_true ⟨_, rfl⟩ ⟨s, rfl⟩, fun doc' h => ?_⟩
    cases h
    rw [run_edges, hdraw s hs]
    rfl

/-! ## Where the two agree -/

/-- The pairs of an `M` or an `L`. -/
def PathCommand.absolutePairs : PathCommand → List (Int × Int)
  | .moveTo false a => a.pairs
  | .lineTo false a => a.pairs
  | _ => []

/-- Pairs counted one from the other end where they would as points when all but the last are zero. -/
theorem relativeEnds_eq_iff : ∀ (qs : List (Int × Int)) (p : Location),
    relativeEnds p qs = qs.map (fun q => ⟨q.1, q.2⟩) ↔ qs = [] ∨ p = ⟨0, 0⟩ ∧ ∀ q ∈ qs.dropLast, q = (0, 0)
  | [], _ => by simp [relativeEnds]
  | q :: qs, p => by
    have hadd : p.add q = ⟨q.1, q.2⟩ ↔ p = ⟨0, 0⟩ := by
      obtain ⟨x, y⟩ := p
      simp [Location.add]
    have hzero : (⟨q.1, q.2⟩ : Location) = ⟨0, 0⟩ ↔ q = (0, 0) := by
      obtain ⟨a, b⟩ := q
      simp
    have hdrop : (∀ k ∈ (q :: qs).dropLast, k = (0, 0)) ↔ qs = [] ∨ q = (0, 0) ∧ ∀ k ∈ qs.dropLast, k = (0, 0) := by
      cases qs with
      | nil => simp
      | cons k qs => rw [List.dropLast_cons_of_ne_nil (List.cons_ne_nil _ _)]; simp
    rw [relativeEnds, List.map_cons, List.cons.injEq, hadd, hdrop, or_iff_right (List.cons_ne_nil _ _)]
    apply and_congr_right
    rintro rfl
    rw [hadd.2 rfl, relativeEnds_eq_iff qs, hzero]

theorem map_stop_through : ∀ (es : List Location) (p : Location), (through p es).map Segment.stop = es
  | [], _ => rfl
  | e :: es, _ => congrArg (e :: ·) (map_stop_through es e)

theorem through_inj {p : Location} {es es' : List Location} : through p es = through p es' ↔ es = es' := by
  refine ⟨fun h => ?_, fun h => h ▸ rfl⟩
  rw [← map_stop_through es p, h, map_stop_through]

theorem length_through (p : Location) (es : List Location) : (through p es).length = es.length := by
  rw [← List.length_map Segment.stop, map_stop_through]

/-- The parser's pen draws a command as the SVG pen does, or it draws as many other segments. -/
theorem draw_cases (pen : Pen) (c : PathCommand) :
    ((∀ q ∈ c.absolutePairs.dropLast, q = (0, 0)) ∧ pen.draw parserEnds c = pen.draw svgEnds c ∧
      pen.points parserEnds c = pen.points svgEnds c) ∨
    ((¬∀ q ∈ c.absolutePairs.dropLast, q = (0, 0)) ∧ (pen.draw parserEnds c).2 ≠ (pen.draw svgEnds c).2 ∧
      (pen.draw parserEnds c).2.length = (pen.draw svgEnds c).2.length) := by
  have hends : ∀ a : Args, relativeEnds ⟨0, 0⟩ a.pairs = a.pairs.map (fun q => ⟨q.1, q.2⟩) ↔
      ∀ q ∈ a.pairs.dropLast, q = (0, 0) := fun a => by
    have hne : a.pairs ≠ [] := List.cons_ne_nil _ _
    rw [relativeEnds_eq_iff, or_iff_right hne, and_iff_right rfl]
  cases c with
  | moveTo r a =>
    cases r with
    | true => exact .inl ⟨fun q hq => absurd hq List.not_mem_nil, rfl, rfl⟩
    | false =>
      have hhead : (⟨0, 0⟩ : Location).add (a.x.value, a.y.value) = ⟨a.x.value, a.y.value⟩ := by simp [Location.add]
      by_cases hz : ∀ q ∈ a.pairs.dropLast, q = (0, 0)
      · refine .inl ⟨hz, ?_⟩
        simp only [Pen.draw, Pen.points, parserEnds, svgEnds, (hends a).2 hz, and_self]
      · refine .inr ⟨hz, fun h => hz ((hends a).1 ?_), ?_⟩
        · simp only [Pen.draw, parserEnds, svgEnds, Args.pairs, relativeEnds, List.map_cons, hhead] at h ⊢
          rw [through_inj.1 h]
        · simp [Pen.draw, parserEnds, svgEnds, Args.pairs, relativeEnds, length_through, length_relativeEnds]
  | lineTo r a =>
    cases r with
    | true => exact .inl ⟨fun q hq => absurd hq List.not_mem_nil, rfl, rfl⟩
    | false =>
      by_cases hz : ∀ q ∈ a.pairs.dropLast, q = (0, 0)
      · refine .inl ⟨hz, ?_⟩
        simp only [Pen.draw, Pen.points, parserEnds, svgEnds, (hends a).2 hz, and_self]
      · refine .inr ⟨hz, fun h => hz ((hends a).1 (through_inj.1 h)), ?_⟩
        simp [Pen.draw, parserEnds, svgEnds, length_through, length_relativeEnds]
  | close r => exact .inl ⟨fun q hq => absurd hq List.not_mem_nil, rfl, rfl⟩

theorem drawAll_eq_iff : ∀ (cs : List PathCommand) (pen : Pen),
    drawAll parserEnds pen cs = drawAll svgEnds pen cs ↔ ∀ c ∈ cs, ∀ q ∈ c.absolutePairs.dropLast, q = (0, 0)
  | [], _ => by simp [drawAll]
  | c :: cs, pen => by
    rw [drawAll, drawAll, List.forall_mem_cons]
    rcases draw_cases pen c with ⟨hz, he, -⟩ | ⟨hz, hne, hlen⟩
    · rw [he, List.append_cancel_left_eq, drawAll_eq_iff cs, and_iff_right hz]
    · -- as many segments but not the same: the rest cannot make up for it
      refine ⟨fun h => absurd (List.append_inj h hlen).1 hne, fun h => absurd h.1 hz⟩

/-- Where the pens draw the same they go to the same points. -/
theorem visited_eq : ∀ (cs : List PathCommand) (pen : Pen), (∀ c ∈ cs, ∀ q ∈ c.absolutePairs.dropLast, q = (0, 0)) →
    visited parserEnds pen cs = visited svgEnds pen cs
  | [], _, _ => rfl
  | c :: cs, pen, h => by
    obtain ⟨hc, hcs⟩ := List.forall_mem_cons.1 h
    rcases draw_cases pen c with ⟨-, he, hpoints⟩ | ⟨hz, -⟩
    · rw [visited, visited, he, hpoints, visited_eq cs _ hcs]
    · exact absurd hc hz

/-- The parser adds the segments of the SVG reference to any document exactly when in every `M` and `L`
all pairs but the last are zero, no two numbers have nothing but a sign between them, and all points of
the path are `int`s. -/
theorem parsePath_eq_reference_iff (p : PathData) (doc : Document) :
    (∃ doc', doubleNumbers.parsePath p.text doc = .ok doc' ∧ doc'.edges = doc.edges ++ reference p.commands) ↔
      (∀ c ∈ p.commands, c.tight = false ∧ ∀ q ∈ c.absolutePairs.dropLast, q = (0, 0)) ∧
        ∀ l ∈ referencePoints p.commands, l.IsInt := by
  obtain ⟨hok, hedges⟩ := parsePath_draws p doc
  simp only [forall_and]
  constructor
  · rintro ⟨doc', hdoc, href⟩
    obtain ⟨htight, hpoints⟩ := hok.1 ⟨doc', hdoc⟩
    have hzero := (drawAll_eq_iff _ _).1 (List.append_cancel_left ((hedges doc' hdoc).symm.trans href))
    exact ⟨⟨htight, hzero⟩, by rwa [referencePoints, ← visited_eq _ _ hzero]⟩
  · rintro ⟨⟨htight, hzero⟩, hpoints⟩
    obtain ⟨doc', hdoc⟩ := hok.2 ⟨htight, by rwa [visited_eq _ _ hzero]⟩
    exact ⟨doc', hdoc, by rw [hedges doc' hdoc, (drawAll_eq_iff _ _).2 hzero, reference]⟩

/-- `M 0 0 L 10 0 10 10`. -/
def corner : PathData where
  subpaths := [{
    relative := false
    move := .ofInts 0 0 []
    lines := [(false, .ofInts 10 0 [(10, 10)])]
    close := none
    closable := fun h => absurd rfl h }]
  layout := [⟨.moveTo false (.ofInts 0 0 []), 1, 1⟩, ⟨.lineTo false (.ofInts 10 0 [(10, 10)]), 1, 0⟩]
  spells := rfl
  closed := by simp [PathCommand.isClose]

/-- SVG draws the second line of `M 0 0 L 10 0 10 10` to (10, 10), the parser to (20, 10). -/
theorem corner_segments : corner.text = "M 0 0 L 10 0 10 10".toList ∧
    reference corner.commands = [⟨⟨0, 0⟩, ⟨10, 0⟩⟩, ⟨⟨10, 0⟩, ⟨10, 10⟩⟩] ∧
    ∃ doc', doubleNumbers.parsePath corner.text (.new 0 0) = .ok doc' ∧
      doc'.edges = [⟨⟨0, 0⟩, ⟨10, 0⟩⟩, ⟨⟨10, 0⟩, ⟨20, 10⟩⟩] := by
  obtain ⟨hok, hedges⟩ := parsePath_draws corner (.new 0 0)
  have hdrawn : drawAll parserEnds .new corner.commands = [⟨⟨0, 0⟩, ⟨10, 0⟩⟩, ⟨⟨10, 0⟩, ⟨20, 10⟩⟩] := by decide +kernel
  obtain ⟨doc', hdoc⟩ := hok.2 ⟨by decide +kernel, by decide +kernel⟩
  exact ⟨by decide +kernel, by decide +kernel, doc', hdoc, (hedges doc' hdoc).trans hdrawn⟩

end DetailIdentifier.Svg
