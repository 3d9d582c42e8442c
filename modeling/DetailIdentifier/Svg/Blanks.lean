/-
Blanks around command letters. Leading blanks, and every `Z` or `z` with the next letter right behind
it, are joints: after an odd number of them the parser takes letters for arguments and arguments for
letters. Two spellings of the same commands come to the same when both are rejected, or when both are
read to the end and leave out the same closings, up to lines that lead nowhere (`same_iff_blanks`).
-/
import DetailIdentifier.Lib.Lists
import DetailIdentifier.Svg.Semantics

namespace DetailIdentifier.Svg

/-! ## Spellings -/

/-- A word of commands with blanks before its first letter and around all letters. -/
structure Spelling (word : List PathCommand) where
  lead : ℕ
  layout : List Laid
  spells : layout.map Laid.command = word

def Spelling.text {word : List PathCommand} (s : Spelling word) : List Char := spell s.lead s.layout

/-- Parsing throws, instead of doing something undefined. -/
def ParseError.IsThrown (e : ParseError) : Prop := e ≠ .outOfRange ∧ e ≠ .overflow

instance (e : ParseError) : Decidable e.IsThrown := inferInstanceAs (Decidable (_ ∧ _))

/-- Both add the same points and segments, or both throw. -/
def Same : Except ParseError Document → Except ParseError Document → Prop
  | .ok d, .ok d' => d.edges = d'.edges ∧ ∀ l : Location, d.points[l]? = d'.points[l]?
  | .error e, .error e' => e.IsThrown ∧ e'.IsThrown
  | _, _ => False

/-! ## Joints -/

/-- What has come before a letter: the number of joints, whether one is right before the letter, and
the elements of the subpath and the pen after all commands. -/
structure Scan where
  joints : ℕ
  prior : Bool
  size : ℕ
  pen : Pen

namespace Scan

variable (st : Scan)

/-- Letters are taken for arguments. -/
def odd : Bool := st.joints % 2 == 1

/-- The letter is the argument of the one before. -/
def taken : Bool := st.odd && st.prior

/-- Why parsing stops at a command or at the end of the text, if it does. -/
def stop : Option PathCommand → Option Stop
  | none => if st.odd && !st.prior then some .thrown else none
  | some c =>
    if c.isClose then if !st.taken && st.size < 2 then some .thrown else none
    else if st.odd then some (if st.prior then .thrown else .undefined)
    else if c.tight then some .thrown
    else if ∀ l ∈ st.pen.points parserEnds c, l.IsInt then none
    else some .undefined

/-- After one more letter. -/
def next (l : Laid) : Scan where
  joints := st.joints + if l.joined then 1 else 0
  prior := l.joined
  size := l.command.size st.size
  pen := (st.pen.draw parserEnds l.command).1

end Scan

namespace Spelling

variable {word : List PathCommand} (s : Spelling word)

/-- What comes before the letter number `i`. -/
def before (i : ℕ) : Scan where
  joints := (if s.lead = 0 then 0 else 1) + (s.layout.take i).countP Laid.joined
  prior := ((s.layout.take i).getLast?.map Laid.joined).getD false
  size := (word.take i).foldl PathCommand.size 0
  pen := (word.take i).foldl (fun pen c => (pen.draw parserEnds c).1) .new

/-- Why parsing stops at the letter number `i`, or at the end. -/
def stop (i : ℕ) : Option Stop := (s.before i).stop word[i]?

/-- The first stop throws. -/
def Rejected : Prop := ∃ i ≤ word.length, s.stop i = some .thrown ∧ ∀ j < i, s.stop j = none

/-- Nothing stops the parser. -/
def Completed : Prop := ∀ i ≤ word.length, s.stop i = none

/-- The closing number `i` is taken for an argument. -/
def leavesOut (i : ℕ) : Bool := (s.before i).taken && word[i]?.any PathCommand.isClose

end Spelling

/-- The segments that each command draws. -/
def blocks (pen : Pen) : List PathCommand → List (List Segment)
  | [] => []
  | c :: cs => (pen.draw parserEnds c).2 :: blocks (pen.draw parserEnds c).1 cs

/-- The line that stays at a segment's end. -/
def Segment.again (e : Segment) : Segment := ⟨e.stop, e.stop⟩

/-! ## Scanning a layout -/

namespace Scan

variable (st : Scan)

theorem odd_next (l : Laid) : (st.next l).odd = (st.odd ^^ l.joined) := by
  unfold odd next
  cases l.joined with
  | false => simp
  | true =>
    rcases Nat.mod_two_eq_zero_or_one st.joints with h | h
    · simp [Nat.add_mod, h]
    · simp [Nat.add_mod, h]

/-- The first stop from here on. -/
def firstStop (st : Scan) : List Laid → Option Stop
  | [] => st.stop none
  | l :: ls => (st.stop (some l.command)).or ((st.next l).firstStop ls)

/-- The state at the letter number `i` from here on. -/
def after (ls : List Laid) (i : ℕ) : Scan := (ls.take i).foldl next st

/-- Why parsing stops at the letter number `i` from here on. -/
def stopAt (ls : List Laid) (i : ℕ) : Option Stop := (st.after ls i).stop (ls[i]?.map Laid.command)

/-- The letter number `i` from here on is a closing that is left out. -/
def leavesOut (ls : List Laid) (i : ℕ) : Bool := (st.after ls i).taken && (ls[i]?.map Laid.command).any PathCommand.isClose

theorem firstStop_eq_none_iff : ∀ (ls : List Laid) (st : Scan),
    st.firstStop ls = none ↔ ∀ i ≤ ls.length, st.stopAt ls i = none
  | [], st => by
    simp only [List.length_nil, Nat.le_zero, forall_eq]
    rfl
  | l :: ls, st => by
    rw [firstStop, Option.or_eq_none_iff, firstStop_eq_none_iff ls]
    constructor
    · rintro ⟨h0, hs⟩ i hi
      cases i with
      | zero => exact h0
      | succ i => exact hs i (Nat.le_of_succ_le_succ hi)
    · exact fun h => ⟨h 0 (Nat.zero_le _), fun i hi => h (i + 1) (Nat.succ_le_succ hi)⟩

theorem firstStop_eq_some_iff {t : Stop} : ∀ (ls : List Laid) (st : Scan),
    st.firstStop ls = some t ↔ ∃ i ≤ ls.length, st.stopAt ls i = some t ∧ ∀ j < i, st.stopAt ls j = none
  | [], st => by
    constructor
    · exact fun h => ⟨0, le_rfl, h, fun j hj => absurd hj (Nat.not_lt_zero j)⟩
    · rintro ⟨i, hi, h, -⟩
      obtain rfl := Nat.le_zero.1 hi
      exact h
  | l :: ls, st => by
    rw [firstStop, Option.or_eq_some_iff, firstStop_eq_some_iff ls]
    constructor
    · rintro (h | ⟨h0, i, hi, h, hbefore⟩)
      · exact ⟨0, Nat.zero_le _, h, fun j hj => absurd hj (Nat.not_lt_zero j)⟩
      · refine ⟨i + 1, Nat.succ_le_succ hi, h, fun j hj => ?_⟩
        cases j with
        | zero => exact h0
        | succ j => exact hbefore j (Nat.lt_of_succ_lt_succ hj)
    · rintro ⟨i, hi, h, hbefore⟩
      cases i with
      | zero => exact .inl h
      | succ i =>
        exact .inr ⟨hbefore 0 (Nat.succ_pos i), i, Nat.le_of_succ_le_succ hi, h,
          fun j hj => hbefore (j + 1) (Nat.succ_lt_succ hj)⟩

/-- The state after a layout, count by count. -/
theorem foldl_next : ∀ (ls : List Laid) (st : Scan), ls.foldl next st =
    { joints := st.joints + ls.countP Laid.joined
      prior := (ls.getLast?.map Laid.joined).getD st.prior
      size := (ls.map Laid.command).foldl PathCommand.size st.size
      pen := (ls.map Laid.command).foldl (fun pen c => (pen.draw parserEnds c).1) st.pen }
  | [], st => rfl
  | l :: ls, st => by
    rw [List.foldl_cons, foldl_next ls, List.countP_cons, List.getLast?_cons]
    simp only [next, List.map_cons, List.foldl_cons, Option.map_some, Option.getD_some, Scan.mk.injEq, and_self, and_true]
    refine ⟨by omega, ?_⟩
    cases ls.getLast? <;> rfl

end Scan

/-- Before any letter. -/
def Scan.start (lead : ℕ) : Scan := ⟨if lead = 0 then 0 else 1, false, 0, .new⟩

section Spelling

variable {word : List PathCommand} (s : Spelling word)

theorem Spelling.after_eq (i : ℕ) : (Scan.start s.lead).after s.layout i = s.before i := by
  rw [Scan.after, Scan.foldl_next, List.map_take, s.spells]
  rfl

theorem Spelling.stopAt_eq (i : ℕ) : (Scan.start s.lead).stopAt s.layout i = s.stop i := by
  rw [Scan.stopAt, s.after_eq, ← List.getElem?_map, s.spells, stop]

theorem Spelling.leavesOut_eq : (Scan.start s.lead).leavesOut s.layout = s.leavesOut := by
  funext i
  rw [Scan.leavesOut, s.after_eq, ← List.getElem?_map, s.spells, leavesOut]

theorem Spelling.length_layout : s.layout.length = word.length := by
  rw [← List.length_map Laid.command, s.spells]

theorem Spelling.completed_iff : s.Completed ↔ (Scan.start s.lead).firstStop s.layout = none := by
  simp only [Completed, Scan.firstStop_eq_none_iff, s.stopAt_eq, s.length_layout]

theorem Spelling.rejected_iff : s.Rejected ↔ (Scan.start s.lead).firstStop s.layout = some .thrown := by
  simp only [Rejected, Scan.firstStop_eq_some_iff, s.stopAt_eq, s.length_layout]

end Spelling

/-! ## Running a spelling -/

/-- The calls that each command makes. -/
def callBlocks (pen : Pen) : List PathCommand → List (List Call)
  | [] => []
  | c :: cs => pen.calls parserEnds c :: callBlocks (pen.draw parserEnds c).1 cs

/-- The parser's subpath against all commands: what it leaves out are closings behind a closing. -/
structure Follows (st : Scan) (s : Subpaths) : Prop where
  size : s.current.length = st.size ∨ 2 ≤ s.current.length ∧ 2 ≤ st.size
  closed : st.prior = true → st.pen.start = some st.pen.current ∧ 2 ≤ s.current.length ∧ 2 ≤ st.size

/-- How a run ends. -/
def Outcome (stop : Option Stop) (calls : List Call) (r : Except ParseError Subpaths) : Prop :=
  match stop with
  | none => ∃ s, r = .ok s ∧ s.calls = calls
  | some .thrown => ∃ e : ParseError, r = .error e ∧ e.IsThrown
  | some .undefined => ∃ e : ParseError, r = .error e ∧ ¬e.IsThrown

theorem Scan.keep_cons (st : Scan) (l : Laid) (ls : List Laid) :
    List.keep (st.leavesOut (l :: ls)) (callBlocks st.pen ((l :: ls).map Laid.command)) =
      (if st.taken && l.command.isClose then [] else st.pen.calls parserEnds l.command) ++
        List.keep ((st.next l).leavesOut ls) (callBlocks (st.next l).pen (ls.map Laid.command)) := rfl

/-- A closing behind a closing leaves the pen where it is. -/
theorem Pen.draw_of_isClose {pen : Pen} {c : PathCommand} (h : c.isClose = true) :
    (pen.draw parserEnds c).1.start = some (pen.draw parserEnds c).1.current ∧
      (pen.start = some pen.current → (pen.draw parserEnds c).1 = pen) := by
  cases c with
  | moveTo r a => cases h
  | lineTo r a => cases h
  | close r =>
    refine ⟨rfl, fun hstart => Pen.ext ?_ ?_⟩
    · rw [draw, hstart]
      rfl
    · rw [draw, hstart]
      rfl

theorem PathCommand.size_of_isClose {c : PathCommand} (h : c.isClose = true) (n : ℕ) : c.size n = n + 1 := by
  cases c with
  | moveTo r a => cases h
  | lineTo r a => cases h
  | close r => rfl

theorem PathCommand.tight_of_isClose {c : PathCommand} (h : c.isClose = true) : c.tight = false := by
  cases c with
  | moveTo r a => cases h
  | lineTo r a => cases h
  | close r => rfl

namespace Follows

variable {st : Scan} {s s' : Subpaths} {l : Laid}

/-- A closing that is run. -/
theorem close (hclose : l.command.isClose = true) (hlen : 2 ≤ s.current.length) (hsize : 2 ≤ st.size)
    (hf : Follows st s) (hs' : s'.current.length = l.command.size s.current.length) : Follows (st.next l) s' := by
  rw [PathCommand.size_of_isClose hclose] at hs'
  have hnext : (st.next l).size = st.size + 1 := PathCommand.size_of_isClose hclose st.size
  have hs := hf.size
  exact ⟨by omega, fun _ => ⟨(Pen.draw_of_isClose hclose).1, by omega, by omega⟩⟩

/-- Any other command. -/
theorem draw (hclose : l.command.isClose = false) (hf : Follows st s)
    (hs' : s'.current.length = l.command.size s.current.length) : Follows (st.next l) s' := by
  have hs := hf.size
  refine ⟨?_, fun hprior => absurd (Laid.isClose_of_joined hprior) (by rw [hclose]; exact Bool.false_ne_true)⟩
  have hnext : (st.next l).size = l.command.size st.size := rfl
  rw [hs', hnext]
  cases hc : l.command with
  | close r => rw [hc] at hclose; cases hclose
  | moveTo r a => exact .inl rfl
  | lineTo r a =>
    simp only [PathCommand.size]
    omega

end Follows

/-- The parser runs a text up to its first stop, and what it draws are the commands not left out. -/
theorem readFrom_run : ∀ (ls : List Laid) {st : Scan} {s : Subpaths} {calls : List Call},
    Draws s st.pen calls → Follows st s → Outcome (st.firstStop ls)
      (calls ++ List.keep (st.leavesOut ls) (callBlocks st.pen (ls.map Laid.command)))
      ((readFrom st.odd st.prior ls).run s)
  | [], st, s, calls, h, _ => by
    rw [Scan.firstStop, Scan.stop, readFrom]
    split
    · exact ⟨_, rfl, by decide⟩
    · exact ⟨s, rfl, h.drawn.trans (List.append_nil _).symm⟩
  | l :: ls, st, s, calls, h, hf => by
    have hnext : (st.odd ^^ l.joined) = (st.next l).odd := (st.odd_next l).symm
    rw [Scan.firstStop, st.keep_cons, readFrom, hnext, Scan.stop]
    -- a command that is run
    have hrun : ∀ s', l.command.exec s = .ok s' →
        Draws s' (st.next l).pen (calls ++ st.pen.calls parserEnds l.command) → Follows (st.next l) s' →
        Outcome ((st.next l).firstStop ls) (calls ++ (st.pen.calls parserEnds l.command ++
            List.keep ((st.next l).leavesOut ls) (callBlocks (st.next l).pen (ls.map Laid.command))))
          ((Reading.cons l.command (readFrom (st.next l).odd l.joined ls)).run s) := by
      intro s' hs' hdraws hfollows
      rw [Reading.run_cons, hs', ← List.append_assoc]
      exact readFrom_run ls hdraws hfollows
    have hfail : ∀ e, l.command.exec s = .error e →
        (Reading.cons l.command (readFrom (st.next l).odd l.joined ls)).run s = .error e := by
      intro e he
      rw [Reading.run_cons, he]
      rfl
    by_cases hclose : l.command.isClose = true
    · rw [hclose, Bool.not_true, Bool.and_false, if_neg Bool.false_ne_true, if_pos rfl, Bool.and_true]
      by_cases htaken : st.taken = true
      · -- left out, behind a closing that was run
        obtain ⟨hstart, hlen, hsize⟩ := hf.closed (Bool.and_eq_true_iff.1 htaken).2
        have hpen : (st.next l).pen = st.pen := (Pen.draw_of_isClose hclose).2 hstart
        have hsize' : (st.next l).size = st.size + 1 := PathCommand.size_of_isClose hclose st.size
        have hfollows : Follows (st.next l) s :=
          ⟨.inr ⟨hlen, by omega⟩, fun _ => ⟨(Pen.draw_of_isClose hclose).1, hlen, by omega⟩⟩
        have hodd : (st.odd && st.prior) = true := htaken
        rw [htaken, Bool.not_true, Bool.false_and, if_neg Bool.false_ne_true, if_pos rfl, if_pos hodd, Option.none_or,
          List.nil_append]
        exact readFrom_run ls (hpen ▸ h) hfollows
      · have hodd : ¬(st.odd && st.prior) = true := htaken
        rw [Bool.eq_false_iff.2 htaken, Bool.not_false, Bool.true_and, if_neg hodd, if_neg Bool.false_ne_true]
        rcases h.exec_cases l.command with ⟨ht, -⟩ | ⟨-, hlen, he⟩ | ⟨-, hdrawing, -⟩ | ⟨-, hlen, -, s', hs', hdraws, hlen'⟩
        · rw [PathCommand.tight_of_isClose hclose] at ht
          cases ht
        · have hsize : st.size < 2 := by have := hf.size; omega
          rw [decide_eq_true hsize, if_pos rfl]
          exact ⟨_, hfail _ he, by decide⟩
        · rw [hclose] at hdrawing
          cases hdrawing
        · have hsize : ¬st.size < 2 := by have := hf.size; have := hlen hclose; omega
          rw [decide_eq_false hsize, if_neg Bool.false_ne_true]
          exact hrun s' hs' hdraws (hf.close hclose (hlen hclose) (Nat.not_lt.1 hsize) hlen')
    · have hdrawing := Bool.eq_false_iff.2 hclose
      rw [hdrawing, Bool.not_false, Bool.and_true, if_neg Bool.false_ne_true, Bool.and_false, if_neg Bool.false_ne_true]
      by_cases hodd : st.odd = true
      · rw [if_pos hodd, if_pos hodd]
        cases st.prior
        · exact ⟨_, rfl, by decide⟩
        · exact ⟨_, rfl, by decide⟩
      · have htaken : ¬(st.odd && st.prior) = true := fun hh => hodd (Bool.and_eq_true_iff.1 hh).1
        rw [if_neg hodd, if_neg hodd, if_neg htaken]
        rcases h.exec_cases l.command with ⟨ht, he⟩ | ⟨hc, -⟩ | ⟨ht, -, hpoints, he⟩ | ⟨ht, -, hpoints, s', hs', hdraws, hlen'⟩
        · rw [if_pos ht]
          exact ⟨_, hfail _ he, by decide⟩
        · exact absurd hc hclose
        · rw [ht, if_neg Bool.false_ne_true, if_neg hpoints]
          exact ⟨_, hfail _ he, by decide⟩
        · rw [ht, if_neg Bool.false_ne_true, if_pos hpoints]
          exact hrun s' hs' hdraws (hf.draw hdrawing hlen')

theorem Spelling.outcome {word : List PathCommand} (s : Spelling word) :
    Outcome ((Scan.start s.lead).firstStop s.layout) (List.keep s.leavesOut (callBlocks .new word))
      (doubleNumbers.parseSubpaths s.text) := by
  have hodd : (Scan.start s.lead).odd = (s.lead != 0) := by
    unfold Scan.odd Scan.start
    by_cases h : s.lead = 0 <;> simp [h]
  have h := @readFrom_run s.layout (Scan.start s.lead) ⟨[], []⟩ [] draws_init ⟨.inl rfl, fun hp => absurd hp Bool.false_ne_true⟩
  rw [hodd, s.leavesOut_eq, s.spells, List.nil_append] at h
  rw [text, parseSubpaths_spell]
  exact h

/-! ## What is left out -/

theorem map_callBlocks : ∀ (cs : List PathCommand) (pen : Pen),
    (callBlocks pen cs).map (fun x => x.flatMap Call.segments) = blocks pen cs
  | [], _ => rfl
  | c :: cs, pen => by
    rw [callBlocks, List.map_cons, Pen.calls_segments, map_callBlocks cs]
    rfl

theorem callBlocks_getElem? : ∀ {cs : List PathCommand} {pen : Pen} {i : ℕ} {x : List Call}, (callBlocks pen cs)[i]? = some x →
    ∃ c, cs[i]? = some c ∧ ∃ pen' : Pen, x = pen'.calls parserEnds c
  | [], _, _, _, h => by cases h
  | c :: cs, pen, 0, x, h => ⟨c, rfl, pen, (Option.some.inj h).symm⟩
  | c :: cs, pen, i + 1, x, h => @callBlocks_getElem? cs _ i x h

/-- Only a closing is left out, and it repeats the segment before it. -/
theorem leavesOut_again : ∀ (ls : List Laid) {st : Scan} {last : Segment},
    (st.prior = true → st.pen.start = some st.pen.current ∧ last.stop = st.pen.current) →
    ∀ i x, (blocks st.pen (ls.map Laid.command))[i]? = some x → st.leavesOut ls i = true →
      x = [Segment.again (((blocks st.pen (ls.map Laid.command)).take i).flatten.getLastD last)]
  | [], _, _, _, _, _, h, _ => by cases h
  | l :: ls, st, last, hprior, 0, x, h, hout => by
    obtain ⟨htaken, hclose⟩ := Bool.and_eq_true_iff.1 hout
    obtain ⟨hstart, hlast⟩ := hprior (Bool.and_eq_true_iff.1 htaken).2
    obtain rfl := Option.some.inj h
    have hx : ∀ c : PathCommand, c.isClose = true → (st.pen.draw parserEnds c).2 = [⟨last.stop, last.stop⟩] := by
      intro c hc
      cases c with
      | moveTo r a => cases hc
      | lineTo r a => cases hc
      | close r => rw [Pen.draw, hstart, hlast]; rfl
    exact hx l.command hclose
  | l :: ls, st, last, hprior, i + 1, x, h, hout => by
    have hnext : (st.next l).prior = true → (st.next l).pen.start = some (st.next l).pen.current ∧
        ((st.pen.draw parserEnds l.command).2.getLastD last).stop = (st.next l).pen.current := by
      intro hjoined
      have hclose := Laid.isClose_of_joined hjoined
      refine ⟨(Pen.draw_of_isClose hclose).1, ?_⟩
      unfold Scan.next
      cases hc : l.command with
      | moveTo r a => rw [hc] at hclose; cases hclose
      | lineTo r a => rw [hc] at hclose; cases hclose
      | close r => rfl
    have ih := leavesOut_again ls hnext i x h hout
    rw [List.map_cons, blocks, List.take_succ_cons, List.flatten_cons, List.getLastD_append]
    exact ih

theorem mem_locations_iff {l : Location} : ∀ (calls : List Call), l ∈ calls.flatMap Call.locations ↔
    .addPoint l ∈ calls ∨ ∃ e ∈ calls.flatMap Call.segments, l = e.start ∨ l = e.stop
  | [] => by simp
  | c :: calls => by
    rw [List.flatMap_cons, List.mem_append, mem_locations_iff calls, List.flatMap_cons]
    generalize calls.flatMap Call.segments = es
    cases c with
    | addPoint k =>
      simp only [Call.locations, Call.segments, List.mem_cons, List.not_mem_nil, or_false, List.nil_append, Call.addPoint.injEq]
      exact or_assoc.symm
    | addSegment l1 l2 =>
      simp only [Call.locations, Call.segments, List.mem_cons, List.not_mem_nil, or_false, reduceCtorEq, false_or,
        List.cons_append, List.nil_append, exists_eq_or_imp]
      exact or_left_comm

theorem parsePath_map (d : List Char) (doc : Document) :
    doubleNumbers.parsePath d doc = (doubleNumbers.parseSubpaths d).map fun p => run doc p.calls := by
  unfold Numbers.parsePath
  cases doubleNumbers.parseSubpaths d <;> rfl

section Same

variable {word : List PathCommand} (s s' : Spelling word)

/-- The segments drawn, with the closings left out. -/
def Spelling.segments : List Segment := List.keep s.leavesOut (blocks .new word)

theorem Spelling.segments_eq :
    (List.keep s.leavesOut (callBlocks .new word)).flatMap Call.segments = s.segments := by
  rw [List.flatMap_keep, map_callBlocks, segments]

/-- A closing adds no point by itself, so leaving it out loses none. -/
theorem Spelling.addPoint_mem (l : Location) : Call.addPoint l ∈ List.keep s.leavesOut (callBlocks .new word) ↔
    ∃ (i : ℕ) (x : List Call), (callBlocks .new word)[i]? = some x ∧ Call.addPoint l ∈ x := by
  rw [List.mem_keep]
  refine exists_congr fun i => exists_congr fun x => and_congr_right fun hx => and_iff_right_of_imp ?_
  intro hl
  obtain ⟨c, hc, pen, rfl⟩ := callBlocks_getElem? hx
  rw [leavesOut, hc, Option.any_some]
  cases c with
  | moveTo r a => exact Bool.and_false _
  | lineTo r a => exact Bool.and_false _
  | close r => simp [Pen.calls, Pen.draw] at hl

/-- Two spellings read to the end do the same to a document when they draw the same segments. -/
theorem Spelling.run_iff (doc : Document) :
    ((run doc (List.keep s.leavesOut (callBlocks .new word))).edges =
          (run doc (List.keep s'.leavesOut (callBlocks .new word))).edges ∧
        ∀ l : Location, (run doc (List.keep s.leavesOut (callBlocks .new word))).points[l]? =
          (run doc (List.keep s'.leavesOut (callBlocks .new word))).points[l]?) ↔ s.segments = s'.segments := by
  constructor
  · rintro ⟨hedges, -⟩
    rw [run_edges, run_edges, s.segments_eq, s'.segments_eq] at hedges
    exact List.append_cancel_left hedges
  · intro h
    refine run_congr ?_ (fun l => ?_) doc
    · rw [s.segments_eq, s'.segments_eq, h]
    · rw [mem_locations_iff, mem_locations_iff, s.addPoint_mem, s'.addPoint_mem, s.segments_eq, s'.segments_eq, h]

/-- They do so when they leave out equally many closings, and wherever one is ahead only lines that
stay at the end of the last segment are drawn. -/
theorem Spelling.segments_iff : s.segments = s'.segments ↔
    List.leftOut s.leavesOut word.length = List.leftOut s'.leavesOut word.length ∧
      ∀ i es, (blocks .new word)[i]? = some es → List.leftOut s.leavesOut i = List.leftOut s'.leavesOut i ∨
        ∀ e ∈ es, e = Segment.again (((blocks .new word).take i).flatten.getLastD ⟨⟨0, 0⟩, ⟨0, 0⟩⟩) := by
  have hlength : ∀ (cs : List PathCommand) (pen : Pen), (blocks pen cs).length = cs.length := by
    intro cs
    induction cs with
    | nil => exact fun _ => rfl
    | cons c cs ih => exact fun pen => congrArg (· + 1) (ih _)
  have hagain : ∀ (t : Spelling word) i x, (blocks .new word)[i]? = some x → t.leavesOut i = true →
      x = [Segment.again (((blocks .new word).take i).flatten.getLastD ⟨⟨0, 0⟩, ⟨0, 0⟩⟩)] := by
    intro t i x hx hout
    have h := @leavesOut_again t.layout (Scan.start t.lead) ⟨⟨0, 0⟩, ⟨0, 0⟩⟩ (fun hp => absurd hp Bool.false_ne_true) i x
    rw [t.leavesOut_eq, t.spells] at h
    exact h hx hout
  have h := @List.keep_eq_keep_iff _ Segment.again (fun _ => rfl) (blocks .new word) ⟨⟨0, 0⟩, ⟨0, 0⟩⟩ s.leavesOut
    s'.leavesOut 0 0 fun i x hx hout => hout.elim (hagain s i x hx) (hagain s' i x hx)
  simp only [List.replicate_zero, List.nil_append, Nat.zero_add, hlength] at h
  rw [segments, segments, h, eq_comm]
  simp only [eq_comm (a := List.leftOut s'.leavesOut _)]

theorem same_iff_outcomes {stop stop' : Option Stop} {calls calls' : List Call} {r r' : Except ParseError Subpaths}
    (h : Outcome stop calls r) (h' : Outcome stop' calls' r') (doc : Document) :
    Same (r.map fun p => run doc p.calls) (r'.map fun p => run doc p.calls) ↔
      (stop = some .thrown ∧ stop' = some .thrown) ∨ stop = none ∧ stop' = none ∧
        (run doc calls).edges = (run doc calls').edges ∧
        ∀ l : Location, (run doc calls).points[l]? = (run doc calls').points[l]? := by
  rcases stop with _ | _ | _ <;> rcases stop' with _ | _ | _
  all_goals
    obtain ⟨p, rfl, hp⟩ := h
    obtain ⟨p', rfl, hp'⟩ := h'
    simp [Except.map, Same, hp, hp']

end Same

/-- Two strokes, the first of them closed. -/
def twoStrokes : List PathCommand :=
  [.moveTo false (.ofInts 0 0 []), .lineTo true (.ofInts 1 1 []), .close true, .moveTo false (.ofInts 5 5 []),
    .lineTo true (.ofInts 1 1 [])]

/-- The strokes with `n` blanks after the closing. -/
def twoStrokesSpelled (n : ℕ) : Spelling twoStrokes where
  lead := 0
  layout := [⟨.moveTo false (.ofInts 0 0 []), 0, 0⟩, ⟨.lineTo true (.ofInts 1 1 []), 0, 0⟩, ⟨.close true, 0, n⟩,
    ⟨.moveTo false (.ofInts 5 5 []), 0, 0⟩, ⟨.lineTo true (.ofInts 1 1 []), 0, 0⟩]
  spells := rfl

end DetailIdentifier.Svg
