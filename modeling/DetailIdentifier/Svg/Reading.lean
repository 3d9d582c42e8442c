/-
What the token loop makes of a text of commands. It glues every letter to the next token: to what
stands before the next letter, or to that letter itself when nothing does. `readFrom` says which
commands it then runs and how it ends (`parseSubpaths_spell`); on a text with something between every
two letters it runs them all (`parseSubpaths_spaced`).
-/
import DetailIdentifier.Svg.PathText

namespace DetailIdentifier.Svg

/-! ## Readings -/

/-- Why the loop stops before the end of the text: at a token that is no command, which throws, or at a
command without its arguments, which reads past the end of a vector. -/
inductive Stop where
  | thrown
  | undefined
deriving DecidableEq, Repr

/-- The commands the loop runs, and why it stops after them. -/
structure Reading where
  commands : List PathCommand
  stop : Option Stop

def Reading.cons (c : PathCommand) (r : Reading) : Reading := { r with commands := c :: r.commands }

/-- Nothing stands between a closing's letter and the next letter or the end. -/
def Laid.joined (l : Laid) : Bool := l.command.isClose && l.after + l.next == 0

/-- From a letter on: whether an odd number of tokens has come before, and whether the last of them
is a letter. -/
def readFrom (odd prior : Bool) : List Laid → Reading
  | [] => ⟨[], if odd && !prior then some .thrown else none⟩
  | l :: ls =>
    if odd && !l.command.isClose then ⟨[], some (if prior then .thrown else .undefined)⟩
    -- the letter before takes a closing for its argument
    else if odd && prior then readFrom (odd ^^ l.joined) l.joined ls
    else .cons l.command (readFrom (odd ^^ l.joined) l.joined ls)

/-- Running a reading. -/
def Reading.run (s : Subpaths) (r : Reading) : Except ParseError Subpaths := do
  let s ← r.commands.foldlM (fun s c => c.exec s) s
  match r.stop with
  | none => return s
  | some .thrown => throw .badFunctionCall
  | some .undefined => throw .outOfRange

theorem Reading.run_cons (s : Subpaths) (c : PathCommand) (r : Reading) :
    (Reading.cons c r).run s = (do let s ← c.exec s; r.run s) := by
  simp only [run, cons, List.foldlM_cons, bind_assoc]

/-! ## Tokens -/

/-- The tokens of a text of commands: each letter, and what stands after it if anything does. -/
def tokens (ls : List Laid) : List (List Char) := ls.flatMap fun l => [l.command.letter] :: Tokenizer.flush l.body

theorem tokenize_laid : ∀ (ls : List Laid) (cur : List Char),
    Tokenizer.tokenize (fun _ => false) isPathLetter cur (ls.flatMap Laid.text) = Tokenizer.flush cur ++ tokens ls
  | [], cur => by simp [Tokenizer.tokenize, tokens]
  | l :: ls, cur => by
    rw [List.flatMap_cons, Laid.text, List.cons_append, Tokenizer.tokenize_kept l.command.isPathLetter_letter,
      Tokenizer.tokenize_word _ l.body [] fun c hc => ⟨l.body_not_isPathLetter hc, rfl⟩, List.nil_append,
      tokenize_laid ls]
    simp [tokens]

theorem isSpace_letter (c : PathCommand) : isSpace c.letter = false := by
  cases c with
  | moveTo r a => cases r <;> rfl
  | lineTo r a => cases r <;> rfl
  | close r => cases r <;> rfl

theorem Args.text_ne_nil (a : Args) : a.text ≠ [] := by simp [Args.text, Decimal.Numeral.text_ne_nil]

theorem Laid.joined_iff (l : Laid) : l.joined = true ↔ l.body = [] := by
  unfold joined body
  cases l.command with
  | moveTo r a => simp [PathCommand.isClose, PathCommand.argText, a.text_ne_nil]
  | lineTo r a => simp [PathCommand.isClose, PathCommand.argText, a.text_ne_nil]
  | close r => simp [PathCommand.isClose, PathCommand.argText, blanks]

theorem Laid.isClose_of_joined {l : Laid} (h : l.joined = true) : l.command.isClose = true := by
  unfold joined at h
  rw [Bool.and_eq_true] at h
  exact h.1

theorem trim_blanks {w : List Char} (h : ∀ c ∈ w, c = ' ') : Tokenizer.trim isSpace w = [] :=
  Tokenizer.trim_eq_nil fun c hc => by rw [h c hc]; rfl

/-- What follows a closing is blanks. -/
theorem Laid.body_blank {l : Laid} (h : l.command.isClose = true) : ∀ c ∈ l.body, c = ' ' := by
  intro c hc
  unfold Laid.body at hc
  cases hl : l.command with
  | close r =>
    rw [hl, PathCommand.argText, List.append_nil] at hc
    rcases List.mem_append.1 hc with hc | hc <;> exact mem_blanks hc
  | moveTo r a => rw [hl] at h; cases h
  | lineTo r a => rw [hl] at h; cases h

theorem pathParsers_of_not_letter {c : Char} (h : isPathLetter c = false) :
    doubleNumbers.pathParsers c = fun _ _ => .error .badFunctionCall := by
  unfold Numbers.pathParsers
  split <;> first | rfl | exact absurd h (by decide)

theorem isSpace_numeral (n : Decimal.Numeral) {c : Char} (h : c ∈ n.text) : isSpace c = false := by
  by_contra hs
  simp only [isSpace, Bool.not_eq_false, Bool.or_eq_true, beq_iff_eq] at hs
  rcases n.text_char h with h | rfl | rfl
  · rcases hs with ((((rfl | rfl) | rfl) | rfl) | rfl) | rfl <;> revert h <;> decide
  · simp at hs
  · simp at hs

/-- Arguments that stand where a letter should are no command. -/
theorem command_args (s : Subpaths) {l : Laid} (h : l.command.isClose = false) (u : List Char) :
    doubleNumbers.command s (Tokenizer.trim isSpace l.body ++ u) = .error .badFunctionCall := by
  have hargs : ∃ a : Args, l.command.argText = a.text := by
    cases hl : l.command with
    | close r => rw [hl] at h; cases h
    | moveTo r a => exact ⟨a, rfl⟩
    | lineTo r a => exact ⟨a, rfl⟩
  obtain ⟨a, ha⟩ := hargs
  obtain ⟨c, w, hw⟩ := List.exists_cons_of_ne_nil a.x.text_ne_nil
  have hc : c ∈ a.x.text := by rw [hw]; exact List.mem_cons_self ..
  have hbody : l.body = blanks l.after ++ c :: (w ++ a.numbers.flatMap NextNumber.text ++ blanks l.next) := by
    simp [Laid.body, ha, Args.text, hw]
  obtain ⟨t, ht⟩ := Tokenizer.trim_append_cons (p := isSpace)
    (fun x (hx : x ∈ blanks l.after) => by rw [mem_blanks hx]; rfl) (isSpace_numeral _ hc)
    (w ++ a.numbers.flatMap NextNumber.text ++ blanks l.next)
  rw [hbody, ht]
  simp only [Numbers.command, List.cons_append, List.head?_cons, Option.getD_some]
  rw [pathParsers_of_not_letter (numeral_not_isPathLetter _ hc)]
  rfl

/-! ## The loop -/

theorem command_laid {s : Subpaths} (hs : s.IsInt) (l : Laid) :
    doubleNumbers.command s (l.command.letter :: l.body) = l.command.exec s :=
  PathCommand.command_text hs.relativeLocation _ _ _

theorem trim_letter (c : PathCommand) : Tokenizer.trim isSpace [c.letter] = [c.letter] :=
  Tokenizer.trim_singleton (isSpace_letter c)

theorem exec_of_isClose (s : Subpaths) {c : PathCommand} (h : c.isClose = true) (w : List Char) :
    doubleNumbers.command s (c.letter :: w) = c.exec s := by
  cases c with
  | close r => exact PathCommand.command_close s r w
  | moveTo r a => cases h
  | lineTo r a => cases h

/-- A token where a letter should stand stops the loop, whatever token follows. -/
theorem commandLoop_error {s : Subpaths} {t : List Char} {e : ParseError}
    (h : ∀ u, doubleNumbers.command s (Tokenizer.trim isSpace t ++ u) = .error e) (ts : List (List Char)) :
    doubleNumbers.commandLoop s (t :: ts) = .error e := by
  cases ts with
  | nil => simpa [Numbers.commandLoop] using h []
  | cons u ts => simp only [Numbers.commandLoop, h u, bind, Except.bind]

/-- After a command the loop goes on with subpaths of `int`s. -/
theorem exec_bind_congr {s : Subpaths} (hs : s.IsInt) (c : PathCommand) {f g : Subpaths → Except ParseError Subpaths}
    (h : ∀ s', s'.IsInt → f s' = g s') : (c.exec s >>= f) = c.exec s >>= g := by
  cases hc : c.exec s with
  | error e => rfl
  | ok s' => exact h s' (c.exec_isInt hs hc)

/-- The loop on the tokens of a text, on those after its first letter, and on blanks before it. -/
theorem commandLoop_read : ∀ (ls : List Laid) {s : Subpaths}, s.IsInt →
    (∀ prior, doubleNumbers.commandLoop s (tokens ls) = (readFrom false prior ls).run s) ∧
    doubleNumbers.commandLoop s (tokens ls).tail = (readFrom true true ls).run s ∧
    ∀ w, w ≠ [] → (∀ c ∈ w, c = ' ') → doubleNumbers.commandLoop s (w :: tokens ls) = (readFrom true false ls).run s
  | [], s, hs => by
    refine ⟨fun _ => rfl, rfl, fun w hw hb => ?_⟩
    simp only [tokens, List.flatMap_nil, Numbers.commandLoop, trim_blanks hb]
    rfl
  | l :: ls, s, hs => by
    have ih := fun s' (hs' : Subpaths.IsInt s') => commandLoop_read ls hs'
    have htok : tokens (l :: ls) = [l.command.letter] :: (Tokenizer.flush l.body ++ tokens ls) := rfl
    -- what stands behind a letter that is not read as one
    have hrest : l.command.isClose = true → ∀ s', s'.IsInt →
        doubleNumbers.commandLoop s' (Tokenizer.flush l.body ++ tokens ls) = (readFrom (true ^^ l.joined) l.joined ls).run s' := by
      intro hclose s' hs'
      by_cases hbody : l.body = []
      · rw [hbody, Tokenizer.flush_nil, List.nil_append, l.joined_iff.2 hbody]
        exact (ih s' hs').1 true
      · rw [Tokenizer.flush_of_ne_nil hbody, Bool.eq_false_iff.2 fun h => hbody (l.joined_iff.1 h)]
        exact (ih s' hs').2.2 _ hbody (l.body_blank hclose)
    refine ⟨fun prior => ?_, ?_, fun w hw hb => ?_⟩
    · rw [htok, readFrom, Bool.false_and, if_neg Bool.false_ne_true, Bool.false_and, if_neg Bool.false_ne_true,
        Reading.run_cons, ← command_laid hs]
      by_cases hbody : l.body = []
      · -- a closing, glued to the next letter if there is one
        have hjoined : l.joined = true := l.joined_iff.2 hbody
        have hclose : l.command.isClose = true := Laid.isClose_of_joined hjoined
        rw [hbody, Tokenizer.flush_nil, List.nil_append, hjoined]
        cases ls with
        | nil =>
          simp only [tokens, List.flatMap_nil, Numbers.commandLoop, trim_letter]
          exact (bind_pure _).symm
        | cons x xs =>
          -- what follows the next letter then stands alone
          have hx : tokens (x :: xs) = [x.command.letter] :: (tokens (x :: xs)).tail := rfl
          rw [hx]
          simp only [Numbers.commandLoop, trim_letter, List.cons_append, List.nil_append, exec_of_isClose s hclose]
          exact exec_bind_congr hs _ fun s' hs' => (ih s' hs').2.1
      · rw [Tokenizer.flush_of_ne_nil hbody, Bool.eq_false_iff.2 fun h => hbody (l.joined_iff.1 h)]
        simp only [List.cons_append, List.nil_append, Numbers.commandLoop, trim_letter]
        rw [command_laid hs]
        exact exec_bind_congr hs _ fun s' hs' => (ih s' hs').1 false
    · rw [htok, List.tail_cons, readFrom]
      by_cases hclose : l.command.isClose = true
      · rw [hclose, Bool.not_true, Bool.and_false, if_neg Bool.false_ne_true, Bool.and_self, if_pos rfl]
        exact hrest hclose s hs
      · have hbody : l.body ≠ [] := fun h => hclose (Laid.isClose_of_joined (l.joined_iff.2 h))
        rw [Bool.eq_false_iff.2 hclose, Bool.not_false, Bool.and_self, if_pos rfl, if_pos rfl,
          Tokenizer.flush_of_ne_nil hbody, List.cons_append, List.nil_append,
          commandLoop_error fun u => command_args s (Bool.eq_false_iff.2 hclose) u]
        rfl
    · rw [htok, readFrom]
      simp only [Numbers.commandLoop, trim_blanks hb, List.nil_append]
      by_cases hclose : l.command.isClose = true
      · rw [hclose, Bool.not_true, Bool.and_false, if_neg Bool.false_ne_true, if_neg Bool.false_ne_true,
          Reading.run_cons, exec_of_isClose s hclose]
        exact exec_bind_congr hs _ fun s' hs' => hrest hclose s' hs'
      · rw [Bool.eq_false_iff.2 hclose, Bool.not_false, Bool.and_self, if_pos rfl, if_neg Bool.false_ne_true,
          PathCommand.command_letter s (Bool.eq_false_iff.2 hclose)]
        rfl

/-- A text of commands with its leading blanks. -/
def spell (lead : ℕ) (ls : List Laid) : List Char := blanks lead ++ ls.flatMap Laid.text

theorem parseSubpaths_spell (lead : ℕ) (ls : List Laid) :
    doubleNumbers.parseSubpaths (spell lead ls) = (readFrom (lead != 0) false ls).run ⟨[], []⟩ := by
  have hfree : ∀ c ∈ blanks lead, isPathLetter c = false ∧ (fun _ => false) c = false := fun c hc => by
    rw [mem_blanks hc]; exact ⟨by decide, rfl⟩
  have hinit : Subpaths.IsInt ⟨[], []⟩ := fun e he => absurd he List.not_mem_nil
  rw [Numbers.parseSubpaths, spell, Tokenizer.tokenize_word _ _ _ hfree, List.nil_append, tokenize_laid]
  obtain ⟨h1, -, h3⟩ := commandLoop_read ls hinit
  by_cases hl : lead = 0
  · subst hl
    exact h1 false
  · have hne : blanks lead ≠ [] := by simpa [blanks] using hl
    rw [bne_iff_ne.2 hl, Tokenizer.flush_of_ne_nil hne]
    exact h3 _ hne fun c hc => mem_blanks hc

/-! ## Spaced texts -/

/-- Something stands between every two command letters. -/
def Spaced : List Laid → Prop
  | [] => True
  | l :: ls => (ls ≠ [] → l.body ≠ []) ∧ Spaced ls

/-- A spaced text is read as its commands. -/
theorem readFrom_spaced : ∀ (ls : List Laid) (prior : Bool), Spaced ls →
    readFrom false prior ls = ⟨ls.map Laid.command, none⟩
  | [], _, _ => rfl
  | l :: ls, prior, h => by
    rw [readFrom, Bool.false_and, if_neg Bool.false_ne_true, Bool.false_and, if_neg Bool.false_ne_true]
    cases ls with
    | nil => cases l.joined <;> rfl
    | cons x xs =>
      have hjoined : l.joined = false := Bool.eq_false_iff.2 fun hj => h.1 (List.cons_ne_nil _ _) (l.joined_iff.1 hj)
      rw [hjoined, Bool.xor_false, readFrom_spaced (x :: xs) false h.2]
      rfl

theorem parseSubpaths_spaced {ls : List Laid} (h : Spaced ls) :
    doubleNumbers.parseSubpaths (ls.flatMap Laid.text) = (ls.map Laid.command).foldlM (fun s c => c.exec s) ⟨[], []⟩ := by
  have hp := parseSubpaths_spell 0 ls
  rw [bne_self_eq_false, readFrom_spaced ls false h] at hp
  exact hp.trans (bind_pure _)

end DetailIdentifier.Svg
