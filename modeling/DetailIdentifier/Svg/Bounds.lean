/-
Reads past the end of a vector in `parse_path`. Which texts are numbers and what becomes of a
`double` that is no `int` does not matter for them: over any numbers the parser reads past the end
exactly when it gets to an `M`, `m`, `L` or `l` without arguments (`parsePath_inBounds_iff`).
-/
import DetailIdentifier.Lib.Lists
import DetailIdentifier.Svg.Path

namespace DetailIdentifier.Svg

/-- A command without arguments: its letters, blanks, commas and semicolons. -/
def Argless (text : List Char) : Prop :=
  (text.head? = some 'M' ∨ text.head? = some 'm') ∧ (∀ c ∈ text, isParamSeparator ['M', 'm'] c = true) ∨
    (text.head? = some 'L' ∨ text.head? = some 'l') ∧ ∀ c ∈ text, isParamSeparator ['L', 'l'] c = true

section OutOfRange

variable {ρ : Type} (N : Numbers ρ)

/-- The coordinates of a command are an even number; there are none when the text is separators. -/
theorem fetchParams_cases (text symbols : List Char) :
    ((∃ e, N.fetchParams text 2 symbols = .error e ∧ e ≠ .outOfRange) ∧
        ¬∀ c ∈ text, isParamSeparator symbols c = true) ∨
      ∃ cs, N.fetchParams text 2 symbols = .ok cs ∧ cs.length % 2 = 0 ∧
        (cs = [] ↔ ∀ c ∈ text, isParamSeparator symbols c = true) := by
  unfold Numbers.fetchParams
  have htokens := @Tokenizer.tokenize_eq_nil_iff Char (isParamSeparator symbols) (fun _ => false) (fun _ => rfl) text []
  rw [and_iff_right rfl] at htokens
  rw [← htokens]
  cases hmap : (Tokenizer.tokenize (isParamSeparator symbols) (fun _ => false) [] text).mapM N.lexicalCast with
  | error e =>
    obtain ⟨t, htmem, ht⟩ := List.exists_of_mapM_error hmap
    refine .inl ⟨⟨e, rfl, ?_⟩, List.ne_nil_of_mem htmem⟩
    unfold Numbers.lexicalCast at ht
    split at ht <;> cases ht
    simp
  | ok cs =>
    have hlen := (List.forall₂_of_mapM hmap).length_eq
    rw [← List.length_eq_zero_iff, hlen]
    simp only [bind, Except.bind]
    split
    · rename_i hcount
      exact .inl ⟨⟨_, rfl, by simp⟩, hcount.2⟩
    · rename_i hcount
      exact .inr ⟨cs, rfl, by omega, List.length_eq_zero_iff.symm⟩

theorem moved_ne_outOfRange (p : Location) (x y : ρ) : N.moved p x y ≠ .error .outOfRange := by
  unfold Numbers.moved
  split <;> simp

/-- An even number of coordinates makes half as many lines, or one of them leads too far. -/
theorem lines_even : ∀ (cs : List ρ) (p : Location), cs.length % 2 = 0 →
    (∃ e, N.lines p cs = .error e ∧ e ≠ .outOfRange ∧ cs ≠ []) ∨
      ∃ es, N.lines p cs = .ok es ∧ 2 * es.length = cs.length
  | [], _, _ => .inr ⟨[], rfl, rfl⟩
  | [_], _, h => absurd h (by simp)
  | x :: y :: cs, p, h => by
    simp only [List.length_cons] at h
    rw [Numbers.lines]
    cases hmoved : N.moved p x y with
    | error e => exact .inl ⟨e, rfl, fun he => moved_ne_outOfRange N p x y (he ▸ hmoved), List.cons_ne_nil _ _⟩
    | ok l =>
      rcases lines_even cs l (by omega) with ⟨e, he, hne, -⟩ | ⟨es, hes, hlen⟩
      · refine .inl ⟨e, ?_, hne, List.cons_ne_nil _ _⟩
        simp only [he, bind, Except.bind]
      · refine .inr ⟨.line l :: es, ?_, ?_⟩
        · simp only [hes, bind, Except.bind]
          rfl
        · simp only [List.length_cons]
          omega

/-- A command's parser reads past the end, or leaves no element to look at. -/
def Overruns (r : Except ParseError (List PathElement)) : Prop := r = .error .outOfRange ∨ r = .ok []

theorem moveTo_overruns (policy : List PathElement → Location) (text : List Char) (history : List PathElement) :
    Overruns (N.moveTo policy text history) ↔ ∀ c ∈ text, isParamSeparator ['M', 'm'] c = true := by
  unfold Numbers.moveTo
  rcases fetchParams_cases N text ['M', 'm'] with ⟨⟨e, he, hne⟩, hargs⟩ | ⟨cs, hcs, heven, hnil⟩
  · rw [he]
    exact iff_of_false (by simp [Overruns, bind, Except.bind, hne]) hargs
  · rw [hcs, ← hnil]
    simp only [bind, Except.bind]
    rcases cs with _ | ⟨x, _ | ⟨y, cs⟩⟩
    · exact iff_of_true (.inl rfl) rfl
    · simp at heven
    · simp only [List.length_cons] at heven
      refine iff_of_false ?_ (by simp)
      show ¬Overruns ((N.moved (policy history) x y).bind fun l => _)
      cases hmoved : N.moved (policy history) x y with
      | error e =>
        have hne : e ≠ .outOfRange := fun he => moved_ne_outOfRange N _ x y (he ▸ hmoved)
        simp [Overruns, Except.bind, hne]
      | ok l =>
        rcases lines_even N cs l (by omega) with ⟨e, he, hne, -⟩ | ⟨es, hes, -⟩
        · simp [Overruns, Except.bind, he, hne]
        · simp [Overruns, Except.bind, hes, pure, Except.pure]

theorem straightLine_overruns (policy : List PathElement → Location) (text : List Char) (history : List PathElement) :
    Overruns (N.straightLine policy text history) ↔ ∀ c ∈ text, isParamSeparator ['L', 'l'] c = true := by
  unfold Numbers.straightLine
  rcases fetchParams_cases N text ['L', 'l'] with ⟨⟨e, he, hne⟩, hargs⟩ | ⟨cs, hcs, heven, hnil⟩
  · rw [he]
    exact iff_of_false (by simp [Overruns, bind, Except.bind, hne]) hargs
  · rw [hcs, ← hnil]
    simp only [bind, Except.bind]
    rcases lines_even N cs (policy history) heven with ⟨e, he, hne, hcs⟩ | ⟨es, hes, hlen⟩
    · exact iff_of_false (by simp [Overruns, he, hne]) hcs
    · rw [hes, Overruns, or_iff_right (by simp), Except.ok.injEq, ← List.length_eq_zero_iff, ← List.length_eq_zero_iff]
      omega

theorem closePath_not_overruns (text : List Char) (history : List PathElement) : ¬Overruns (closePath text history) := by
  unfold closePath Overruns
  split
  · simp
  · cases history with
    | nil => simp at *
    | cons e es => simp

theorem command_overruns (s : Subpaths) (text : List Char) :
    N.command s text = .error .outOfRange ↔ Overruns (N.pathParsers (text.head?.getD '\x00') text s.current) := by
  unfold Numbers.command Overruns
  cases N.pathParsers (text.head?.getD '\x00') text s.current with
  | error e => simp [bind, Except.bind]
  | ok es =>
    cases es with
    | nil => exact iff_of_true rfl (.inr rfl)
    | cons e es =>
      refine iff_of_false ?_ (by simp)
      simp only [bind, Except.bind]
      split <;> simp [pure, Except.pure]

/-- A command reads past the end when it has no arguments and needs some. -/
theorem command_outOfRange_iff (s : Subpaths) (text : List Char) :
    N.command s text = .error .outOfRange ↔ Argless text := by
  have hhead : ∀ c, c ≠ '\x00' → (text.head?.getD '\x00' = c ↔ text.head? = some c) := by
    intro c hc
    cases text.head? with
    | none => simp [hc.symm]
    | some d => simp
  rw [command_overruns]
  unfold Argless
  rw [← hhead 'M' (by decide), ← hhead 'm' (by decide), ← hhead 'L' (by decide), ← hhead 'l' (by decide)]
  generalize text.head?.getD '\x00' = letter
  unfold Numbers.pathParsers
  split
  · rw [moveTo_overruns]
    simp
  · rw [moveTo_overruns]
    simp
  · rw [straightLine_overruns]
    simp
  · rw [straightLine_overruns]
    simp
  · exact iff_of_false (closePath_not_overruns _ _) (by simp)
  · exact iff_of_false (closePath_not_overruns _ _) (by simp)
  · rename_i h1 h2 h3 h4 h5 h6
    apply iff_of_false (by simp [Overruns])
    rintro (⟨h | h, -⟩ | ⟨h | h, -⟩)
    exacts [h1 h, h2 h, h3 h, h4 h]

/-- The parser stays in bounds, whatever the numbers, exactly when it does not get to an `M`, `m`, `L`
or `l` without arguments. -/
theorem parsePath_inBounds_iff (d : List Char) (doc : Document) :
    N.parsePath d doc ≠ .error .outOfRange ↔ ∀ before text after s, commandTexts d = before ++ text :: after →
      before.foldlM N.command ⟨[], []⟩ = .ok s → ¬Argless text := by
  have hloop : N.parsePath d doc = .error .outOfRange ↔
      (commandTexts d).foldlM N.command ⟨[], []⟩ = .error .outOfRange := by
    unfold Numbers.parsePath
    rw [parseSubpaths_texts]
    cases (commandTexts d).foldlM N.command ⟨[], []⟩ <;> simp [bind, Except.bind, pure, Except.pure]
  rw [ne_eq, hloop, List.foldlM_error_iff]
  simp only [command_outOfRange_iff]
  constructor
  · intro h before text after s hd hs htext
    exact h ⟨before, text, after, s, hd, hs, htext⟩
  · rintro h ⟨before, text, after, s, hd, hs, htext⟩
    exact h before text after s hd hs htext

/-- A lone `M` reads coordinates that are not there, and an `L` without arguments the first of no
elements. -/
theorem argless_outOfRange : parsePath "M".toList (.new 0 0) = .error .outOfRange ∧
    parsePath "M 0 0 L".toList (.new 0 0) = .error .outOfRange := by
  have hline : exactNumbers.parseSubpaths "M 0 0 L".toList = .error .outOfRange := by decide +kernel
  refine ⟨rfl, ?_⟩
  rw [parsePath, Numbers.parsePath, hline]
  rfl

end OutOfRange

end DetailIdentifier.Svg
