/-
Path data as text: commands with integer coordinate pairs, and the blanks around their letters.
`double`s and `int`s add the integers exactly as long as the `int`s hold the sums
(`moved_round`); two numbers with nothing but a sign between them are no number (`fetchParams_tight`).

Glued to its arguments, a command does what `PathCommand.exec` says, whatever blanks surround them
(`PathCommand.command_text`); a closing ignores what it is glued to (`PathCommand.command_close`).
-/
import DetailIdentifier.Lib.Lists
import DetailIdentifier.Svg.Path

namespace DetailIdentifier.Svg

/-! ## Texts -/

/-- A run of blanks and commas between two numbers. -/
structure Gap where
  text : List Char
  nonempty : text ≠ []
  chars : ∀ c ∈ text, c = ' ' ∨ c = ','

def Gap.blank : Gap := ⟨[' '], by simp, by simp⟩

/-- A number after another: behind a run of blanks and commas, or behind nothing if it has a sign. -/
structure NextNumber where
  gap : Option Gap
  numeral : Decimal.Numeral
  signed : gap = none → numeral.sign ≠ .none

namespace NextNumber

variable (n : NextNumber)

def gapText : List Char := n.gap.elim [] Gap.text

def text : List Char := n.gapText ++ n.numeral.text

def value : Int := n.numeral.value

/-- The usual numeral behind a blank. -/
def ofInt (i : Int) : NextNumber := ⟨some .blank, .ofInt i, fun h => by cases h⟩

end NextNumber

/-- The arguments of a command: one pair or more. -/
structure Args where
  x : Decimal.Numeral
  y : NextNumber
  tail : List (NextNumber × NextNumber)

namespace Args

/-- The numbers after the first. -/
def numbers (a : Args) : List NextNumber := a.y :: a.tail.flatMap fun p => [p.1, p.2]

def text (a : Args) : List Char := a.x.text ++ a.numbers.flatMap NextNumber.text

def pairs (a : Args) : List (Int × Int) := (a.x.value, a.y.value) :: a.tail.map fun p => (p.1.value, p.2.value)

/-- Nothing stands between two of the numbers, the second of which has a sign. -/
def tight (a : Args) : Bool := a.numbers.any fun n => n.gap.isNone

/-- One pair or more in the usual text. -/
def ofInts (x y : Int) (tail : List (Int × Int)) : Args :=
  ⟨.ofInt x, .ofInt y, tail.map fun q => (.ofInt q.1, .ofInt q.2)⟩

end Args

/-- A command with its arguments, or a `Z` or `z`. -/
inductive PathCommand where
  | moveTo (relative : Bool) (args : Args)
  | lineTo (relative : Bool) (args : Args)
  | close (lower : Bool)

namespace PathCommand

def letter : PathCommand → Char
  | moveTo false _ => 'M'
  | moveTo true _ => 'm'
  | lineTo false _ => 'L'
  | lineTo true _ => 'l'
  | close false => 'Z'
  | close true => 'z'

def argText : PathCommand → List Char
  | moveTo _ a => a.text
  | lineTo _ a => a.text
  | close _ => []

def isClose : PathCommand → Bool
  | close _ => true
  | _ => false

/-- Two of the arguments have nothing but a sign between them. -/
def tight : PathCommand → Bool
  | moveTo _ a => a.tight
  | lineTo _ a => a.tight
  | close _ => false

end PathCommand

/-- A command with the numbers of blanks after its letter and before what follows it. -/
structure Laid where
  command : PathCommand
  after : ℕ
  next : ℕ

def blanks (n : ℕ) : List Char := List.replicate n ' '

/-- What stands between a command's letter and what follows the command. -/
def Laid.body (l : Laid) : List Char := blanks l.after ++ l.command.argText ++ blanks l.next

def Laid.text (l : Laid) : List Char := l.command.letter :: l.body

/-! ## Characters -/

theorem isDigit_of_isPathLetter {c : Char} (h : isPathLetter c = true) : c.isDigit = false := by
  have hall : ∀ c ∈ pathLetters, c.isDigit = false := by simp [pathLetters, Char.isDigit]
  exact hall c (List.contains_iff_mem.1 h)

theorem decimal_not_isPathLetter {s : List Char} {q : ℚ} (h : Decimal.parse s = some q) {c : Char} (hc : c ∈ s) :
    isPathLetter c = false := by
  rcases Decimal.parse_char h hc with hd | hc
  · by_contra hl
    rw [isDigit_of_isPathLetter (by simpa using hl)] at hd
    cases hd
  · simp only [List.mem_cons, List.not_mem_nil, or_false] at hc
    rcases hc with rfl | rfl | rfl | rfl | rfl <;> decide

theorem numeral_not_isPathLetter (n : Decimal.Numeral) {c : Char} (h : c ∈ n.text) : isPathLetter c = false :=
  decimal_not_isPathLetter n.parse_text h

theorem gap_not_isPathLetter (g : Gap) {c : Char} (h : c ∈ g.text) : isPathLetter c = false := by
  rcases g.chars c h with rfl | rfl <;> decide

theorem mem_blanks {n : ℕ} {c : Char} (h : c ∈ blanks n) : c = ' ' := List.eq_of_mem_replicate h

theorem NextNumber.not_isPathLetter (n : NextNumber) {c : Char} (h : c ∈ n.text) : isPathLetter c = false := by
  rcases List.mem_append.1 h with h | h
  · unfold gapText at h
    cases hg : n.gap with
    | none => rw [hg] at h; cases h
    | some g => rw [hg] at h; exact gap_not_isPathLetter g h
  · exact numeral_not_isPathLetter _ h

theorem args_not_isPathLetter (a : Args) {c : Char} (h : c ∈ a.text) : isPathLetter c = false := by
  rcases List.mem_append.1 h with h | h
  · exact numeral_not_isPathLetter _ h
  · obtain ⟨n, -, hn⟩ := List.mem_flatMap.1 h
    exact n.not_isPathLetter hn

theorem Laid.body_not_isPathLetter (l : Laid) {c : Char} (h : c ∈ l.body) : isPathLetter c = false := by
  simp only [Laid.body, List.mem_append] at h
  rcases h with (h | h) | h
  · rw [mem_blanks h]; decide
  · cases hc : l.command with
    | close lower => simp [hc, PathCommand.argText] at h
    | moveTo r a => rw [hc] at h; exact args_not_isPathLetter a h
    | lineTo r a => rw [hc] at h; exact args_not_isPathLetter a h
  · rw [mem_blanks h]; decide

theorem PathCommand.isPathLetter_letter (c : PathCommand) : isPathLetter c.letter = true := by
  cases c with
  | moveTo r a => cases r <;> rfl
  | lineTo r a => cases r <;> rfl
  | close r => cases r <;> rfl

/-! ## Separators -/

theorem decimal_not_separator {symbols : List Char} (hs : ∀ c ∈ symbols, isPathLetter c = true) {w : List Char} {q : ℚ}
    (h : Decimal.parse w = some q) {c : Char} (hc : c ∈ w) : isParamSeparator symbols c = false := by
  have h1 : c ∉ symbols := fun hmem => by
    have := hs c hmem
    rw [decimal_not_isPathLetter h hc] at this; cases this
  have h2 : c ≠ ' ' ∧ c ≠ ',' ∧ c ≠ ';' := by
    refine ⟨?_, ?_, ?_⟩ <;> rintro rfl <;> rcases Decimal.parse_char h hc with h | h <;> revert h <;> decide
  simp [isParamSeparator, h1, h2]

theorem blanks_separator (symbols : List Char) {n : ℕ} {c : Char} (hc : c ∈ blanks n) :
    isParamSeparator symbols c = true := by
  rw [mem_blanks hc]; simp [isParamSeparator]

theorem gap_separator (symbols : List Char) (g : Gap) :
    g.text ≠ [] ∧ ∀ c ∈ g.text, isParamSeparator symbols c = true := by
  refine ⟨g.nonempty, fun c hc => ?_⟩
  rcases g.chars c hc with rfl | rfl <;> simp [isParamSeparator]

/-- A command's letter and the blanks after it separate its first argument from nothing. -/
theorem letter_separator {letter : Char} {symbols : List Char} (hl : letter ∈ symbols) (n : ℕ) :
    letter :: blanks n ≠ [] ∧ ∀ c ∈ letter :: blanks n, isParamSeparator symbols c = true := by
  refine ⟨List.cons_ne_nil _ _, fun c hc => ?_⟩
  rcases List.mem_cons.1 hc with rfl | hc
  exacts [by simp [isParamSeparator, hl], blanks_separator symbols hc]

section Numbers

variable {ρ : Type} (N : Numbers ρ) {symbols : List Char} (items : List (List Char × List Char)) (n : ℕ)

/-- The tokens of words with separators before them. -/
theorem tokenize_items (hitems : ∀ i ∈ items, (∀ c ∈ i.1, isParamSeparator symbols c = true) ∧
    ∀ c ∈ i.2, isParamSeparator symbols c = false) :
    Tokenizer.tokenize (isParamSeparator symbols) (fun _ => false) []
      (items.flatMap (fun i => i.1 ++ i.2) ++ blanks n) = Tokenizer.join [] items :=
  Tokenizer.tokenize_join (fun _ hc => ⟨rfl, blanks_separator symbols hc⟩) items [] fun i hi =>
    ⟨fun c hc => ⟨rfl, (hitems i hi).1 c hc⟩, fun c hc => ⟨rfl, (hitems i hi).2 c hc⟩⟩

/-- Numbers, each after a run of separators, are read as their values. -/
theorem fetchParams_items {values : List ρ}
    (hitems : ∀ i ∈ items, (i.1 ≠ [] ∧ ∀ c ∈ i.1, isParamSeparator symbols c = true) ∧
      i.2 ≠ [] ∧ ∀ c ∈ i.2, isParamSeparator symbols c = false)
    (hmap : (items.map (·.2)).mapM N.lexicalCast = .ok values) (heven : values.length % 2 = 0) :
    N.fetchParams (items.flatMap (fun i => i.1 ++ i.2) ++ blanks n) 2 symbols = .ok values := by
  have htok := tokenize_items items n fun i hi => ⟨(hitems i hi).1.2, (hitems i hi).2.2⟩
  rw [Tokenizer.join_of_ne_nil items [] fun i hi => ⟨(hitems i hi).1.1, (hitems i hi).2.1⟩, Tokenizer.flush_nil,
    List.nil_append] at htok
  have hvalues : ¬(values.length % 2 ≠ 0 ∧ values.length ≠ 0) := by omega
  unfold Numbers.fetchParams
  rw [htok, hmap]
  simp only [bind, Except.bind, hvalues, if_false]
  rfl

/-- A token that is no number stops the reading. -/
theorem fetchParams_error {text t : List Char} (ht : t ∈ Tokenizer.tokenize (isParamSeparator symbols) (fun _ => false) [] text)
    (hcast : N.cast t = none) : N.fetchParams text 2 symbols = .error .badLexicalCast := by
  unfold Numbers.fetchParams
  cases hmap : (Tokenizer.tokenize (isParamSeparator symbols) (fun _ => false) [] text).mapM N.lexicalCast with
  | error e =>
    obtain ⟨u, -, hu⟩ := List.exists_of_mapM_error hmap
    unfold Numbers.lexicalCast at hu
    split at hu <;> cases hu
    rfl
  | ok values =>
    obtain ⟨q, -, hq⟩ := List.Forall₂.exists_right (List.forall₂_of_mapM hmap) ht
    rw [Numbers.lexicalCast, hcast] at hq
    cases hq

end Numbers

/-! ## Reading the arguments -/

/-- The words of the arguments with what stands before each. -/
def Args.items (pre : List Char) (a : Args) : List (List Char × List Char) :=
  (pre, a.x.text) :: a.numbers.map fun n => (n.gapText, n.numeral.text)

theorem Args.text_items (pre : List Char) (a : Args) : (a.items pre).flatMap (fun i => i.1 ++ i.2) = pre ++ a.text := by
  rw [items, List.flatMap_cons, List.flatMap_map, List.append_assoc]
  rfl

/-- An integer read as a `double`. -/
noncomputable def ofInteger (i : Int) : ℝ := Binary64.round i

theorem lexicalCast_text (n : Decimal.Numeral) : doubleNumbers.lexicalCast n.text = .ok (ofInteger n.value) := by
  simp only [Numbers.lexicalCast, doubleNumbers, n.parse_text, Option.map_some, Rat.cast_intCast, ofInteger]

/-- The coordinates of a list of pairs, one after the other. -/
noncomputable def coordinates (pairs : List (Int × Int)) : List ℝ := pairs.flatMap fun p => [ofInteger p.1, ofInteger p.2]

theorem length_coordinates (ps : List (Int × Int)) : (coordinates ps).length = 2 * ps.length := by
  induction ps with
  | nil => rfl
  | cons p ps ih =>
    simp only [coordinates, List.flatMap_cons, List.length_append, List.length_cons] at ih ⊢
    rw [ih]
    simp only [List.length_nil]
    omega

theorem mapM_numerals : ∀ (ns : List Decimal.Numeral),
    (ns.map Decimal.Numeral.text).mapM doubleNumbers.lexicalCast = .ok (ns.map fun n => ofInteger n.value)
  | [] => rfl
  | n :: ns => by
    rw [List.map_cons, List.mapM_cons, lexicalCast_text, mapM_numerals ns]
    rfl

theorem Args.mapM_items (pre : List Char) (a : Args) :
    ((a.items pre).map (·.2)).mapM doubleNumbers.lexicalCast = .ok (coordinates a.pairs) := by
  have hwords : (a.items pre).map (·.2) = (a.x :: a.numbers.map NextNumber.numeral).map Decimal.Numeral.text := by
    simp only [items, List.map_cons, List.map_map, Function.comp_def]
  have hvalues : (a.x :: a.numbers.map NextNumber.numeral).map (fun n => ofInteger n.value) = coordinates a.pairs := by
    simp only [numbers, pairs, coordinates, List.map_cons, List.map_flatMap, List.map_nil, List.flatMap_cons,
      List.flatMap_map, NextNumber.value, List.cons_append, List.nil_append]
  rw [hwords, mapM_numerals, hvalues]

theorem numeral_not_separator {symbols : List Char} (hs : ∀ c ∈ symbols, isPathLetter c = true) (n : Decimal.Numeral) :
    n.text ≠ [] ∧ ∀ c ∈ n.text, isParamSeparator symbols c = false :=
  ⟨n.text_ne_nil, fun _ hc => decimal_not_separator hs n.parse_text hc⟩

theorem NextNumber.gapText_separator (symbols : List Char) (n : NextNumber) :
    ∀ c ∈ n.gapText, isParamSeparator symbols c = true := by
  unfold gapText
  cases n.gap with
  | none => exact fun c hc => absurd hc List.not_mem_nil
  | some g => exact (gap_separator symbols g).2

theorem NextNumber.gapText_eq_nil_iff (n : NextNumber) : n.gapText = [] ↔ n.gap = none := by
  unfold gapText
  cases hg : n.gap with
  | none => simp
  | some g => simp [g.nonempty]

section Arguments

variable (a : Args) {letter : Char} {symbols : List Char} (hl : letter ∈ symbols) (hs : ∀ c ∈ symbols, isPathLetter c = true)
  (m n : ℕ)

include hl hs

theorem Args.items_separator : ∀ i ∈ a.items (letter :: blanks m), (∀ c ∈ i.1, isParamSeparator symbols c = true) ∧
    i.2 ≠ [] ∧ ∀ c ∈ i.2, isParamSeparator symbols c = false := by
  intro i hi
  rcases List.mem_cons.1 hi with rfl | hi
  · exact ⟨(letter_separator hl m).2, numeral_not_separator hs _⟩
  · obtain ⟨k, -, rfl⟩ := List.mem_map.1 hi
    exact ⟨k.gapText_separator symbols, numeral_not_separator hs _⟩

/-- A command's arguments are read as its coordinates, whatever blanks surround them. -/
theorem fetchParams_args (ht : a.tight = false) :
    doubleNumbers.fetchParams (letter :: (blanks m ++ a.text ++ blanks n)) 2 symbols = .ok (coordinates a.pairs) := by
  have hgaps : ∀ i ∈ a.items (letter :: blanks m), i.1 ≠ [] := by
    intro i hi
    rcases List.mem_cons.1 hi with rfl | hi
    · exact List.cons_ne_nil _ _
    · obtain ⟨k, hk, rfl⟩ := List.mem_map.1 hi
      rw [ne_eq, k.gapText_eq_nil_iff]
      intro hnone
      have := List.any_eq_false.1 ht k hk
      rw [hnone] at this
      exact this rfl
  have hitems := a.items_separator hl hs m
  have h := fetchParams_items doubleNumbers (a.items (letter :: blanks m)) n
    (fun i hi => ⟨⟨hgaps i hi, (hitems i hi).1⟩, (hitems i hi).2⟩) (a.mapM_items _) (by rw [length_coordinates]; omega)
  rw [a.text_items] at h
  simpa using h

/-- Numbers side by side are read as one, which has a sign inside. -/
theorem fetchParams_tight (ht : a.tight = true) :
    doubleNumbers.fetchParams (letter :: (blanks m ++ a.text ++ blanks n)) 2 symbols = .error .badLexicalCast := by
  obtain ⟨k, hk, hnone⟩ := List.any_eq_true.1 ht
  rw [Option.isNone_iff_eq_none] at hnone
  have hitems := a.items_separator hl hs m
  have htokens := tokenize_items (a.items (letter :: blanks m)) n fun i hi => ⟨(hitems i hi).1, (hitems i hi).2.2⟩
  -- the first number opens a token, and `k` stands inside one
  have hjoin : Tokenizer.join [] (a.items (letter :: blanks m)) =
      Tokenizer.join a.x.text (a.numbers.map fun n => (n.gapText, n.numeral.text)) := by
    rw [Args.items, Tokenizer.join, if_neg (List.cons_ne_nil _ _)]
    rfl
  obtain ⟨t, htmem, hhead⟩ := Tokenizer.exists_glued_mem_join a.x.text_ne_nil
    (fun i (hi : i ∈ a.numbers.map fun n => (n.gapText, n.numeral.text)) => (hitems i (List.mem_cons_of_mem _ hi)).2.1)
    (k.gapText, k.numeral.text) (List.mem_map.2 ⟨k, hk, rfl⟩) (k.gapText_eq_nil_iff.2 hnone)
  have hparse : Decimal.parse t = none := by
    by_contra hsome
    obtain ⟨q, hq⟩ := Option.ne_none_iff_exists'.1 hsome
    have hchars : ∀ c ∈ t, c ∉ ['.', 'e', 'E'] := by
      intro c hc
      have hnumeral : ∃ n : Decimal.Numeral, c ∈ n.text := by
        rcases Tokenizer.mem_of_mem_join htmem hc with h | ⟨i, hi, h⟩
        · exact ⟨_, h⟩
        · obtain ⟨j, -, rfl⟩ := List.mem_map.1 hi
          exact ⟨_, h⟩
      obtain ⟨n, hn⟩ := hnumeral
      rcases n.text_char hn with hd | rfl | rfl
      · intro hmem
        simp only [List.mem_cons, List.not_mem_nil, or_false] at hmem
        rcases hmem with rfl | rfl | rfl <;> revert hd <;> decide
      · decide
      · decide
    have hdigit := Decimal.parse_tail_isDigit hq hchars
    cases hsign : k.numeral.sign with
    | none => exact k.signed hnone hsign
    | plus => exact absurd (hdigit '+' (hhead '+' (by rw [Decimal.Numeral.text, hsign]; rfl))) (by decide)
    | minus => exact absurd (hdigit '-' (hhead '-' (by rw [Decimal.Numeral.text, hsign]; rfl))) (by decide)
  have hcast : doubleNumbers.cast t = none := by simp only [doubleNumbers, hparse, Option.map_none]
  rw [← hjoin, ← htokens] at htmem
  have h := fetchParams_error doubleNumbers htmem hcast
  rw [a.text_items] at h
  simpa using h

end Arguments

/-! ## Commands -/

/-- A location moved by a pair of integers. -/
def Location.add (p : Location) (q : Int × Int) : Location := ⟨p.x + q.1, p.y + q.2⟩

/-- Adding an integer to an `int` in `double`s is exact up to `2 ^ 52`, and no `int` from there on. -/
theorem toInt_round_add {x : Int} (hx : -2 ^ 31 ≤ x ∧ x < 2 ^ 31) (v : Int) :
    toInt (Binary64.round (ofInteger v + x)) = x + v ∨
      (2 ^ 50 ≤ toInt (Binary64.round (ofInteger v + x)) ∧ 2 ^ 50 ≤ x + v) ∨
      toInt (Binary64.round (ofInteger v + x)) ≤ -2 ^ 50 ∧ x + v ≤ -2 ^ 50 := by
  have hxl : (-2 ^ 31 : ℝ) ≤ x := by exact_mod_cast hx.1
  have hxr : (x : ℝ) < 2 ^ 31 := by exact_mod_cast hx.2
  unfold ofInteger
  rcases le_or_gt |x + v| (2 ^ 52) with h | h
  · -- nothing is rounded
    have hle := abs_le.1 h
    have hv : |v| ≤ 2 ^ 53 := abs_le.2 (by omega)
    have hsum : ((v : ℝ) + x) = ((x + v : ℤ) : ℝ) := by push_cast; ring
    rw [Binary64.round_intCast hv, hsum, Binary64.round_intCast (h.trans (by norm_num)), toInt_intCast]
    exact .inl rfl
  · right
    rcases lt_abs.1 h with h | h
    · have h1 : ((2 ^ 51 : ℤ) : ℝ) ≤ Binary64.round v :=
        Binary64.intCast_le_round (by norm_num) (by exact_mod_cast (show 2 ^ 51 ≤ v by omega))
      have h2 : ((2 ^ 50 : ℤ) : ℝ) ≤ Binary64.round (Binary64.round v + x) := by
        apply Binary64.intCast_le_round (by norm_num)
        push_cast at h1 ⊢
        linarith
      refine .inl ⟨?_, by omega⟩
      rw [le_toInt_iff, if_pos (by norm_num)]
      exact_mod_cast h2
    · have h1 : Binary64.round v ≤ ((-2 ^ 51 : ℤ) : ℝ) :=
        Binary64.round_le_intCast (by norm_num) (by exact_mod_cast (show v ≤ -2 ^ 51 by omega))
      have h2 : Binary64.round (Binary64.round v + x) ≤ ((-2 ^ 50 : ℤ) : ℝ) := by
        apply Binary64.round_le_intCast (by norm_num)
        push_cast at h1 ⊢
        linarith
      refine .inr ⟨?_, by omega⟩
      rw [toInt_le_iff, if_pos (by norm_num)]
      exact_mod_cast h2

/-- A pair of integers moves a location exactly, or further than the `int`s hold. -/
theorem moved_round {p : Location} (hp : p.IsInt) (q : Int × Int) :
    doubleNumbers.moved p (ofInteger q.1) (ofInteger q.2) =
      if (p.add q).IsInt then .ok (p.add q) else .error .overflow := by
  have hx := toInt_round_add hp.1 q.1
  have hy := toInt_round_add hp.2 q.2
  have hadd : (p.add q).x = p.x + q.1 ∧ (p.add q).y = p.y + q.2 := ⟨rfl, rfl⟩
  simp only [Numbers.moved, doubleNumbers]
  generalize toInt (Binary64.round (ofInteger q.1 + p.x)) = x at hx ⊢
  generalize toInt (Binary64.round (ofInteger q.2 + p.y)) = y at hy ⊢
  have hiff : (⟨x, y⟩ : Location).IsInt ↔ (p.add q).IsInt := by
    simp only [Location.IsInt, DetailIdentifier.IsInt]
    omega
  by_cases h : (p.add q).IsInt
  · rw [if_pos (hiff.2 h), if_pos h]
    have hxy : x = (p.add q).x ∧ y = (p.add q).y := by
      simp only [Location.IsInt, DetailIdentifier.IsInt] at h
      omega
    rw [hxy.1, hxy.2]
  · rw [if_neg fun hh => h (hiff.1 hh), if_neg h]

/-- The ends of lines drawn one after the other by relative pairs. -/
def relativeEnds (p : Location) : List (Int × Int) → List Location
  | [] => []
  | q :: qs => p.add q :: relativeEnds (p.add q) qs

theorem length_relativeEnds : ∀ (qs : List (Int × Int)) (p : Location), (relativeEnds p qs).length = qs.length
  | [], _ => rfl
  | q :: qs, p => congrArg (· + 1) (length_relativeEnds qs (p.add q))

theorem lines_coordinates : ∀ (qs : List (Int × Int)) {p : Location}, p.IsInt → doubleNumbers.lines p (coordinates qs) =
    if ∀ l ∈ relativeEnds p qs, l.IsInt then .ok ((relativeEnds p qs).map .line) else .error .overflow
  | [], _, _ => by simp [relativeEnds, coordinates, Numbers.lines]
  | q :: qs, p, hp => by
    show doubleNumbers.lines p (ofInteger q.1 :: ofInteger q.2 :: coordinates qs) = _
    rw [Numbers.lines, moved_round hp, relativeEnds]
    by_cases h : (p.add q).IsInt
    · rw [if_pos h]
      simp only [List.forall_mem_cons, h, true_and, bind, Except.bind, lines_coordinates qs h]
      by_cases hall : ∀ l ∈ relativeEnds (p.add q) qs, l.IsInt
      · rw [if_pos hall, if_pos hall]
        rfl
      · rw [if_neg hall, if_neg hall]
    · have hall : ¬∀ l ∈ p.add q :: relativeEnds (p.add q) qs, l.IsInt := fun hall => h (hall _ (List.mem_cons_self ..))
      rw [if_neg h, if_neg hall]
      rfl

namespace PathCommand

/-- Where the first pair of a command is counted from. -/
def base (relative : Bool) (history : List PathElement) : Location :=
  if relative then relativeLocation history else absoluteLocation history

/-- What a command does to the subpaths. -/
def exec (s : Subpaths) : PathCommand → Except ParseError Subpaths
  | moveTo r a =>
    if a.tight then .error .badLexicalCast
    else if ∀ l ∈ relativeEnds (base r s.current) a.pairs, l.IsInt then
      let loc := (base r s.current).add (a.x.value, a.y.value)
      .ok ⟨s.finished ++ [s.current], .start loc ::
        (relativeEnds loc (a.tail.map fun p => (p.1.value, p.2.value))).map .line⟩
    else .error .overflow
  | lineTo r a =>
    if a.tight then .error .badLexicalCast
    else if ∀ l ∈ relativeEnds (base r s.current) a.pairs, l.IsInt then
      .ok { s with current := s.current ++ (relativeEnds (base r s.current) a.pairs).map .line }
    else .error .overflow
  | close _ =>
    if s.current.length < 2 then .error (.logicError "Too few elements for closing path")
    else .ok { s with current := s.current ++ s.current.head?.toList.map fun e => .line e.endpoint }

section Arguments

variable (policy : List PathElement → Location) (a : Args) {letter : Char} (m n : ℕ) (history : List PathElement)

theorem moveTo_args (hl : letter ∈ ['M', 'm']) (hbase : (policy history).IsInt) :
    doubleNumbers.moveTo policy (letter :: (blanks m ++ a.text ++ blanks n)) history =
      if a.tight then .error .badLexicalCast
      else if ∀ l ∈ relativeEnds (policy history) a.pairs, l.IsInt then
        .ok (.start ((policy history).add (a.x.value, a.y.value)) ::
          (relativeEnds ((policy history).add (a.x.value, a.y.value)) (a.tail.map fun p => (p.1.value, p.2.value))).map .line)
      else .error .overflow := by
  have hs : ∀ c ∈ ['M', 'm'], isPathLetter c = true := by simp [isPathLetter, pathLetters]
  unfold Numbers.moveTo
  cases ht : a.tight with
  | true =>
    rw [fetchParams_tight a hl hs m n ht]
    rfl
  | false =>
    rw [fetchParams_args a hl hs m n ht]
    show (do
      let loc ← doubleNumbers.moved (policy history) _ _
      return _ :: (← doubleNumbers.lines loc (coordinates _))) = _
    rw [moved_round hbase (a.x.value, a.y.value), if_neg Bool.false_ne_true, Args.pairs, relativeEnds]
    simp only [List.forall_mem_cons]
    by_cases h : ((policy history).add (a.x.value, a.y.value)).IsInt
    · simp only [h, true_and, if_true, bind, Except.bind, lines_coordinates _ h]
      split_ifs <;> rfl
    · simp only [h, false_and, if_false, bind, Except.bind]

theorem straightLine_args (hl : letter ∈ ['L', 'l']) (hbase : (policy history).IsInt) :
    doubleNumbers.straightLine policy (letter :: (blanks m ++ a.text ++ blanks n)) history =
      if a.tight then .error .badLexicalCast
      else if ∀ l ∈ relativeEnds (policy history) a.pairs, l.IsInt then .ok ((relativeEnds (policy history) a.pairs).map .line)
      else .error .overflow := by
  have hs : ∀ c ∈ ['L', 'l'], isPathLetter c = true := by simp [isPathLetter, pathLetters]
  unfold Numbers.straightLine
  cases ht : a.tight with
  | true =>
    rw [fetchParams_tight a hl hs m n ht]
    rfl
  | false =>
    rw [fetchParams_args a hl hs m n ht]
    exact lines_coordinates _ hbase

end Arguments

/-- A closing does the same whatever stands behind its letter. -/
theorem command_close (s : Subpaths) (r : Bool) (w : List Char) :
    doubleNumbers.command s ((close r).letter :: w) = (close r).exec s := by
  have h : doubleNumbers.pathParsers (close r).letter = closePath := by cases r <;> rfl
  simp only [Numbers.command, List.head?_cons, Option.getD_some, h, closePath, exec]
  cases hs : s.current with
  | nil => rfl
  | cons e es =>
    split
    · rfl
    · simp only [List.head?_cons, bind, Except.bind]
      rfl

/-- The base of a command's points is an `int` location if the end of the subpath is one. -/
theorem base_isInt {history : List PathElement} (h : (relativeLocation history).IsInt) (r : Bool) :
    (base r history).IsInt := by
  cases r with
  | true => exact h
  | false => exact show (⟨0, 0⟩ : Location).IsInt by decide

/-- What a parser makes of its arguments, a command makes of the subpaths. -/
theorem command_args_eq (s : Subpaths) (letter : Char) {text : List Char} {t : Bool} {ls : List Location} {e : PathElement}
    {es : List PathElement} (h : doubleNumbers.pathParsers letter (letter :: text) s.current =
      if t then .error .badLexicalCast else if ∀ l ∈ ls, l.IsInt then .ok (e :: es) else .error .overflow) :
    doubleNumbers.command s (letter :: text) =
      if t then .error .badLexicalCast
      else if ∀ l ∈ ls, l.IsInt then
        .ok (if e.isPathStart then ⟨s.finished ++ [s.current], e :: es⟩ else { s with current := s.current ++ e :: es })
      else .error .overflow := by
  cases t with
  | true => exact command_error _ s letter h
  | false =>
    by_cases hls : ∀ l ∈ ls, l.IsInt
    · rw [if_pos hls] at h ⊢
      exact command_cons _ s letter h
    · rw [if_neg hls] at h ⊢
      exact command_error _ s letter h

/-- Glued to its arguments, a command does what `exec` says. -/
theorem command_text {s : Subpaths} (hs : (relativeLocation s.current).IsInt) (c : PathCommand) (m n : ℕ) :
    doubleNumbers.command s (c.letter :: (blanks m ++ c.argText ++ blanks n)) = c.exec s := by
  cases c with
  | moveTo r a =>
    have hbase := base_isInt hs r
    cases r
    · exact command_args_eq s 'M' (moveTo_args absoluteLocation a m n s.current (show 'M' ∈ ['M', 'm'] by decide) hbase)
    · exact command_args_eq s 'm' (moveTo_args relativeLocation a m n s.current (show 'm' ∈ ['M', 'm'] by decide) hbase)
  | lineTo r a =>
    have hbase := base_isInt hs r
    cases r
    · exact command_args_eq s 'L' (straightLine_args absoluteLocation a m n s.current (show 'L' ∈ ['L', 'l'] by decide) hbase)
    · exact command_args_eq s 'l' (straightLine_args relativeLocation a m n s.current (show 'l' ∈ ['L', 'l'] by decide) hbase)
  | close r => exact command_close s r _

/-- Without arguments any other command reads past the end of a vector. -/
theorem command_letter (s : Subpaths) {c : PathCommand} (hc : c.isClose = false) :
    doubleNumbers.command s [c.letter] = .error .outOfRange := by
  cases c with
  | moveTo r a => cases r <;> rfl
  | lineTo r a => cases r <;> rfl
  | close r => cases hc

/-- The number of elements of the current subpath after a command. -/
def size (n : ℕ) : PathCommand → ℕ
  | moveTo _ a => a.pairs.length
  | lineTo _ a => n + a.pairs.length
  | close _ => n + 1

end PathCommand

/-- The current subpath has only points that `int`s hold. -/
def Subpaths.IsInt (s : Subpaths) : Prop := ∀ e ∈ s.current, e.endpoint.IsInt

theorem Subpaths.IsInt.relativeLocation {s : Subpaths} (h : s.IsInt) : (relativeLocation s.current).IsInt := by
  unfold Svg.relativeLocation
  split
  · decide
  · rename_i e he
    exact h e (List.mem_of_getLast? he)

theorem PathCommand.exec_isInt {s s' : Subpaths} (hs : s.IsInt) {c : PathCommand} (h : c.exec s = .ok s') : s'.IsInt := by
  have hlines : ∀ {es : List Location}, (∀ l ∈ es, l.IsInt) → ∀ e ∈ es.map PathElement.line, e.endpoint.IsInt := by
    intro es hes e he
    obtain ⟨l, hl, rfl⟩ := List.mem_map.1 he
    exact hes l hl
  cases c with
  | moveTo r a =>
    simp only [exec] at h
    split_ifs at h with ht hpoints
    cases h
    exact List.forall_mem_cons.2 ⟨hpoints _ (List.mem_cons_self ..),
      hlines fun l hl => hpoints l (List.mem_cons_of_mem _ hl)⟩
  | lineTo r a =>
    simp only [exec] at h
    split_ifs at h with ht hpoints
    cases h
    intro e he
    exact (List.mem_append.1 he).elim (hs e) (hlines hpoints e)
  | close r =>
    simp only [exec] at h
    split_ifs at h
    cases h
    intro e he
    rcases List.mem_append.1 he with he | he
    · exact hs e he
    · obtain ⟨f, hf, rfl⟩ := List.mem_map.1 he
      exact hs f (List.mem_of_mem_head? (Option.mem_toList.1 hf))

end DetailIdentifier.Svg
