/-
Decimal numerals: `parse` reads an optional sign, digits with an optional point among them, and an
optional exponent, and nothing else. The text of an integer (`Numeral`) is read as its value
(`parse_text`), and every integer has such a text (`ofInt`).
-/
import Mathlib

namespace Decimal

/-! ## Reading -/

/-- An optional sign, `true` for a minus, and what follows it. -/
def splitSign : List Char → Bool × List Char
  | '-' :: s => (true, s)
  | '+' :: s => (false, s)
  | s => (false, s)

/-- The value of a string of digits. -/
def ofDigits (ds : List Char) : ℕ := Nat.ofDigitChars 10 ds 0

/-- What stands after the digits: nothing, or an exponent. -/
def parseExponent : List Char → Option ℤ
  | [] => some 0
  | c :: s =>
    let (neg, ds) := splitSign s
    if (c = 'e' ∨ c = 'E') ∧ ds ≠ [] ∧ ds.all Char.isDigit then
      some (if neg then -(ofDigits ds : ℤ) else ofDigits ds)
    else none

/-- The digits before and after an optional point, and what follows them. -/
def splitPoint (s : List Char) : List Char × List Char × List Char :=
  let ip := s.takeWhile Char.isDigit
  match s.dropWhile Char.isDigit with
  | '.' :: s => (ip, s.takeWhile Char.isDigit, s.dropWhile Char.isDigit)
  | s => (ip, [], s)

/-- The number a decimal numeral stands for. -/
def parse (s : List Char) : Option ℚ :=
  let (neg, s) := splitSign s
  let (ip, fp, s) := splitPoint s
  if ip = [] ∧ fp = [] then none
  else
    (parseExponent s).map fun e =>
      let m : ℚ := (ofDigits (ip ++ fp) : ℚ) * 10 ^ (e - (fp.length : ℤ))
      if neg then -m else m

example : parse "-12.5e1".toList = some (-125) := by decide +kernel
example : parse "1,5".toList = none := by decide +kernel

/-! ## Characters -/

/-- What a sign is split from has its other characters. -/
theorem mem_splitSign {s : List Char} {c : Char} (h : c ∈ s) : c = '+' ∨ c = '-' ∨ c ∈ (splitSign s).2 := by
  unfold splitSign
  split
  · exact (List.mem_cons.1 h).elim (fun hc => .inr (.inl hc)) fun hc => .inr (.inr hc)
  · exact (List.mem_cons.1 h).elim .inl fun hc => .inr (.inr hc)
  · exact .inr (.inr h)

theorem mem_splitPoint {s : List Char} {c : Char} (h : c ∈ s) :
    c.isDigit = true ∨ c = '.' ∨ c ∈ (splitPoint s).2.2 := by
  have digit : ∀ l : List Char, c ∈ l.takeWhile Char.isDigit → c.isDigit = true := fun l hc => List.mem_takeWhile_imp hc
  rw [← List.takeWhile_append_dropWhile (p := Char.isDigit) (l := s)] at h
  unfold splitPoint
  rcases List.mem_append.1 h with h | h
  · exact .inl (digit s h)
  · split
    · rename_i t ht
      rw [ht] at h
      rcases List.mem_cons.1 h with h | h
      · exact .inr (.inl h)
      · rw [← List.takeWhile_append_dropWhile (p := Char.isDigit) (l := t)] at h
        exact (List.mem_append.1 h).elim (fun h => .inl (digit t h)) fun h => .inr (.inr h)
    · exact .inr (.inr h)

theorem parseExponent_char {s : List Char} {e : ℤ} (h : parseExponent s = some e) {c : Char} (hc : c ∈ s) :
    c.isDigit = true ∨ c ∈ ['+', '-', 'e', 'E'] := by
  cases s with
  | nil => cases hc
  | cons d s =>
    unfold parseExponent at h
    simp only at h
    split at h
    · rename_i hd
      obtain ⟨hd, -, hall⟩ := hd
      rcases List.mem_cons.1 hc with rfl | hc
      · rcases hd with rfl | rfl <;> exact .inr (by decide)
      · rcases mem_splitSign hc with rfl | rfl | hc
        · exact .inr (by decide)
        · exact .inr (by decide)
        · exact .inl (List.all_eq_true.1 hall c hc)
    · cases h

/-- The characters of a decimal numeral. -/
theorem parse_char {s : List Char} {q : ℚ} (h : parse s = some q) {c : Char} (hc : c ∈ s) :
    c.isDigit = true ∨ c ∈ ['+', '-', '.', 'e', 'E'] := by
  unfold parse at h
  simp only at h
  split at h
  · cases h
  · obtain ⟨e, he, -⟩ := Option.map_eq_some_iff.1 h
    rcases mem_splitSign hc with rfl | rfl | hc
    · exact .inr (by decide)
    · exact .inr (by decide)
    · rcases mem_splitPoint hc with hc | rfl | hc
      · exact .inl hc
      · exact .inr (by decide)
      · apply (parseExponent_char he hc).imp id
        intro hc
        simp only [List.mem_cons, List.not_mem_nil, or_false] at hc ⊢
        tauto

theorem parse_nil : parse [] = none := rfl

/-- Without a point and an exponent a sign stands at the front only. -/
theorem parse_tail_isDigit {s : List Char} {q : ℚ} (h : parse s = some q) (hs : ∀ c ∈ s, c ∉ ['.', 'e', 'E']) :
    ∀ c ∈ s.tail, c.isDigit = true := by
  have htail : s = (splitSign s).2 ∨ s.tail = (splitSign s).2 := by
    unfold splitSign
    split
    exacts [.inr rfl, .inr rfl, .inl rfl]
  have hsub : ∀ c ∈ (splitSign s).2, c ∈ s := fun c hc =>
    htail.elim (fun he => he ▸ hc) fun he => List.mem_of_mem_tail (he ▸ hc)
  unfold parse at h
  simp only at h
  split at h
  · cases h
  · obtain ⟨e, he, -⟩ := Option.map_eq_some_iff.1 h
    generalize (splitSign s).2 = t at htail hsub he
    have hdigits : ∀ c ∈ t, c.isDigit = true := by
      rw [← List.dropWhile_eq_nil_iff]
      unfold splitPoint at he
      cases hrest : t.dropWhile Char.isDigit with
      | nil => rfl
      | cons c rest =>
        have hc := hs c (hsub c ((List.dropWhile_suffix _).subset (hrest ▸ List.mem_cons_self ..)))
        simp only [List.mem_cons, List.not_mem_nil, or_false, not_or] at hc
        simp only [hrest] at he
        split at he
        · rename_i hpoint
          cases hpoint
          exact absurd rfl hc.1
        · simp [parseExponent, hc.2.1, hc.2.2] at he
    rcases htail with rfl | ht
    exacts [fun c hc => hdigits c (List.mem_of_mem_tail hc), fun c hc => hdigits c (ht ▸ hc)]

/-! ## Texts of integers -/

inductive Sign where
  | none
  | plus
  | minus
deriving DecidableEq, Repr

def Sign.text : Sign → List Char
  | none => []
  | plus => ['+']
  | minus => ['-']

/-- The text of an integer: an optional sign and at least one digit. -/
structure Numeral where
  sign : Sign
  digits : List Char
  nonempty : digits ≠ []
  allDigits : ∀ c ∈ digits, c.isDigit = true

namespace Numeral

variable (n : Numeral)

def text : List Char := n.sign.text ++ n.digits

def value : ℤ := if n.sign = .minus then -(ofDigits n.digits : ℤ) else ofDigits n.digits

/-- The usual text of an integer. -/
def ofInt (i : ℤ) : Numeral where
  sign := if i < 0 then .minus else .none
  digits := Nat.toDigits 10 i.natAbs
  nonempty := Nat.toDigits_ne_nil
  allDigits _ hc := Nat.isDigit_of_mem_toDigits (by decide) (by decide) hc

@[simp] theorem value_ofInt (i : ℤ) : (ofInt i).value = i := by
  simp only [value, ofInt, ofDigits, Nat.ofDigitChars_ten_toDigits]
  by_cases h : i < 0
  · simp only [h, if_true]; omega
  · simp only [h, if_false, reduceCtorEq]; omega

theorem exists_digit_cons : ∃ d ds, n.digits = d :: ds ∧ d.isDigit = true := by
  cases h : n.digits with
  | nil => exact absurd h n.nonempty
  | cons d ds => exact ⟨d, ds, rfl, n.allDigits d (by simp [h])⟩

theorem splitSign_text : splitSign n.text = (decide (n.sign = .minus), n.digits) := by
  obtain ⟨d, ds, hd, hdig⟩ := n.exists_digit_cons
  rw [text, hd]
  cases n.sign with
  | none =>
    have h1 : d ≠ '-' := by rintro rfl; revert hdig; decide
    have h2 : d ≠ '+' := by rintro rfl; revert hdig; decide
    simp [Sign.text, splitSign, h1, h2]
  | plus => rfl
  | minus => rfl

theorem splitPoint_digits : splitPoint n.digits = (n.digits, [], []) := by
  have h1 : n.digits.takeWhile Char.isDigit = n.digits := List.takeWhile_eq_self_iff.2 n.allDigits
  have h2 : n.digits.dropWhile Char.isDigit = [] := List.dropWhile_eq_nil_iff.2 n.allDigits
  simp only [splitPoint, h1, h2]

/-- The text of an integer is read as its value. -/
theorem parse_text : parse n.text = some (n.value : ℚ) := by
  simp only [parse, n.splitSign_text, n.splitPoint_digits, n.nonempty, false_and, if_false, parseExponent,
    Option.map_some, List.append_nil, List.length_nil, value]
  cases n.sign <;> simp

/-- The characters of the text of an integer. -/
theorem text_char {c : Char} (h : c ∈ n.text) : c.isDigit = true ∨ c = '+' ∨ c = '-' := by
  rcases List.mem_append.1 h with h | h
  · cases hs : n.sign <;> simp [hs, Sign.text] at h
    exacts [.inr (.inl h), .inr (.inr h)]
  · exact .inl (n.allDigits c h)

theorem text_ne_nil : n.text ≠ [] := by simp [text, n.nonempty]

end Numeral

end Decimal
