/-
The endpoints of `clusterize`. A coordinate is the quotient of an `int` sum and a `size_t` count,
taken as unsigned words and cut back to `int`. It is the average of the group, rounded to an
adjacent integer, when the sum is not negative; a negative sum is `Harmless` only for few sizes
(`endpoints_average_iff`).
-/
import DetailIdentifier.Interpreter.Clusters

namespace DetailIdentifier.Interpreter

open Svg

/-! ## Averages -/

/-- `r` is `sum / size`, rounded to an adjacent integer. -/
def IsAverage (sum : ℤ) (size : ℕ) (r : ℤ) : Prop := |size * r - sum| < size

instance (sum : ℤ) (size : ℕ) (r : ℤ) : Decidable (IsAverage sum size r) :=
  inferInstanceAs (Decidable (_ < _))

/-- An average lies between the bounds of its items. -/
theorem IsAverage.between {l : List ℤ} {r lo hi : ℤ} (h : IsAverage l.sum l.length r) (hl : ∀ a ∈ l, lo ≤ a ∧ a ≤ hi) :
    lo ≤ r ∧ r ≤ hi := by
  unfold IsAverage at h
  have hlo := List.card_nsmul_le_sum l lo fun a ha => (hl a ha).1
  have hhi := List.sum_le_card_nsmul l hi fun a ha => (hl a ha).2
  rw [nsmul_eq_mul] at hlo hhi
  obtain ⟨h1, h2⟩ := abs_lt.1 h
  constructor <;> by_contra hlt <;> push Not at hlt
  · nlinarith
  · nlinarith

/-! ## Quotients of words -/

section Words

variable {N n s b m : ℤ}

/-- The quotients by `n` of a word size `W` and of a sum add up, but for a carry. -/
theorem add_ediv_carry (W s : ℤ) (hn : 0 < n) :
    (W + s) / n = W / n + s / n + if W % n + s % n < n then 0 else 1 := by
  have hW := Int.mul_ediv_add_emod W n
  have hs := Int.mul_ediv_add_emod s n
  have h0 := Int.emod_nonneg W hn.ne'
  have h1 := Int.emod_nonneg s hn.ne'
  have h2 := Int.emod_lt_of_pos W hn
  have h3 := Int.emod_lt_of_pos s hn
  split
  · refine ((Int.ediv_emod_unique (r := W % n + s % n) hn).2 ⟨?_, by omega, ‹_›⟩).1
    linear_combination hW + hs
  · refine ((Int.ediv_emod_unique (r := W % n + s % n - n) hn).2 ⟨?_, by omega, by omega⟩).1
    linear_combination hW + hs

theorem quotient_unique {q r q' r' : ℤ} (hr : 0 ≤ r) (hrn : r < n) (hr' : 0 ≤ r') (hrn' : r' < n)
    (h : n * q + r = n * q' + r') : q = q' ∧ r = r' := by
  have hn : 0 < n := by omega
  obtain ⟨h1, h2⟩ := (Int.ediv_emod_unique (q := q) hn).2 ⟨Int.add_comm r (n * q), hr, hrn⟩
  obtain ⟨h3, h4⟩ := (Int.ediv_emod_unique (q := q') hn).2 ⟨Int.add_comm r' (n * q'), hr', hrn'⟩
  rw [h] at h1 h2
  exact ⟨h1.symm.trans h3, h2.symm.trans h4⟩

/-- A quotient of `N * N` that `N` divides belongs to a divisor of `N`. -/
theorem dvd_of_quotient (hN : 0 < N) (hb : 0 ≤ b) (hbn : b < n) (hn : n < N * N) (h : n * (N * m) + b = N * N) :
    n ∣ N := by
  obtain ⟨k, hk⟩ : N ∣ b := ⟨N - n * m, by linear_combination h⟩
  have hnm : n * m + k = N := by
    have : N * (n * m + k) = N * N := by linear_combination h + hk * (-1)
    exact mul_left_cancel₀ hN.ne' this
  have hk0 : 0 ≤ k := by
    by_contra hlt
    push Not at hlt
    nlinarith
  rcases hk0.eq_or_lt with rfl | hk1
  · exact ⟨m, by linarith⟩
  · exfalso
    -- the remainder would be `N` or more, and then `n * m` too large
    have hNn : N < n := by nlinarith
    have hm : 0 < m := by
      by_contra hle
      push Not at hle
      have hNk : N ≤ k := by nlinarith
      nlinarith
    nlinarith

/-- A quotient of `N * N` one below a multiple of `N` belongs to `N + 1`. -/
theorem eq_succ_of_quotient (hN : 3 ≤ N) (hb : 0 ≤ b) (hbn : b < n) (h : n * (N * m - 1) + b = N * N) :
    n = N + 1 ∧ b = 1 := by
  obtain ⟨k, hk⟩ : N ∣ n - b := ⟨n * m - N, by linear_combination -h⟩
  have hnm : n * m = N + k := by
    have : N * (n * m) = N * (N + k) := by linear_combination h + hk
    exact mul_left_cancel₀ (by omega) this
  have hk1 : 0 < k := by
    by_contra hle
    push Not at hle
    nlinarith
  have hm0 : 0 < m := by
    by_contra hle
    push Not at hle
    nlinarith
  have hm1 : m = 1 := by
    by_contra hne
    have hm2 : 2 ≤ m := by omega
    nlinarith
  subst hm1
  have hk2 : k = 1 := by
    by_contra hne
    have : 2 ≤ k := by omega
    nlinarith
  subst hk2
  constructor <;> linarith

/-- A quotient of `N * N` one above a multiple of `N` is 1, or belongs to `N - 1`. -/
theorem eq_pred_of_quotient (hN : 2 ≤ N) (hb : 0 ≤ b) (hbn : b < n) (h : n * (N * m + 1) + b = N * N) (hm : m ≠ 0)
    (hm' : 0 ≤ N * m + 1) : n = N - 1 ∧ b = 1 := by
  obtain ⟨k, hk⟩ : N ∣ n + b := ⟨N - n * m, by linear_combination h⟩
  have hnm : n * m + k = N := by
    have : N * (n * m + k) = N * N := by linear_combination h - hk
    exact mul_left_cancel₀ (by omega) this
  have hk1 : 0 < k := by
    by_contra hle
    push Not at hle
    nlinarith
  have hm0 : 0 < m := by
    by_contra hle
    have hm1 : m ≤ -1 := by omega
    nlinarith
  have hk2 : k = 1 := by
    by_contra hne
    have : 2 ≤ k := by omega
    nlinarith
  subst hk2
  have hm1 : m = 1 := by
    by_contra hne
    have hm2 : 2 ≤ m := by omega
    nlinarith
  subst hm1
  constructor <;> linarith

/-- When the quotient of `N * N + s` is that of `s` modulo `N`, rounded to an adjacent integer. -/
theorem double_word_iff (hN : 3 ≤ N) (hn : 0 < n) (hn' : n < N * N) (hlo : -N ≤ 2 * s) (hs : s < 0) :
    (N ∣ (N * N + s) / n - s / n ∨ s % n ≠ 0 ∧ N ∣ (N * N + s) / n - (s / n + 1)) ↔
      n ∣ N ∨ N * N + s < n ∨ n = N - 1 ∧ s ≠ -1 ∨ n = N + 1 ∧ s = -1 := by
  have hW := Int.mul_ediv_add_emod (N * N) n
  have hb := Int.emod_nonneg (N * N) hn.ne'
  have hbn := Int.emod_lt_of_pos (N * N) hn
  have hd := Int.mul_ediv_add_emod s n
  have hd0 := Int.emod_nonneg s hn.ne'
  have hdn := Int.emod_lt_of_pos s hn
  have ha : 0 ≤ N * N / n := Int.ediv_nonneg (by nlinarith) hn.le
  rw [add_ediv_carry (N * N) s hn]
  generalize N * N / n = a at *
  generalize N * N % n = b at *
  generalize s / n = c at *
  generalize s % n = d at *
  have hneg : -n ≤ s → c = -1 ∧ d = s + n := fun hns =>
    quotient_unique hd0 hdn (by omega) (by omega) (by linarith)
  constructor
  · split
    · rename_i hcarry
      rintro (⟨m, hm⟩ | ⟨hd1, m, hm⟩)
      · obtain rfl : a = N * m := by linarith
        exact .inl (dvd_of_quotient (by omega) hb hbn hn' hW)
      · obtain rfl : a = N * m + 1 := by linarith
        by_cases hm0 : m = 0
        · -- the size is more than half of the word
          subst hm0
          obtain ⟨-, hd2⟩ := hneg (by nlinarith)
          exact .inr (.inl (by linarith))
        · obtain ⟨rfl, rfl⟩ := eq_pred_of_quotient (by omega) hb hbn hW hm0 ha
          obtain ⟨-, hd2⟩ := hneg (by omega)
          exact .inr (.inr (.inl ⟨rfl, by omega⟩))
    · rename_i hcarry
      rintro (⟨m, hm⟩ | ⟨hd1, m, hm⟩)
      · obtain rfl : a = N * m - 1 := by linarith
        obtain ⟨rfl, rfl⟩ := eq_succ_of_quotient hN hb hbn hW
        obtain ⟨-, hd2⟩ := hneg (by omega)
        exact .inr (.inr (.inr ⟨rfl, by omega⟩))
      · obtain rfl : a = N * m := by linarith
        exact .inl (dvd_of_quotient (by omega) hb hbn hn' hW)
  · rintro (⟨k, hk⟩ | hsmall | ⟨rfl, hs1⟩ | ⟨rfl, rfl⟩)
    · obtain ⟨rfl, rfl⟩ : a = k * N ∧ b = 0 :=
        quotient_unique hb hbn le_rfl hn (by rw [hW]; nth_rewrite 1 [hk]; ring)
      rw [if_pos (by omega)]
      exact .inl ⟨k, by ring⟩
    · obtain ⟨rfl, rfl⟩ : a = 1 ∧ b = N * N - n :=
        quotient_unique hb hbn (by linarith) (by nlinarith) (by linarith)
      obtain ⟨rfl, rfl⟩ := hneg (by nlinarith)
      rw [if_pos (by linarith)]
      exact .inr ⟨by nlinarith, 0, by ring⟩
    · obtain ⟨rfl, rfl⟩ : a = N + 1 ∧ b = 1 :=
        quotient_unique hb hbn (by omega) (by omega) (by linear_combination hW)
      obtain ⟨rfl, rfl⟩ := hneg (by omega)
      rw [if_pos (by omega)]
      exact .inr ⟨by omega, 1, by ring⟩
    · obtain ⟨rfl, rfl⟩ : a = N - 1 ∧ b = 1 :=
        quotient_unique hb hbn (by omega) (by omega) (by linear_combination hW)
      obtain ⟨rfl, rfl⟩ := hneg (by omega)
      rw [if_neg (by omega)]
      exact .inl ⟨1, by ring⟩

/-- The same where the word has as many bits as an `int`. -/
theorem single_word_iff (hN : 3 ≤ N) (hn : 0 < n) (hn' : n < N) (hlo : -N ≤ 2 * s) (hs : s < 0) :
    (N ∣ (N + s) / n - s / n ∨ s % n ≠ 0 ∧ N ∣ (N + s) / n - (s / n + 1)) ↔ n = 1 ∨ N + s < n := by
  have hW := Int.mul_ediv_add_emod N n
  have hb := Int.emod_nonneg N hn.ne'
  have hbn := Int.emod_lt_of_pos N hn
  have hd := Int.mul_ediv_add_emod s n
  have hd0 := Int.emod_nonneg s hn.ne'
  have hdn := Int.emod_lt_of_pos s hn
  have ha : 0 ≤ N / n := Int.ediv_nonneg (by omega) hn.le
  rw [add_ediv_carry N s hn]
  generalize N / n = a at *
  generalize N % n = b at *
  generalize s / n = c at *
  generalize s % n = d at *
  have hneg : -n ≤ s → c = -1 ∧ d = s + n := fun hns =>
    quotient_unique hd0 hdn (by omega) (by omega) (by linarith)
  by_cases hn1 : n = 1
  · subst hn1
    rw [if_pos (by omega)]
    exact iff_of_true (.inl ⟨1, by linarith⟩) (.inl rfl)
  have ha1 : 1 ≤ a := by
    by_contra hlt
    obtain rfl : a = 0 := by omega
    linarith
  have hn2 : 2 ≤ n := by omega
  have ha2 : 2 * a ≤ N := by
    have := mul_le_mul_of_nonneg_right hn2 ha
    linarith
  -- the quotients lie below `N`, so only a quotient of 1 passes
  have hdvd : ∀ x : ℤ, 0 < x → x < N → ¬N ∣ x := fun x h0 hx h => absurd (Int.le_of_dvd h0 h) (by omega)
  constructor
  · split
    · rename_i hcarry
      rintro (h | ⟨hd1, h⟩)
      · exact absurd (by simpa using h) (hdvd a (by omega) (by omega))
      · obtain rfl : a = 1 := by
          by_contra hne
          apply hdvd (a - 1) (by omega) (by omega)
          rwa [show a + c + 0 - (c + 1) = a - 1 by ring] at h
        obtain ⟨-, hd2⟩ := hneg (by omega)
        exact .inr (by linarith)
    · rintro (h | ⟨-, h⟩)
      · refine absurd ?_ (hdvd (a + 1) (by omega) (by omega))
        rwa [show a + c + 1 - c = a + 1 by ring] at h
      · refine absurd ?_ (hdvd a (by omega) (by omega))
        rwa [show a + c + 1 - (c + 1) = a by ring] at h
  · rintro (h | hsmall)
    · exact absurd h hn1
    · obtain ⟨rfl, rfl⟩ : a = 1 ∧ b = N - n := quotient_unique hb hbn (by omega) (by omega) (by linarith)
      obtain ⟨rfl, rfl⟩ := hneg (by omega)
      rw [if_pos (by omega)]
      exact .inr ⟨by omega, 0, by ring⟩

end Words

/-! ## Endpoints -/

/-- The sums and sizes whose average survives the unsigned division by a `size_t` of `w` bits. -/
def Harmless (w : ℕ) (sum : ℤ) (size : ℕ) : Prop :=
  0 ≤ sum ∨ size ∣ 2 ^ (w - 32) ∨ 2 ^ w + sum < size ∨
    w = 64 ∧ (size = 2 ^ 32 - 1 ∧ sum ≠ -1 ∨ size = 2 ^ 32 + 1 ∧ sum = -1)

/-- What `int` reads from a quotient `q` is the average when `q` is it, modulo `2 ^ 32`. -/
theorem isAverage_bmod_iff {sum q : ℤ} {size : ℕ} (hsize : 0 < size) (hlo : -2 ^ 31 ≤ sum) (hneg : sum < 0) :
    IsAverage sum size (q.bmod (2 ^ 32)) ↔
      2 ^ 32 ∣ q - sum / size ∨ sum % size ≠ 0 ∧ 2 ^ 32 ∣ q - (sum / size + 1) := by
  have hn : (0 : ℤ) < size := by exact_mod_cast hsize
  have hd := Int.mul_ediv_add_emod sum size
  have hd0 := Int.emod_nonneg sum hn.ne'
  have hdn := Int.emod_lt_of_pos sum hn
  have hr : (2 ^ 32 : ℤ) ∣ q - q.bmod (2 ^ 32) := Int.dvd_self_sub_bmod
  have hr1 : -2 ^ 31 ≤ q.bmod (2 ^ 32) := Int.le_bmod (m := 2 ^ 32) (by norm_num)
  have hr2 : q.bmod (2 ^ 32) < 2 ^ 31 := Int.bmod_lt (m := 2 ^ 32) (by norm_num)
  have hc0 : sum / size < 0 := Int.ediv_neg_of_neg_of_pos hneg hn
  have hc1 : -2 ^ 31 ≤ sum / size := by
    rw [Int.le_ediv_iff_mul_le hn]
    nlinarith
  unfold IsAverage
  generalize q.bmod (2 ^ 32) = r at *
  generalize sum / size = c at *
  generalize sum % size = d at *
  -- two `int`s that agree modulo `2 ^ 32` are equal
  have heq : ∀ x : ℤ, -2 ^ 31 ≤ x → x ≤ 0 → (2 ^ 32 ∣ q - x ↔ r = x) := by
    intro x hx1 hx2
    constructor
    · intro h
      have hdvd := dvd_sub h hr
      omega
    · rintro rfl
      exact hr
  rw [heq c hc1 hc0.le, heq (c + 1) (by omega) (by omega), abs_lt]
  constructor
  · rintro ⟨h1, h2⟩
    have hlt : r < c + 2 := by nlinarith
    have hgt : c - 1 < r := by nlinarith
    rcases (show r = c ∨ r = c + 1 by omega) with rfl | rfl
    · exact .inl rfl
    · exact .inr ⟨by rintro rfl; nlinarith, rfl⟩
  · rintro (rfl | ⟨hd1, rfl⟩)
    · constructor <;> nlinarith
    · have : 0 < d := by omega
      constructor <;> nlinarith

theorem quotient_average_iff {w : ℕ} (hw : w = 32 ∨ w = 64) {sum : ℤ} {size : ℕ} (hsize : 0 < size)
    (hsize' : size < 2 ^ w) (hlo : -2 ^ 31 ≤ sum) (hhi : sum < 2 ^ 31) :
    IsAverage sum size (quotient w sum size) ↔ Harmless w sum size := by
  have hn : (0 : ℤ) < size := by exact_mod_cast hsize
  have hn' : (size : ℤ) < 2 ^ w := by exact_mod_cast hsize'
  unfold quotient
  rcases lt_or_ge sum 0 with hneg | hpos
  · have hmod : sum % 2 ^ w = 2 ^ w + sum := by rcases hw with rfl | rfl <;> omega
    rw [hmod, isAverage_bmod_iff hsize hlo hneg]
    unfold Harmless
    rcases hw with rfl | rfl
    · rw [single_word_iff (by norm_num) hn hn' (by omega) hneg]
      simp only [Nat.sub_self, pow_zero, Nat.dvd_one]
      omega
    · have hsplit : (2 : ℤ) ^ 64 = 2 ^ 32 * 2 ^ 32 := by norm_num
      have hdvd : (size : ℤ) ∣ 2 ^ 32 ↔ size ∣ 2 ^ (64 - 32) := by exact_mod_cast Iff.rfl
      rw [hsplit] at hn' ⊢
      rw [double_word_iff (by norm_num) hn hn' (by omega) hneg, hdvd]
      omega
  · have hmod : sum % 2 ^ w = sum := by rcases hw with rfl | rfl <;> omega
    have hle : sum / size ≤ sum := Int.ediv_le_self _ hpos
    have h0 : 0 ≤ sum / size := Int.ediv_nonneg hpos hn.le
    have hd := Int.mul_ediv_add_emod sum size
    have hd0 := Int.emod_nonneg sum hn.ne'
    have hdn := Int.emod_lt_of_pos sum hn
    rw [hmod, Int.bmod_eq_of_le (by norm_num; omega) (by norm_num; omega)]
    refine iff_of_true ?_ (.inl hpos)
    unfold IsAverage
    rw [abs_lt]
    constructor <;> linarith

/-- The sum of a coordinate over a group. -/
def coordinateSum (clusters : List Location) (group : List ℕ) (coord : Location → ℤ) : ℤ :=
  ((members clusters group).map coord).sum

/-- A coordinate of an endpoint is the average over its group, and lies within the group. -/
def TrueAverage (clusters : List Location) (group : List ℕ) (coord : Location → ℤ) (e : Location) : Prop :=
  IsAverage (coordinateSum clusters group coord) group.length (coord e) ∧
    ∀ lo hi, (∀ c ∈ members clusters group, lo ≤ coord c ∧ coord c ≤ hi) → lo ≤ coord e ∧ coord e ≤ hi

/-- Every coordinate whose sum is an `int` is a true average exactly where the division is harmless. -/
def AveragesIff (w : ℕ) (clusters : List Location) (group : List ℕ) (e : Location) : Prop :=
  ∀ coord, coord = Location.x ∨ coord = Location.y →
    -2 ^ 31 ≤ coordinateSum clusters group coord → coordinateSum clusters group coord < 2 ^ 31 →
    (TrueAverage clusters group coord e ↔ Harmless w (coordinateSum clusters group coord) group.length)

theorem average_averagesIff {w : ℕ} (hw : w = 32 ∨ w = 64) {clusters : List Location} {group : List ℕ} {e : Location}
    (hvalid : ∀ j ∈ group, j < clusters.length) (hsize : 0 < group.length) (hsize' : group.length < 2 ^ w)
    (he : average w clusters group = .ok e) : AveragesIff w clusters group e := by
  rw [average_eq w hvalid, Except.ok.injEq] at he
  intro coord hcoord hlo hhi
  have hquotient : coord e = quotient w (coordinateSum clusters group coord) group.length := by
    subst he
    rcases hcoord with rfl | rfl <;> rfl
  rw [← quotient_average_iff hw hsize hsize' hlo hhi, ← hquotient]
  refine ⟨fun h => h.1, fun h => ⟨h, fun lo hi hbounds => ?_⟩⟩
  have hlen : ((members clusters group).map coord).length = group.length := by simp [members]
  rw [← hlen] at h
  exact h.between (List.forall_mem_map.2 hbounds)

/-- The endpoints of `clusterize` are those of the groups averaged, and each coordinate is a true
average exactly where the sum is not negative or the unsigned division does no harm. -/
theorem endpoints_average_iff (w : ℕ) (hw : w = 32 ∨ w = 64) (clusters : List Location)
    (hsize : clusters.length < 2 ^ w) :
    ∃ s out, emitGroups w clusters = .ok s ∧ clusterize w clusters = .ok out ∧ out.Perm s.endpoints ∧
      List.Forall₂ (AveragesIff w clusters) s.groups s.endpoints := by
  obtain ⟨s, hrun, hs, -⟩ := emitGroups_spec w clusters
  refine ⟨s, _, hrun, by rw [clusterize, hrun]; rfl, List.mergeSort_perm .., ?_⟩
  refine ((List.forall₂_and_left _ _).2 ⟨hs.grouped, hs.averaged⟩).imp fun g e ⟨⟨k, c, hc, hg⟩, he⟩ => ?_
  subst hg
  have hlt := closeGroup_lt hc
  have hsub : closeGroup clusters k c ⊆ List.range clusters.length := fun j hj => List.mem_range.2 (hlt j hj)
  have hle := (List.subperm_of_subset (nodup_closeGroup clusters k c) hsub).length_le
  rw [List.length_range] at hle
  exact average_averagesIff hw hlt (by simp [closeGroup]) (by omega) he

theorem endpoints_average_iff_pair :
    ∃ s out, emitGroups 64 [⟨-3, 5⟩, ⟨-4, 6⟩] = .ok s ∧ clusterize 64 [⟨-3, 5⟩, ⟨-4, 6⟩] = .ok out ∧
      out.Perm s.endpoints ∧ List.Forall₂ (AveragesIff 64 [⟨-3, 5⟩, ⟨-4, 6⟩]) s.groups s.endpoints :=
  endpoints_average_iff 64 (.inr rfl) [⟨-3, 5⟩, ⟨-4, 6⟩] (by norm_num)

/-- Three clusters left of the origin or on it, with the sum -1: the endpoint is far to the right,
whatever the width of `size_t`. -/
theorem negative_sum_wraps :
    (∃ s, emitGroups 32 [⟨-1, 0⟩, ⟨0, 0⟩, ⟨0, 0⟩] = .ok s ∧ s.groups = [[0, 1, 2]] ∧
      s.endpoints = [⟨1431655765, 0⟩]) ∧
    (∃ s, emitGroups 64 [⟨-1, 0⟩, ⟨0, 0⟩, ⟨0, 0⟩] = .ok s ∧ s.groups = [[0, 1, 2]] ∧
      s.endpoints = [⟨1431655765, 0⟩]) ∧
    ¬TrueAverage [⟨-1, 0⟩, ⟨0, 0⟩, ⟨0, 0⟩] [0, 1, 2] Location.x ⟨1431655765, 0⟩ := by
  refine ⟨⟨⟨[true, true, true], [[0, 1, 2]], [⟨1431655765, 0⟩]⟩, ?_, rfl, rfl⟩,
    ⟨⟨[true, true, true], [[0, 1, 2]], [⟨1431655765, 0⟩]⟩, ?_, rfl, rfl⟩, fun h => absurd h.1 (by decide)⟩
  · rw [emitGroups, findCloseClusters_eq]
    decide
  · rw [emitGroups, findCloseClusters_eq]
    decide

end DetailIdentifier.Interpreter
