/-
Lists as collections of items: moving one item of a list into another item of it, splitting a
filter by two exclusive tests, picking out one block of a partition, numbered lists, lists that
correspond item by item, the first smallest item, passes that do not fail, sums, and blocks of items
with some left out.
-/
import Mathlib

namespace List

variable {α β : Type*}

/-- Replacing the item at `j` and erasing the one at `i` leaves the new item and the rest, for the
same rest whatever the new item is. -/
theorem exists_perm_set_eraseIdx {l : List α} {i j : ℕ} {a b : α} (hij : i ≠ j) (hi : l[i]? = some a)
    (hj : l[j]? = some b) :
    ∃ rest, l.Perm (a :: b :: rest) ∧ ∀ c, ((l.set j c).eraseIdx i).Perm (c :: rest) := by
  obtain ⟨hil, rfl⟩ := List.getElem?_eq_some_iff.1 hi
  obtain ⟨hjl, rfl⟩ := List.getElem?_eq_some_iff.1 hj
  have hmem : l[i] ∈ l.eraseIdx j := List.mem_eraseIdx_iff_getElem?.2 ⟨i, hij, hi⟩
  obtain ⟨s, t, hst⟩ := List.append_of_mem hmem
  have hrest : (l.eraseIdx j).Perm (l[i] :: (s ++ t)) := by rw [hst]; exact List.perm_middle
  refine ⟨s ++ t, ?_, fun c => ?_⟩
  · exact ((List.getElem_cons_eraseIdx_perm hjl).symm.trans (hrest.cons _)).trans (List.Perm.swap _ _ _)
  · have hlen : i < (l.set j c).length := by simpa using hil
    have h1 := (List.getElem_cons_eraseIdx_perm hlen).trans (List.set_perm_cons_eraseIdx hjl c)
    rw [List.getElem_set_ne hij.symm] at h1
    exact ((h1.trans (hrest.cons c)).trans (List.Perm.swap _ _ _)).cons_inv

/-- Appending the list at `i` to that at `j` before erasing it loses nothing. -/
theorem flatten_set_eraseIdx_perm {l : List (List α)} {i j : ℕ} {a b : List α} (hij : i ≠ j) (hi : l[i]? = some a)
    (hj : l[j]? = some b) : ((l.set j (b ++ a)).eraseIdx i).flatten.Perm l.flatten := by
  obtain ⟨rest, hall, hset⟩ := exists_perm_set_eraseIdx hij hi hj
  refine ((hset (b ++ a)).flatten.trans ?_).trans hall.flatten.symm
  simp only [flatten_cons, ← append_assoc]
  exact perm_append_comm.append_right _

/-- One more item in a member is one more item altogether. -/
theorem flatten_set_concat_perm {l : List (List α)} {j : ℕ} {g : List α} (hj : l[j]? = some g) (a : α) :
    (l.set j (g ++ [a])).flatten.Perm (a :: l.flatten) := by
  obtain ⟨hlt, rfl⟩ := List.getElem?_eq_some_iff.1 hj
  have hsplit : l.flatten = (l.take j).flatten ++ (l[j] ++ (l.drop (j + 1)).flatten) := by
    rw [← flatten_cons, ← flatten_append, ← drop_eq_getElem_cons hlt, take_append_drop]
  rw [set_eq_take_append_cons_drop, if_pos hlt, flatten_append, flatten_cons, hsplit, append_assoc, singleton_append]
  exact (perm_middle.append_left _).trans perm_middle

/-- A filter by two tests that never hold together is the two filters one after the other. -/
theorem filter_or_perm (p q : α → Bool) (l : List α) (h : ∀ a ∈ l, p a = true → q a = false) :
    (l.filter fun a => p a || q a).Perm (l.filter p ++ l.filter q) := by
  induction l with
  | nil => exact .refl _
  | cons a l ih =>
    have ih := ih fun b hb => h b (mem_cons_of_mem _ hb)
    have ha := h a (mem_cons_self ..)
    cases hp : p a <;> cases hq : q a <;> simp only [filter_cons, hp, hq, Bool.or_self, Bool.or_true,
      Bool.or_false, if_true, if_false, Bool.false_eq_true, cons_append] <;> try exact ih.cons a
    · exact ih
    · exact (ih.cons a).trans perm_middle.symm
    · rw [ha hp] at hq; cases hq

/-- In a partition into blocks, a test that holds exactly on one block picks that block. -/
theorem filter_flatMap_eq {f : β → List α} {p : α → Bool} {s t : List β} {b : β} (hb : ∀ x ∈ f b, p x = true)
    (ho : ∀ c ∈ s ++ t, ∀ x ∈ f c, p x = false) : ((s ++ b :: t).flatMap f).filter p = f b := by
  have hnil : ∀ u : List β, u ⊆ s ++ t → (u.flatMap f).filter p = [] := by
    intro u hu
    apply filter_eq_nil_iff.2
    intro x hx
    obtain ⟨c, hc, hx⟩ := mem_flatMap.1 hx
    simp [ho c (hu hc) x hx]
  rw [flatMap_append, flatMap_cons, filter_append, filter_append, hnil s (subset_append_left _ _),
    hnil t (subset_append_right _ _), filter_eq_self.2 hb, nil_append, append_nil]

/-- A list with an element satisfying `p` splits at the last one. -/
theorem exists_last_of_exists {α : Type*} {p : α → Prop} {l : List α} (h : ∃ a ∈ l, p a) :
    ∃ pre a post, l = pre ++ a :: post ∧ p a ∧ ∀ b ∈ post, ¬p b := by
  induction l with
  | nil => obtain ⟨a, ha, -⟩ := h; cases ha
  | cons b l ih =>
    by_cases hl : ∃ a ∈ l, p a
    · obtain ⟨pre, a, post, rfl, ha⟩ := ih hl
      exact ⟨b :: pre, a, post, rfl, ha⟩
    · push Not at hl
      obtain ⟨a, ha, hp⟩ := h
      rcases List.mem_cons.1 ha with rfl | ha
      · exact ⟨[], a, l, rfl, hp, hl⟩
      · exact absurd hp (hl a ha)

/-- Lists of distinct items are of one form: a map that keeps items distinct takes one to the other. -/
theorem exists_injective_map {α : Type*} {l m : List α} (hl : l.Nodup) (hm : m.Nodup) (hlen : l.length = m.length) :
    ∃ f : α → α, Function.Injective f ∧ l.map f = m := by
  obtain ⟨σ, hσ⟩ := Equiv.Perm.exists_extending_pair (fun i : Fin l.length => l[i]) (fun i => m[i.cast hlen])
    (List.nodup_iff_injective_getElem.1 hl) fun _ _ h => Fin.cast_injective hlen (List.nodup_iff_injective_getElem.1 hm h)
  refine ⟨σ, σ.injective, List.ext_getElem (by simp [hlen]) fun i h _ => ?_⟩
  rw [List.getElem_map]
  exact hσ ⟨i, by simpa using h⟩

/-- What is left of a numbered list after its first `n` items. -/
theorem mem_drop_zipIdx {l : List α} {n k : ℕ} {a : α} : (a, k) ∈ l.zipIdx.drop n ↔ n ≤ k ∧ l[k]? = some a := by
  rw [List.mem_iff_getElem?]
  simp only [List.getElem?_drop, List.getElem?_zipIdx, Option.map_eq_some_iff, Prod.mk.injEq, Nat.zero_add]
  constructor
  · rintro ⟨i, b, hb, rfl, rfl⟩
    exact ⟨by omega, hb⟩
  · rintro ⟨hnk, ha⟩
    exact ⟨k - n, a, by rwa [Nat.add_sub_cancel' hnk], rfl, by omega⟩

theorem nodup_map_snd_zipIdx (l : List α) : (l.zipIdx.map Prod.snd).Nodup := by
  rw [zipIdx_map_snd]
  exact nodup_range'

section Forall₂

variable {R : α → β → Prop} {l : List α} {m : List β}

theorem Forall₂.set {a : α} {b : β} (h : Forall₂ R l m) (hab : R a b) (i : ℕ) :
    Forall₂ R (l.set i a) (m.set i b) := by
  induction h generalizing i with
  | nil => exact .nil
  | cons hx hxs ih =>
    cases i with
    | zero => exact .cons hab hxs
    | succ i => exact .cons hx (ih i)

theorem Forall₂.eraseIdx (h : Forall₂ R l m) (i : ℕ) : Forall₂ R (l.eraseIdx i) (m.eraseIdx i) := by
  induction h generalizing i with
  | nil => exact .nil
  | cons hx hxs ih =>
    cases i with
    | zero => exact hxs
    | succ i => exact .cons hx (ih i)

/-- What stands at a position in one list corresponds to what stands there in the other. -/
theorem Forall₂.getElem?_left (h : Forall₂ R l m) {i : ℕ} {a : α} (ha : l[i]? = some a) :
    ∃ b, m[i]? = some b ∧ R a b := by
  obtain ⟨hi, rfl⟩ := List.getElem?_eq_some_iff.1 ha
  obtain ⟨hlen, hget⟩ := List.forall₂_iff_get.1 h
  exact ⟨_, List.getElem?_eq_getElem (hlen ▸ hi), hget i hi (hlen ▸ hi)⟩

/-- Every item of one list corresponds to an item of the other. -/
theorem Forall₂.exists_right (h : Forall₂ R l m) {a : α} (ha : a ∈ l) : ∃ b ∈ m, R a b := by
  obtain ⟨i, hi⟩ := List.mem_iff_getElem?.1 ha
  obtain ⟨b, hb, hab⟩ := h.getElem?_left hi
  exact ⟨b, List.mem_of_getElem? hb, hab⟩

theorem Forall₂.exists_left (h : Forall₂ R l m) {b : β} (hb : b ∈ m) : ∃ a ∈ l, R a b :=
  h.flip.exists_right hb

theorem Forall₂.getElem?_none (h : Forall₂ R l m) {i : ℕ} (hi : l[i]? = none) : m[i]? = none := by
  rw [List.getElem?_eq_none_iff] at hi ⊢
  rwa [← h.length_eq]

end Forall₂

section MinElement

/-- `std::min_element`: the position of the first smallest element, the end of an empty list. -/
def minElement (lt : α → α → Bool) : List α → ℕ
  | [] => 0
  | a :: l => ((l.zipIdx 1).foldl (fun best x => if lt x.1 best.1 then x else best) (a, 0)).2

/-- `a` stands at `i`, no element is smaller in `f`, and those before it are greater. -/
structure FirstMin {κ : Type*} [LinearOrder κ] (f : α → κ) (l : List α) (i : ℕ) (a : α) : Prop where
  get : l[i]? = some a
  le : ∀ b ∈ l, f a ≤ f b
  lt : ∀ j b, j < i → l[j]? = some b → f a < f b

variable {κ : Type*} [LinearOrder κ] {f : α → κ}

theorem FirstMin.unique {l : List α} {i j : ℕ} {a b : α} (ha : FirstMin f l i a) (hb : FirstMin f l j b) :
    i = j ∧ a = b := by
  have hij : i = j := by
    rcases Nat.lt_trichotomy i j with h | h | h
    · exact absurd (hb.lt i a h ha.get) (not_lt.2 (ha.le b (mem_of_getElem? hb.get)))
    · exact h
    · exact absurd (ha.lt j b h hb.get) (not_lt.2 (hb.le a (mem_of_getElem? ha.get)))
  subst hij
  exact ⟨rfl, Option.some.inj (ha.get.symm.trans hb.get)⟩

/-- Only the order of the elements counts. -/
theorem FirstMin.congr {μ : Type*} [LinearOrder μ] {g : α → μ} {l : List α} (h : ∀ a ∈ l, ∀ b ∈ l, f a < f b ↔ g a < g b)
    {i : ℕ} {a : α} : FirstMin f l i a ↔ FirstMin g l i a := by
  constructor <;> rintro ⟨hget, hle, hlt⟩ <;> have ha := mem_of_getElem? hget
  · refine ⟨hget, fun b hb => not_lt.1 fun hba => ?_, fun j b hj hb => ?_⟩
    · exact not_lt.2 (hle b hb) ((h b hb a ha).2 hba)
    · exact (h a ha b (mem_of_getElem? hb)).1 (hlt j b hj hb)
  · refine ⟨hget, fun b hb => not_lt.1 fun hba => ?_, fun j b hj hb => ?_⟩
    · exact not_lt.2 (hle b hb) ((h b hb a ha).1 hba)
    · exact (h a ha b (mem_of_getElem? hb)).2 (hlt j b hj hb)

/-- One comparison: the element after `l` is the first smallest only if it is smaller. -/
theorem FirstMin.concat {l : List α} {i : ℕ} {a : α} (h : FirstMin f l i a) (b : α) :
    if f b < f a then FirstMin f (l ++ [b]) l.length b else FirstMin f (l ++ [b]) i a := by
  have hi := (getElem?_eq_some_iff.1 h.get).1
  split
  · rename_i hba
    refine ⟨by simp, fun c hc => ?_, fun j c hj hc => ?_⟩
    · rcases mem_append.1 hc with hc | hc
      · exact hba.le.trans (h.le c hc)
      · rw [mem_singleton.1 hc]
    · rw [getElem?_append_left hj] at hc
      exact hba.trans_le (h.le c (mem_of_getElem? hc))
  · rename_i hba
    refine ⟨by rw [getElem?_append_left hi, h.get], fun c hc => ?_, fun j c hj hc => ?_⟩
    · rcases mem_append.1 hc with hc | hc
      · exact h.le c hc
      · rw [mem_singleton.1 hc]
        exact not_lt.1 hba
    · rw [getElem?_append_left (by omega)] at hc
      exact h.lt j c hj hc

variable {lt : α → α → Bool} (hlt : ∀ a b, lt a b = true ↔ f a < f b)

include hlt in
theorem foldl_firstMin : ∀ (l pre : List α) (a : α) (i : ℕ), FirstMin f pre i a →
    FirstMin f (pre ++ l) ((l.zipIdx pre.length).foldl (fun best x => if lt x.1 best.1 then x else best) (a, i)).2
      ((l.zipIdx pre.length).foldl (fun best x => if lt x.1 best.1 then x else best) (a, i)).1
  | [], pre, a, i, h => by simpa using h
  | b :: l, pre, a, i, h => by
    have hb := h.concat b
    rw [zipIdx_cons, foldl_cons, append_cons, show pre.length + 1 = (pre ++ [b]).length by simp]
    by_cases hba : f b < f a
    · rw [if_pos hba] at hb
      rw [if_pos ((hlt b a).2 hba)]
      exact foldl_firstMin l (pre ++ [b]) b pre.length hb
    · rw [if_neg hba] at hb
      rw [if_neg fun h => hba ((hlt b a).1 h)]
      exact foldl_firstMin l (pre ++ [b]) a i hb

include hlt in
/-- The search finds the first smallest element. -/
theorem minElement_spec {l : List α} (hl : l ≠ []) : ∃ a, FirstMin f l (minElement lt l) a := by
  cases l with
  | nil => exact absurd rfl hl
  | cons a l => exact ⟨_, foldl_firstMin hlt l [a] a 0 ⟨rfl, by simp, fun j b hj => absurd hj (Nat.not_lt_zero j)⟩⟩

end MinElement

/-- The first smallest element depends on the order alone. -/
theorem argmin_congr {κ μ : Type*} [LinearOrder κ] [LinearOrder μ] {f : α → κ} {g : α → μ} {l : List α}
    (h : ∀ a ∈ l, ∀ b ∈ l, f a < f b ↔ g a < g b) : l.argmin f = l.argmin g := by
  induction l with
  | nil => rfl
  | cons a l ih =>
    rw [argmin_cons, argmin_cons, ih fun b hb c hc => h b (mem_cons_of_mem _ hb) c (mem_cons_of_mem _ hc)]
    cases hl : l.argmin g with
    | none => rfl
    | some c => simp only [h c (mem_cons_of_mem _ (argmin_mem hl)) a (mem_cons_self ..)]

section Map

variable {f : α → β}

theorem idxOf_map [DecidableEq α] [DecidableEq β] (hf : Function.Injective f) (a : α) :
    ∀ l : List α, (l.map f).idxOf (f a) = l.idxOf a
  | [] => rfl
  | b :: l => by
    rw [map_cons, idxOf_cons, idxOf_cons, idxOf_map hf a l]
    by_cases hab : b = a
    · simp [hab]
    · rw [beq_false_of_ne hab, beq_false_of_ne (hf.ne hab)]

end Map

section Except

variable {ε : Type*} {α β : Type}

theorem mapM_eq_map {f : α → Except ε β} {g : α → β} {l : List α} (h : ∀ a ∈ l, f a = .ok (g a)) :
    l.mapM f = .ok (l.map g) := by
  induction l with
  | nil => rfl
  | cons a l ih =>
    rw [mapM_cons, h a (mem_cons_self ..), ih fun b hb => h b (mem_cons_of_mem _ hb)]
    rfl

theorem allM_eq_all {p : α → Except ε Bool} {q : α → Bool} {l : List α} (h : ∀ a ∈ l, p a = .ok (q a)) :
    l.allM p = .ok (l.all q) := by
  induction l with
  | nil => rfl
  | cons a l ih =>
    rw [allM, h a (mem_cons_self ..), all_cons]
    cases q a with
    | false => rfl
    | true => exact ih fun b hb => h b (mem_cons_of_mem _ hb)

/-- A completed pass has one result for each item. -/
theorem forall₂_of_mapM {f : α → Except ε β} {l : List α} {r : List β} (h : l.mapM f = .ok r) :
    Forall₂ (fun a b => f a = .ok b) l r := by
  induction l generalizing r with
  | nil =>
    cases h
    exact .nil
  | cons a l ih =>
    rw [mapM_cons] at h
    rcases ha : f a with e | b' <;> rw [ha] at h
    · cases h
    rcases hl : l.mapM f with e | bs <;> rw [hl] at h <;> cases h
    exact .cons ha (ih hl)

/-- A pass fails as one of its items does. -/
theorem exists_of_mapM_error {f : α → Except ε β} {l : List α} {e : ε} (h : l.mapM f = .error e) :
    ∃ a ∈ l, f a = .error e := by
  induction l with
  | nil => cases h
  | cons a l ih =>
    rw [mapM_cons] at h
    rcases ha : f a with e' | b <;> rw [ha] at h
    · cases h
      exact ⟨a, mem_cons_self .., ha⟩
    · rcases hl : l.mapM f with e' | bs <;> rw [hl] at h <;> cases h
      obtain ⟨c, hc, hfc⟩ := ih hl
      exact ⟨c, mem_cons_of_mem _ hc, hfc⟩

/-- What a completed pass returns, it returned for some item. -/
theorem exists_of_mem_mapM {f : α → Except ε β} {l : List α} {r : List β}
    (h : l.mapM f = .ok r) {b : β} (hb : b ∈ r) : ∃ a ∈ l, f a = .ok b :=
  (forall₂_of_mapM h).exists_left hb

/-- A pass fails if one of its items does, with the only error there is. -/
theorem mapM_eq_error {f : α → Except ε β} {e : ε} {l : List α} (h : ∃ a ∈ l, f a = .error e)
    (honly : ∀ a ∈ l, ∀ e', f a = .error e' → e' = e) : l.mapM f = .error e := by
  cases hl : l.mapM f with
  | error e' =>
    obtain ⟨a, ha, hfa⟩ := exists_of_mapM_error hl
    rw [honly a ha e' hfa]
  | ok r =>
    obtain ⟨a, ha, hfa⟩ := h
    obtain ⟨b, -, hb⟩ := (forall₂_of_mapM hl).exists_right ha
    rw [hfa] at hb
    cases hb

/-- A fold fails at the first item that fails. -/
theorem foldlM_error_iff {α β : Type} {f : β → α → Except ε β} {l : List α} {b : β} {e : ε} :
    l.foldlM f b = .error e ↔ ∃ pre a post b', l = pre ++ a :: post ∧ pre.foldlM f b = .ok b' ∧ f b' a = .error e := by
  induction l generalizing b with
  | nil =>
    constructor
    · intro h
      cases h
    · rintro ⟨pre, a, post, b', hl, -⟩
      simp at hl
  | cons x l ih =>
    rw [foldlM_cons]
    cases hx : f b x with
    | error e' =>
      constructor
      · intro h
        cases h
        exact ⟨[], x, l, b, rfl, rfl, hx⟩
      · rintro ⟨pre, a, post, b', hl, hpre, ha⟩
        cases pre with
        | nil =>
          obtain ⟨rfl, rfl⟩ := List.cons.inj hl
          cases hpre
          rw [hx] at ha
          exact ha
        | cons y pre =>
          obtain ⟨rfl, rfl⟩ := List.cons.inj hl
          rw [foldlM_cons, hx] at hpre
          cases hpre
    | ok b₁ =>
      refine (ih (b := b₁)).trans ⟨?_, ?_⟩
      · rintro ⟨pre, a, post, b', rfl, hpre, ha⟩
        exact ⟨x :: pre, a, post, b', rfl, by rw [foldlM_cons, hx]; exact hpre, ha⟩
      · rintro ⟨pre, a, post, b', hl, hpre, ha⟩
        cases pre with
        | nil =>
          obtain ⟨rfl, rfl⟩ := List.cons.inj hl
          cases hpre
          rw [hx] at ha
          cases ha
        | cons y pre =>
          obtain ⟨rfl, rfl⟩ := List.cons.inj hl
          rw [foldlM_cons, hx] at hpre
          exact ⟨pre, a, post, b', rfl, hpre, ha⟩

theorem filterAuxM_eq_filter {p : α → Except ε Bool} {q : α → Bool} {l : List α} (h : ∀ a ∈ l, p a = .ok (q a))
    (acc : List α) : l.filterAuxM p acc = .ok ((l.filter q).reverse ++ acc) := by
  induction l generalizing acc with
  | nil => rfl
  | cons a l ih =>
    have ih := ih fun b hb => h b (mem_cons_of_mem _ hb)
    rw [filterAuxM, h a (mem_cons_self ..)]
    cases hq : q a
    · exact (ih acc).trans (by rw [filter_cons, hq]; rfl)
    · apply (ih (a :: acc)).trans
      rw [filter_cons, hq, if_pos rfl, reverse_cons, append_assoc]
      rfl

theorem mem_of_filterAuxM {p : α → Except ε Bool} {l : List α} : ∀ {acc r : List α}, l.filterAuxM p acc = .ok r →
    ∀ a ∈ r, a ∈ l ∨ a ∈ acc := by
  induction l with
  | nil =>
    intro acc r h a ha
    cases h
    exact .inr ha
  | cons b l ih =>
    intro acc r h a ha
    rw [filterAuxM] at h
    rcases hp : p b with e | keep <;> rw [hp] at h
    · cases h
    · rcases ih h a ha with hl | hacc
      · exact .inl (mem_cons_of_mem _ hl)
      · cases keep with
        | false => exact .inr hacc
        | true =>
          rcases mem_cons.1 hacc with rfl | hacc
          exacts [.inl (mem_cons_self ..), .inr hacc]

/-- A filter keeps items of the list. -/
theorem mem_of_filterM {p : α → Except ε Bool} {l r : List α} (h : l.filterM p = .ok r) {a : α} (ha : a ∈ r) : a ∈ l := by
  rcases haux : l.filterAuxM p [] with e | r' <;> rw [filterM, haux] at h <;> cases h
  exact (mem_of_filterAuxM haux a (mem_reverse.1 ha)).resolve_right (not_mem_nil)

theorem filterM_eq_filter {p : α → Except ε Bool} {q : α → Bool} {l : List α} (h : ∀ a ∈ l, p a = .ok (q a)) :
    l.filterM p = .ok (l.filter q) := by
  rw [filterM, filterAuxM_eq_filter h, append_nil]
  exact congrArg Except.ok (reverse_reverse _)

end Except

section Sums

/-- A sum of vectors near `c` is near as many times `c`. -/
theorem norm_sum_sub_le {E : Type*} [SeminormedAddCommGroup E] {c : E} {r : ℝ} {l : List E} (h : ∀ z ∈ l, ‖z - c‖ ≤ r) :
    ‖l.sum - l.length • c‖ ≤ l.length * r := by
  induction l with
  | nil => simp
  | cons z l ih =>
    rw [forall_mem_cons] at h
    rw [sum_cons, length_cons, succ_nsmul']
    calc ‖z + l.sum - (c + l.length • c)‖
      _ = ‖(z - c) + (l.sum - l.length • c)‖ := by rw [add_sub_add_comm]
      _ ≤ r + l.length * r := norm_add_le_of_le h.1 (ih h.2)
      _ = (l.length + 1 : ℕ) * r := by push_cast; ring

end Sums

section Keep

variable {α : Type*}

/-- The items of the blocks that are not left out, by their numbers. -/
def keep (out : ℕ → Bool) : List (List α) → List α
  | [] => []
  | x :: xs => (if out 0 then [] else x) ++ keep (fun i => out (i + 1)) xs

/-- How many of the first `n` blocks are left out. -/
def leftOut (out : ℕ → Bool) (n : ℕ) : ℕ := (range n).countP out

@[simp] theorem leftOut_zero (out : ℕ → Bool) : leftOut out 0 = 0 := rfl

theorem leftOut_succ (out : ℕ → Bool) (n : ℕ) :
    leftOut out (n + 1) = (if out 0 then 1 else 0) + leftOut (fun i => out (i + 1)) n := by
  rw [leftOut, leftOut, range_succ_eq_map, countP_cons, countP_map, Nat.add_comm]
  rfl

theorem flatMap_keep {β : Type*} (f : α → List β) : ∀ (blocks : List (List α)) (out : ℕ → Bool),
    (keep out blocks).flatMap f = keep out (blocks.map fun x => x.flatMap f)
  | [], _ => rfl
  | x :: xs, out => by
    rw [keep, map_cons, keep, flatMap_append, flatMap_keep f xs]
    split <;> rfl

theorem mem_keep {a : α} : ∀ {blocks : List (List α)} {out : ℕ → Bool},
    a ∈ keep out blocks ↔ ∃ i x, blocks[i]? = some x ∧ out i = false ∧ a ∈ x
  | [], out => by simp [keep]
  | x :: xs, out => by
    rw [keep, mem_append, mem_keep]
    constructor
    · rintro (h | ⟨i, y, hy, hout, ha⟩)
      · split at h
        · cases h
        · exact ⟨0, x, rfl, Bool.eq_false_iff.2 ‹_›, h⟩
      · exact ⟨i + 1, y, hy, hout, ha⟩
    · rintro ⟨i, y, hy, hout, ha⟩
      cases i with
      | zero =>
        obtain rfl := Option.some.inj hy
        exact .inl (by rwa [hout, if_neg Bool.false_ne_true])
      | succ i => exact .inr ⟨i, y, hy, hout, ha⟩

theorem getLastD_append (xs ys : List α) (a : α) : (xs ++ ys).getLastD a = ys.getLastD (xs.getLastD a) := by
  simp only [getLastD_eq_getLast?, getLast?_append]
  cases ys.getLast? <;> rfl

/-- If a list goes on as it does behind some copies of `o`, it starts with such copies. -/
theorem eq_replicate_of_append : ∀ (k : ℕ) {o : α} {x ys zs : List α}, replicate (k + 1) o ++ (x ++ ys) = x ++ zs →
    ∀ e ∈ x, e = o
  | k, o, [], ys, zs, _ => fun e he => absurd he not_mem_nil
  | k, o, e :: x, ys, zs, h => by
    obtain ⟨rfl, h⟩ := cons.inj h
    have h' : replicate (k + 1) o ++ (x ++ ys) = x ++ zs := by
      rw [replicate_succ', append_assoc]
      exact h
    exact forall_mem_cons.2 ⟨rfl, eq_replicate_of_append k h'⟩

variable {rep : α → α} (hrep : ∀ a, rep (rep a) = rep a)

include hrep

/-- Two ways to leave blocks out that only repeat the item before them (`rep` of it) keep the same items
exactly when they leave out equally many, and wherever they have not yet done so the blocks only repeat
the item before them. -/
theorem keep_eq_keep_iff : ∀ (blocks : List (List α)) (last : α) (out out' : ℕ → Bool) (a b : ℕ),
    (∀ i x, blocks[i]? = some x → out i = true ∨ out' i = true → x = [rep ((blocks.take i).flatten.getLastD last)]) →
    (replicate a (rep last) ++ keep out blocks = replicate b (rep last) ++ keep out' blocks ↔
      a + leftOut out' blocks.length = b + leftOut out blocks.length ∧
        ∀ i x, blocks[i]? = some x → a + leftOut out' i = b + leftOut out i ∨
          ∀ e ∈ x, e = rep ((blocks.take i).flatten.getLastD last))
  | [], last, out, out', a, b, _ => by
    simp [keep, leftOut]
  | x :: xs, last, out, out', a, b, h => by
    have hlast : ∀ i, ((x :: xs).take (i + 1)).flatten.getLastD last = (xs.take i).flatten.getLastD (x.getLastD last) := by
      intro i
      rw [take_succ_cons, flatten_cons, getLastD_append]
    have ih := keep_eq_keep_iff xs (x.getLastD last) (fun i => out (i + 1)) (fun i => out' (i + 1))
    replace ih := fun a b => ih a b fun i y hy hout => hlast i ▸ h (i + 1) y hy hout
    -- the rest of the statement, from the second block on
    have hforall : ∀ {P : ℕ → List α → Prop}, (∀ i y, (x :: xs)[i]? = some y → P i y) ↔
        P 0 x ∧ ∀ i y, xs[i]? = some y → P (i + 1) y := by
      intro P
      constructor
      · exact fun hall => ⟨hall 0 x rfl, fun i y hy => hall (i + 1) y hy⟩
      · rintro ⟨h0, hs⟩ i y hy
        cases i with
        | zero => exact Option.some.inj hy ▸ h0
        | succ i => exact hs i y hy
    rw [hforall]
    simp only [hlast, leftOut_zero, leftOut_succ, take_zero, flatten_nil, getLastD_nil, length_cons, keep, Nat.add_zero]
    by_cases hx : ∀ e ∈ x, e = rep last
    · -- the block repeats the last item, whether it is left out or not
      have hrx : x = replicate x.length (rep last) := eq_replicate_of_mem hx
      have hrl : rep (x.getLastD last) = rep last := by
        rw [hrx]
        cases x.length with
        | zero => rfl
        | succ n => rw [replicate_succ', getLastD_concat, hrep]
      have hone : out 0 = true ∨ out' 0 = true → x.length = 1 := fun hout => by
        rw [h 0 x rfl hout]
        rfl
      have hkept : ∀ (c : Bool) (n : ℕ) (ys : List α), replicate n (rep last) ++ ((if c = true then [] else x) ++ ys) =
          replicate (n + if c = true then 0 else x.length) (rep last) ++ ys := by
        intro c n ys
        rw [replicate_add, append_assoc]
        split
        · rfl
        · rw [← hrx]
      rw [hkept, hkept, ← hrl, ih, hrl]
      -- leaving out the block counts on the one side what the other keeps
      have hcount : ∀ m n, (a + (if out 0 = true then 0 else x.length) + m = b + (if out' 0 = true then 0 else x.length) + n) ↔
          a + ((if out' 0 = true then 1 else 0) + m) = b + ((if out 0 = true then 1 else 0) + n) := by
        intro m n
        split_ifs with h1 h2 h2
        · omega
        · have := hone (.inl h1)
          omega
        · have := hone (.inr h2)
          omega
        · omega
      simp only [hcount]
      exact and_congr_right fun _ => (and_iff_right (.inr hx)).symm
    · -- the block is kept, and what comes before it must be the same already
      have hout : out 0 = false ∧ out' 0 = false := by
        constructor <;> refine Bool.eq_false_iff.2 fun hout => hx fun e he => ?_
        · rw [h 0 x rfl (.inl hout)] at he
          exact mem_singleton.1 he
        · rw [h 0 x rfl (.inr hout)] at he
          exact mem_singleton.1 he
      rw [hout.1, hout.2, if_neg Bool.false_ne_true]
      simp only [hx, or_false, Nat.zero_add, if_neg Bool.false_ne_true]
      by_cases hab : a = b
      · subst hab
        have ih0 := ih 0 0
        simp only [replicate_zero, nil_append, Nat.zero_add] at ih0
        rw [append_cancel_left_eq, append_cancel_left_eq, ih0]
        simp only [Nat.add_left_cancel_iff, true_and]
      · refine iff_of_false (fun heq => hx ?_) fun hh => hab hh.2.1
        rcases Nat.lt_or_gt_of_ne hab with hlt | hlt
        · obtain ⟨k, rfl⟩ := Nat.exists_eq_add_of_lt hlt
          rw [Nat.add_assoc, replicate_add, append_assoc, append_cancel_left_eq] at heq
          exact eq_replicate_of_append k heq.symm
        · obtain ⟨k, rfl⟩ := Nat.exists_eq_add_of_lt hlt
          rw [Nat.add_assoc, replicate_add, append_assoc, append_cancel_left_eq] at heq
          exact eq_replicate_of_append k heq

end Keep
end List
