/-
Splitting a text into tokens at separator characters: dropped separators disappear, kept ones are
tokens of their own, and empty tokens are left out. Words with separators before each are read as
the tokens they make up (`tokenize_join`). `trim` takes characters off both ends.
-/
import Mathlib

namespace Tokenizer

variable {α : Type*}

/-- A token that ends here, unless it is empty. -/
def flush (cur : List α) : List (List α) := if cur = [] then [] else [cur]

/-- The tokens of a text, `cur` being the part of a token read so far. -/
def tokenize (dropped kept : α → Bool) (cur : List α) : List α → List (List α)
  | [] => flush cur
  | c :: s =>
    if kept c then flush cur ++ [c] :: tokenize dropped kept [] s
    else if dropped c then flush cur ++ tokenize dropped kept [] s
    else tokenize dropped kept (cur ++ [c]) s

/-- The text without the characters of `p` at its ends. -/
def trim (p : α → Bool) (s : List α) : List α := (s.dropWhile p).rdropWhile p

@[simp] theorem flush_nil : flush ([] : List α) = [] := rfl

theorem flush_of_ne_nil {cur : List α} (h : cur ≠ []) : flush cur = [cur] := if_neg h

section Tokens

variable {dropped kept : α → Bool} {c : α} {w : List α}

theorem tokenize_kept (h : kept c = true) (cur s : List α) :
    tokenize dropped kept cur (c :: s) = flush cur ++ [c] :: tokenize dropped kept [] s := by
  simp [tokenize, h]

theorem tokenize_dropped (hk : kept c = false) (hd : dropped c = true) (cur s : List α) :
    tokenize dropped kept cur (c :: s) = flush cur ++ tokenize dropped kept [] s := by
  simp [tokenize, hk, hd]

/-- Characters that are no separators extend the token. -/
theorem tokenize_word (s : List α) : ∀ (w cur : List α), (∀ c ∈ w, kept c = false ∧ dropped c = false) →
    tokenize dropped kept cur (w ++ s) = tokenize dropped kept (cur ++ w) s
  | [], cur, _ => by simp
  | c :: w, cur, h => by
    obtain ⟨hk, hd⟩ := h c (List.mem_cons_self ..)
    have ih := tokenize_word s w (cur ++ [c]) fun x hx => h x (List.mem_cons_of_mem _ hx)
    simpa [tokenize, hk, hd] using ih

/-- A run of dropped separators leaves nothing. -/
theorem tokenize_run (s : List α) : ∀ (w : List α), (∀ c ∈ w, kept c = false ∧ dropped c = true) →
    tokenize dropped kept [] (w ++ s) = tokenize dropped kept [] s
  | [], _ => rfl
  | c :: w, h => by
    obtain ⟨hk, hd⟩ := h c (List.mem_cons_self ..)
    rw [List.cons_append, tokenize_dropped hk hd, flush_nil, List.nil_append]
    exact tokenize_run s w fun x hx => h x (List.mem_cons_of_mem _ hx)

/-- A nonempty run of dropped separators ends the token before it. -/
theorem tokenize_end (cur s : List α) (hw : w ≠ []) (h : ∀ c ∈ w, kept c = false ∧ dropped c = true) :
    tokenize dropped kept cur (w ++ s) = flush cur ++ tokenize dropped kept [] s := by
  cases w with
  | nil => exact absurd rfl hw
  | cons c w =>
    obtain ⟨hk, hd⟩ := h c (List.mem_cons_self ..)
    rw [List.cons_append, tokenize_dropped hk hd,
      tokenize_run s w fun x hx => h x (List.mem_cons_of_mem _ hx)]

/-- The tokens that words make up, each with the separators before it: with none before it, a word
goes on with the token it finds. -/
def join (cur : List α) : List (List α × List α) → List (List α)
  | [] => flush cur
  | i :: items => if i.1 = [] then join (cur ++ i.2) items else flush cur ++ join i.2 items

/-- Words with runs of dropped separators before them are the tokens they make up. -/
theorem tokenize_join {post : List α} (hpost : ∀ c ∈ post, kept c = false ∧ dropped c = true) :
    ∀ (items : List (List α × List α)) (cur : List α),
      (∀ i ∈ items, (∀ c ∈ i.1, kept c = false ∧ dropped c = true) ∧ ∀ c ∈ i.2, kept c = false ∧ dropped c = false) →
      tokenize dropped kept cur (items.flatMap (fun i => i.1 ++ i.2) ++ post) = join cur items
  | [], cur, _ => by
    cases post with
    | nil => rfl
    | cons c post =>
      rw [List.flatMap_nil, List.nil_append, ← List.append_nil (c :: post),
        tokenize_end cur [] (List.cons_ne_nil _ _) hpost, tokenize, flush_nil, List.append_nil, join]
  | i :: items, cur, h => by
    obtain ⟨hgap, hword⟩ := h i (List.mem_cons_self ..)
    have ih := fun cur => tokenize_join hpost items cur fun j hj => h j (List.mem_cons_of_mem _ hj)
    rw [List.flatMap_cons, List.append_assoc, List.append_assoc, join]
    split
    · rename_i hnil
      rw [hnil, List.nil_append, tokenize_word _ i.2 cur hword, ih]
    · rename_i hne
      rw [tokenize_end cur _ hne hgap, tokenize_word _ i.2 [] hword, List.nil_append, ih]

theorem join_of_ne_nil : ∀ (items : List (List α × List α)) (cur : List α), (∀ i ∈ items, i.1 ≠ [] ∧ i.2 ≠ []) →
    join cur items = flush cur ++ items.map (·.2)
  | [], _, _ => (List.append_nil _).symm
  | i :: items, cur, h => by
    obtain ⟨hne, hw⟩ := h i (List.mem_cons_self ..)
    rw [join, if_neg hne, join_of_ne_nil items i.2 fun j hj => h j (List.mem_cons_of_mem _ hj), flush_of_ne_nil hw]
    rfl

/-- The token that a text begins with is read to its end. -/
theorem exists_prefix_mem_join : ∀ (items : List (List α × List α)) {cur : List α}, cur ≠ [] →
    ∃ v, cur ++ v ∈ join cur items
  | [], cur, h => ⟨[], by rw [join, flush_of_ne_nil h, List.append_nil]; exact List.mem_singleton_self _⟩
  | i :: items, cur, h => by
    rw [join]
    split
    · obtain ⟨v, hv⟩ := exists_prefix_mem_join items (List.append_ne_nil_of_left_ne_nil h i.2)
      exact ⟨i.2 ++ v, by rwa [← List.append_assoc]⟩
    · exact ⟨[], by rw [flush_of_ne_nil h, List.append_nil]; exact List.mem_cons_self ..⟩

/-- A word without separators before it stands inside a token. -/
theorem exists_glued_mem_join : ∀ {items : List (List α × List α)} {cur : List α}, cur ≠ [] → (∀ i ∈ items, i.2 ≠ []) →
    ∀ i ∈ items, i.1 = [] → ∃ t ∈ join cur items, ∀ c, i.2.head? = some c → c ∈ t.tail
  | j :: items, cur, hcur, hwords, i, hi, hglued => by
    obtain ⟨hj, hwords⟩ := List.forall_mem_cons.1 hwords
    rw [join]
    rcases List.mem_cons.1 hi with rfl | hi
    · rw [if_pos hglued]
      obtain ⟨v, hv⟩ := exists_prefix_mem_join items (List.append_ne_nil_of_left_ne_nil hcur i.2)
      refine ⟨_, hv, fun c hc => ?_⟩
      rw [List.append_assoc, List.tail_append_of_ne_nil hcur]
      exact List.mem_append_right _ (List.mem_append_left _ (List.mem_of_mem_head? hc))
    · split
      · exact exists_glued_mem_join (List.append_ne_nil_of_left_ne_nil hcur _) hwords i hi hglued
      · obtain ⟨t, ht, hc⟩ := exists_glued_mem_join hj hwords i hi hglued
        exact ⟨t, List.mem_append_right _ ht, hc⟩

/-- Tokens have the characters of the words they are made of. -/
theorem mem_of_mem_join {c : α} : ∀ {items : List (List α × List α)} {cur t : List α}, t ∈ join cur items → c ∈ t →
    c ∈ cur ∨ ∃ i ∈ items, c ∈ i.2
  | [], cur, t, ht, hc => by
    rw [join, flush] at ht
    split at ht
    · cases ht
    · exact .inl (List.mem_singleton.1 ht ▸ hc)
  | i :: items, cur, t, ht, hc => by
    rw [join] at ht
    split at ht
    · rcases mem_of_mem_join ht hc with h | ⟨j, hj, h⟩
      · exact (List.mem_append.1 h).imp_right fun h => ⟨i, List.mem_cons_self .., h⟩
      · exact .inr ⟨j, List.mem_cons_of_mem _ hj, h⟩
    · rcases List.mem_append.1 ht with ht | ht
      · rw [flush] at ht
        split at ht
        · cases ht
        · exact .inl (List.mem_singleton.1 ht ▸ hc)
      · rcases mem_of_mem_join ht hc with h | ⟨j, hj, h⟩
        exacts [.inr ⟨i, List.mem_cons_self .., h⟩, .inr ⟨j, List.mem_cons_of_mem _ hj, h⟩]

/-- Only a text of dropped separators has no tokens. -/
theorem tokenize_eq_nil_iff (hkept : ∀ c, kept c = false) : ∀ (s cur : List α),
    tokenize dropped kept cur s = [] ↔ cur = [] ∧ ∀ c ∈ s, dropped c = true
  | [], cur => by simp [tokenize, flush]
  | c :: s, cur => by
    unfold tokenize
    rw [hkept c, if_neg Bool.false_ne_true, List.forall_mem_cons]
    split
    · rename_i hc
      rw [List.append_eq_nil_iff, tokenize_eq_nil_iff hkept s []]
      simp [flush, hc]
    · rename_i hc
      rw [tokenize_eq_nil_iff hkept s (cur ++ [c])]
      simp [hc]

end Tokens

section Trim

variable {p : α → Bool}

theorem trim_eq_nil {s : List α} (h : ∀ c ∈ s, p c = true) : trim p s = [] := by
  rw [trim, List.dropWhile_eq_nil_iff.2 h, List.rdropWhile_nil]

theorem trim_singleton {c : α} (h : p c = false) : trim p [c] = [c] := by
  simp [trim, List.rdropWhile_singleton, h]

/-- A trimmed text starts with its first character that is not taken off. -/
theorem trim_append_cons {pre : List α} {c : α} (hpre : ∀ x ∈ pre, p x = true) (hc : p c = false) (w : List α) :
    ∃ t, trim p (pre ++ c :: w) = c :: t := by
  rw [trim, List.dropWhile_append_of_pos hpre, List.dropWhile_cons_of_neg (by simp [hc])]
  rcases List.prefix_cons_iff.1 (List.rdropWhile_prefix p (c :: w)) with h | ⟨t, h, -⟩
  · have := List.rdropWhile_eq_nil_iff.1 h c (List.mem_cons_self ..)
    rw [hc] at this; cases this
  · exact ⟨t, h⟩

end Trim

end Tokenizer
