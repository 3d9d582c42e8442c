/-
Cyclic lists. Two lists are the same cycle when one is a rotation of the other or of its reverse;
two collections are the same cycles when their members are, up to order. An entry of a cycle
without repetitions has two neighbours, read off by cutting the cycle at it
(`adjacent_of_append_cons`), and both are those of every list that is the same cycle.
-/
import DetailIdentifier.Lib.Lists

namespace List

variable {α : Type*}

/-! ## Neighbours -/

/-- The cyclic order of a list: `b` comes right after `a`. -/
def Follows (c : List α) (a b : α) : Prop := (a, b) ∈ c.zip (c.rotate 1)

instance [DecidableEq α] (c : List α) (a b : α) : Decidable (Follows c a b) :=
  inferInstanceAs (Decidable ((a, b) ∈ c.zip (c.rotate 1)))

/-- Neighbours in the cyclic order of a list, in either direction. -/
def Adjacent (c : List α) (a b : α) : Prop := Follows c a b ∨ Follows c b a

instance [DecidableEq α] (c : List α) (a b : α) : Decidable (Adjacent c a b) :=
  inferInstanceAs (Decidable (Follows c a b ∨ Follows c b a))

theorem Adjacent.symm {c : List α} {a b : α} (h : Adjacent c a b) : Adjacent c b a := Or.symm h

theorem Adjacent.mem {c : List α} {a b : α} (h : Adjacent c a b) : a ∈ c ∧ b ∈ c := by
  rcases h with h | h
  · exact ⟨(of_mem_zip h).1, mem_rotate.1 (of_mem_zip h).2⟩
  · exact ⟨mem_rotate.1 (of_mem_zip h).2, (of_mem_zip h).1⟩

theorem follows_cons {x : α} {w : List α} {a b : α} : Follows (x :: w) a b ↔ (a, b) ∈ zip (x :: w) (w ++ [x]) := by
  unfold Follows
  rw [rotate_cons_succ, rotate_zero]

theorem follows_iff_of_isRotated {c d : List α} (h : c ~r d) {a b : α} : Follows c a b ↔ Follows d a b := by
  obtain ⟨n, rfl⟩ := h
  have hzip : (c.rotate n).zip ((c.rotate n).rotate 1) = (c.zip (c.rotate 1)).rotate n := by
    rw [zip_eq_zipWith, zip_eq_zipWith, zipWith_rotate_distrib _ _ _ _ (length_rotate ..).symm, rotate_rotate, rotate_rotate,
      Nat.add_comm]
  unfold Follows
  rw [hzip, mem_rotate]

/-- Read backwards, the successor is the predecessor. -/
theorem follows_reverse {c : List α} {a b : α} : Follows c.reverse a b ↔ Follows c b a := by
  cases c with
  | nil => simp [Follows]
  | cons x w =>
    have hrev : zip (x :: w.reverse) (w.reverse ++ [x]) = ((zip (x :: w) (w ++ [x])).map Prod.swap).reverse := by
      rw [zip_swap, zip_eq_zipWith, zip_eq_zipWith, reverse_zipWith (by simp), reverse_concat, reverse_cons]
    have hrot : (x :: w).reverse ~r (x :: w.reverse) := by
      rw [reverse_cons]
      exact isRotated_concat x w.reverse
    rw [follows_iff_of_isRotated hrot, follows_cons, follows_cons, hrev, mem_reverse, mem_map]
    constructor
    · rintro ⟨⟨p, q⟩, hp, heq⟩
      cases heq
      exact hp
    · exact fun h => ⟨_, h, rfl⟩

theorem follows_cons_self {x : α} {w : List α} (hx : x ∉ w) (hw : w ≠ []) {y : α} :
    Follows (x :: w) x y ↔ w.head? = some y := by
  obtain ⟨z, t, rfl⟩ := exists_cons_of_ne_nil hw
  rw [follows_cons, cons_append, zip_cons_cons, mem_cons, Prod.mk.injEq, head?_cons, Option.some.injEq]
  constructor
  · rintro (⟨-, rfl⟩ | h)
    · rfl
    · exact absurd (of_mem_zip h).1 hx
  · rintro rfl
    exact .inl ⟨rfl, rfl⟩

/-- The neighbours of an entry: the ends of the rest, once the cycle is cut there. -/
theorem adjacent_of_append_cons {u v : List α} {x y : α} (h : (u ++ x :: v).Nodup) (hne : v ++ u ≠ []) :
    Adjacent (u ++ x :: v) x y ↔ (v ++ u).head? = some y ∨ (v ++ u).getLast? = some y := by
  have hrot : (u ++ x :: v) ~r (x :: (v ++ u)) := isRotated_append
  have hrev : (u ++ x :: v).reverse ~r (x :: (v ++ u).reverse) := by
    apply hrot.reverse.trans
    rw [reverse_cons]
    exact isRotated_concat x _
  have hx : x ∉ v ++ u := (nodup_cons.1 (hrot.nodup_iff.1 h)).1
  unfold Adjacent
  rw [follows_iff_of_isRotated hrot, follows_cons_self hx hne, ← follows_reverse, follows_iff_of_isRotated hrev,
    follows_cons_self (by rwa [mem_reverse]) (by rwa [ne_eq, reverse_eq_nil_iff]), head?_reverse]

/-! ## The same cycle -/

/-- The same cycle, run through from any entry in either direction. -/
def SameCycle (c d : List α) : Prop := c ~r d ∨ c ~r d.reverse

theorem SameCycle.refl (c : List α) : SameCycle c c := .inl (.refl c)

theorem SameCycle.trans {c d e : List α} (h : SameCycle c d) (h' : SameCycle d e) : SameCycle c e := by
  rcases h with h | h <;> rcases h' with h' | h'
  · exact .inl (h.trans h')
  · exact .inr (h.trans h')
  · exact .inr (h.trans h'.reverse)
  · refine .inl (h.trans ?_)
    rw [← reverse_reverse e]
    exact h'.reverse

theorem SameCycle.perm {c d : List α} (h : SameCycle c d) : c ~ d := by
  rcases h with h | h
  · exact h.perm
  · exact h.perm.trans (reverse_perm d)

theorem SameCycle.adjacent_iff {c d : List α} (h : SameCycle c d) {a b : α} : Adjacent c a b ↔ Adjacent d a b := by
  unfold Adjacent
  rcases h with h | h
  · rw [follows_iff_of_isRotated h, follows_iff_of_isRotated h]
  · rw [follows_iff_of_isRotated h, follows_iff_of_isRotated h, follows_reverse, follows_reverse]
    exact or_comm

/-- A cycle can be entered at each of its entries. -/
theorem exists_sameCycle_cons {c : List α} {x : α} (h : x ∈ c) : ∃ w, SameCycle (x :: w) c := by
  obtain ⟨u, v, rfl⟩ := append_of_mem h
  exact ⟨v ++ u, .inl (@isRotated_append _ u (x :: v)).symm⟩

/-- A cycle can be run through the other way from an entry. -/
theorem sameCycle_cons_reverse (x : α) (w : List α) : SameCycle (x :: w.reverse) (x :: w) := by
  refine .inr ?_
  rw [reverse_cons]
  exact (isRotated_concat x _).symm

/-! ## The same cycles -/

/-- The same cycles, in any order. -/
def SameCycles (cs ds : List (List α)) : Prop := ∃ es, es ~ ds ∧ Forall₂ SameCycle cs es

theorem SameCycles.refl (cs : List (List α)) : SameCycles cs cs :=
  ⟨cs, .refl cs, forall₂_same.2 fun c _ => .refl c⟩

theorem SameCycles.perm_left {bs cs ds : List (List α)} (hp : bs ~ cs) (h : SameCycles cs ds) : SameCycles bs ds := by
  obtain ⟨es, hes, hall⟩ := h
  obtain ⟨fs, hbs, hfs⟩ := perm_comp_forall₂ hp hall
  exact ⟨fs, hfs.trans hes, hbs⟩

theorem SameCycles.append {bs bs' cs cs' : List (List α)} (h : SameCycles bs cs) (h' : SameCycles bs' cs') :
    SameCycles (bs ++ bs') (cs ++ cs') := by
  obtain ⟨es, hes, hall⟩ := h
  obtain ⟨es', hes', hall'⟩ := h'
  exact ⟨es ++ es', hes.append hes', rel_append hall hall'⟩

/-- One of the cycles is entered elsewhere or run through the other way. -/
theorem SameCycles.replace {cs cs' ds : List (List α)} {c c' : List α} (hc : SameCycle c' c)
    (h : SameCycles (cs ++ c :: cs') ds) : SameCycles (cs ++ c' :: cs') ds := by
  have hfront : SameCycles (c :: (cs ++ cs')) ds := h.perm_left perm_middle.symm
  obtain ⟨es, hes, hall⟩ := hfront
  cases hall with
  | cons hd htl => exact SameCycles.perm_left perm_middle ⟨_, hes, .cons (hc.trans hd) htl⟩

theorem SameCycles.exists_mem {cs ds : List (List α)} (h : SameCycles cs ds) {c : List α} (hc : c ∈ cs) :
    ∃ d ∈ ds, SameCycle c d := by
  obtain ⟨es, hes, hall⟩ := h
  obtain ⟨d, hd, hcd⟩ := hall.exists_right hc
  exact ⟨d, hes.mem_iff.1 hd, hcd⟩

theorem SameCycles.exists_mem_right {cs ds : List (List α)} (h : SameCycles cs ds) {d : List α} (hd : d ∈ ds) :
    ∃ c ∈ cs, SameCycle c d := by
  obtain ⟨es, hes, hall⟩ := h
  exact hall.exists_left (hes.mem_iff.2 hd)

theorem SameCycles.flatten_perm {cs ds : List (List α)} (h : SameCycles cs ds) : cs.flatten ~ ds.flatten := by
  obtain ⟨es, hes, hall⟩ := h
  refine Perm.trans ?_ hes.flatten
  clear hes
  induction hall with
  | nil => exact .refl _
  | cons hc _ ih => exact hc.perm.append ih

/-- Lists with no entry in common are told apart by any entry. -/
theorem eq_of_mem_of_nodup_flatten {cs : List (List α)} (h : cs.flatten.Nodup) {c d : List α} (hc : c ∈ cs) (hd : d ∈ cs)
    {x : α} (hxc : x ∈ c) (hxd : x ∈ d) : c = d := by
  by_contra hne
  have hdisjoint : cs.Pairwise Disjoint := (nodup_flatten.1 h).2
  have : Std.Symm (@Disjoint α) := ⟨fun _ _ h _ hx hy => h hy hx⟩
  exact hdisjoint.forall hc hd hne hxc hxd

end List
