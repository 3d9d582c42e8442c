/-
Taking vertices out of a connected set of a graph. A set is connected when no part of it that its
edges do not leave is proper (`induce_preconnected_iff`). A vertex can be taken out when its
neighbours in the set hang together without it (`Bypassed`), and finitely many can, in an order in
which each is bypassed when its turn comes (`connected_diff`).
-/
import Mathlib

namespace SimpleGraph

variable {V : Type*} (G : SimpleGraph V)

/-! ## Connected sets -/

/-- No edge of `T` leaves `U`. -/
def ClosedIn (T U : Set V) : Prop := ∀ a ∈ T, ∀ b ∈ T, G.Adj a b → a ∈ U → b ∈ U

theorem induce_preconnected_iff {T : Set V} : (G.induce T).Preconnected ↔
    ∀ U, G.ClosedIn T U → ∀ a ∈ T, ∀ b ∈ T, a ∈ U → b ∈ U := by
  constructor
  · intro h U hU a ha b hb haU
    obtain ⟨w⟩ := h ⟨a, ha⟩ ⟨b, hb⟩
    have hwalk : ∀ {u v : T}, (G.induce T).Walk u v → u.1 ∈ U → v.1 ∈ U := by
      intro u v w
      induction w with
      | nil => exact id
      | cons hadj _ ih => exact fun hu => ih (hU _ (Subtype.prop _) _ (Subtype.prop _) hadj hu)
    exact hwalk w haU
  · intro h a b
    -- what can be reached from `a` is closed
    have hU : G.ClosedIn T {v | ∃ hv : v ∈ T, (G.induce T).Reachable a ⟨v, hv⟩} := by
      rintro u hu v hv hadj ⟨hu', hr⟩
      have hadj' : (G.induce T).Adj ⟨u, hu⟩ ⟨v, hv⟩ := hadj
      exact ⟨hv, hr.trans hadj'.reachable⟩
    obtain ⟨_, hr⟩ := h _ hU a.1 a.2 b.1 b.2 ⟨a.2, .refl _⟩
    exact hr

theorem induce_connected_iff {T : Set V} : (G.induce T).Connected ↔
    T.Nonempty ∧ ∀ U, G.ClosedIn T U → ∀ a ∈ T, ∀ b ∈ T, a ∈ U → b ∈ U := by
  rw [connected_iff, induce_preconnected_iff, Set.nonempty_coe_sort, and_comm]

/-- A connected component of a set of vertices. -/
structure IsComponent (S C : Set V) : Prop where
  subset : C ⊆ S
  connected : (G.induce C).Connected
  closed : ∀ a ∈ C, ∀ b ∈ S, G.Adj a b → b ∈ C

variable {G}

theorem IsComponent.nonempty {S C : Set V} (h : G.IsComponent S C) : C.Nonempty :=
  (G.induce_connected_iff.1 h.connected).1

/-- A component lies in every closed part it meets. -/
theorem IsComponent.subset_of_mem {S C U : Set V} (h : G.IsComponent S C) (hU : G.ClosedIn S U) {a : V} (ha : a ∈ C)
    (haU : a ∈ U) : C ⊆ U :=
  fun b hb => (G.induce_connected_iff.1 h.connected).2 U
    (fun u hu v hv => hU u (h.subset hu) v (h.subset hv)) a ha b hb haU

theorem IsComponent.closedIn {S C : Set V} (h : G.IsComponent S C) : G.ClosedIn S C :=
  fun a _ b hb hab haC => h.closed a haC b hb hab

/-- Components are disjoint. -/
theorem IsComponent.eq_of_mem {S C D : Set V} (hC : G.IsComponent S C) (hD : G.IsComponent S D) {a : V} (haC : a ∈ C)
    (haD : a ∈ D) : C = D :=
  (hC.subset_of_mem hD.closedIn haC haD).antisymm (hD.subset_of_mem hC.closedIn haD haC)

/-- Every vertex is in a component. -/
theorem exists_isComponent {S : Set V} {a : V} (ha : a ∈ S) : ∃ C, G.IsComponent S C ∧ a ∈ C := by
  obtain ⟨C, hC⟩ : ∃ C : Set V, ∀ b, b ∈ C ↔ b ∈ S ∧ ∀ U, G.ClosedIn S U → a ∈ U → b ∈ U := ⟨{b | _}, fun b => Iff.rfl⟩
  have haC : a ∈ C := (hC a).2 ⟨ha, fun U _ haU => haU⟩
  have hclosed : ∀ b ∈ C, ∀ c ∈ S, G.Adj b c → c ∈ C := by
    intro b hb c hc hbc
    obtain ⟨hbS, hb⟩ := (hC b).1 hb
    exact (hC c).2 ⟨hc, fun U hU haU => hU b hbS c hc hbc (hb U hU haU)⟩
  refine ⟨C, ⟨fun b hb => ((hC b).1 hb).1, G.induce_connected_iff.2 ⟨⟨a, haC⟩, fun U hU x hx y hy hxU => ?_⟩, hclosed⟩, haC⟩
  -- of the part and the rest, both closed, the one that holds `a` holds all
  by_cases haU : a ∈ U
  · have hpart : G.ClosedIn S (C ∩ U) := fun b _ c hc hbc hb =>
      have hcC := hclosed b hb.1 c hc hbc
      ⟨hcC, hU b hb.1 c hcC hbc hb.2⟩
    exact (((hC y).1 hy).2 _ hpart ⟨haC, haU⟩).2
  · have hrest : G.ClosedIn S (C \ U) := fun b _ c hc hbc hb =>
      have hcC := hclosed b hb.1 c hc hbc
      ⟨hcC, fun hcU => hb.2 (hU c hcC b hb.1 hbc.symm hcU)⟩
    exact absurd hxU (((hC x).1 hx).2 _ hrest ⟨haC, haU⟩).2

/-- An automorphism takes connected sets to connected sets. -/
theorem induce_connected_preimage (e : G ≃g G) {T : Set V} (h : (G.induce T).Connected) :
    (G.induce (Set.preimage e T)).Connected := by
  obtain ⟨⟨x, hx⟩, hT⟩ := G.induce_connected_iff.1 h
  refine G.induce_connected_iff.2 ⟨⟨e.symm x, by simpa using hx⟩, fun U hU a ha b hb haU => ?_⟩
  have hclosed : G.ClosedIn T (Set.preimage e.symm U) := fun u hu v hv huv =>
    hU (e.symm u) (by simpa using hu) (e.symm v) (by simpa using hv) (e.symm.map_adj_iff.2 huv)
  simpa using hT _ hclosed (e a) ha (e b) hb (by simpa using haU)

theorem IsComponent.preimage (e : G ≃g G) {S C : Set V} (h : G.IsComponent S C) :
    G.IsComponent (Set.preimage e S) (Set.preimage e C) where
  subset := Set.preimage_mono h.subset
  connected := induce_connected_preimage e h.connected
  closed a ha b hb hab := h.closed (e a) ha (e b) hb (e.map_adj_iff.2 hab)

/-! ## Taking vertices out -/

variable (G) in
/-- A vertex has neighbours in `T`, and without it no part of `T` parts them. -/
def Bypassed (T : Set V) (p : V) : Prop :=
  (∃ q ∈ T, G.Adj p q) ∧
    ∀ U, G.ClosedIn (T \ {p}) U → ∀ a ∈ T, ∀ b ∈ T, G.Adj p a → G.Adj p b → a ∈ U → b ∈ U

/-- Taking out a bypassed vertex leaves a connected set. -/
theorem Bypassed.connected {T : Set V} {p : V} (hp : G.Bypassed T p) (hT : (G.induce T).Connected) :
    (G.induce (T \ {p})).Connected := by
  obtain ⟨⟨q, hq, hpq⟩, hpart⟩ := hp
  obtain ⟨-, hT⟩ := G.induce_connected_iff.1 hT
  refine G.induce_connected_iff.2 ⟨⟨q, hq, fun h => hpq.ne h.symm⟩, fun U hU a ha b hb haU => ?_⟩
  -- `p` joins the part its neighbours are in
  have hclosed : G.ClosedIn T {v | v ≠ p ∧ v ∈ U ∨ v = p ∧ ∃ u ∈ T, G.Adj p u ∧ u ∈ U} := by
    rintro u hu v hv huv (⟨hup, huU⟩ | ⟨rfl, w, hw, hpw, hwU⟩)
    · by_cases hvp : v = p
      · exact .inr ⟨hvp, u, hu, hvp ▸ huv.symm, huU⟩
      · exact .inl ⟨hvp, hU u ⟨hu, hup⟩ v ⟨hv, hvp⟩ huv huU⟩
    · exact .inl ⟨huv.ne', hpart U hU w hw v hv hpw huv hwU⟩
  rcases hT _ hclosed a ha.1 b hb.1 (.inl ⟨ha.2, haU⟩) with ⟨-, h⟩ | ⟨h, -⟩
  exacts [h, absurd h hb.2]

/-- Finitely many vertices can be taken out one after the other when each is bypassed once those
before it are gone. -/
theorem connected_diff {α : Type*} [LinearOrder α] (f : V → α) {T : Set V} (F : Finset V)
    (hT : (G.induce T).Connected)
    (h : ∀ p ∈ F, p ∈ T → ∀ s ⊆ F, p ∉ s → (∀ q ∈ s, f q ≤ f p) → G.Bypassed (T \ s) p) :
    (G.induce (T \ F)).Connected := by
  classical
  have hind : ∀ s : Finset V, s ⊆ F → (G.induce (T \ s)).Connected := by
    intro s
    induction s using Finset.induction_on_max_value f with
    | empty =>
      intro _
      rw [Finset.coe_empty, Set.sdiff_empty]
      exact hT
    | insert p s hps hmax ih =>
      intro hs
      obtain ⟨hpF, hsF⟩ := Finset.insert_subset_iff.1 hs
      have hdiff : T \ (insert p s : Finset V) = (T \ s) \ {p} := by
        rw [Finset.coe_insert, Set.sdiff_sdiff, Set.union_comm]
        rfl
      rw [hdiff]
      by_cases hpT : p ∈ T
      · exact (h p hpF hpT s hsF hps hmax).connected (ih hsF)
      · rw [Set.sdiff_singleton_eq_self fun hp => hpT hp.1]
        exact ih hsF
  exact hind F subset_rfl

end SimpleGraph
