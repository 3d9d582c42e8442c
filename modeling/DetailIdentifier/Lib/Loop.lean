/-
Imperative loops as step functions. One iteration either moves to the next state, leaves the
loop with a result, or fails. `Reach` is the states a loop passes through, `run` executes it on
explicit fuel, and `Ends` says that it runs to completion. The rules: what one iteration
preserves holds in every state reached (`Reach.invariant`), a completed run ends in a reached
state (`Ends.reach`), a measure that every iteration lowers makes any fuel above it enough
(`run_isSome`), falling in a well-founded order makes some fuel enough (`ends_of_wellFounded`), and a
loop that counts up leaves at the first number that does not go on (`Ends.counting_iff`).
A ghost follows a loop to remember what its states forget, and a loop with the iterations of
another has its runs (`Ends.map`).
-/
import Mathlib.Tactic.Basic

namespace Loop

/-- What one iteration of a loop does. -/
inductive Step (σ ρ ε : Type*) where
  | next (s : σ)
  | done (r : ρ)
  | fail (e : ε)
deriving DecidableEq

variable {σ ρ ε : Type*}

/-- The states a loop passes through from `s₀`. -/
inductive Reach (step : σ → Step σ ρ ε) (s₀ : σ) : σ → Prop where
  | refl : Reach step s₀ s₀
  | tail {s s' : σ} : Reach step s₀ s → step s = .next s' → Reach step s₀ s'

/-- A loop on explicit fuel; `none` when the fuel runs out. -/
def run (step : σ → Step σ ρ ε) : Nat → σ → Option (Except ε ρ)
  | 0, _ => none
  | fuel + 1, s =>
    match step s with
    | .next s' => run step fuel s'
    | .done r => some (.ok r)
    | .fail e => some (.error e)

/-- The loop from `s` runs to completion with the outcome `o`. -/
def Ends (step : σ → Step σ ρ ε) (s : σ) (o : Except ε ρ) : Prop := ∃ fuel, run step fuel s = some o

variable {step : σ → Step σ ρ ε}

/-! ## Invariants -/

theorem Reach.head {s₀ s₁ s : σ} (h : step s₀ = .next s₁) (hr : Reach step s₁ s) : Reach step s₀ s := by
  induction hr with
  | refl => exact .tail .refl h
  | tail _ hs ih => exact .tail ih hs

theorem Reach.trans {s₀ s₁ s : σ} (h : Reach step s₀ s₁) (hr : Reach step s₁ s) : Reach step s₀ s := by
  induction hr with
  | refl => exact h
  | tail _ hs ih => exact .tail ih hs

/-- What holds initially and is preserved by every iteration holds in every state reached. -/
theorem Reach.invariant {I : σ → Prop} {s₀ s : σ} (h : Reach step s₀ s) (h₀ : I s₀)
    (hstep : ∀ s s', I s → step s = .next s' → I s') : I s := by
  induction h with
  | refl => exact h₀
  | tail _ hs ih => exact hstep _ _ ih hs

/-- The same, where an iteration may be taken to start from a state reached. -/
theorem Reach.invariant_of_reach {I : σ → Prop} {s₀ s : σ} (h : Reach step s₀ s) (h₀ : I s₀)
    (hstep : ∀ s s', Reach step s₀ s → I s → step s = .next s' → I s') : I s := by
  induction h with
  | refl => exact h₀
  | tail hr hs ih => exact hstep _ _ hr ih hs

/-! ## Runs -/

theorem run_reach : ∀ (fuel : Nat) (s : σ) (o : Except ε ρ), run step fuel s = some o →
    ∃ s', Reach step s s' ∧ ((∃ r, o = .ok r ∧ step s' = .done r) ∨ ∃ e, o = .error e ∧ step s' = .fail e)
  | 0, _, _, h => by cases h
  | fuel + 1, s, o, h => by
    unfold run at h
    split at h
    · rename_i s₁ hs
      obtain ⟨s', hr, ho⟩ := run_reach fuel s₁ o h
      exact ⟨s', hr.head hs, ho⟩
    · rename_i r hs
      cases h; exact ⟨s, .refl, .inl ⟨r, rfl, hs⟩⟩
    · rename_i e hs
      cases h; exact ⟨s, .refl, .inr ⟨e, rfl, hs⟩⟩

/-- A completed run passes through a state whose iteration leaves the loop with the result. -/
theorem Ends.reach {s : σ} {r : ρ} (h : Ends step s (.ok r)) : ∃ s', Reach step s s' ∧ step s' = .done r := by
  obtain ⟨fuel, h⟩ := h
  obtain ⟨s', hr, ⟨r', h1, h2⟩ | ⟨e, h1, -⟩⟩ := run_reach fuel s _ h
  · cases h1; exact ⟨s', hr, h2⟩
  · cases h1

theorem Ends.next {s s' : σ} {o : Except ε ρ} (hs : step s = .next s') (h : Ends step s' o) : Ends step s o := by
  obtain ⟨fuel, h⟩ := h
  exact ⟨fuel + 1, by rw [run, hs]; exact h⟩

theorem Reach.ends {s s' : σ} {o : Except ε ρ} (h : Reach step s s') (ho : Ends step s' o) : Ends step s o := by
  induction h with
  | refl => exact ho
  | tail _ hs ih => exact ih (ho.next hs)

/-- More fuel changes nothing. -/
theorem run_mono : ∀ {fuel fuel' : Nat} {s : σ} {o : Except ε ρ}, run step fuel s = some o → fuel ≤ fuel' →
    run step fuel' s = some o
  | 0, _, _, _, h, _ => by cases h
  | _ + 1, 0, _, _, _, hle => absurd hle (Nat.not_succ_le_zero _)
  | fuel + 1, fuel' + 1, s, o, h, hle => by
    unfold run at h ⊢
    cases hs : step s with
    | next s₁ =>
      rw [hs] at h
      exact run_mono h (Nat.le_of_succ_le_succ hle)
    | done r => rwa [hs] at h
    | fail e => rwa [hs] at h

/-- A loop has one outcome. -/
theorem Ends.unique {s : σ} {o o' : Except ε ρ} (h : Ends step s o) (h' : Ends step s o') : o = o' := by
  obtain ⟨fuel, h⟩ := h
  obtain ⟨fuel', h'⟩ := h'
  have hmax := run_mono h (Nat.le_max_left fuel fuel')
  rw [run_mono h' (Nat.le_max_right fuel fuel')] at hmax
  exact (Option.some.inj hmax).symm

theorem Ends.of_done {s : σ} {r : ρ} (h : step s = .done r) : Ends step s (.ok r) := ⟨1, by rw [run, h]⟩

/-- The states a run passes through, on explicit fuel. -/
def states (step : σ → Step σ ρ ε) : Nat → σ → List σ
  | 0, _ => []
  | fuel + 1, s =>
    s :: match step s with
      | .next s' => states step fuel s'
      | _ => []

theorem Reach.eq_or_head {s₀ s : σ} (h : Reach step s₀ s) : s = s₀ ∨ ∃ s₁, step s₀ = .next s₁ ∧ Reach step s₁ s := by
  induction h with
  | refl => exact .inl rfl
  | tail _ hs ih =>
    rcases ih with rfl | ⟨s₁, h₁, hr⟩
    · exact .inr ⟨_, hs, .refl⟩
    · exact .inr ⟨s₁, h₁, hr.tail hs⟩

/-- With the fuel of a completed run, no state reached is missing. -/
theorem Reach.mem_states : ∀ {fuel : Nat} {s s' : σ} {o : Except ε ρ}, run step fuel s = some o → Reach step s s' →
    s' ∈ states step fuel s
  | 0, _, _, _, h, _ => by cases h
  | fuel + 1, s, s', o, h, hr => by
    rw [states]
    rcases hr.eq_or_head with rfl | ⟨s₁, h₁, hr⟩
    · exact List.mem_cons_self ..
    · rw [run, h₁] at h
      rw [h₁]
      exact List.mem_cons_of_mem _ (hr.mem_states h)

/-- A run that fails passes through a state whose iteration fails. -/
theorem Ends.reach_fail {s : σ} {e : ε} (h : Ends step s (.error e)) : ∃ s', Reach step s s' ∧ step s' = .fail e := by
  obtain ⟨fuel, h⟩ := h
  obtain ⟨s', hr, ⟨r, h1, -⟩ | ⟨e', h1, h2⟩⟩ := run_reach fuel s _ h
  · cases h1
  · cases h1; exact ⟨s', hr, h2⟩

/-- With a measure that every iteration from a state satisfying the invariant lowers, fuel above
the measure never runs out. -/
theorem run_isSome {I : σ → Prop} {μ : σ → Nat} (hstep : ∀ s s', I s → step s = .next s' → I s' ∧ μ s' < μ s) :
    ∀ (fuel : Nat) (s : σ), I s → μ s < fuel → ∃ o, run step fuel s = some o
  | 0, _, _, h => absurd h (Nat.not_lt_zero _)
  | fuel + 1, s, hs, h => by
    unfold run
    split
    · rename_i s' hn
      obtain ⟨hs', hlt⟩ := hstep s s' hs hn
      exact run_isSome hstep fuel s' hs' (by omega)
    · exact ⟨_, rfl⟩
    · exact ⟨_, rfl⟩

/-- A loop that never fails and whose measure falls ends with a result, in a state satisfying the
invariant. -/
theorem run_ok {I : σ → Prop} (μ : σ → Nat) (hstep : ∀ s s', I s → step s = .next s' → I s' ∧ μ s' < μ s)
    (hfail : ∀ s e, I s → step s ≠ .fail e) (fuel : Nat) (s : σ) (hs : I s) (h : μ s < fuel) :
    ∃ r s', run step fuel s = some (.ok r) ∧ I s' ∧ step s' = .done r := by
  obtain ⟨o, ho⟩ := run_isSome hstep fuel s hs h
  obtain ⟨s', hr, ⟨r, rfl, hd⟩ | ⟨e, rfl, he⟩⟩ := run_reach fuel s o ho
  · exact ⟨r, s', ho, hr.invariant hs fun a b ha hab => (hstep a b ha hab).1, hd⟩
  · exact absurd he (hfail s' e (hr.invariant hs fun a b ha hab => (hstep a b ha hab).1))

/-- A loop whose states fall in a well-founded order runs to completion. -/
theorem ends_of_wellFounded {α : Type*} {r : α → α → Prop} (hr : WellFounded r) {I : σ → Prop} {μ : σ → α}
    (hstep : ∀ s s', I s → step s = .next s' → I s' ∧ r (μ s') (μ s)) (s : σ) (hs : I s) : ∃ o, Ends step s o := by
  induction s using (InvImage.wf μ hr).induction with
  | _ s ih =>
    cases h : step s with
    | next s' =>
      obtain ⟨hs', hlt⟩ := hstep s s' hs h
      obtain ⟨o, ho⟩ := ih s' hlt hs'
      exact ⟨o, ho.next h⟩
    | done r => exact ⟨.ok r, .of_done h⟩
    | fail e => exact ⟨.error e, 1, by rw [run, h]⟩

/-- A loop that counts up leaves at the first number that does not go on. -/
theorem Ends.counting_iff {step : Nat → Step Nat ρ ε} (hcount : ∀ n n', step n = .next n' → n' = n + 1) {n : Nat} {r : ρ} :
    Ends step n (.ok r) ↔ ∃ k, n ≤ k ∧ step k = .done r ∧ ∀ j, n ≤ j → j < k → step j = .next (j + 1) := by
  constructor
  · intro h
    obtain ⟨k, hr, hdone⟩ := h.reach
    have hpassed : n ≤ k ∧ ∀ j, n ≤ j → j < k → step j = .next (j + 1) := by
      refine hr.invariant (I := fun k => n ≤ k ∧ ∀ j, n ≤ j → j < k → step j = .next (j + 1)) ?_ ?_
      · exact ⟨Nat.le_refl n, fun j h1 h2 => absurd h2 (Nat.not_lt.2 h1)⟩
      · rintro s s' ⟨hle, hj⟩ hs
        obtain rfl := hcount s s' hs
        refine ⟨Nat.le_succ_of_le hle, fun j h1 h2 => ?_⟩
        rcases Nat.lt_succ_iff_lt_or_eq.1 h2 with h2 | rfl
        · exact hj j h1 h2
        · exact hs
    exact ⟨k, hpassed.1, hdone, hpassed.2⟩
  · rintro ⟨k, hle, hdone, hj⟩
    have hreach : ∀ m, n ≤ m → m ≤ k → Reach step n m := by
      intro m hm
      induction hm with
      | refl => exact fun _ => .refl
      | step hm ih => exact fun hle => .tail (ih (Nat.le_of_succ_le hle)) (hj _ hm hle)
    exact (hreach k hle (Nat.le_refl k)).ends (.of_done hdone)

/-! ## Fuel -/

/-- With fuel enough, what runs on fuel gives `a`. -/
def Yields {α : Type*} (f : Nat → α) (a : α) : Prop := ∃ least, ∀ fuel, least ≤ fuel → f fuel = a

theorem Yields.unique {α : Type*} {f : Nat → α} {a b : α} (ha : Yields f a) (hb : Yields f b) : a = b := by
  obtain ⟨m, ha⟩ := ha
  obtain ⟨n, hb⟩ := hb
  exact (ha _ (Nat.le_max_left m n)).symm.trans (hb _ (Nat.le_max_right m n))

theorem Yields.of_lt {α : Type*} {f : Nat → α} {a : α} {n : Nat} (h : ∀ fuel, n < fuel → f fuel = a) : Yields f a :=
  ⟨n + 1, fun fuel hle => h fuel (Nat.lt_of_succ_le hle)⟩

/-- One run after another needs the fuel of both. -/
theorem Yields.comp {α β : Type*} {f : Nat → α} {g : Nat → α → β} {a : α} {b : β} (hf : Yields f a)
    (hg : Yields (fun fuel => g fuel a) b) : Yields (fun fuel => g fuel (f fuel)) b := by
  obtain ⟨m, hf⟩ := hf
  obtain ⟨n, hg⟩ := hg
  refine ⟨max m n, fun fuel hle => ?_⟩
  show g fuel (f fuel) = b
  rw [hf fuel (Nat.le_trans (Nat.le_max_left m n) hle)]
  exact hg fuel (Nat.le_trans (Nat.le_max_right m n) hle)

theorem Ends.yields {s : σ} {o : Except ε ρ} (h : Ends step s o) : Yields (fun fuel => run step fuel s) (some o) := by
  obtain ⟨least, h⟩ := h
  exact ⟨least, fun fuel hle => run_mono h hle⟩

/-! ## Ghosts

A ghost follows a loop: it reads the state before each iteration and changes nothing.
-/

/-- A loop with a ghost. -/
def ghost {γ : Type*} (step : σ → Step σ ρ ε) (follow : σ → γ → γ) (s : σ × γ) : Step (σ × γ) (ρ × γ) ε :=
  match step s.1 with
  | .next s' => .next (s', follow s.1 s.2)
  | .done r => .done (r, s.2)
  | .fail e => .fail e

variable {γ : Type*} {follow : σ → γ → γ}

theorem ghost_next {s s' : σ} (h : step s = .next s') (g : γ) :
    ghost step follow (s, g) = .next (s', follow s g) := by
  simp only [ghost, h]

theorem ghost_next_inv {x x' : σ × γ} (h : ghost step follow x = .next x') :
    step x.1 = .next x'.1 ∧ x'.2 = follow x.1 x.2 := by
  unfold ghost at h
  split at h <;> cases h
  exact ⟨‹_›, rfl⟩

theorem ghost_done_inv {x : σ × γ} {r : ρ × γ} (h : ghost step follow x = .done r) :
    step x.1 = .done r.1 ∧ x.2 = r.2 := by
  unfold ghost at h
  split at h <;> cases h
  exact ⟨‹_›, rfl⟩

/-- Every run has its ghost. -/
theorem Reach.ghost {s₀ s : σ} (h : Reach step s₀ s) (g₀ : γ) : ∃ g, Reach (ghost step follow) (s₀, g₀) (s, g) := by
  induction h with
  | refl => exact ⟨g₀, .refl⟩
  | tail _ hs ih =>
    obtain ⟨g, hg⟩ := ih
    exact ⟨_, hg.tail (ghost_next hs g)⟩

/-- A run without its ghost is a run. -/
theorem Reach.erase {x₀ x : σ × γ} (h : Reach (Loop.ghost step follow) x₀ x) : Reach step x₀.1 x.1 := by
  induction h with
  | refl => exact .refl
  | tail _ hs ih => exact ih.tail (ghost_next_inv hs).1

theorem Ends.ghost {s : σ} {r : ρ} (h : Ends step s (.ok r)) (g₀ : γ) :
    ∃ g, Ends (Loop.ghost step follow) (s, g₀) (.ok (r, g)) := by
  obtain ⟨s', hr, hd⟩ := h.reach
  obtain ⟨g, hg⟩ : ∃ g, Reach (Loop.ghost step follow) (s, g₀) (s', g) := hr.ghost g₀
  exact ⟨g, hg.ends (.of_done (by simp only [Loop.ghost, hd]))⟩

/-! ## Simulations -/

section Map

variable {σ' ρ' γ : Type*} {f : σ → σ'} {k : ρ → ρ'}

def Step.map (f : σ → σ') (k : ρ → ρ') : Step σ ρ ε → Step σ' ρ' ε
  | .next s => .next (f s)
  | .done r => .done (k r)
  | .fail e => .fail e

variable {step' : σ' → Step σ' ρ' ε} (h : ∀ s, step' (f s) = (step s).map f k)

include h in
theorem run_map : ∀ (fuel : Nat) (s : σ), run step' fuel (f s) = (run step fuel s).map (Except.map k)
  | 0, _ => rfl
  | fuel + 1, s => by
    rw [run, run, h]
    cases step s with
    | next s' => exact run_map fuel s'
    | done r => rfl
    | fail e => rfl

include h in
/-- A loop whose iterations are those of another under `f` has its runs. -/
theorem Ends.map {s : σ} {o : Except ε ρ} (ho : Ends step s o) : Ends step' (f s) (o.map k) := by
  obtain ⟨fuel, ho⟩ := ho
  exact ⟨fuel, by rw [run_map h, ho]; rfl⟩

include h in
/-- The same with a ghost that reads from both loops alike. -/
theorem ghost_map {follow : σ → γ → γ} {follow' : σ' → γ → γ} (hf : ∀ s, follow' (f s) = follow s) (x : σ × γ) :
    ghost step' follow' (Prod.map f id x) = (ghost step follow x).map (Prod.map f id) (Prod.map k id) := by
  obtain ⟨s, g⟩ := x
  simp only [ghost, Prod.map, h, hf]
  cases step s <;> rfl

end Map

end Loop
