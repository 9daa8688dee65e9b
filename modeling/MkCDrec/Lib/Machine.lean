import Mathlib.Logic.Relation

/-!
# Machines that take one step after another

A machine stops with an outcome or goes on with another state. What holds in all states of a
run, that a run ends, and that it never does, are shown from what one step does.
-/

namespace Machine

universe u v
variable {σ : Type u} {ω : Type v} (step : σ → Except ω σ)

def Reaches : σ → σ → Prop := Relation.ReflTransGen fun p q => step p = .ok q

/-- The run from `p` stops in `q`. -/
def StopsIn (p q : σ) (o : ω) : Prop := Reaches step p q ∧ step q = .error o

def Ends (p : σ) : Prop := ∃ q o, StopsIn step p q o

section Rules

variable {step} {p q r : σ} {o : ω}

theorem Reaches.refl : Reaches step p p := Relation.ReflTransGen.refl

theorem Reaches.head (h : step p = .ok q) (hr : Reaches step q r) : Reaches step p r :=
  Relation.ReflTransGen.head h hr

theorem Reaches.trans (hq : Reaches step p q) (hr : Reaches step q r) : Reaches step p r :=
  Relation.ReflTransGen.trans hq hr

/-- What every step preserves holds throughout. -/
theorem Reaches.invariant {P : σ → Prop} (hstep : ∀ p q, P p → step p = .ok q → P q)
    (h : Reaches step p q) (hp : P p) : P q := by
  induction h with
  | refl => exact hp
  | tail _ hnext ih => exact hstep _ _ ih hnext

/-- A run has one end, before or after the states that it comes through. -/
theorem Reaches.stopsIn (h : Reaches step p q) (hr : StopsIn step p r o) : StopsIn step q r o := by
  induction h with
  | refl => exact hr
  | tail _ hnext ih =>
    obtain ⟨hreach, hstop⟩ := ih
    rcases Relation.ReflTransGen.cases_head hreach with rfl | ⟨s, hs, hrest⟩
    · rw [hnext] at hstop
      cases hstop
    · rw [hnext] at hs
      obtain rfl := Except.ok.inj hs
      exact ⟨hrest, hstop⟩

theorem StopsIn.unique {o' : ω} (h : StopsIn step p q o) (h' : StopsIn step p r o') :
    q = r ∧ o = o' := by
  obtain ⟨hreach, hstop'⟩ := h.1.stopsIn h'
  rcases Relation.ReflTransGen.cases_head hreach with rfl | ⟨s, hs, _⟩
  · have hstop := h.2
    rw [hstop'] at hstop
    exact ⟨rfl, (Except.error.inj hstop).symm⟩
  · have hstop := h.2
    rw [hs] at hstop
    cases hstop

theorem ends_of_reaches (h : Reaches step p q) (hq : Ends step q) : Ends step p := by
  obtain ⟨r, o, hreach, hstop⟩ := hq
  exact ⟨r, o, h.trans hreach, hstop⟩

/-- A run that stays where no step stops never ends. -/
theorem not_ends_of_invariant {P : σ → Prop} (hstep : ∀ p, P p → ∃ q, step p = .ok q ∧ P q)
    (hp : P p) : ¬ Ends step p := by
  rintro ⟨q, o, hreach, hstop⟩
  have hq : P q := by
    refine hreach.invariant ?_ hp
    intro p q hp hnext
    obtain ⟨r, hr, hinv⟩ := hstep p hp
    rw [hnext] at hr
    exact Except.ok.inj hr ▸ hinv
  obtain ⟨r, hr, _⟩ := hstep q hq
  rw [hstop] at hr
  cases hr

/-- A run ends if again and again it comes to a state with a smaller measure. -/
theorem ends_of_measure (μ : σ → Nat) {P : σ → Prop}
    (hround : ∀ p, P p → Ends step p ∨ ∃ q, Reaches step p q ∧ P q ∧ μ q < μ p)
    (hp : P p) : Ends step p := by
  induction hn : μ p using Nat.strongRecOn generalizing p with
  | ind n ih =>
    rcases hround p hp with hends | ⟨q, hreach, hq, hlt⟩
    · exact hends
    · exact ends_of_reaches hreach (ih (μ q) (hn ▸ hlt) hq rfl)

end Rules

end Machine
