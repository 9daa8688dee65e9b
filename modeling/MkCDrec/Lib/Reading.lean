import Mathlib.Data.List.Basic

/-!
# Loops that read until they have what they want

A loop takes one input after the other. It goes on with another state, or stops with an
outcome and leaves the inputs behind it. Without further input it waits.
-/

namespace Reading

universe u v w
variable {σ : Type u} {ω : Type u} {α : Type v}

/-- A loop, from what it makes of one input. -/
def reads (step : σ → α → Except ω σ) : σ → List α → Option (ω × List α)
  | _, [] => none
  | s, a :: later =>
    match step s a with
    | .error o => some (o, later)
    | .ok s' => reads step s' later

section Rules

variable {step : σ → α → Except ω σ} {s s' : σ} {o : ω} {a : α} {inputs later : List α}

theorem reads_of_ok (h : step s a = .ok s') (later : List α) :
    reads step s (a :: later) = reads step s' later := by
  rw [reads, h]

theorem reads_of_error (h : step s a = .error o) (later : List α) :
    reads step s (a :: later) = some (o, later) := by
  rw [reads, h]

/-- The loop waits as long as it has gone on with every input. -/
theorem reads_eq_none_iff : reads step s inputs = none ↔ ∃ s', inputs.foldlM step s = .ok s' := by
  induction inputs generalizing s with
  | nil => exact iff_of_true rfl ⟨s, rfl⟩
  | cons a inputs ih =>
    rw [List.foldlM_cons]
    cases h : step s a with
    | error o => simp [reads_of_error h, Bind.bind, Except.bind]
    | ok s' =>
      rw [reads_of_ok h]
      exact ih

/-- The loop goes on with the inputs before the one that it stops at. -/
theorem reads_eq_some_iff :
    reads step s inputs = some (o, later) ↔
      ∃ before a s', inputs = before ++ a :: later ∧ before.foldlM step s = .ok s' ∧
        step s' a = .error o := by
  induction inputs generalizing s with
  | nil => simp [reads]
  | cons a inputs ih =>
    cases h : step s a with
    | error p =>
      rw [reads_of_error h]
      constructor
      · intro heq
        obtain ⟨rfl, rfl⟩ := Prod.mk.inj (Option.some.inj heq)
        exact ⟨[], a, s, rfl, rfl, h⟩
      · rintro ⟨before, b, s', hsplit, hgone, hstop⟩
        cases before with
        | nil =>
          obtain ⟨rfl, rfl⟩ := List.cons.inj hsplit
          obtain rfl := Except.ok.inj hgone
          rw [h] at hstop
          rw [Except.error.inj hstop]
        | cons c before =>
          obtain ⟨rfl, -⟩ := List.cons.inj hsplit
          rw [List.foldlM_cons, h] at hgone
          cases hgone
    | ok t =>
      rw [reads_of_ok h, ih]
      constructor
      · rintro ⟨before, b, s', rfl, hgone, hstop⟩
        refine ⟨a :: before, b, s', rfl, ?_, hstop⟩
        rw [List.foldlM_cons, h]
        exact hgone
      · rintro ⟨before, b, s', hsplit, hgone, hstop⟩
        cases before with
        | nil =>
          obtain ⟨rfl, rfl⟩ := List.cons.inj hsplit
          obtain rfl := Except.ok.inj hgone
          rw [h] at hstop
          cases hstop
        | cons c before =>
          obtain ⟨rfl, rfl⟩ := List.cons.inj hsplit
          rw [List.foldlM_cons, h] at hgone
          exact ⟨before, b, s', rfl, hgone, hstop⟩

theorem length_lt_of_reads (h : reads step s inputs = some (o, later)) :
    later.length < inputs.length := by
  obtain ⟨before, a, _, rfl, _, _⟩ := reads_eq_some_iff.mp h
  simp only [List.length_append, List.length_cons]
  omega

/-- A loop without a state goes on with the inputs that it refuses. -/
theorem foldlM_unit {step : PUnit → α → Except ω PUnit} {s : PUnit} :
    inputs.foldlM step ⟨⟩ = .ok s ↔ ∀ a ∈ inputs, step ⟨⟩ a = .ok ⟨⟩ := by
  induction inputs with
  | nil => simp [pure, Except.pure]
  | cons a inputs ih =>
    rw [List.foldlM_cons, List.forall_mem_cons]
    cases h : step ⟨⟩ a with
    | error o => simp [Bind.bind, Except.bind]
    | ok s' =>
      rw [and_iff_right rfl]
      exact ih

theorem reads_unit_eq_some_iff {step : PUnit → α → Except ω PUnit} :
    reads step ⟨⟩ inputs = some (o, later) ↔
      ∃ before a, inputs = before ++ a :: later ∧ (∀ b ∈ before, step ⟨⟩ b = .ok ⟨⟩) ∧
        step ⟨⟩ a = .error o := by
  rw [reads_eq_some_iff]
  simp only [foldlM_unit]
  exact ⟨fun ⟨before, a, _, h⟩ => ⟨before, a, h⟩, fun ⟨before, a, h⟩ => ⟨before, a, ⟨⟩, h⟩⟩

theorem reads_unit_eq_none_iff {step : PUnit → α → Except ω PUnit} :
    reads step ⟨⟩ inputs = none ↔ ∀ a ∈ inputs, step ⟨⟩ a = .ok ⟨⟩ := by
  simp only [reads_eq_none_iff, foldlM_unit, exists_const]

end Rules

end Reading
