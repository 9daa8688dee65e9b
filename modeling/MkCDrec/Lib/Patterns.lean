import MkCDrec.Lib.Paths

/-!
# Patterns in the words of a line

`grep` finds a pattern anywhere in a line, also across the blanks between its words, and a
dot in the pattern stands for any character.
-/

namespace Patterns

open ShellText Paths

section Line

variable {pat s t : Text}

theorem beginsWith_append (pat s : Text) : beginsWith pat (pat ++ s) = true := by
  induction pat with
  | nil => simp [beginsWith]
  | cons p pat ih => simp [beginsWith, ih]

theorem beginsWith_mono (h : beginsWith pat s = true) (t : Text) :
    beginsWith pat (s ++ t) = true := by
  induction pat generalizing s with
  | nil => simp [beginsWith]
  | cons p pat ih =>
    cases s with
    | nil => simp [beginsWith] at h
    | cons c s =>
      simp only [beginsWith, Bool.and_eq_true] at h
      simp only [List.cons_append, beginsWith, Bool.and_eq_true]
      exact ⟨h.1, ih h.2⟩

theorem contains_iff : contains pat s = true ↔ ∃ u, u <:+ s ∧ beginsWith pat u = true := by
  simp [contains, List.any_eq_true]

theorem contains_nil (h : pat ≠ []) : contains pat [] = false := by
  cases pat with
  | nil => exact absurd rfl h
  | cons p pat => rfl

theorem contains_of_infix (h : pat <:+: s) : contains pat s = true := by
  obtain ⟨before, after, rfl⟩ := h
  apply contains_iff.mpr
  refine ⟨pat ++ after, ?_, beginsWith_append pat after⟩
  simp

theorem contains_mono (h : contains pat s = true) (t : Text) : contains pat (s ++ t) = true := by
  obtain ⟨u, ⟨before, rfl⟩, hu⟩ := contains_iff.mp h
  apply contains_iff.mpr
  refine ⟨u ++ t, ?_, beginsWith_mono hu t⟩
  simp

end Line

section Join

variable {d : Char} {ws : List Text} {w : Text}

theorem intercalate_append (d : Char) (ws vs : List Text) :
    ∃ t, [d].intercalate (ws ++ vs) = [d].intercalate ws ++ t := by
  induction ws with
  | nil => exact ⟨[d].intercalate vs, rfl⟩
  | cons w ws ih =>
    obtain ⟨t, ht⟩ := ih
    cases ws with
    | nil =>
      cases vs with
      | nil => exact ⟨[], by simp⟩
      | cons v vs => exact ⟨d :: [d].intercalate (v :: vs), by simp⟩
    | cons v ws =>
      refine ⟨t, ?_⟩
      simp only [List.cons_append, List.intercalate_cons_cons] at ht ⊢
      simp [ht]

theorem infix_intercalate (h : w ∈ ws) : w <:+: [d].intercalate ws := by
  induction ws with
  | nil => cases h
  | cons v ws ih =>
    cases ws with
    | nil =>
      obtain rfl := List.mem_singleton.mp h
      simp
    | cons u ws =>
      rw [List.intercalate_cons_cons]
      rcases List.mem_cons.mp h with rfl | h
      · exact ⟨[], [d] ++ [d].intercalate (u :: ws), by simp⟩
      · exact (ih h).trans (List.suffix_append _ _).isInfix

end Join

end Patterns
