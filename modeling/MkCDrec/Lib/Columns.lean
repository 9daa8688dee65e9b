import Mathlib.Algebra.GroupWithZero.Nat
import MkCDrec.Lib.Words

/-!
# Lines with columns of a fixed width

A program prints a table with cells of fixed widths, filled up with blanks, and a script takes
the lines apart again, at the widths or at the blanks.
-/

namespace Columns

open ShellText Words

/-- A cell with its text on the left. -/
def cell (w : Nat) (t : Text) : Text := t ++ List.replicate (w - t.length) ' '

/-- A cell with its text on the right and a blank behind it. -/
def cellRight (w : Nat) (t : Text) : Text := List.replicate (w - 1 - t.length) ' ' ++ (t ++ [' '])

/-- `awk 'BEGIN { FIELDWIDTHS = .. } { print $n }'`. -/
def fieldAt (widths : List Nat) (n : Nat) (s : Text) : Text :=
  (s.drop (widths.take (n - 1)).sum).take (widths.getD (n - 1) 0)

/-- A text that is one word. -/
def IsWord (t : Text) : Prop := t ≠ [] ∧ ' ' ∉ t ∧ '\t' ∉ t

section Words

variable {w : Nat} {s t : Text}

theorem words_append (s t : Text) : words (s ++ ' ' :: t) = words s ++ words t := by
  have hblank : tr '\t' ' ' (s ++ ' ' :: t) = tr '\t' ' ' s ++ ' ' :: tr '\t' ' ' t := by
    rw [tr_append]
    rfl
  simp only [words, hblank, List.splitOn_append_cons_self, List.filter_append]

@[simp] theorem words_nil : words [] = [] := rfl

theorem words_blank (s : Text) : words (' ' :: s) = words s := words_append [] s

theorem words_blanks (n : Nat) (s : Text) : words (List.replicate n ' ' ++ s) = words s := by
  induction n with
  | zero => rfl
  | succ n ih =>
    rw [List.replicate_succ, List.cons_append, words_blank, ih]

theorem words_of_isWord (h : IsWord t) : words t = [t] := by
  obtain ⟨hne, hblank, htab⟩ := h
  rw [words, tr_eq_self htab, List.splitOn_eq_singleton hblank]
  simp [hne]

theorem words_cell (ht : IsWord t) (hw : t.length < w) (s : Text) :
    words (cell w t ++ s) = t :: words s := by
  obtain ⟨n, hn⟩ := Nat.exists_eq_succ_of_ne_zero (Nat.sub_ne_zero_of_lt hw)
  rw [cell, hn, List.replicate_succ, List.append_assoc, List.cons_append, words_append,
    words_blanks, words_of_isWord ht]
  rfl

theorem words_intercalate {ws : List Text} (h : ∀ w ∈ ws, IsWord w) :
    words ([' '].intercalate ws) = ws := by
  induction ws with
  | nil => rfl
  | cons w ws ih =>
    obtain ⟨hw, hws⟩ := List.forall_mem_cons.mp h
    cases ws with
    | nil =>
      have hsingle : [' '].intercalate [w] = w := by simp
      rw [hsingle, words_of_isWord hw]
    | cons v ws =>
      have hsplit : [' '].intercalate (w :: v :: ws) = w ++ ' ' :: [' '].intercalate (v :: ws) := by
        simp [List.intercalate_cons_cons]
      rw [hsplit, words_append, words_of_isWord hw, ih hws]
      rfl

/-- `echo` keeps the words, but for options at the beginning. -/
theorem words_echo (s : Text) : words (echo s) = (words s).dropWhile isOption := by
  rw [echo, words_intercalate]
  intro w hw
  exact mem_words ((List.dropWhile_sublist isOption).subset hw)

/-- The blanks behind a text do not count. -/
theorem words_cell_alone (w : Nat) (t : Text) : words (cell w t) = words t := by
  rw [cell]
  cases w - t.length with
  | zero => simp
  | succ n =>
    have hblanks : words (List.replicate n ' ') = [] := by simpa using words_blanks n []
    rw [List.replicate_succ, words_append, hblanks, List.append_nil]

theorem words_cellRight (ht : IsWord t) (w : Nat) : words (cellRight w t) = [t] := by
  rw [cellRight, words_blanks, words_append, words_of_isWord ht]
  rfl

end Words

section Fields

theorem length_cell {w : Nat} {t : Text} (h : t.length ≤ w) : (cell w t).length = w := by
  simp [cell, h]

theorem length_cellRight {w : Nat} {t : Text} (h : t.length < w) :
    (cellRight w t).length = w := by
  simp only [cellRight, List.length_append, List.length_replicate, List.length_singleton]
  omega

theorem mem_cell {w : Nat} {t : Text} {c : Char} (h : c ∈ cell w t) : c = ' ' ∨ c ∈ t := by
  rcases List.mem_append.mp h with h | h
  · exact Or.inr h
  · exact Or.inl (List.eq_of_mem_replicate h)

theorem mem_cellRight {w : Nat} {t : Text} {c : Char} (h : c ∈ cellRight w t) :
    c = ' ' ∨ c ∈ t := by
  rcases List.mem_append.mp h with h | h
  · exact Or.inl (List.eq_of_mem_replicate h)
  · rcases List.mem_append.mp h with h | h
    · exact Or.inr h
    · exact Or.inl (List.mem_singleton.mp h)

/-- A field begins where the cells before it end. -/
theorem fieldAt_append {widths : List Nat} {n : Nat} {cells : List Text}
    (h : cells.map List.length = widths.take n) (rest : Text) :
    fieldAt widths (n + 1) (cells.flatten ++ rest) = rest.take (widths.getD n 0) := by
  have hlength : (widths.take n).sum = cells.flatten.length := by
    rw [List.length_flatten, h]
  rw [fieldAt, Nat.add_sub_cancel, hlength, List.drop_left]

end Fields

end Columns
