import Mathlib.Algebra.Order.BigOperators.Group.List
import Mathlib.Algebra.Order.Group.Nat
import MkCDrec.Lib.ShellText

/-!
# Paths and patterns

A path is a list of names; the path of a file lies below another one if that is a prefix of
it. Regular expressions are read as far as paths and device names need them: a point stands
for any character, all other characters for themselves.
-/

namespace Paths

open ShellText

abbrev Path := List Text

/-- The names in the text of a path. -/
def names (t : Text) : Path := (t.splitOn '/').filter fun n => n ≠ []

/-- Names that files can have. -/
def Valid (p : Path) : Prop := ∀ n ∈ p, n ≠ [] ∧ '/' ∉ n

/-- The text begins with a match of the expression. -/
def beginsWith : Text → Text → Bool
  | [], _ => true
  | _ :: _, [] => false
  | r :: rs, c :: s => (r = '.' || r = c) && beginsWith rs s

/-- `grep`. -/
def contains (r s : Text) : Bool := s.tails.any fun t => beginsWith r t

/-- `tar --exclude` for a file below the directory that is read. -/
def excludes : Text → Path → Bool
  | [], _ => false
  | '.' :: '/' :: q, m => names q <+: m
  | r, m => m.tails.any fun t => names r <+: t

theorem valid_names (t : Text) : Valid (names t) := by
  intro n hn
  obtain ⟨hmem, hne⟩ := List.mem_filter.1 hn
  exact ⟨by simpa using hne, notMem_of_mem_splitOn hmem⟩

/-- A prefix that ends before a name it does not have. -/
theorem prefix_of_notMem {e a b : Path} {n : Text} (h : e <+: a ++ n :: b) (hn : n ∉ e) :
    e <+: a := by
  rcases List.prefix_or_prefix_of_prefix h (List.prefix_append a (n :: b)) with hea | ⟨t, rfl⟩
  · exact hea
  · rw [List.prefix_append_right_inj] at h
    cases t with
    | nil => simp
    | cons m t =>
      rw [List.cons_prefix_cons] at h
      exact absurd (List.mem_append_right a (h.1 ▸ List.mem_cons_self)) hn

/-- There is a name that is in none of some paths. -/
theorem exists_fresh (paths : List Path) :
    ∃ n : Text, (n ≠ [] ∧ '/' ∉ n) ∧ ∀ p ∈ paths, n ∉ p := by
  refine ⟨List.replicate ((paths.flatten.map List.length).sum + 1) 'x', ⟨by simp, ?_⟩, ?_⟩
  · intro h
    exact absurd (List.eq_of_mem_replicate h) (by decide)
  · intro p hp hn
    have hmem := List.mem_map_of_mem (f := List.length) (List.mem_flatten.2 ⟨p, hp, hn⟩)
    have hle := List.single_le_sum (fun _ _ => Nat.zero_le _) _ hmem
    rw [List.length_replicate] at hle
    omega

end Paths
