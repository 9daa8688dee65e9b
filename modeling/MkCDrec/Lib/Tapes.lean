import Mathlib.Data.List.Range
import Mathlib.Data.Nat.Basic

/-!
# Tapes

A tape holds files one after another, and the drive stands before one of them or behind the last.
What is written goes in the place of all files from there on. The device does not rewind by itself,
and at the end of the data a read gives nothing and a forward goes no further.
-/

namespace Tapes

universe u
variable {α : Type u}

structure Tape (α : Type u) where
  files : List α
  pos : Nat
  le : pos ≤ files.length

inductive Op (α : Type u)
  | rewind
  | forward (n : Nat)
  | write (file : α)
  | read

theorem length_take_concat {files : List α} {pos : Nat} (h : pos ≤ files.length) (file : α) :
    pos + 1 ≤ (files.take pos ++ [file]).length := by
  rw [List.length_append, List.length_take_of_le h, List.length_singleton]

namespace Tape

variable (t : Tape α)

/-- The tape with the drive before another file. -/
def seek (n : Nat) : Tape α := ⟨t.files, min n t.files.length, Nat.min_le_right _ _⟩

def step : Op α → Tape α
  | .rewind => t.seek 0
  | .forward n => t.seek (t.pos + n)
  | .write file => ⟨t.files.take t.pos ++ [file], t.pos + 1, length_take_concat t.le file⟩
  | .read => t.seek (t.pos + 1)

/-- What an operation brings from the tape. -/
def out : Op α → List (Option α)
  | .read => [t.files[t.pos]?]
  | .rewind | .forward _ | .write _ => []

/-- A run: what is read, and the tape after it. -/
def run (t : Tape α) : List (Op α) → List (Option α) × Tape α
  | [] => ([], t)
  | op :: ops => (t.out op ++ (run (t.step op) ops).1, (run (t.step op) ops).2)

end Tape

section Runs

variable {t : Tape α}

theorem run_append (t : Tape α) (ops ops' : List (Op α)) :
    t.run (ops ++ ops') =
      ((t.run ops).1 ++ ((t.run ops).2.run ops').1, ((t.run ops).2.run ops').2) := by
  induction ops generalizing t with
  | nil => rfl
  | cons op ops ih => simp only [List.cons_append, Tape.run, ih, List.append_assoc]

theorem run_write (file : α) (ops : List (Op α)) :
    t.run (.write file :: ops) = (t.step (.write file)).run ops := rfl

/-- Files that are written take the place of all that came next. -/
theorem run_writes (t : Tape α) {files : List α} (hne : files ≠ []) :
    (t.run (files.map .write)).1 = [] ∧
      (t.run (files.map .write)).2.files = t.files.take t.pos ++ files := by
  induction files generalizing t with
  | nil => exact absurd rfl hne
  | cons file files ih =>
    rw [List.map_cons, run_write]
    cases files with
    | nil => exact ⟨rfl, rfl⟩
    | cons next files =>
      obtain ⟨hout, hfiles⟩ := ih (t.step (.write file)) (List.cons_ne_nil _ _)
      have hall : (t.step (.write file)).files.take (t.step (.write file)).pos =
          t.files.take t.pos ++ [file] := by
        apply List.take_of_length_le
        simp [Tape.step, t.le]
      rw [hall, List.append_assoc] at hfiles
      exact ⟨hout, hfiles⟩

@[simp] theorem seek_files (t : Tape α) (n : Nat) : (t.seek n).files = t.files := rfl

/-- To seek from a place is to seek from the beginning. -/
theorem seek_seek (t : Tape α) (n k : Nat) :
    (t.seek n).seek ((t.seek n).pos + k) = t.seek (n + k) := by
  simp only [Tape.seek, Tape.mk.injEq, true_and]
  omega

theorem getElem?_seek (t : Tape α) (n : Nat) : (t.seek n).files[(t.seek n).pos]? = t.files[n]? := by
  simp only [Tape.seek]
  by_cases h : n ≤ t.files.length
  · rw [Nat.min_eq_left h]
  · rw [Nat.min_eq_right (by omega), List.getElem?_eq_none (Nat.le_refl _),
      List.getElem?_eq_none (by omega)]

theorem run_seek_forward (n k : Nat) (ops : List (Op α)) :
    (t.seek n).run (.forward k :: ops) = (t.seek (n + k)).run ops := by
  rw [Tape.run, Tape.step, seek_seek]
  rfl

theorem run_seek_read (n : Nat) (ops : List (Op α)) :
    (t.seek n).run (.read :: ops) =
      (t.files[n]? :: ((t.seek (n + 1)).run ops).1, ((t.seek (n + 1)).run ops).2) := by
  rw [Tape.run, Tape.step, Tape.out, getElem?_seek, seek_seek]
  rfl

theorem run_rewind (ops : List (Op α)) : t.run (.rewind :: ops) = (t.seek 0).run ops := rfl

/-- Reads give the files one after another. -/
theorem run_reads (n k : Nat) :
    (t.seek n).run (List.replicate k .read) =
      ((List.range' n k).map fun j => t.files[j]?, t.seek (n + k)) := by
  induction k generalizing n with
  | zero => rfl
  | succ k ih =>
    rw [List.replicate_succ, run_seek_read, ih, List.range'_succ, List.map_cons,
      Nat.add_right_comm, Nat.add_assoc]

end Runs

end Tapes
