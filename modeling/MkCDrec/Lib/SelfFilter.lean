import MkCDrec.Lib.ShellText
import Mathlib.Logic.Relation

/-!
# A file that is filtered into itself

In `cat F | filter > F` one process reads the file block by block into a pipe, and another
makes it empty before it starts the filter, which reads the pipe and writes to the file. Nothing
orders the two.
-/

namespace SelfFilter

universe u
variable {α : Type u}

/-- What a filter may have written of its output while more can come, and all of it at the end. -/
structure StreamFilter (α : Type u) where
  emit : List α → List α
  result : List α → List α
  emit_append : ∀ s t, emit s <+: emit (s ++ t)
  length_emit : ∀ s, (emit s).length ≤ s.length

structure State (α : Type u) where
  file : List α
  /-- What the reader has read. -/
  offset : Nat
  ended : Bool
  pipe : List α
  opened : Bool
  /-- What the filter has read. -/
  input : List α
  finished : Bool

def start (file : List α) : State α := ⟨file, 0, false, [], false, [], false⟩

/-- The next block of the file. -/
def State.chunk (s : State α) (b : Nat) : List α := (s.file.drop s.offset).take b

inductive Step (f : StreamFilter α) (b : Nat) : State α → State α → Prop
  | truncate {s} (h : s.opened = false) : Step f b s { s with file := [], opened := true }
  | read {s} (h : s.ended = false) (hchunk : s.chunk b ≠ []) :
    Step f b s { s with offset := s.offset + (s.chunk b).length, pipe := s.pipe ++ s.chunk b }
  | endOfFile {s} (h : s.ended = false) (hchunk : s.chunk b = []) :
    Step f b s { s with ended := true }
  | receive {s} (h : s.opened = true) (hfinished : s.finished = false) (n : Nat) :
    Step f b s { s with input := s.input ++ s.pipe.take n, pipe := s.pipe.drop n }
  | write {s} (h : s.opened = true) (hfinished : s.finished = false) (n : Nat)
    (hn : s.file.length ≤ n) : Step f b s { s with file := (f.emit s.input).take n }
  | finish {s} (h : s.opened = true) (hended : s.ended = true) (hpipe : s.pipe = [])
    (hfinished : s.finished = false) :
    Step f b s { s with file := f.result s.input, finished := true }

def Reaches (f : StreamFilter α) (b : Nat) : State α → State α → Prop :=
  Relation.ReflTransGen (Step f b)

/-- A run that is finished leaves this in the file. -/
def Leaves (f : StreamFilter α) (b : Nat) (file left : List α) : Prop :=
  ∃ s, Reaches f b (start file) s ∧ s.finished = true ∧ s.file = left

section Runs

variable {f : StreamFilter α} {b : Nat} {file : List α} {s t : State α}

/-- After `k` blocks: the reader gets nothing that the filter wrote. -/
structure After (f : StreamFilter α) (b : Nat) (file : List α) (k : Nat) (s : State α) : Prop where
  offset : s.offset = (file.take (k * b)).length
  passed : s.input ++ s.pipe = file.take (k * b)
  before : s.opened = false → s.file = file ∧ s.input = [] ∧ s.finished = false
  written : s.opened = true → s.finished = false → s.file <+: f.emit s.input
  done : s.finished = true → s.ended = true ∧ s.file = f.result (file.take (k * b))

theorem After.chunk_of_opened {k : Nat} (h : After f b file k s) (hopened : s.opened = true)
    (hended : s.ended = false) : s.chunk b = [] := by
  have hfinished : s.finished = false := by
    cases hf : s.finished with
    | false => rfl
    | true =>
      rw [(h.done hf).1] at hended
      cases hended
  have hfile : s.file.length ≤ s.offset := by
    have hwritten := (h.written hopened hfinished).length_le
    have hemit := f.length_emit s.input
    have hpassed := congrArg List.length h.passed
    rw [List.length_append, ← h.offset] at hpassed
    omega
  rw [State.chunk, List.drop_eq_nil_of_le hfile, List.take_nil]

theorem take_succ_mul (file : List α) (k b : Nat) :
    file.take ((k + 1) * b) = file.take (k * b) ++ (file.drop (file.take (k * b)).length).take b := by
  rw [Nat.succ_mul, List.take_add]
  rcases Nat.le_total (k * b) file.length with h | h
  · rw [List.length_take_of_le h]
  · rw [List.length_take, Nat.min_eq_right h, List.drop_eq_nil_of_le h, List.drop_length]

theorem After.step {k : Nat} (h : After f b file k s) (hstep : Step f b s t) :
    ∃ k, After f b file k t := by
  cases hstep with
  | truncate hopened =>
    obtain ⟨_, hinput, hfinished⟩ := h.before hopened
    refine ⟨k, h.offset, h.passed, by simp, fun _ _ => List.nil_prefix, ?_⟩
    intro hf
    rw [hfinished] at hf
    cases hf
  | read hended hchunk =>
    cases hopened : s.opened with
    | true => exact absurd (h.chunk_of_opened hopened hended) hchunk
    | false =>
      obtain ⟨hfile, hinput, hfinished⟩ := h.before hopened
      have hnext : file.take ((k + 1) * b) = file.take (k * b) ++ s.chunk b := by
        rw [take_succ_mul, State.chunk, hfile, h.offset]
      refine ⟨k + 1, ?_, ?_, fun _ => ⟨hfile, hinput, hfinished⟩, by simp, ?_⟩
      · rw [hnext, List.length_append, h.offset]
      · rw [hnext, ← h.passed, List.append_assoc]
      · intro hf
        rw [hfinished] at hf
        cases hf
  | endOfFile hended hchunk =>
    refine ⟨k, h.offset, h.passed, h.before, h.written, ?_⟩
    intro hf
    exact ⟨rfl, (h.done hf).2⟩
  | receive hopened hfinished n =>
    refine ⟨k, h.offset, ?_, ?_, ?_, ?_⟩
    · rw [List.append_assoc, List.take_append_drop, h.passed]
    · intro hnot
      rw [hopened] at hnot
      cases hnot
    · intro _ _
      exact (h.written hopened hfinished).trans (f.emit_append _ _)
    · intro hf
      rw [hfinished] at hf
      cases hf
  | write hopened hfinished n hn =>
    refine ⟨k, h.offset, h.passed, ?_, fun _ _ => List.take_prefix n _, ?_⟩
    · intro hnot
      rw [hopened] at hnot
      cases hnot
    · intro hf
      rw [hfinished] at hf
      cases hf
  | finish hopened hended hpipe hfinished =>
    have hinput : s.input = file.take (k * b) := by
      rw [← h.passed, hpipe, List.append_nil]
    refine ⟨k, h.offset, h.passed, ?_, by simp, fun _ => ⟨hended, by rw [hinput]⟩⟩
    intro hnot
    rw [hopened] at hnot
    cases hnot

theorem after_start (f : StreamFilter α) (b : Nat) (file : List α) :
    After f b file 0 (start file) := by
  constructor <;> simp [start]

theorem after_of_reaches (h : Reaches f b (start file) s) : ∃ k, After f b file k s := by
  induction h with
  | refl => exact ⟨0, after_start f b file⟩
  | tail _ hstep ih =>
    obtain ⟨k, hk⟩ := ih
    exact hk.step hstep

theorem reaches_read (f : StreamFilter α) (b : Nat) (file : List α) (k : Nat) :
    Reaches f b (start file)
      ⟨file, (file.take (k * b)).length, false, file.take (k * b), false, [], false⟩ := by
  induction k with
  | zero =>
    have hzero : file.take (0 * b) = [] := by simp
    rw [hzero]
    exact Relation.ReflTransGen.refl
  | succ k ih =>
    have hnext := take_succ_mul file k b
    by_cases hchunk : (file.drop (file.take (k * b)).length).take b = []
    · rw [hchunk, List.append_nil] at hnext
      rw [hnext]
      exact ih
    · refine ih.tail ?_
      rw [hnext, List.length_append]
      exact Step.read rfl hchunk

/-- The file may end up with the output for any number of blocks, also for none. -/
theorem leaves_iff {left : List α} :
    Leaves f b file left ↔ ∃ k, left = f.result (file.take (k * b)) := by
  constructor
  · rintro ⟨s, hs, hfinished, rfl⟩
    obtain ⟨k, hk⟩ := after_of_reaches hs
    exact ⟨k, (hk.done hfinished).2⟩
  · rintro ⟨k, rfl⟩
    refine ⟨⟨f.result (file.take (k * b)), (file.take (k * b)).length, true, [], true,
      file.take (k * b), true⟩, ?_, rfl, rfl⟩
    have hopen := (reaches_read f b file k).tail (Step.truncate rfl)
    have hend := hopen.tail (Step.endOfFile rfl (by simp [State.chunk]))
    have hreceive := hend.tail (Step.receive rfl rfl (file.take (k * b)).length)
    simp only [List.nil_append, List.take_length, List.drop_length] at hreceive
    exact hreceive.tail (Step.finish rfl rfl rfl rfl)

end Runs

end SelfFilter
