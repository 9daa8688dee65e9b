import MkCDrec.Copying

/-!
# The parts that `cutstream` writes

What a run of `cutstream` leaves behind: the finished parts in their order, one for each call
of the image maker, and the part that is still open. A stream that was closed at a cut may
not be used again.
-/

namespace Parts

open ShellText Cutting Cutstream
open Copying (Opens)

structure Log where
  parts : List Bytes
  current : Bytes
  volno : Nat
  /-- The stream was closed at an earlier cut. -/
  stale : Bool
  /-- A closed stream was used. -/
  undefined : Bool

def fresh (volno : Nat) : Log :=
  { parts := [], current := [], volno, stale := false, undefined := false }

/-- The calls of `filepipe`, where those of `fopen` at cut number `k` return `opens k`. -/
def host (opens : Opens) : Host Log where
  fwrite := fun b w =>
    if b = [] then w
    else if w.stale then { w with undefined := true }
    else { w with current := w.current ++ b }
  putVolno := fun volno w =>
    if (opens w.parts.length).1 then some { w with volno := volno } else none
  -- `fclose`, and then the image maker
  system := fun w => { w with
    parts := w.parts ++ [w.current]
    current := []
    undefined := w.undefined || w.stale }
  reopen := fun w =>
    if (opens (w.parts.length - 1)).2 then some { w with stale := false } else none
  fwrite_nil := fun w => if_pos rfl
  fwrite_append := by
    intro a b w
    by_cases ha : a = []
    · rw [if_pos ha, ha, List.nil_append]
    · rw [if_neg ha]
      by_cases hb : b = []
      · rw [if_pos hb, hb, List.append_nil, if_neg ha]
      · have hab : a ++ b ≠ [] := fun h => ha (List.append_eq_nil_iff.mp h).1
        rw [if_neg hb, if_neg hab]
        cases w.stale with
        | true => simp
        | false => simp

section Calls

variable {opens : Opens} {volno : Nat} {b : Bytes} {w w' : Log}

/-- Writing finishes no part, and is undefined on a closed stream. -/
theorem fwrite_kept (opens : Opens) (b : Bytes) (w : Log) :
    ((host opens).fwrite b w).parts = w.parts ∧ ((host opens).fwrite b w).stale = w.stale ∧
      ((host opens).fwrite b w).undefined = (w.undefined || (decide (b ≠ []) && w.stale)) := by
  by_cases hb : b = []
  · simp [host, hb]
  · cases hw : w.stale with
    | true => simp [host, hb, hw]
    | false => simp [host, hb, hw]

theorem fwrite_open (hw : w.stale = false) :
    (host opens).fwrite b w = { w with current := w.current ++ b } := by
  by_cases hb : b = []
  · subst hb
    rw [(host opens).fwrite_nil, List.append_nil]
  · simp [host, hb, hw]

/-- The log after a cut. -/
def Log.cut (w : Log) (volno : Nat) : Log :=
  { parts := w.parts ++ [w.current], current := [], volno, stale := false,
    undefined := w.undefined || w.stale }

/-- Everything that can happen at a cut. -/
theorem changeVolume_cases (opens : Opens) (volno : Nat) (w : Log) :
    ((opens w.parts.length).1 = false ∧
        changeVolume (host opens) volno w = .error (.code 1 w)) ∨
      ((opens w.parts.length).1 = true ∧ (opens w.parts.length).2 = false ∧
        changeVolume (host opens) volno w =
          .error (.code 10 { w.cut volno with stale := w.stale })) ∨
      ((opens w.parts.length).1 = true ∧ (opens w.parts.length).2 = true ∧
        changeVolume (host opens) volno w = .ok (w.cut volno)) := by
  cases hfirst : (opens w.parts.length).1 with
  | false =>
    left
    simp [changeVolume, host, hfirst]
  | true =>
    right
    cases hsecond : (opens w.parts.length).2 with
    | false =>
      left
      simp [changeVolume, host, Log.cut, hfirst, hsecond]
    | true =>
      right
      simp [changeVolume, host, Log.cut, hfirst, hsecond]

theorem changeVolume_ok (h : changeVolume (host opens) volno w = .ok w') : w' = w.cut volno := by
  rcases changeVolume_cases opens volno w with ⟨_, heq⟩ | ⟨_, _, heq⟩ | ⟨_, _, heq⟩
  · rw [heq] at h
    cases h
  · rw [heq] at h
    cases h
  · rw [heq] at h
    exact (Except.ok.inj h).symm

/-- All files can be opened. -/
def healthy : Opens := fun _ => (true, true)

theorem changeVolume_healthy (volno : Nat) (w : Log) :
    changeVolume (host healthy) volno w = .ok (w.cut volno) := by
  rcases changeVolume_cases healthy volno w with ⟨hfalse, _⟩ | ⟨_, hfalse, _⟩ | ⟨_, _, heq⟩
  · cases hfalse
  · cases hfalse
  · exact heq

/-- With an empty part open the pieces become the next parts. -/
theorem cutAll_open (ps : List Bytes) (volno : Nat) {w : Log} (hstale : w.stale = false)
    (hcurrent : w.current = []) :
    ∃ w', cutAll (host healthy) volno ps w = .ok w' ∧ w'.parts = w.parts ++ ps ∧
      w'.current = [] ∧ w'.stale = false ∧ w'.undefined = w.undefined := by
  induction ps generalizing volno w with
  | nil => exact ⟨w, rfl, (List.append_nil _).symm, hcurrent, hstale, rfl⟩
  | cons p ps ih =>
    obtain ⟨w', hrun, hparts, hempty, hopen, hdefined⟩ :=
      ih (volno + 1) (w := ((host healthy).fwrite p w).cut (volno + 1)) rfl rfl
    refine ⟨w', ?_, ?_, hempty, hopen, ?_⟩
    · rw [cutAll, changeVolume_healthy]
      exact hrun
    · rw [hparts, fwrite_open hstale, Log.cut, hcurrent, List.nil_append, List.append_assoc,
        List.singleton_append]
    · rw [hdefined, fwrite_open hstale, Log.cut, hstale, Bool.or_false]

/-- The first piece goes to what is in the open part already. -/
theorem cutAll_healthy (volno : Nat) (p : Bytes) (ps : List Bytes) (w : Log) :
    ∃ w', cutAll (host healthy) volno (p :: ps) w = .ok w' ∧
      w'.parts = ((host healthy).fwrite p w).parts ++ ((host healthy).fwrite p w).current :: ps ∧
      w'.current = [] ∧ w'.stale = false ∧
      w'.undefined =
        (((host healthy).fwrite p w).undefined || ((host healthy).fwrite p w).stale) := by
  obtain ⟨w', hrun, hparts, hempty, hopen, hdefined⟩ := cutAll_open ps (volno + 1)
    (w := ((host healthy).fwrite p w).cut (volno + 1)) rfl rfl
  refine ⟨w', ?_, ?_, hempty, hopen, hdefined⟩
  · rw [cutAll, changeVolume_healthy]
    exact hrun
  · rw [hparts, Log.cut, List.append_assoc, List.singleton_append]

end Calls

end Parts
