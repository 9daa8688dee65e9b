import MkCDrec.Lib.SelfFilter

/-!
# Lines of a text

A text that is cut off anywhere ends in a line without its newline, which a filter of lines
takes for a whole one at the end of its input.
-/

namespace Lines

open ShellText SelfFilter

def unlines (ls : List Text) : Text := ls.flatMap (· ++ ['\n'])

/-- The lines that end in a newline. -/
def complete (s : Text) : List Text := (s.splitOn '\n').dropLast

/-- What stands behind the last newline. -/
def unfinished (s : Text) : Text := (s.splitOn '\n').getLastD []

def lines (s : Text) : List Text := complete s ++ if unfinished s = [] then [] else [unfinished s]

section Cut

variable {c : Char} {s t l : Text} {ls : List Text}

theorem complete_cons (c : Char) (s : Text) : complete (c :: s) =
    if c = '\n' then [] :: complete s else (complete s).modifyHead (c :: ·) := by
  obtain ⟨w, ws, hws⟩ := List.exists_cons_of_ne_nil (List.splitOn_ne_nil '\n' s)
  rw [complete, complete, List.splitOn_cons_eq_if_modifyHead, hws]
  by_cases hc : c = '\n'
  · simp [hc]
  · cases ws <;> simp [hc]

theorem unfinished_cons (c : Char) (s : Text) : unfinished (c :: s) =
    if c ≠ '\n' ∧ complete s = [] then c :: unfinished s else unfinished s := by
  obtain ⟨w, ws, hws⟩ := List.exists_cons_of_ne_nil (List.splitOn_ne_nil '\n' s)
  rw [unfinished, unfinished, complete, List.splitOn_cons_eq_if_modifyHead, hws]
  by_cases hc : c = '\n'
  · simp [hc]
  · cases ws <;> simp [hc]

theorem unlines_complete (s : Text) : unlines (complete s) ++ unfinished s = s := by
  induction s with
  | nil => rfl
  | cons c s ih =>
    rw [complete_cons, unfinished_cons]
    by_cases hc : c = '\n'
    · simpa [hc, unlines] using ih
    · cases hs : complete s with
      | nil => simpa [hc, hs, unlines] using ih
      | cons w ws => simpa [hc, hs, unlines] using ih

theorem complete_append (s t : Text) : complete s <+: complete (s ++ t) := by
  induction s with
  | nil => exact List.nil_prefix
  | cons c s ih =>
    obtain ⟨r, hr⟩ := ih
    rw [List.cons_append, complete_cons, complete_cons, ← hr]
    split
    · exact ⟨r, by simp⟩
    · cases complete s with
      | nil => exact List.nil_prefix
      | cons w ws => exact ⟨r, by simp⟩

theorem notMem_of_mem_lines (h : l ∈ lines s) : '\n' ∉ l := by
  have hsplit : l ∈ s.splitOn '\n' := by
    rw [lines, List.mem_append] at h
    rcases h with h | h
    · exact List.mem_of_mem_dropLast h
    · split at h
      · cases h
      · obtain ⟨w, ws, hws⟩ := List.exists_cons_of_ne_nil (List.splitOn_ne_nil '\n' s)
        obtain rfl := List.mem_singleton.mp h
        have hlast : (w :: ws).getLastD [] = (w :: ws).getLast (List.cons_ne_nil w ws) := by
          simp [List.getLastD_eq_getLast?, List.getLast?_eq_some_getLast]
        rw [unfinished, hws, hlast]
        exact List.getLast_mem _
  exact notMem_of_mem_splitOn hsplit

theorem lines_unlines (h : ∀ l ∈ ls, '\n' ∉ l) : lines (unlines ls) = ls := by
  have hsplit : (unlines ls).splitOn '\n' = ls ++ [[]] := by
    induction ls with
    | nil => rfl
    | cons l ls ih =>
      obtain ⟨hl, hls⟩ := List.forall_mem_cons.mp h
      have hcons : unlines (l :: ls) = l ++ '\n' :: unlines ls := by
        simp [unlines]
      rw [hcons, List.splitOn_append_cons_self_of_not_mem hl, ih hls, List.cons_append]
  simp [lines, complete, unfinished, hsplit]

theorem length_unlines_filter_le (keep : Text → Bool) (ls : List Text) :
    (unlines (ls.filter keep)).length ≤ (unlines ls).length := by
  induction ls with
  | nil => exact le_rfl
  | cons l ls ih =>
    have hcons : ∀ ls, (unlines (l :: ls)).length = l.length + 1 + (unlines ls).length := by
      intro ls
      simp only [unlines, List.flatMap_cons, List.length_append, List.length_singleton]
    rw [List.filter_cons, hcons]
    split
    · rw [hcons]
      omega
    · omega

end Cut

/-- A filter that keeps some lines, like `grep -v`. -/
def lineFilter (keep : Text → Bool) : StreamFilter Char where
  emit s := unlines ((complete s).filter keep)
  result s := unlines ((lines s).filter keep)
  emit_append s t := by
    obtain ⟨r, hr⟩ := complete_append s t
    rw [← hr]
    exact ⟨unlines (r.filter keep), by simp [unlines]⟩
  length_emit s := by
    have hle := length_unlines_filter_le keep (complete s)
    have hlength := congrArg List.length (unlines_complete s)
    rw [List.length_append] at hlength
    omega

theorem lines_result (keep : Text → Bool) (s : Text) :
    lines ((lineFilter keep).result s) = (lines s).filter keep := by
  apply lines_unlines
  intro l hl
  exact notMem_of_mem_lines (List.mem_of_mem_filter hl)

end Lines
