import MkCDrec.Lib.Machine
import MkCDrec.SplitFile

/-!
# The loop of `split_file`

`split_file` runs `dd` once for each part and counts the bytes in whole blocks, so it stops
at the end of the file also where that is in the middle of a block. `restore_split_file`
finds the parts by their numbers.
-/

namespace Splitting

open Directory ShellText SplitFile Machine

/-- The directory and the variables of the loop. -/
structure Progress where
  dir : Files
  bytesRead : Nat
  partNum : Nat

def start (d : Files) : Progress := ⟨d, 0, 0⟩

/-- `dd` with blocks of 1024 bytes. -/
def dd (data : Bytes) (count skip : Nat) : Bytes :=
  (data.drop (skip * blockSize)).take (blockSize * count)

/-- One round of the loop, or its end. -/
def step (name : Text) (count fileInitSize : Nat) (s : Progress) : Except Unit Progress :=
  if s.bytesRead < fileInitSize then
    .ok {
      dir := s.dir.insert (partName name s.partNum)
        (dd ((s.dir.lookup name).getD []) count (s.bytesRead / blockSize))
      bytesRead := blockSize * count + s.bytesRead
      partNum := s.partNum + 1 }
  else .error ()

/-- How many parts there are. -/
def partCount (maxFileSize : Nat) (data : Bytes) : Nat :=
  (parts (maxFileSize / blockSize) data data.length 0).length

section Loop

variable {name : Text} {count : Nat} {data : Bytes}

/-- The rounds from a place on write what `parts` lists from there. -/
theorem stops_of_file (hcount : 0 < count) (fuel : Nat) {s : Progress}
    (hfile : s.dir.lookup name = some data) (hfuel : data.length ≤ s.bytesRead + fuel) :
    ∃ q, StopsIn (step name count data.length) s q () ∧
      q.dir = writeParts name s.partNum (parts count data fuel s.bytesRead) s.dir := by
  induction fuel generalizing s with
  | zero =>
    refine ⟨s, ⟨Reaches.refl, ?_⟩, rfl⟩
    rw [step, if_neg (by omega)]
  | succ fuel ih =>
    by_cases hlt : s.bytesRead < data.length
    · have hround : step name count data.length s = .ok {
          dir := s.dir.insert (partName name s.partNum)
            (dd data count (s.bytesRead / blockSize))
          bytesRead := blockSize * count + s.bytesRead
          partNum := s.partNum + 1 } := by
        rw [step, if_pos hlt, hfile, Option.getD_some]
      have hpos : 0 < blockSize * count := Nat.mul_pos (by decide) hcount
      -- the part does not replace the file that is read
      have hkept : (s.dir.insert (partName name s.partNum)
          (dd data count (s.bytesRead / blockSize))).lookup name = some data := by
        rw [AList.lookup_insert_ne (partName_ne_self name s.partNum).symm, hfile]
      obtain ⟨q, ⟨hreach, hstop⟩, hdir⟩ := ih (s := {
        dir := s.dir.insert (partName name s.partNum) (dd data count (s.bytesRead / blockSize))
        bytesRead := blockSize * count + s.bytesRead
        partNum := s.partNum + 1 }) hkept (by simp only; omega)
      refine ⟨q, ⟨Reaches.head hround hreach, hstop⟩, ?_⟩
      rw [hdir, parts, if_pos hlt, writeParts]
      rfl
    · refine ⟨s, ⟨Reaches.refl, ?_⟩, ?_⟩
      · rw [step, if_neg hlt]
      · rw [parts, if_neg hlt]
        rfl

theorem ne_nil_of_mem_parts {p : Bytes} (hcount : 0 < count) :
    ∀ fuel bytesRead, blockSize ∣ bytesRead → p ∈ parts count data fuel bytesRead → p ≠ [] := by
  intro fuel
  induction fuel with
  | zero => intro r _ h; cases h
  | succ fuel ih =>
    intro r hdvd h
    rw [parts] at h
    split at h
    · rename_i hlt
      rcases List.mem_cons.mp h with rfl | h
      · have hpos : 0 < blockSize * count := Nat.mul_pos (by decide) hcount
        rw [Nat.div_mul_cancel hdvd, ← List.length_pos_iff, List.length_take, List.length_drop]
        omega
      · exact ih _ (Nat.dvd_add (Nat.dvd_mul_right _ _) hdvd) h
    · cases h

end Loop

/-- `split_file` comes to an end, and `restore_split_file` puts the parts together again. The
name after the last part must not be in use. -/
theorem split_and_joined {maxFileSize : Nat} (hmax : 1024 ≤ maxFileSize) {d : Files} {name : Text}
    {data : Bytes} (hfile : d.lookup name = some data)
    (hnext : partName name (partCount maxFileSize data) ∉ d) :
    ∃ (q : Progress) (ps : List Bytes),
      StopsIn (step name (maxFileSize / blockSize) data.length) (start d) q () ∧
      splitFile maxFileSize name d = q.dir.insert name [] ∧
      (∀ n < ps.length, (splitFile maxFileSize name d).lookup (partName name n) = ps[n]?) ∧
      (∀ p ∈ ps, p.length ≤ maxFileSize ∧ p ≠ []) ∧ ps.flatten = data ∧
      cat (splitFile maxFileSize name d) name = data := by
  have hcount : 0 < maxFileSize / blockSize := Nat.div_pos hmax (by decide)
  obtain ⟨q, hstop, hdir⟩ := stops_of_file hcount data.length (s := start d) hfile
    (Nat.le_add_left ..)
  have hsplit : splitFile maxFileSize name d = q.dir.insert name [] := by
    simp only [splitFile, hfile, hdir, start]
  have hflatten : (parts (maxFileSize / blockSize) data data.length 0).flatten = data :=
    flatten_parts hcount _ 0 (Nat.dvd_zero _) (by omega)
  have hlookup : ∀ n ≤ (parts (maxFileSize / blockSize) data data.length 0).length,
      (splitFile maxFileSize name d).lookup (partName name n) =
        (parts (maxFileSize / blockSize) data data.length 0)[n]? := by
    intro n hn
    rw [hsplit, hdir, AList.lookup_insert_ne (partName_ne_self name n), lookup_writeParts]
    by_cases hlt : n < (parts (maxFileSize / blockSize) data data.length 0).length
    · rw [if_pos (by simp only [start]; omega)]
      rfl
    · have hlast : n = partCount maxFileSize data := by
        rw [partCount]
        omega
      rw [if_neg (by simp only [start]; omega), List.getElem?_eq_none (by omega), hlast]
      exact AList.lookup_eq_none.mpr hnext
  refine ⟨q, _, hstop, hsplit, fun n hn => hlookup n (Nat.le_of_lt hn), ?_, hflatten, ?_⟩
  · intro p hp
    refine ⟨?_, ne_nil_of_mem_parts hcount _ 0 (Nat.dvd_zero _) hp⟩
    exact (length_le_of_mem_parts _ _ hp).trans (Nat.mul_div_le maxFileSize blockSize)
  · have hself : (splitFile maxFileSize name d).lookup name = some [] := by
      rw [hsplit, AList.lookup_insert]
    exact (cat_of_parts hlookup hself).trans hflatten

/-- A file of one block and a byte more. -/
theorem split_and_joined_usr :
    cat (splitFile 1024 "usr.gz".toList ((∅ : Files).insert "usr.gz".toList
      (List.replicate 1025 7))) "usr.gz".toList = List.replicate 1025 7 := by
  have hcount : partCount 1024 (List.replicate 1025 7) = 2 := by decide +kernel
  obtain ⟨_, _, _, _, _, _, _, hcat⟩ := @split_and_joined 1024 (Nat.le_refl _)
    ((∅ : Files).insert "usr.gz".toList (List.replicate 1025 7)) "usr.gz".toList
    (List.replicate 1025 7) (AList.lookup_insert _) (by rw [hcount]; decide)
  exact hcat

end Splitting
