import Mathlib.Algebra.GroupWithZero.Nat
import Mathlib.Algebra.BigOperators.Group.List.Basic
import MkCDrec.Cloning
import MkCDrec.TapeRecovery

/-!
# Cloning a disk from a tape

`tar-it.sh` writes the archives in the order of the lines, whatever disk they are on.
`clone-dsk.sh` skips as many tape files as there are lines on the disks that `ls` lists before the
source disk, and then reads one file after another for the lines of that disk. The tape drive is one
of this machine, and all partitions are restored.
-/

namespace TapeClone

open ShellText Table StartRestore Failures TapeOrder TapeRecovery Tapes Grouping

universe u

/-- `FSF`, counted in Step 4. -/
def fsf (disks : List Text) (table : List Line) (source : Text) : Nat :=
  ((disks.takeWhile fun d => d ≠ source).map fun d => (table.filter (grep d)).length).sum

/-- The lines for which a tape file is read: one of an unknown type ends the loop. -/
def restored (table : List Line) (source : Text) : List Line :=
  (cloneLines table source).takeWhile known

variable {α : Type u}

/-- `clone-dsk.sh`: Step 2 positions the tape, the first round forwards it. -/
def clone (mode : Mode) (disks : List Text) (table : List Line) (source : Text) :
    List (Op (File α)) :=
  .rewind :: ((if mode = .obdr then [.forward 3] else []) ++
    if cloneLines table source = [] then []
    else .forward (fsf disks table source) ::
      List.replicate (restored table source).length .read)

/-- What has to come from the tape. -/
def wanted (mode : Mode) (table : List Line) (source : Text) : List (Option (File α)) :=
  (if mode = .obdr then [some .rootBase] else []) ++
    (restored table source).map fun l => some (.archive (table.idxOf l))

/-- The place of the disk of a line in the list. -/
def diskOf (disks : List Text) (l : Line) : Nat := disks.findIdx fun d => grep d l

/-- Disks whose names tell the lines apart, without LVM. -/
structure Plain (disks : List Text) (table : List Line) : Prop where
  nodup : disks.Nodup
  once : table.Nodup
  known : ∀ l ∈ table, known l = true
  mapper : ∀ l ∈ table, grep "mapper".toList l = false
  disk : ∀ l ∈ table, ∃ d ∈ disks, ∀ d' ∈ disks, grep d' l = true ↔ d' = d

section Lines

variable {disks : List Text} {table : List Line} {l : Line} {k : Nat}

/-- The rounds of `clone-dsk.sh` in which something is restored are those in which a tape file is
read. -/
theorem restored_eq_rounds (s : Cloning.Session) (hall : ∀ i, s.clone.wanted i = true)
    (hdev : ∀ l ∈ s.machine.table, l.dev ≠ []) :
    restored s.machine.table s.clone.source.name =
      (s.clone.lines.filter fun p => s.clone.wanted p.2 && known p.1).map Prod.fst := by
  have hmapped : ((cloneLines s.clone.table s.clone.source.name).takeWhile
      fun l => s.clone.sdev l.dev ≠ []) = cloneLines s.machine.table s.clone.source.name := by
    rw [s.table_eq, List.takeWhile_eq_self_iff]
    intro l hl
    rw [Cloning.sdev_eq]
    simpa using hdev l (Cloning.mem_cloneLines hl)
  rw [Targets.Clone.lines, hmapped, restored]
  simp only [hall, Bool.true_and]
  have hloop : ∀ (ls : List Line) (n : Nat), ls.takeWhile known =
      ((upTo (fun p : Line × Nat => !known p.1) (ls.zipIdx n)).filter fun p => known p.1).map
        Prod.fst := by
    intro ls
    induction ls with
    | nil => intro n; rfl
    | cons l ls ih =>
      intro n
      rw [List.zipIdx_cons, upTo]
      by_cases hknown : known l = true
      · simp [hknown, ← ih]
      · simp [hknown]
  exact hloop _ 0

theorem grep_iff (h : Plain disks table) (hl : l ∈ table) (hk : k < disks.length) :
    grep disks[k] l = true ↔ diskOf disks l = k := by
  obtain ⟨d, hd, hone⟩ := h.disk l hl
  have hfind : ∃ d ∈ disks, grep d l = true := ⟨d, hd, (hone d hd).mpr rfl⟩
  have hlt : diskOf disks l < disks.length := List.findIdx_lt_length.mpr hfind
  have hown : disks[diskOf disks l] = d :=
    (hone _ (List.getElem_mem hlt)).mp (List.findIdx_getElem (w := hlt))
  rw [hone _ (List.getElem_mem hk), ← hown, h.nodup.getElem_inj_iff]
  exact eq_comm

theorem cloneLines_eq (h : Plain disks table) (source : Text) :
    cloneLines table source = table.filter (grep source) := by
  have hmapper : table.filter (grep "mapper".toList) = [] := by
    rw [List.filter_eq_nil_iff]
    intro l hl
    rw [h.mapper l hl]
    exact Bool.false_ne_true
  rw [cloneLines, hmapper]
  split
  · rename_i hnil
    exact hnil.symm
  · rw [List.append_nil]

theorem restored_eq (h : Plain disks table) (source : Text) :
    restored table source = table.filter (grep source) := by
  rw [restored, cloneLines_eq h, List.takeWhile_eq_self_iff]
  intro l hl
  exact h.known l (List.mem_filter.mp hl).1

/-- The tape files of the lines of a disk. -/
theorem map_idxOf_filter {p : Line → Bool} (hnodup : table.Nodup) :
    (table.filter p).map table.idxOf = (table.zipIdx.filter fun x => p x.1).map Prod.snd := by
  have hfst : table.filter p = (table.zipIdx.filter fun x => p x.1).map Prod.fst := by
    have hzip : table = table.zipIdx.map Prod.fst := (List.zipIdx_map_fst 0 table).symm
    conv_lhs => rw [hzip]
    rw [List.filter_map]
    rfl
  rw [hfst, List.map_map]
  apply List.map_congr_left
  rintro ⟨l, i⟩ hx
  have hget : table[i]? = some l := List.mem_zipIdx_iff_getElem?.mp (List.mem_filter.mp hx).1
  obtain ⟨hi, rfl⟩ := List.getElem?_eq_some_iff.mp hget
  exact hnodup.idxOf_getElem _ _

theorem map_idxOf_restored (h : Plain disks table) (hk : k < disks.length) :
    (restored table disks[k]).map table.idxOf = positions (table.map (diskOf disks)) k := by
  rw [restored_eq h, map_idxOf_filter h.once, positions, List.zipIdx_map, List.filter_map,
    List.map_map]
  have hfilter : (table.zipIdx.filter fun x => grep disks[k] x.1) =
      table.zipIdx.filter fun x => diskOf disks x.1 = k := by
    apply List.filter_congr
    rintro ⟨l, i⟩ hx
    have hl : l ∈ table := List.mem_of_getElem? (List.mem_zipIdx_iff_getElem?.mp hx)
    rw [Bool.eq_iff_iff, grep_iff h hl hk, decide_eq_true_eq]
  rw [hfilter]
  rfl

theorem length_filter_grep (h : Plain disks table) (hk : k < disks.length) :
    (table.filter (grep disks[k])).length = (table.map (diskOf disks)).count k := by
  rw [← List.countP_eq_length_filter, List.count, List.countP_map]
  apply List.countP_congr
  intro l hl
  rw [grep_iff h hl hk]
  simp

/-- `FSF` counts the lines on the disks before the source disk. -/
theorem fsf_eq (h : Plain disks table) (hk : k < disks.length) :
    fsf disks table disks[k] = (table.map (diskOf disks)).countP (· < k) := by
  have htake := takeWhile_ne h.nodup (List.getElem?_eq_getElem hk)
  rw [fsf, htake, ← sum_count]
  congr 1
  apply List.ext_getElem
  · simp; omega
  · intro j hj _
    simp only [List.length_map, List.length_take] at hj
    simp only [List.getElem_map, List.getElem_take, List.getElem_range]
    exact length_filter_grep h (by omega)

end Lines

section Tape

variable {t : Tape (File α)} {mode : Mode} {disks : List Text} {table : List Line} {k : Nat}

/-- The files that are read. -/
theorem run_clone (t : Tape (File α)) (mode : Mode) (disks : List Text) (table : List Line)
    (source : Text) :
    (t.run (boot mode ++ clone mode disks table source)).1 =
      (if mode = .obdr then [t.files[2]?] else []) ++
        (List.range' ((if mode = .obdr then 3 else 0) + fsf disks table source)
          (restored table source).length).map fun j => t.files[j]? := by
  rw [clone, run_boot]
  by_cases hnil : cloneLines table source = []
  · rw [if_pos hnil, restored, hnil]
    rfl
  · rw [if_neg hnil, run_seek_forward, run_reads]

/-- Reads that begin at the archives, for one disk. -/
theorem reads_disk_iff (h : Plain disks table) (hk : k < disks.length) (front : List (File α)) :
    ((List.range' (front.length + fsf disks table disks[k]) (restored table disks[k]).length).map
        fun j => (front ++ (writeTape table).map File.archive)[j]?) =
      ((restored table disks[k]).map fun l => some (.archive (table.idxOf l))) ↔
      positions (table.map (diskOf disks)) k =
        List.range' ((table.map (diskOf disks)).countP (· < k))
          ((table.map (diskOf disks)).count k) := by
  have hin : ∀ i ∈ positions (table.map (diskOf disks)) k, i < table.length := by
    intro i hi
    have hsome := List.getElem?_eq_some_iff.mp (mem_positions.mp hi)
    simpa using hsome.1
  have hmap :
      ((restored table disks[k]).map fun l => some (File.archive (α := α) (table.idxOf l))) =
        (positions (table.map (diskOf disks)) k).map fun i => some (.archive i) := by
    rw [← map_idxOf_restored h hk, List.map_map]
    rfl
  have hlen : (restored table disks[k]).length =
      (positions (table.map (diskOf disks)) k).length := by
    rw [← map_idxOf_restored h hk, List.length_map]
  rw [hmap, hlen, fsf_eq h hk, ← length_positions, ← zipIdx_eq_iff, ← reads_from_iff front _ hin,
    ← List.zipIdx_map_snd, List.map_map]
  rfl

theorem diskOf_lt (h : Plain disks table) {i : Nat} (hi : i ∈ table.map (diskOf disks)) :
    i < disks.length := by
  obtain ⟨l, hl, rfl⟩ := List.mem_map.mp hi
  obtain ⟨d, hd, hone⟩ := h.disk l hl
  exact List.findIdx_lt_length.mpr ⟨d, hd, (hone d hd).mpr rfl⟩

/-- Reads that begin at the archives, for every disk. -/
theorem reads_disks_iff (h : Plain disks table) (front : List (File α)) :
    (∀ source ∈ disks, ((List.range' (front.length + fsf disks table source)
        (restored table source).length).map
          fun j => (front ++ (writeTape table).map File.archive)[j]?) =
        (restored table source).map fun l => some (.archive (table.idxOf l))) ↔
      (table.map (diskOf disks)).Pairwise (· ≤ ·) := by
  rw [← positions_eq_range_iff, List.forall_mem_iff_getElem]
  constructor
  · intro hreads k
    by_cases hk : k < disks.length
    · exact (reads_disk_iff h hk front).mp (hreads k hk)
    · have hnone : k ∉ table.map (diskOf disks) := fun hmem => hk (diskOf_lt h hmem)
      have hzero : (table.map (diskOf disks)).count k = 0 := List.count_eq_zero.mpr hnone
      have hlen := length_positions (table.map (diskOf disks)) k
      rw [hzero] at hlen ⊢
      exact List.length_eq_zero_iff.mp hlen
  · intro hpositions k hk
    exact (reads_disk_iff h hk front).mpr (hpositions k)

/-- A backup behind other files is not read: the first file of the tape is taken for the first
line on the first of the disks. -/
theorem old_file_read (h : Plain disks table) (hne : table ≠ []) {files : List (File α)}
    {a : File α} (hfirst : files[0]? = some a) (hold : ∀ i, a ≠ .archive i) :
    ∃ source ∈ disks, ((List.range' (0 + fsf disks table source)
        (restored table source).length).map fun j => files[j]?) ≠
      (restored table source).map fun l => some (.archive (table.idxOf l)) := by
  have hkeys : ∃ k, k ∈ table.map (diskOf disks) := by
    obtain ⟨l, ls, rfl⟩ := List.exists_cons_of_ne_nil hne
    exact ⟨_, List.mem_cons_self⟩
  have hmin : ∀ j ∈ table.map (diskOf disks), Nat.find hkeys ≤ j := fun j hj =>
    Nat.find_min' hkeys hj
  have hk := diskOf_lt h (Nat.find_spec hkeys)
  refine ⟨disks[Nat.find hkeys], List.getElem_mem hk, fun heq => ?_⟩
  have hzero : fsf disks table disks[Nat.find hkeys] = 0 := by
    rw [fsf_eq h hk, List.countP_eq_zero]
    intro j hj
    simpa using hmin j hj
  obtain ⟨l, hl, hlk⟩ := List.mem_map.mp (Nat.find_spec hkeys)
  have hmem : l ∈ restored table disks[Nat.find hkeys] := by
    rw [restored_eq h, List.mem_filter]
    exact ⟨hl, (grep_iff h hl hk).mpr hlk⟩
  obtain ⟨m, ms, hms⟩ := List.exists_cons_of_ne_nil (List.ne_nil_of_mem hmem)
  rw [hzero, hms, List.length_cons, List.range'_succ, List.map_cons, List.map_cons] at heq
  have hhead : files[0]? = some (.archive (table.idxOf m)) := (List.cons.inj heq).1
  rw [hfirst] at hhead
  exact hold _ (Option.some.inj hhead)

/-- Whatever disk is cloned, it gets the archives of its own file systems exactly if the lines
stand in the order of the disks, and the backup began at the beginning of the tape. -/
theorem clones_iff (h : Plain disks table) (hne : table ≠ []) (mode : Mode) (t : Tape (File α))
    (hold : ∀ i, File.archive i ∉ t.files) :
    (∀ source ∈ disks,
        ((t.run (backup mode table)).2.run (boot mode ++ clone mode disks table source)).1 =
          wanted mode table source) ↔
      (table.map (diskOf disks)).Pairwise (· ≤ ·) ∧ (mode ≠ .interactive ∨ t.pos = 0) := by
  have hfiles := backup_files (t := t) (written_ne_nil hne mode)
  rw [front] at hfiles
  simp only [run_clone, wanted]
  cases mode with
  | obdr =>
    have hreads := reads_disks_iff h [File.header, .image, (.rootBase : File α)]
    simp only [reduceCtorEq, if_false, if_true, List.nil_append] at hfiles ⊢
    rw [hfiles, ← hreads]
    simp
  | device =>
    have hreads := reads_disks_iff h ([] : List (File α))
    simp only [reduceCtorEq, if_false, List.nil_append] at hfiles ⊢
    rw [hfiles, ← hreads]
    simp
  | interactive =>
    simp only [reduceCtorEq, if_false, if_true, List.append_nil, List.nil_append] at hfiles ⊢
    by_cases hpos : t.pos = 0
    · have hreads := reads_disks_iff h ([] : List (File α))
      rw [hpos, List.take_zero] at hfiles
      rw [hfiles, ← hreads]
      simp [hpos]
    · have hlt : 0 < t.files.length := by have := t.le; omega
      have hfirst : (t.run (backup Mode.interactive table)).2.files[0]? = some t.files[0] := by
        rw [hfiles, List.getElem?_append_left (by rw [List.length_take_of_le t.le]; omega),
          List.getElem?_take_of_lt (by omega), List.getElem?_eq_getElem hlt]
      obtain ⟨source, hsource, hread⟩ := old_file_read h hne hfirst
        fun i heq => hold i (heq ▸ List.getElem_mem hlt)
      refine iff_of_false (fun hall => hread (hall source hsource)) ?_
      simp [hpos]

end Tape

def homeLine : Line := ⟨"/dev/hdb1".toList, "/home".toList, "ext3".toList, "rw".toList⟩

def rootLine : Line := ⟨"/dev/hda1".toList, "/".toList, "ext3".toList, "rw".toList⟩

def usrLine : Line := ⟨"/dev/hda5".toList, "/usr".toList, "ext3".toList, "rw".toList⟩

def ideDisks : List Text := ["hda".toList, "hdb".toList]

def newTape : Tape (File Nat) := ⟨[], 0, Nat.le_refl 0⟩

/-- With the lines in the order of the disks both disks can be cloned; if a file system of the
other disk is between two of the first one, one of them gets the files of another. -/
theorem usr_misread :
    (∀ source ∈ ideDisks, ((newTape.run (backup .device [rootLine, usrLine, homeLine])).2.run
        (boot .device ++ clone .device ideDisks [rootLine, usrLine, homeLine] source)).1 =
          wanted .device [rootLine, usrLine, homeLine] source) ∧
      ¬ ∀ source ∈ ideDisks, ((newTape.run (backup .device [rootLine, homeLine, usrLine])).2.run
        (boot .device ++ clone .device ideDisks [rootLine, homeLine, usrLine] source)).1 =
          wanted .device [rootLine, homeLine, usrLine] source := by
  have hold : ∀ i, File.archive i ∉ newTape.files := fun i => List.not_mem_nil
  have hplain : Plain ideDisks [rootLine, usrLine, homeLine] :=
    ⟨by decide, by decide, by decide +kernel, by decide +kernel, by decide +kernel⟩
  have hmixed : Plain ideDisks [rootLine, homeLine, usrLine] :=
    ⟨by decide, by decide, by decide +kernel, by decide +kernel, by decide +kernel⟩
  constructor
  · exact (clones_iff hplain (List.cons_ne_nil _ _) _ _ hold).mpr
      ⟨by decide +kernel, Or.inl (by decide)⟩
  · rw [clones_iff hmixed (List.cons_ne_nil _ _) _ _ hold]
    rintro ⟨hsorted, _⟩
    revert hsorted
    decide +kernel

end TapeClone
