import MkCDrec.Lib.Tapes
import MkCDrec.TapeOrder

/-!
# Backup and recovery with a tape

`tar-it.sh` writes from where the tape stands. In the mode for a device the tape was rewound
before; for One Button Disaster Recovery `tar-it.sh` rewinds it itself, and puts a header, the
image and the root file system in front. The boot scripts and `start-restore.sh` count the files
from the beginning of the tape. The device is a local one that does not rewind.
-/

namespace TapeRecovery

open ShellText Table DiskInfo StartRestore TapeOrder Tapes

universe u

inductive Mode
  | interactive
  | device
  | obdr
deriving DecidableEq

/-- A file on a tape. -/
inductive File (α : Type u)
  | old (a : α)
  | header
  | image
  | rootBase
  | archive (line : Nat)

variable {α : Type u}

/-- What `tar-it.sh` writes. -/
def written (mode : Mode) (table : List Line) : List (File α) :=
  (if mode = .obdr then [.header, .image, .rootBase] else []) ++ (writeTape table).map .archive

/-- A backup, from the point where `rd-base.sh` has asked for the mode. -/
def backup (mode : Mode) (table : List Line) : List (Op (File α)) :=
  (if mode = .interactive then [] else [.rewind]) ++ (written mode table).map .write

/-- `linuxrc_find_and_prep_root`. -/
def boot (mode : Mode) : List (Op (File α)) :=
  if mode = .obdr then [.rewind, .forward 2, .read] else []

def readGroupOps (fsf : Nat) (g : List (Line × Nat)) : List (Op (File α)) :=
  if g = [] then [] else .forward fsf :: List.replicate (taken g).length .read

/-- Step 7, which forwards the tape in every group. -/
def step7 (fsf : Nat) (table : List Line) (files : List Text) : List (Op (File α)) :=
  files.flatMap fun file => readGroupOps fsf (group table file)

/-- `start-restore.sh` when the first `k` disks are declined. -/
def restore (mode : Mode) (rootFiles : List Text) (k : Nat) (r : Recovery) :
    List (Op (File α)) :=
  .rewind :: ((if mode = .obdr then [.forward 3] else []) ++
    step7 (step3 rootFiles ((ls r.disks).take k) (ls r.disks)) r.table (visible k r))

/-- What has to come from the tape. -/
def wanted (mode : Mode) (rootFiles : List Text) (k : Nat) (r : Recovery) :
    List (Option (File α)) :=
  (if mode = .obdr then [some .rootBase] else []) ++
    (startRestore rootFiles k r).map fun x => some (.archive x.line)

section Reading

variable {t : Tape (File α)} {table : List Line} {fsf q : Nat}

/-- A group reads the tape files that `readGroup` numbers. -/
theorem run_readGroupOps (t : Tape (File α)) (fsf q : Nat) (g : List (Line × Nat)) :
    (t.seek q).run (readGroupOps fsf g) =
      ((readGroup fsf g q).1.map fun x => t.files[x.tapeFile]?, t.seek (readGroup fsf g q).2) := by
  rw [readGroupOps, readGroup]
  by_cases hg : g = []
  · rw [if_pos hg, if_pos hg]
    rfl
  · rw [if_neg hg, if_neg hg, run_seek_forward, run_reads, readLines_eq, List.map_map,
      ← List.zipIdx_map_snd, List.map_map]
    rfl

theorem run_step7 (t : Tape (File α)) (fsf q : Nat) (table : List Line) (files : List Text) :
    ((t.seek q).run (step7 fsf table files)).1 =
      (readGroups fsf table files q).map fun x => t.files[x.tapeFile]? := by
  induction files generalizing q with
  | nil => rfl
  | cons file files ih =>
    rw [readGroups, List.map_append, ← ih]
    change ((t.seek q).run (readGroupOps fsf (group table file) ++ step7 fsf table files)).1 = _
    rw [run_append, run_readGroupOps]

/-- Numbered items are mapped alike exactly if each is, at its place. -/
theorem map_zipIdx_eq_iff {β : Type u} {f g : Nat → β} (l : List Nat) (s : Nat) :
    ((l.zipIdx s).map fun p => f p.2) = l.map g ↔ ∀ j a, l[j]? = some a → f (s + j) = g a := by
  induction l generalizing s with
  | nil => simp
  | cons b l ih =>
    rw [List.zipIdx_cons, List.map_cons, List.map_cons, List.cons.injEq, ih]
    constructor
    · rintro ⟨hhead, htail⟩ j a hj
      cases j with
      | zero =>
        obtain rfl := Option.some.inj hj
        exact hhead
      | succ j =>
        have h := htail j a hj
        rwa [Nat.add_right_comm, Nat.add_assoc] at h
    · intro h
      refine ⟨h 0 b rfl, fun j a hj => ?_⟩
      have h := h (j + 1) a hj
      rwa [Nat.add_right_comm, Nat.add_assoc]

theorem getElem?_writeTape (table : List Line) (j : Nat) :
    (writeTape table)[j]? = if j < table.length then some j else none := by
  rw [writeTape, List.zipIdx_map_snd]
  split
  · rename_i hj
    rw [List.getElem?_range' hj]
    simp
  · rename_i hj
    exact List.getElem?_eq_none (by rw [List.length_range']; omega)

/-- The archives behind other files. -/
theorem getElem?_archives (front : List (File α)) (table : List Line) (j : Nat) :
    (front ++ (writeTape table).map File.archive)[front.length + j]? =
      if j < table.length then some (.archive j) else none := by
  rw [List.getElem?_append_right (by omega), Nat.add_sub_cancel_left, List.getElem?_map,
    getElem?_writeTape]
  split <;> rfl

/-- Reads that begin at an archive. -/
theorem reads_from_iff (front : List (File α)) (n : Nat) {order : List Nat}
    (hin : ∀ i ∈ order, i < table.length) :
    ((order.zipIdx (front.length + n)).map fun p =>
        (front ++ (writeTape table).map File.archive)[p.2]?) =
      (order.map fun i => some (.archive i)) ↔ ∀ p ∈ order.zipIdx n, p.1 = p.2 := by
  rw [map_zipIdx_eq_iff]
  simp only [Nat.add_assoc, getElem?_archives]
  constructor
  · rintro h ⟨i, j⟩ hp
    obtain ⟨hle, hij⟩ := List.mem_zipIdx_iff_le_and_getElem?_sub.mp hp
    have h := h (j - n) i hij
    rw [Nat.add_sub_cancel' hle] at h
    split at h
    · exact (File.archive.inj (Option.some.inj h)).symm
    · cases h
  · intro h j i hij
    obtain rfl : i = n + j := by
      refine h (i, n + j) (List.mem_zipIdx_iff_le_and_getElem?_sub.mpr ⟨by omega, ?_⟩)
      rwa [Nat.add_sub_cancel_left]
    rw [if_pos (hin _ (List.mem_of_getElem? hij))]

theorem reads_own_iff (front : List (File α)) {order : List Nat}
    (hin : ∀ i ∈ order, i < table.length) :
    ((order.zipIdx front.length).map fun p =>
        (front ++ (writeTape table).map File.archive)[p.2]?) =
      (order.map fun i => some (.archive i)) ↔ ∀ p ∈ order.zipIdx, p.1 = p.2 :=
  reads_from_iff front 0 hin

end Reading

section Recovery

variable {t : Tape (File α)} {mode : Mode} {r : Recovery} {rootFiles : List Text} {k : Nat}

/-- The lines in the order of the reads. -/
def order (k : Nat) (r : Recovery) : List Nat :=
  (visible k r).flatMap fun file => taken (group r.table file)

theorem lt_of_mem_order {i : Nat} (h : i ∈ order k r) : i < r.table.length := by
  obtain ⟨file, _, hi⟩ := List.mem_flatMap.mp h
  obtain ⟨⟨l, hl, _⟩, _⟩ := mem_taken_group.mp hi
  exact (List.getElem?_eq_some_iff.mp hl).1

/-- Without a forward in Step 7 the reads are in this order. -/
theorem readGroups_eq (rootFiles : List Text) (k : Nat) (r : Recovery) (q : Nat) :
    readGroups (step3 rootFiles ((ls r.disks).take k) (ls r.disks)) r.table (visible k r) q =
      ((order k r).zipIdx q).map fun p => ⟨p.1, p.2⟩ := by
  by_cases hquit : ls r.disks ≠ [] ∧ (ls r.disks).drop k = []
  · have hnone : visible k r = [] := if_pos hquit
    rw [order, hnone]
    rfl
  · rw [not_and_or, not_not] at hquit
    rw [step3_eq_zero (nodup_ls _) hquit, readGroups_zero]
    rfl

theorem startRestore_lines (rootFiles : List Text) (k : Nat) (r : Recovery) :
    (startRestore rootFiles k r).map Read.line = order k r := by
  rw [startRestore, readGroups_eq, List.map_map]
  exact List.zipIdx_map_fst ..

/-- Where the first file is written. -/
def front (mode : Mode) (t : Tape (File α)) : List (File α) :=
  (if mode = .interactive then t.files.take t.pos else []) ++
    if mode = .obdr then [.header, .image, .rootBase] else []

theorem written_ne_nil {table : List Line} (hne : table ≠ []) (mode : Mode) :
    written (α := α) mode table ≠ [] := by
  obtain ⟨l, ls, rfl⟩ := List.exists_cons_of_ne_nil hne
  simp [written, writeTape]

theorem backup_files {table : List Line} (hne : written (α := α) mode table ≠ []) :
    (t.run (backup mode table)).2.files =
      front mode t ++ (writeTape table).map .archive := by
  rw [backup, front, List.append_assoc, run_append]
  split
  · exact (run_writes t hne).2
  · exact (run_writes (t.seek 0) hne).2

/-- The boot scripts, and then a script that positions the tape in Step 2. -/
theorem run_boot (t : Tape (File α)) (mode : Mode) (ops : List (Op (File α))) :
    (t.run (boot mode ++ .rewind :: ((if mode = .obdr then [.forward 3] else []) ++ ops))).1 =
      (if mode = .obdr then [t.files[2]?] else []) ++
        ((t.seek (if mode = .obdr then 3 else 0)).run ops).1 := by
  rw [run_append, boot]
  split
  · rw [run_rewind, run_seek_forward, run_seek_read, run_rewind]
    change _ ++ (((t.seek 3).seek 0).run (.forward 3 :: _)).1 = _
    rw [run_seek_forward]
    rfl
  · rfl

/-- The boot scripts and `start-restore.sh` on the tape of a backup. -/
theorem run_recovery (t : Tape (File α)) :
    (t.run (boot mode ++ restore mode rootFiles k r)).1 =
      (if mode = .obdr then [t.files[2]?] else []) ++
        ((order k r).zipIdx (if mode = .obdr then 3 else 0)).map fun p => t.files[p.2]? := by
  rw [restore, run_boot, run_step7, readGroups_eq, List.map_map]
  rfl

/-- Everything comes back from the tape files that were written for it exactly if the disks take
the lines in the order of the table, and the backup began at the beginning of the tape: with the
menu that is left to the user. -/
theorem tape_recovered_iff (mode : Mode) (rootFiles : List Text) (k : Nat) (r : Recovery)
    (t : Tape (File α)) (hold : ∀ i, File.archive i ∉ t.files) :
    ((t.run (backup mode r.table)).2.run (boot mode ++ restore mode rootFiles k r)).1 =
        wanted mode rootFiles k r ↔
      InTapeOrder r.table (visible k r) ∧
        (startRestore rootFiles k r = [] ∨ mode ≠ .interactive ∨ t.pos = 0) := by
  have hwanted : (wanted mode rootFiles k r : List (Option (File α))) =
      (if mode = .obdr then [some .rootBase] else []) ++
        (order k r).map fun i => some (.archive i) := by
    rw [wanted, ← startRestore_lines rootFiles, List.map_map]
    rfl
  have hnone : startRestore rootFiles k r = [] ↔ order k r = [] := by
    rw [← startRestore_lines rootFiles, List.map_eq_nil_iff]
  rw [hwanted, run_recovery, hnone, ← flatMap_taken_eq_range_iff (pairwise_visible k r)]
  change _ ↔ (∀ p ∈ (order k r).zipIdx, p.1 = p.2) ∧ _
  have hin : ∀ i ∈ order k r, i < r.table.length := fun i => lt_of_mem_order
  by_cases hempty : order k r = [] ∧ mode ≠ .obdr
  · simp [hempty.1, hempty.2]
  have hne : written (α := α) mode r.table ≠ [] := by
    intro hwritten
    rw [written, List.append_eq_nil_iff, List.map_eq_nil_iff] at hwritten
    have hmode : mode ≠ .obdr := by
      intro hmode
      rw [if_pos hmode] at hwritten
      exact absurd hwritten.1 (List.cons_ne_nil _ _)
    refine hempty ⟨List.eq_nil_iff_forall_not_mem.mpr fun i hi => ?_, hmode⟩
    have hlt := getElem?_writeTape r.table i
    rw [if_pos (hin i hi), hwritten.2] at hlt
    cases hlt
  have hfiles := backup_files (t := t) hne
  rw [front] at hfiles
  cases mode with
  | obdr =>
    have hreads := reads_own_iff [File.header, .image, (.rootBase : File α)] hin
    simp only [reduceCtorEq, if_false, if_true, List.nil_append] at hfiles ⊢
    rw [hfiles, ← hreads]
    simp
  | device =>
    have hreads := reads_own_iff ([] : List (File α)) hin
    simp only [reduceCtorEq, if_false, List.nil_append] at hfiles ⊢
    rw [hfiles, ← hreads]
    simp
  | interactive =>
    simp only [reduceCtorEq, if_false, if_true, List.append_nil, List.nil_append] at hfiles ⊢
    by_cases hpos : t.pos = 0
    · have hreads := reads_own_iff ([] : List (File α)) hin
      rw [hpos, List.take_zero] at hfiles
      rw [hfiles, ← hreads]
      simp [hpos]
    · obtain ⟨i, is, horder⟩ := List.exists_cons_of_ne_nil fun h => hempty ⟨h, by simp⟩
      rw [hfiles, horder]
      refine iff_of_false ?_ ?_
      · -- the first read gives a file of before
        intro h
        have hfirst : (t.files.take t.pos ++ (writeTape r.table).map File.archive)[0]? =
            some (.archive i) := (List.cons.inj h).1
        rw [List.getElem?_append_left (by rw [List.length_take_of_le t.le]; omega),
          List.getElem?_take_of_lt (by omega)] at hfirst
        exact hold i (List.mem_of_getElem? hfirst)
      · rintro ⟨_, h | h | h⟩
        · cases h
        · exact h rfl
        · exact hpos h

end Recovery

def rootMount : Mount := ⟨"/dev/hda1".toList, "/".toList, "ext3".toList, "rw".toList, some 3⟩

/-- A tape behind the file of an earlier backup. -/
def usedTape : Tape (File Nat) := ⟨[.old 0], 1, Nat.le_refl 1⟩

/-- A backup with the menu is added to it, and the recovery reads the file of before. -/
theorem earlier_backup_read :
    ((usedTape.run (backup .interactive (saveDiskinfo lvmHost [rootMount]).table)).2.run
      (boot .interactive ++ restore .interactive [] 0 (saveDiskinfo lvmHost [rootMount]))).1 ≠
        wanted .interactive [] 0 (saveDiskinfo lvmHost [rootMount]) := by
  have hold : ∀ i, File.archive i ∉ usedTape.files := by
    intro i hi
    cases List.mem_singleton.mp hi
  rw [Ne, tape_recovered_iff _ _ _ _ _ hold]
  rintro ⟨_, h | h | h⟩
  · revert h
    decide +kernel
  · exact h rfl
  · exact absurd h (by decide)

end TapeRecovery
