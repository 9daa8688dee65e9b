import MkCDrec.StartRestore

/-!
# Order of the archives on a tape

`tar-it.sh` writes one tape file for every line of `To_Backup`, in the order of the
lines. `start-restore.sh` takes the disks in the order of `ls` and reads the next
tape file for every line it restores. The number of files to be skipped is computed
in Step 3, and every group forwards the tape by it, since the flag that should keep
the later groups from doing so is cleared in the subshell of a group. The tape is a
local one.
-/

namespace TapeOrder

open ShellText Table DiskInfo StartRestore Grouping

/-- The tape file that is read into the file system of a line. -/
structure Read where
  line : Nat
  tapeFile : Nat
deriving DecidableEq

/-- The tape that `tar-it.sh` leaves: every file is the archive of a line. -/
def writeTape (table : List Line) : List Nat := table.zipIdx.map Prod.snd

/-- `ls ${_dsk}*.log* | wc -l`, in the root directory of the recovery system. -/
def logs (rootFiles : List Text) (disk : Text) : Nat :=
  (rootFiles.filter fun f => disk <+: f && ".log".toList <:+: f.drop disk.length).length

/-- `FSF` after Step 3, which sets it anew for every disk. -/
def step3 (rootFiles declined disks : List Text) : Nat :=
  disks.foldl (fun _ d => if d ∈ declined then logs rootFiles d else 0) 0

/-- The lines of a group, with the tape at `pos`: a type that `SelectExtention` does not
know ends the subshell before its tape file is read. -/
def readLines : List (Line × Nat) → Nat → List Read × Nat
  | [], pos => ([], pos)
  | (l, i) :: rest, pos =>
    if known l then (⟨i, pos⟩ :: (readLines rest (pos + 1)).1, (readLines rest (pos + 1)).2)
    else ([], pos)

/-- A group: its subshell finds `BACKUPS_ON_MT` set, and forwards the tape before its
first line. -/
def readGroup (fsf : Nat) (g : List (Line × Nat)) (pos : Nat) : List Read × Nat :=
  if g = [] then ([], pos) else readLines g (pos + fsf)

/-- Step 7 with the backups on tape. -/
def readGroups (fsf : Nat) (table : List Line) : List Text → Nat → List Read
  | [], _ => []
  | file :: files, pos =>
    (readGroup fsf (group table file) pos).1 ++
      readGroups fsf table files (readGroup fsf (group table file) pos).2

/-- The files that Step 7 finds when the first `k` disks were declined. The names of
disks contain no dots, so that `*.${_dsk}` are the files of the disk; without a disk
left, Step 4 quits. -/
def visible (k : Nat) (r : Recovery) : List Text :=
  if ls r.disks ≠ [] ∧ (ls r.disks).drop k = [] then []
  else (ls r.mkfsFiles).filter fun file => file ∉ ((ls r.disks).take k).map mkfs

/-- `start-restore.sh` with the tape rewound by Step 2. -/
def startRestore (rootFiles : List Text) (k : Nat) (r : Recovery) : List Read :=
  readGroups (step3 rootFiles ((ls r.disks).take k) (ls r.disks)) r.table (visible k r) 0

/-- Every file system is read from the tape file that was written for it. -/
def ReadsOwn (table : List Line) (reads : List Read) : Prop :=
  ∀ x ∈ reads, (writeTape table)[x.tapeFile]? = some x.line

/-- The line at place `i` is restored with the disk of the file: no line up to it that
the file selects is of an unknown type. -/
def Takes (table : List Line) (file : Text) (i : Nat) : Prop :=
  (∃ l, table[i]? = some l ∧ grep (dsk file) l = true) ∧
    ∀ j l, j ≤ i → table[j]? = some l → grep (dsk file) l = true → known l = true

/-- The disks, in the order of `ls`, take the lines in the order of the table and leave no
gap. -/
structure InTapeOrder (table : List Line) (files : List Text) : Prop where
  ordered : ∀ f ∈ files, ∀ g ∈ files, strcoll g f = false →
    ∀ i j, Takes table f i → Takes table g j → i < j
  gapless : ∀ f ∈ files, ∀ j, Takes table f j → ∀ i < j, ∃ g ∈ files, Takes table g i

section Order

variable {table : List Line} {file : Text} {files : List Text} {i : Nat}

/-- The places of the lines of a group that are read. -/
def taken (g : List (Line × Nat)) : List Nat :=
  (g.takeWhile fun p => known p.1).map Prod.snd

theorem readLines_eq (g : List (Line × Nat)) (pos : Nat) :
    readLines g pos =
      (((taken g).zipIdx pos).map fun p => ⟨p.1, p.2⟩, pos + (taken g).length) := by
  induction g generalizing pos with
  | nil => rfl
  | cons p g ih =>
    obtain ⟨l, i⟩ := p
    rw [readLines]
    by_cases hknown : known l = true
    · have htaken : taken ((l, i) :: g) = i :: taken g := by
        simp only [taken, List.takeWhile_cons, hknown, ite_true, List.map_cons]
      rw [if_pos hknown, ih, htaken, List.zipIdx_cons, List.length_cons, Nat.add_right_comm]
      rfl
    · have htaken : taken ((l, i) :: g) = [] := by
        simp only [taken, List.takeWhile_cons, hknown, Bool.false_eq_true, ite_false, List.map_nil]
      rw [if_neg hknown, htaken]
      rfl

/-- Without a forward the reads follow each other. -/
theorem readGroups_zero (table : List Line) (files : List Text) (pos : Nat) :
    readGroups 0 table files pos =
      ((files.flatMap fun file => taken (group table file)).zipIdx pos).map
        fun p => ⟨p.1, p.2⟩ := by
  induction files generalizing pos with
  | nil => rfl
  | cons file files ih =>
    have hgroup : readGroup 0 (group table file) pos = readLines (group table file) pos := by
      rw [readGroup]
      split
      · rename_i hnil
        rw [hnil]
        rfl
      · rfl
    rw [readGroups, hgroup, readLines_eq, ih, List.flatMap_cons, List.zipIdx_append,
      List.map_append]

/-- Step 3 forgets the disks that were declined: the last one was not. -/
theorem step3_eq_zero {rootFiles disks : List Text} {k : Nat} (hdisks : disks.Nodup)
    (hleft : disks = [] ∨ disks.drop k ≠ []) : step3 rootFiles (disks.take k) disks = 0 := by
  rcases hleft with rfl | hleft
  · rfl
  · obtain ⟨init, d, hd⟩ := (List.eq_nil_or_concat (disks.drop k)).resolve_left hleft
    have hsplit : disks = (disks.take k ++ init) ++ [d] := by
      rw [List.append_assoc, ← List.concat_eq_append, ← hd, List.take_append_drop]
    have hlast : d ∉ disks.take k := by
      intro hmem
      have hdrop : d ∈ disks.drop k := by
        rw [hd, List.concat_eq_append]
        exact List.mem_append_right _ (List.mem_singleton_self d)
      exact List.disjoint_take_drop hdisks (le_refl k) hmem hdrop
    have hfold : ∀ l : List Text, step3 rootFiles (disks.take k) (l ++ [d]) = 0 := by
      intro l
      rw [step3, List.foldl_append, List.foldl_cons, List.foldl_nil, if_neg hlast]
    exact (congrArg _ hsplit).trans (hfold _)

theorem mem_taken_group : i ∈ taken (group table file) ↔ Takes table file i := by
  rw [taken, List.mem_map]
  constructor
  · rintro ⟨⟨l, j⟩, hmem, rfl⟩
    obtain ⟨hin, hall⟩ := (mem_takeWhile_iff (pairwise_group table file)).mp hmem
    exact ⟨⟨l, mem_group.mp hin⟩, fun j m hj hm hgrep => hall (m, j) (mem_group.mpr ⟨hm, hgrep⟩) hj⟩
  · rintro ⟨⟨l, hl⟩, hall⟩
    refine ⟨(l, i), (mem_takeWhile_iff (pairwise_group table file)).mpr
      ⟨mem_group.mpr hl, ?_⟩, rfl⟩
    rintro ⟨m, j⟩ hmem hj
    exact hall j m hj (mem_group.mp hmem).1 (mem_group.mp hmem).2

theorem pairwise_taken_group (table : List Line) (file : Text) :
    (taken (group table file)).Pairwise (· < ·) :=
  (pairwise_group table file).sublist ((List.takeWhile_sublist _).map _)

theorem pairwise_visible (k : Nat) (r : Recovery) :
    (visible k r).Pairwise fun f g => strcoll g f = false := by
  rw [visible]
  split
  · exact List.Pairwise.nil
  · exact (pairwise_ls _).filter _

/-- The places of the lines that a sequence of groups takes. -/
theorem flatMap_taken_eq_range_iff (hfiles : files.Pairwise fun f g => strcoll g f = false) :
    (∀ p ∈ (files.flatMap fun file => taken (group table file)).zipIdx, p.1 = p.2) ↔
      InTapeOrder table files := by
  have hmem : ∀ i, i ∈ files.flatMap (fun file => taken (group table file)) ↔
      ∃ f ∈ files, Takes table f i := by
    intro i
    simp only [List.mem_flatMap, mem_taken_group]
  rw [zipIdx_eq_iff, ← List.range_eq_range', eq_range_iff, List.pairwise_flatMap]
  constructor
  · rintro ⟨⟨_, hpair⟩, hgap⟩
    constructor
    · intro f hf g hg hfg i j hi hj
      have hup : files.Pairwise fun x y => strcoll y x = false →
          ∀ i ∈ taken (group table x), ∀ j ∈ taken (group table y), i < j := by
        refine hpair.imp ?_
        intro x y hxy _
        exact hxy
      have hdown : files.Pairwise fun x y => strcoll x y = false →
          ∀ i ∈ taken (group table y), ∀ j ∈ taken (group table x), i < j := by
        refine hfiles.imp ?_
        intro x y hxy hyx
        exact absurd (strcoll_total x y) (by simp [hxy, hyx])
      have hself : ∀ x ∈ files, strcoll x x = false →
          ∀ i ∈ taken (group table x), ∀ j ∈ taken (group table x), i < j := by
        intro x _ hxx
        exact absurd (strcoll_total x x) (by simp [hxx])
      have hrel := hup.forall_of_forall_of_flip hself hdown
      exact hrel hf hg hfg i (mem_taken_group.mpr hi) j (mem_taken_group.mpr hj)
    · intro f hf j hj i hi
      exact (hmem i).mp (hgap j ((hmem j).mpr ⟨f, hf, hj⟩) i hi)
  · intro h
    refine ⟨⟨fun f _ => pairwise_taken_group table f, ?_⟩, ?_⟩
    · refine List.Pairwise.imp_of_mem ?_ hfiles
      intro f g hf hg hfg i hi j hj
      exact h.ordered f hf g hg hfg i j (mem_taken_group.mp hi) (mem_taken_group.mp hj)
    · intro j hj i hi
      obtain ⟨f, hf, hj⟩ := (hmem j).mp hj
      exact (hmem i).mpr (h.gapless f hf j hj i hi)

/-- Every file system that is restored is read from its own tape file if and only if the
disks that Step 7 finds take the lines in the order of the table, each line with one
disk only and none left out before another. -/
theorem readsOwn_iff (h : Host) (mounts : List Mount) (rootFiles : List Text) (k : Nat) :
    ReadsOwn (saveDiskinfo h mounts).table (startRestore rootFiles k (saveDiskinfo h mounts)) ↔
      InTapeOrder (saveDiskinfo h mounts).table (visible k (saveDiskinfo h mounts)) := by
  generalize saveDiskinfo h mounts = r
  rw [← flatMap_taken_eq_range_iff (pairwise_visible k r)]
  by_cases hquit : ls r.disks ≠ [] ∧ (ls r.disks).drop k = []
  · have hnone : visible k r = [] := if_pos hquit
    simp [ReadsOwn, startRestore, hnone, readGroups]
  · have hleft : ls r.disks = [] ∨ (ls r.disks).drop k ≠ [] := by
      rwa [not_and_or, not_not] at hquit
    rw [ReadsOwn, startRestore, step3_eq_zero (nodup_ls _) hleft, readGroups_zero]
    simp only [List.forall_mem_map, writeTape]
    refine forall₂_congr fun p hp => ?_
    obtain ⟨i, pos⟩ := p
    have hi : i < r.table.length := by
      have hin := List.mem_of_getElem? (List.mem_zipIdx_iff_getElem?.mp hp)
      obtain ⟨file, _, hfile⟩ := List.mem_flatMap.mp hin
      obtain ⟨⟨l, hl, _⟩, _⟩ := mem_taken_group.mp hfile
      exact (List.getElem?_eq_some_iff.mp hl).1
    rw [List.zipIdx_map_snd, List.getElem?_eq_some_iff]
    constructor
    · rintro ⟨_, hpos⟩
      rw [List.getElem_range'] at hpos
      omega
    · intro hpos
      obtain rfl : i = pos := hpos
      refine ⟨by rwa [List.length_range'], ?_⟩
      rw [List.getElem_range']
      omega

end Order

/-- A root file system on a disk, and one on a logical volume. -/
def volumeMounts : List Mount :=
  [⟨"/dev/hda1".toList, "/".toList, "ext3".toList, "rw".toList, some 3⟩,
    ⟨"/dev/vg00/lvol1".toList, "/home".toList, "ext3".toList, "rw".toList, some 254⟩]

/-- The volume group comes first in Step 7 and gets the archive of the root file
system. -/
theorem root_read_into_volume :
    ¬ ReadsOwn (saveDiskinfo lvmHost volumeMounts).table
      (startRestore [] 0 (saveDiskinfo lvmHost volumeMounts)) := by
  intro h
  have hfirst := h ⟨1, 0⟩ (by decide +kernel)
  revert hfirst
  decide +kernel

end TapeOrder
