import MkCDrec.Lib.Updates
import MkCDrec.StartRestore

/-!
# A whole recovery from disk

`rd-base.sh` notes the file systems and how they were formatted, `tar-it.sh` stores one archive
for each line of `To_Backup`, and `start-restore.sh` formats and fills the devices again. With
`ONLY_INCLUDE_LISTED_FS` the lines are filtered, but the files for formatting are not. A disk
that is declined in Step 3 has its files moved to `.hide`; the tables of the other steps stay.
-/

namespace Recovering

open ShellText Table ArchiveNames DiskInfo StartRestore Updates

/-- The file systems that `Save_diskinfo` takes, with the class of their device. -/
def savedMounts (h : Host) : List Mount → List (Mount × DeviceClass)
  | [] => []
  | m :: ms =>
    match deviceClass h.lvmConf m.major with
    | none => []
    | some c =>
      if m.fs = h.destinationPath then savedMounts h ms
      else if c = .lvm ∧ h.lvmConf = false then []
      else (m, c) :: savedMounts h ms

/-- The machine that is saved. `built` are the devices that `buildraid.sh` and `buildLVM.sh`
write, `swaps` and `labels` those in `mkswap.sh` and `mke2label.sh`. -/
structure Machine where
  host : Host
  mounts : List Mount
  includeFsList : Option (List Text)
  built : List Text
  swaps : List Text
  labels : List Text
  cmpProg : Text
  cipher : Text

/-- The answers in Step 3 and Step 4, for every disk. -/
structure Answers where
  restore : Text → Bool
  partition : Text → Bool

inductive Event
  | build (dev : Text)
  | partition (disk : Text)
  | mkfs (dev : Text)
  | mkswap (dev : Text)
  | label (dev : Text)
  | restore (l : Line)
deriving DecidableEq

/-- `*.${_dsk}` in `/etc/recovery`. -/
def hides (disk file : Text) : Bool := !file.contains '/' && ('.' :: disk).isSuffixOf file

/-- The files of a file system, by their path. -/
abbrev Content := Text → Option Bytes

def blank : Content := fun _ => none

/-- `tar --overwrite` into what is there. -/
def overlay (new old : Content) : Content := fun path => (new path).or (old path)

namespace Machine

variable (k : Machine)

def saved : Recovery := saveDiskinfo k.host k.mounts

/-- `To_Backup`, which becomes `To_Restore`. -/
def table : List Line :=
  match k.includeFsList with
  | none => k.saved.table
  | some xs => xs.flatMap fun x => k.saved.table.filter fun l => x = l.fs

def disks : List Text := ls k.saved.disks

/-- The disks that are not declined. -/
def left (a : Answers) : List Text := k.disks.filter a.restore

/-- The files `mkfs.` that are not hidden; without a disk left Step 4 quits. -/
def visible (a : Answers) : List Text :=
  if k.disks ≠ [] ∧ k.left a = [] then []
  else (ls k.saved.mkfsFiles).filter fun file => k.disks.all fun d => a.restore d || !hides d file

/-- The devices that are formatted by the commands in a file. -/
def formats (file : Text) : List Text :=
  ((savedMounts k.host k.mounts).filter fun p =>
    (p.2 = .plain || p.2 = .controller) && file ∈ mkfsOf k.host p.1 p.2).map
      fun p => (lineOf p.1 p.2).device

/-- Step 5 for one file: whatever its directory is, the file at the top is run. -/
def step5File (a : Answers) (file : Text) : List Event :=
  if mkfs (cut '.' 2 file) ∈ k.visible a then (k.formats (mkfs (cut '.' 2 file))).map .mkfs else []

def step5 (a : Answers) : List Event :=
  if k.disks = [] then [] else (k.visible a).flatMap (k.step5File a)

def step6 : List Event := k.swaps.map .mkswap ++ k.labels.map .label

def step7 (a : Answers) : List Event :=
  (k.visible a).flatMap fun file =>
    (calls (group k.table file)).filterMap fun i => k.table[i]?.map .restore

/-- What `start-restore.sh` writes, in order. -/
def recovery (a : Answers) : List Event :=
  k.built.map .build ++
    if k.disks ≠ [] ∧ k.left a = [] then []
    else ((k.left a).filter a.partition).map .partition ++ (k.step5 a ++ (k.step6 ++ k.step7 a))

/-- The directory with the archives while `tar-it.sh` stores them. -/
def storing (contents : Line → Content) : Writer Archive (Option Content) Line where
  key := tarIt k.cmpProg k.cipher
  effect l _ := some (contents l)

def store (contents : Line → Content) : Archive → Option Content :=
  (k.storing contents).run (fun _ => none) k.table

/-- `Get_backup_back` for a mounted file system. -/
def getBack (contents : Line → Content) (l : Line) (old : Content) : Content :=
  match startRestore k.cmpProg k.cipher l with
  | none => old
  | some a =>
    match k.store contents a with
    | none => old
    | some new => if a.kind = .tar then overlay new old else new

def effect (contents : Line → Content) : Event → Content → Content
  | .build _ | .mkfs _ | .mkswap _ => fun _ => blank
  | .partition _ | .label _ => id
  | .restore l => k.getBack contents l

def device : Event → Text
  | .build dev | .mkfs dev | .mkswap dev | .label dev => dev
  | .partition disk => "/dev/".toList ++ disk
  | .restore l => l.device

def writing (contents : Line → Content) : Writer Text Content Event where
  key := device
  effect := k.effect contents

/-- The devices after the recovery. -/
def after (contents : Line → Content) (before : Text → Content) (a : Answers) : Text → Content :=
  (k.writing contents).run before (k.recovery a)

/-- The device is made anew. -/
def Formatted (a : Answers) (dev : Text) : Prop :=
  Event.build dev ∈ k.recovery a ∨ Event.mkfs dev ∈ k.recovery a

/-- The line is restored with a disk, volume group or array that is not declined. -/
def Restored (a : Answers) (l : Line) : Prop :=
  ∃ file ∈ k.visible a, ∃ i, k.table[i]? = some l ∧ Reaches k.table file i

end Machine

section Saved

variable {h : Host} {l : Line}

theorem saveDiskinfo_eq (h : Host) (mounts : List Mount) :
    (saveDiskinfo h mounts).table = (savedMounts h mounts).map (fun p => lineOf p.1 p.2) ∧
      (saveDiskinfo h mounts).mkfsFiles =
        (savedMounts h mounts).flatMap (fun p => mkfsOf h p.1 p.2) ∧
      (saveDiskinfo h mounts).disks =
        (savedMounts h mounts).flatMap (fun p => disksOf h p.1 p.2) := by
  induction mounts with
  | nil => exact ⟨rfl, rfl, rfl⟩
  | cons m ms ih =>
    obtain ⟨htable, hfiles, hdisks⟩ := ih
    rw [saveDiskinfo, savedMounts]
    cases deviceClass h.lvmConf m.major with
    | none => exact ⟨rfl, rfl, rfl⟩
    | some c =>
      by_cases hdest : m.fs = h.destinationPath
      · simp only [hdest, if_true]
        exact ⟨htable, hfiles, hdisks⟩
      · by_cases hlvm : c = .lvm ∧ h.lvmConf = false
        · simp only [hdest, hlvm, and_self, if_false, if_true]
          exact ⟨rfl, rfl, rfl⟩
        · simp only [hdest, hlvm, if_false, Recovery.add, List.map_cons, List.flatMap_cons, htable,
            hfiles, hdisks, and_self]

end Saved

section Contents

variable {k : Machine} {contents : Line → Content} {a : Answers} {l : Line} {old : Content}

theorem overlay_blank (new : Content) : overlay new blank = new := by
  funext path
  exact Option.or_none

theorem overlay_overlay (new old : Content) : overlay new (overlay new old) = overlay new old := by
  funext path
  simp only [overlay]
  cases new path with
  | none => rfl
  | some b => rfl

/-- Archives that no two lines share. -/
def Machine.Apart (k : Machine) : Prop :=
  ∀ l ∈ k.table, ∀ l' ∈ k.table, tarIt k.cmpProg k.cipher l = tarIt k.cmpProg k.cipher l' → l = l'

theorem store_tarIt (hapart : k.Apart) (hl : l ∈ k.table) :
    k.store contents (tarIt k.cmpProg k.cipher l) = some (contents l) := by
  refine Writer.run_of_reset (W := k.storing contents) ?_ ⟨l, hl, rfl, fun _ => rfl⟩
  intro l' hl' hkey
  rw [hapart l' hl' l hl hkey]
  rfl

theorem startRestore_of_known (hknown : known l = true) :
    startRestore k.cmpProg k.cipher l = some (tarIt k.cmpProg k.cipher l) := by
  obtain ⟨kind, hkind⟩ := Option.isSome_iff_exists.mp hknown
  have htypes : l.fsType ∈ tarTypes ∨ l.fsType ∈ ddTypes := by
    by_contra hno
    rw [not_or] at hno
    rw [selectExtention, if_neg hno.1, if_neg hno.2] at hkind
    cases hkind
  rw [startRestore, getBackupBack, selectExtention_eq_iff.mpr htypes]
  rfl

/-- What a line of a known type puts into its device. -/
theorem getBack_of_known (hapart : k.Apart) (hl : l ∈ k.table) (hknown : known l = true) :
    k.getBack contents l old =
      if tarItKind l.fsType = .tar then overlay (contents l) old else contents l := by
  rw [Machine.getBack, startRestore_of_known hknown]
  simp only [store_tarIt hapart hl]
  rfl

theorem getBack_of_unknown (hknown : known l = false) : k.getBack contents l old = old := by
  have hnone : selectExtention l.fsType = none := Option.not_isSome_iff_eq_none.mp (by
    rw [← Bool.not_eq_true] at hknown
    exact hknown)
  rw [Machine.getBack, startRestore, getBackupBack, hnone]
  rfl

theorem getBack_blank (hapart : k.Apart) (hl : l ∈ k.table) (hknown : known l = true) :
    k.getBack contents l blank = contents l := by
  rw [getBack_of_known hapart hl hknown, overlay_blank, ite_self]

/-- To restore a line once more changes nothing. -/
theorem getBack_getBack (hapart : k.Apart) (hl : l ∈ k.table) :
    k.getBack contents l (k.getBack contents l old) = k.getBack contents l old := by
  by_cases hknown : known l = true
  · rw [getBack_of_known hapart hl hknown, getBack_of_known hapart hl hknown]
    split
    · exact overlay_overlay _ _
    · rfl
  · rw [Bool.not_eq_true] at hknown
    rw [getBack_of_unknown hknown]

end Contents

section Events

variable {k : Machine} {contents : Line → Content} {a : Answers} {l : Line} {dev : Text} {e : Event}

theorem mem_step7 : e ∈ k.step7 a ↔ ∃ l, e = .restore l ∧ k.Restored a l := by
  simp only [Machine.step7, List.mem_flatMap, List.mem_filterMap, mem_calls_group,
    Option.map_eq_some_iff]
  constructor
  · rintro ⟨file, hfile, i, hreach, l, hl, rfl⟩
    exact ⟨l, rfl, file, hfile, i, hl, hreach⟩
  · rintro ⟨l, rfl, file, hfile, i, hl, hreach⟩
    exact ⟨file, hfile, i, hreach, l, hl, rfl⟩

theorem Machine.Restored.mem_table (h : k.Restored a l) : l ∈ k.table := by
  obtain ⟨_, _, i, hl, _⟩ := h
  exact List.mem_of_getElem? hl

/-- With every disk declined nothing is restored. -/
theorem visible_of_quit (hquit : k.disks ≠ [] ∧ k.left a = []) : k.visible a = [] := by
  rw [Machine.visible, if_pos hquit]

/-- The events up to Step 6. -/
def Machine.early (k : Machine) (a : Answers) : List Event :=
  k.built.map .build ++
    if k.disks ≠ [] ∧ k.left a = [] then []
    else ((k.left a).filter a.partition).map .partition ++ (k.step5 a ++ k.step6)

theorem recovery_eq (k : Machine) (a : Answers) : k.recovery a = k.early a ++ k.step7 a := by
  rw [Machine.recovery, Machine.early]
  split
  · rename_i hquit
    rw [Machine.step7, visible_of_quit hquit]
    simp
  · simp only [List.append_assoc]

/-- Before Step 7 no event restores. -/
theorem notMem_early : Event.restore l ∉ k.early a := by
  have hstep5 : Event.restore l ∉ k.step5 a := by
    rw [Machine.step5]
    split
    · simp
    · simp only [List.mem_flatMap, not_exists, not_and]
      intro file _
      rw [Machine.step5File]
      split <;> simp
  rw [Machine.early]
  split
  · simp
  · simp [Machine.step6, hstep5]

theorem mem_early (he : ∀ l, e ≠ .restore l) : e ∈ k.early a ↔ e ∈ k.recovery a := by
  rw [recovery_eq, List.mem_append, or_iff_left]
  intro hmem
  obtain ⟨l, rfl, _⟩ := mem_step7.mp hmem
  exact he l rfl

/-- Before Step 7 a device that is formatted is empty. -/
theorem early_blank (contents : Line → Content) (before : Text → Content)
    (hformat : k.Formatted a dev) : (k.writing contents).run before (k.early a) dev = blank := by
  apply Writer.run_of_reset
  · intro e he _
    cases e with
    | restore l => exact absurd he notMem_early
    | build | partition | mkfs | mkswap | label => rfl
  · rcases hformat with h | h
    · exact ⟨_, (mem_early (by simp)).mpr h, rfl, fun _ => rfl⟩
    · exact ⟨_, (mem_early (by simp)).mpr h, rfl, fun _ => rfl⟩

/-- What a recovery leaves on a device that is formatted. -/
theorem after_formatted (contents : Line → Content) (hapart : k.Apart)
    (hdev : ∀ l ∈ k.saved.table, ∀ l' ∈ k.table, l.device = l'.device → l = l')
    (hl : l ∈ k.saved.table) (hformat : k.Formatted a l.device) (before : Text → Content) :
    (k.Restored a l → k.after contents before a l.device = k.getBack contents l blank) ∧
      (¬ k.Restored a l → k.after contents before a l.device = blank) := by
  have hearly := early_blank contents before hformat
  rw [Machine.after, recovery_eq, Writer.run_append]
  have hown : ∀ e ∈ k.step7 a, (k.writing contents).key e = l.device →
      e = .restore l ∧ k.Restored a l := by
    intro e he hkey
    obtain ⟨l', rfl, hl'⟩ := mem_step7.mp he
    obtain rfl := hdev l hl l' hl'.mem_table hkey.symm
    exact ⟨rfl, hl'⟩
  constructor
  · intro hrestored
    rw [← hearly]
    apply Writer.run_of_same (f := k.getBack contents l)
    · intro e he hkey
      rw [(hown e he hkey).1]
      exact Or.inl rfl
    · exact fun _ => getBack_getBack hapart hrestored.mem_table
    · exact ⟨_, mem_step7.mpr ⟨l, rfl, hrestored⟩, rfl, rfl⟩
  · intro hnot
    rw [Writer.run_of_untouched fun e he hkey => hnot (hown e he hkey).2, hearly]

/-- A file system that is formatted comes back, whatever was in it, exactly if its line is in
`To_Restore`, is of a type that the restore knows, and is reached with the disks that are left. -/
theorem recovered_iff (hapart : k.Apart)
    (hdev : ∀ l ∈ k.saved.table, ∀ l' ∈ k.table, l.device = l'.device → l = l')
    (hl : l ∈ k.saved.table) (hformat : k.Formatted a l.device) :
    (∀ contents before, k.after contents before a l.device = contents l) ↔
      known l = true ∧ k.Restored a l := by
  constructor
  · intro h
    -- a file that is empty is not no file
    have hfull := h (fun _ _ => some []) fun _ => blank
    have hne : blank ≠ fun _ => some [] := fun hb => nomatch congrFun hb []
    have hafter := after_formatted (fun _ _ => some []) hapart hdev hl hformat fun _ => blank
    by_cases hrestored : k.Restored a l
    · refine ⟨?_, hrestored⟩
      by_contra hknown
      rw [Bool.not_eq_true] at hknown
      rw [hafter.1 hrestored, getBack_of_unknown hknown] at hfull
      exact hne hfull
    · rw [hafter.2 hrestored] at hfull
      exact absurd hfull hne
  · rintro ⟨hknown, hrestored⟩ contents before
    rw [(after_formatted contents hapart hdev hl hformat before).1 hrestored,
      getBack_blank hapart hrestored.mem_table hknown]

end Events

/-- Two partitions of a disk, of which only the first one is listed. -/
def listedMachine : Machine where
  host := lvmHost
  mounts := [⟨"/dev/hda1".toList, "/".toList, "ext3".toList, "rw".toList, some 3⟩,
    ⟨"/dev/hda2".toList, "/home".toList, "ext3".toList, "rw".toList, some 3⟩]
  includeFsList := some ["/".toList]
  built := []
  swaps := []
  labels := []
  cmpProg := "gzip".toList
  cipher := []

def agree : Answers := ⟨fun _ => true, fun _ => true⟩

def leftOut : Line := ⟨"/dev/hda2".toList, "/home".toList, "ext3".toList, "rw".toList⟩

theorem listedMachine_table :
    listedMachine.table = [⟨"/dev/hda1".toList, "/".toList, "ext3".toList, "rw".toList⟩] := by
  decide +kernel

/-- The one that is not listed is formatted as well. -/
theorem home_not_recovered : ¬ ∀ contents before,
    listedMachine.after contents before agree leftOut.device = contents leftOut := by
  have hapart : listedMachine.Apart := by
    intro l hl l' hl' _
    rw [listedMachine_table, List.mem_singleton] at hl hl'
    rw [hl, hl']
  have hdev : ∀ l ∈ listedMachine.saved.table, ∀ l' ∈ listedMachine.table,
      l.device = l'.device → l = l' := by decide +kernel
  have hformat : listedMachine.Formatted agree leftOut.device := Or.inr (by decide +kernel)
  rw [recovered_iff hapart hdev (by decide +kernel) hformat]
  rintro ⟨_, hrestored⟩
  have hmem := hrestored.mem_table
  revert hmem
  decide +kernel

section Declined

variable {k : Machine} {a : Answers} {d : Text} {dev file : Text}

/-- An event on a disk; `on` says which devices lie on it. -/
def Event.Touches (on : Text → Text → Prop) (d : Text) : Event → Prop
  | .partition disk => disk = d
  | .build dev | .mkfs dev | .mkswap dev | .label dev => on dev d
  | .restore l => on l.device d

theorem mem_visible (h : file ∈ k.visible a) :
    file ∈ k.saved.mkfsFiles ∧ ∀ d ∈ k.disks, a.restore d = false → hides d file = false := by
  rw [Machine.visible] at h
  split at h
  · cases h
  · obtain ⟨hfile, hall⟩ := List.mem_filter.mp h
    refine ⟨mem_ls.mp hfile, ?_⟩
    intro d hd hno
    have hd := List.all_eq_true.mp hall d hd
    rw [hno] at hd
    simpa using hd

theorem mem_formats (h : dev ∈ k.formats file) :
    ∃ p ∈ savedMounts k.host k.mounts, (p.2 = .plain ∨ p.2 = .controller) ∧
      file ∈ mkfsOf k.host p.1 p.2 ∧ (lineOf p.1 p.2).device = dev := by
  obtain ⟨p, hp, hdev⟩ := List.mem_map.mp h
  obtain ⟨hmem, htest⟩ := List.mem_filter.mp hp
  rw [Bool.and_eq_true, decide_eq_true_eq] at htest
  exact ⟨p, hmem, by simpa using htest.1, htest.2, hdev⟩

/-- The files of a disk are found by its name. -/
theorem hides_mkfs (hslash : '/' ∉ d) : hides d (mkfs d) = true := by
  have htop : '/' ∉ mkfs d := by
    rw [mkfs, List.mem_append, not_or]
    exact ⟨by decide, hslash⟩
  have hsuffix : ('.' :: d).isSuffixOf (mkfs d) = true :=
    List.isSuffixOf_iff_suffix.mpr ⟨"mkfs".toList, rfl⟩
  rw [hides, hsuffix, Bool.and_true]
  simpa using htop

/-- The file in which a partition is formatted is that of its disk. -/
theorem file_of_formats {p : Mount × DeviceClass} (hclass : p.2 = .plain ∨ p.2 = .controller)
    (hfile : file ∈ mkfsOf k.host p.1 p.2) (hd : d ∈ disksOf k.host p.1 p.2) :
    file = mkfs d ∧ '/' ∉ d := by
  have hflat : ∀ s : Text, '/' ∉ flat s := notMem_tr (by decide)
  obtain ⟨m, c⟩ := p
  rcases hclass with rfl | rfl
  · obtain rfl := List.mem_singleton.mp hd
    rw [mkfsOf] at hfile
    split at hfile
    · exact ⟨List.mem_singleton.mp hfile, hflat _⟩
    · cases hfile
  · obtain rfl := List.mem_singleton.mp hd
    rw [mkfsOf] at hfile
    split at hfile
    · exact ⟨List.mem_singleton.mp hfile, hflat _⟩
    · cases hfile

/-- Step 5 formats nothing on a disk that is declined. -/
theorem step5_spares {on : Text → Text → Prop}
    (hon : ∀ p ∈ savedMounts k.host k.mounts, ∀ d ∈ k.disks,
      on (lineOf p.1 p.2).device d ↔ d ∈ disksOf k.host p.1 p.2)
    (hd : d ∈ k.disks) (hno : a.restore d = false) {e : Event} (he : e ∈ k.step5 a) :
    ¬ e.Touches on d := by
  rw [Machine.step5] at he
  split at he
  · cases he
  · obtain ⟨file, _, he⟩ := List.mem_flatMap.mp he
    rw [Machine.step5File] at he
    split at he
    · rename_i hvisible
      obtain ⟨dev, hdev, rfl⟩ := List.mem_map.mp he
      obtain ⟨p, hp, hclass, hfile, rfl⟩ := mem_formats hdev
      intro htouch
      obtain ⟨hname, hslash⟩ := file_of_formats hclass hfile ((hon p hp d hd).mp htouch)
      have hhidden := (mem_visible hvisible).2 d hd hno
      rw [hname, hides_mkfs hslash] at hhidden
      cases hhidden
    · cases he

/-- A disk that is declined is left alone exactly if no array or volume group is built on it,
and, unless all disks are declined, no swap area and no label is on it and no line of one of its
file systems is found with the name of another disk, volume group or array. -/
theorem spared_iff (on : Text → Text → Prop)
    (hon : ∀ p ∈ savedMounts k.host k.mounts, ∀ d ∈ k.disks,
      on (lineOf p.1 p.2).device d ↔ d ∈ disksOf k.host p.1 p.2)
    (hd : d ∈ k.disks) (hno : a.restore d = false) :
    (∀ e ∈ k.recovery a, ¬ e.Touches on d) ↔
      (∀ dev ∈ k.built, ¬ on dev d) ∧
        (k.left a ≠ [] → (∀ dev ∈ k.swaps ++ k.labels, ¬ on dev d) ∧
          ∀ l, k.Restored a l → ¬ on l.device d) := by
  have hdisks : k.disks ≠ [] := List.ne_nil_of_mem hd
  have hpartition : ∀ disk ∈ (k.left a).filter a.partition,
      ¬ (Event.partition disk).Touches on d := by
    rintro disk hdisk rfl
    have hyes := (List.mem_filter.mp (List.mem_filter.mp hdisk).1).2
    rw [hno] at hyes
    cases hyes
  rw [Machine.recovery]
  by_cases hquit : k.left a = []
  · rw [if_pos ⟨hdisks, hquit⟩, List.append_nil, List.forall_mem_map]
    simp only [hquit, ne_eq, not_true_eq_false, false_imp_iff, and_true]
    rfl
  · rw [if_neg fun h => hquit h.2]
    simp only [List.forall_mem_append, Machine.step6, List.forall_mem_map, hquit, ne_eq,
      not_false_eq_true, true_imp_iff]
    constructor
    · rintro ⟨hbuilt, _, _, ⟨hswap, hlabel⟩, hrestore⟩
      exact ⟨hbuilt, ⟨hswap, hlabel⟩, fun l hl => hrestore _ (mem_step7.mpr ⟨l, rfl, hl⟩)⟩
    · rintro ⟨hbuilt, ⟨hswap, hlabel⟩, hrestore⟩
      refine ⟨hbuilt, hpartition, fun e he => step5_spares hon hd hno he, ⟨hswap, hlabel⟩, ?_⟩
      intro e he
      obtain ⟨l, rfl, hl⟩ := mem_step7.mp he
      exact hrestore l hl

end Declined

/-- Two disks, of which the second one holds a copy of the first. -/
def copyMachine : Machine where
  host := lvmHost
  mounts := [⟨"/dev/hda1".toList, "/".toList, "ext3".toList, "rw".toList, some 3⟩,
    ⟨"/dev/hdb1".toList, "/hda-copy".toList, "ext3".toList, "rw".toList, some 3⟩]
  includeFsList := none
  built := []
  swaps := []
  labels := []
  cmpProg := "gzip".toList
  cipher := []

def withoutHdb : Answers := ⟨fun d => d ≠ "hdb".toList, fun _ => true⟩

def onIde (dev d : Text) : Prop := dropDigits (cutFrom '/' 3 dev) = d

instance (dev d : Text) : Decidable (onIde dev d) :=
  inferInstanceAs (Decidable (dropDigits (cutFrom '/' 3 dev) = d))

/-- The copy is restored along with the first disk, although its disk is declined. -/
theorem copy_not_spared : ¬ ∀ e ∈ copyMachine.recovery withoutHdb,
    ¬ e.Touches onIde "hdb".toList := by
  rw [spared_iff onIde (by decide +kernel) (by decide +kernel) (by decide)]
  rintro ⟨_, hrest⟩
  have hspared := (hrest (by decide +kernel)).2
  have hrestored : Event.restore ⟨"/dev/hdb1".toList, "/hda-copy".toList, "ext3".toList,
      "rw".toList⟩ ∈ copyMachine.step7 withoutHdb := by decide +kernel
  obtain ⟨l, hl, hrestored⟩ := mem_step7.mp hrestored
  obtain rfl := Event.restore.inj hl
  exact hspared _ hrestored (by decide)

end Recovering
