import MkCDrec.TapeClone

/-!
# One file system from a tape

`restore-fs.sh` forwards the tape by the number of the line that is selected, and takes the type
and the used blocks from the last line with the same mount point. If that type is one for `tar`,
the user chooses the type of the new file system, and `Get_backup_back` goes by the choice: for
`msdos` the archive is written to the partition as it is. Only the used blocks are compared with the
size of the partition; a dump is as long as the device that it was made of.
-/

namespace SingleRestore

open ShellText Table ArchiveNames TapeOrder TapeRecovery Tapes Targets
open Recovering (Content blank overlay overlay_blank)

universe u

/-- A file system with one file that is empty. -/
def oneFile : Content := fun p => if p = [] then some [] else none

/-- A run with the backups on tape. The partition is given by its blocks as `sfdisk` prints them, by
its sectors, by the status of `mount`, and by what there is room for on it; `overflow` is what `tar`
leaves where there is no more room. -/
structure Session where
  single : Single
  onTape : single.tape = true
  df : List (Text × Nat)
  index : Nat
  line : Line
  selected : single.table[index]? = some line
  fileSystem_eq : single.fileSystem = line.fs
  size : Option Nat
  mount : Nat
  sectors : Nat
  /-- The sectors of the device of a line, which are the length of its dump. -/
  length : Line → Nat
  room : Content → Bool
  overflow : Content → Content → Content
  room_blank : room blank = true
  room_oneFile : room oneFile = true

/-- What is on a partition: files, the beginning of a dump, or a file of the tape that is no dump of
a file system. -/
inductive Partition (α : Type u)
  | files (c : Content)
  | cut (c : Content)
  | raw (f : File α)

namespace Session

variable {α : Type u} (k : Session) (mode : Mode) (t : Tape (File α))
  (foreign : File α → Content → Content) (contents : Line → Content)

/-- `UsedbyFS`. -/
def used : Option Nat :=
  k.df.foldl (fun used l => if l.1 = k.single.fileSystem then some l.2 else used) none

/-- Step 7. -/
def fits : Bool := k.used.any fun used => k.size.any fun size => used ≤ size

/-- Steps 2 and 9, and the one read of Step 10. -/
def ops : List (Op (File α)) :=
  .rewind :: ((if mode = .obdr then [.forward 3] else []) ++
    ((if 0 < k.index then [.forward k.index] else []) ++ [.read]))

/-- The file that is read from the tape of a backup. -/
def fetched : Option (File α) :=
  ((t.run (backup mode k.single.table)).2.run (boot mode ++ k.ops mode)).1.getLast?.join

/-- What `tar` leaves of an archive and of what was there. -/
def extract (new old : Content) : Content :=
  if k.room (overlay new old) then overlay new old else k.overflow new old

/-- `tar` makes something of a file that is no dump; of one that is none of this backup it makes
what it will. -/
def unpack : File α → Content → Content
  | .archive i, old =>
    match k.single.table[i]? with
    | some m => if tarItKind m.fsType = .tar then k.extract (contents m) old else old
    | none => old
  | f, old => foreign f old

def dump : File α → Partition α
  | .archive i =>
    match k.single.table[i]? with
    | some m =>
      if tarItKind m.fsType = .tar then .raw (.archive i)
      else if k.length m ≤ k.sectors then .files (contents m)
      else .cut (contents m)
    | none => .raw (.archive i)
  | f => .raw f

/-- `Get_backup_back`. Without a mount `tar` unpacks somewhere else. -/
def getBack (fsType : Text) : Option (File α) → Content → Partition α
  | none, old => .files old
  | some f, old =>
    match selectExtention fsType with
    | some .tar => .files (if k.mount = 0 then k.unpack foreign contents f old else old)
    | some .dd => k.dump contents f
    | none => .files old

/-- The partition after Steps 7 to 10. -/
def after (before : Content) : Partition α :=
  match sourceLine k.single.table k.single.fileSystem with
  | none => .files before
  | some l =>
    match selectExtention l.fsType with
    | none => .files before
    | some kind =>
      if k.fits = false then .files before
      else if kind = .tar ∧ k.mount = 1 then .files (if k.single.mkfs then blank else before)
      else if k.single.wanted then
        k.getBack foreign contents (k.single.fsType l) (k.fetched mode t)
          (if kind = .tar ∧ k.single.mkfs then blank else before)
      else .files (if kind = .tar ∧ k.single.mkfs then blank else before)

end Session

section Fetched

variable {α : Type u} {k : Session} {mode : Mode} {t : Tape (File α)}

theorem fetched_eq (k : Session) (mode : Mode) (t : Tape (File α)) :
    k.fetched mode t = (t.run (backup mode k.single.table)).2.files[
      (if mode = .obdr then 3 else 0) + k.index]? := by
  rw [Session.fetched, Session.ops, run_boot]
  by_cases hindex : 0 < k.index
  · rw [if_pos hindex, List.singleton_append, run_seek_forward, run_seek_read, List.getLast?_append]
    rfl
  · rw [if_neg hindex, List.nil_append, run_seek_read, List.getLast?_append,
      Nat.eq_zero_of_not_pos hindex]
    rfl

/-- The archive of the line is read exactly if the backup began at the beginning of the tape. -/
theorem fetched_own_iff (hnodup : k.single.table.Nodup) (hold : ∀ i, File.archive i ∉ t.files) :
    (∃ i, k.fetched mode t = some (.archive i) ∧ k.single.table[i]? = some k.line) ↔
      mode ≠ .interactive ∨ t.pos = 0 := by
  obtain ⟨hlt, hline⟩ := List.getElem?_eq_some_iff.mp k.selected
  have hne : k.single.table ≠ [] := List.ne_nil_of_length_pos (by omega)
  have hfiles := backup_files (t := t) (written_ne_nil hne mode)
  have harchive : ∀ front : List (File α), (front ++ (writeTape k.single.table).map
      File.archive)[front.length + k.index]? = some (.archive k.index) :=
    fun front => (getElem?_archives front _ _).trans (if_pos hlt)
  rw [fetched_eq, hfiles, front]
  cases mode with
  | obdr =>
    refine iff_of_true ⟨k.index, ?_, k.selected⟩ (.inl (by simp))
    exact harchive [.header, .image, .rootBase]
  | device =>
    refine iff_of_true ⟨k.index, ?_, k.selected⟩ (.inl (by simp))
    simpa using harchive []
  | interactive =>
    simp only [reduceCtorEq, if_false, if_true, List.append_nil, Nat.zero_add, ne_eq,
      not_true_eq_false, false_or]
    constructor
    · rintro ⟨i, hget, hi⟩
      by_cases hbefore : k.index < (t.files.take t.pos).length
      · rw [List.getElem?_append_left hbefore] at hget
        exact absurd (List.mem_of_mem_take (List.mem_of_getElem? hget)) (hold i)
      · obtain ⟨j, hj⟩ := Nat.exists_eq_add_of_le (Nat.le_of_not_lt hbefore)
        have hjlt : j < k.single.table.length := by omega
        rw [hj, getElem?_archives, if_pos hjlt] at hget
        obtain rfl := File.archive.inj (Option.some.inj hget)
        have hsame := (List.getElem?_inj hlt hnodup).mp (k.selected.trans hi.symm)
        rw [List.length_take_of_le t.le] at hj
        omega
    · intro hpos
      rw [hpos, List.take_zero]
      exact ⟨k.index, by simpa using harchive [], k.selected⟩

end Fetched

section Contents

variable {α : Type u} {k : Session} {mode : Mode} {t : Tape (File α)}
  {foreign : File α → Content → Content}

/-- A file that is not the archive of the line brings nothing of its files. -/
theorem getBack_congr (c₁ c₂ : Line → Content) (hsame : ∀ m, m ≠ k.line → c₁ m = c₂ m)
    {f : Option (File α)}
    (hother : ∀ i, f = some (.archive i) → k.single.table[i]? ≠ some k.line) (fsType : Text)
    (old : Content) :
    k.getBack foreign c₁ fsType f old = k.getBack foreign c₂ fsType f old := by
  cases f with
  | none => rfl
  | some f =>
    cases f with
    | archive i =>
      have hline : ∀ m, k.single.table[i]? = some m → c₁ m = c₂ m := by
        intro m hm
        refine hsame m ?_
        rintro rfl
        exact hother i rfl hm
      simp only [Session.getBack, Session.unpack, Session.dump]
      cases hm : k.single.table[i]? with
      | none => rfl
      | some m => simp only [hline m hm]
    | old _ | header | image | rootBase => rfl

/-- The script gets to `Get_backup_back`, with the type of a line. -/
structure Reaches (k : Session) (l : Line) (kind : Kind) : Prop where
  source : sourceLine k.single.table k.single.fileSystem = some l
  known : selectExtention l.fsType = some kind
  fits : k.fits = true
  mounted : kind = .tar → k.mount ≠ 1
  wanted : k.single.wanted = true

theorem after_of_reaches {l : Line} {kind : Kind} (h : Reaches k l kind) (contents : Line → Content)
    (before : Content) :
    k.after mode t foreign contents before =
      k.getBack foreign contents (k.single.fsType l) (k.fetched mode t)
        (if kind = .tar ∧ k.single.mkfs then blank else before) := by
  have hmount : ¬ (kind = .tar ∧ k.mount = 1) := fun hboth => h.mounted hboth.1 hboth.2
  simp only [Session.after, h.source, h.known, h.fits, hmount, h.wanted, Bool.true_eq_false,
    if_false, if_true]

/-- The type is the one that was picked, or that of the line. -/
theorem fsType_of_known {l : Line} {kind : Kind} (h : selectExtention l.fsType = some kind) :
    kind = .tar ∧ l.fsType ∈ tarTypes ∧ k.single.fsType l = k.single.pick ∨
      kind = .dd ∧ l.fsType ∈ ddTypes ∧ k.single.fsType l = l.fsType := by
  rw [Single.fsType, h]
  rw [selectExtention] at h
  split at h
  · rename_i htar
    obtain rfl := Option.some.inj h
    exact .inl ⟨rfl, htar, rfl⟩
  · split at h
    · rename_i hdd
      obtain rfl := Option.some.inj h
      exact .inr ⟨rfl, hdd, rfl⟩
    · cases h

/-- A run that does not get there leaves nothing that depends on the archives. -/
theorem after_cases (k : Session) (mode : Mode) (t : Tape (File α))
    (foreign : File α → Content → Content) (before : Content) :
    (∃ l kind, Reaches k l kind) ∨
      ∃ c, ∀ contents, k.after mode t foreign contents before = .files c := by
  cases hl : sourceLine k.single.table k.single.fileSystem with
  | none =>
    refine .inr ⟨before, fun contents => ?_⟩
    simp only [Session.after, hl]
  | some l =>
    cases hkind : selectExtention l.fsType with
    | none =>
      refine .inr ⟨before, fun contents => ?_⟩
      simp only [Session.after, hl, hkind]
    | some kind =>
      by_cases hfits : k.fits = false
      · refine .inr ⟨before, fun contents => ?_⟩
        simp only [Session.after, hl, hkind, hfits, if_true]
      by_cases hmount : kind = .tar ∧ k.mount = 1
      · refine .inr ⟨if k.single.mkfs then blank else before, fun contents => ?_⟩
        simp only [Session.after, hl, hkind, if_neg hfits, if_pos hmount]
      cases hwanted : k.single.wanted with
      | false =>
        refine .inr ⟨if kind = .tar ∧ k.single.mkfs then blank else before, fun contents => ?_⟩
        simp only [Session.after, hl, hkind, if_neg hfits, if_neg hmount, hwanted,
          Bool.false_eq_true, if_false]
      | true =>
        refine .inl ⟨l, kind, hl, hkind, Bool.of_not_eq_false hfits, ?_, hwanted⟩
        exact fun hk hm => hmount ⟨hk, hm⟩

/-- The contents of the line have room on the partition, if they are unpacked. -/
def Session.HasRoom (k : Session) (contents : Line → Content) : Prop :=
  k.line.fsType ∈ tarTypes → k.room (contents k.line) = true

/-- The archive is unpacked into a new file system, or it is a dump, not longer than the partition,
and written as it is. -/
def Suits (k : Session) (l : Line) : Prop :=
  (k.line.fsType ∈ tarTypes ∧ l.fsType ∈ tarTypes ∧ k.single.pick ≠ "msdos".toList ∧
      k.single.mkfs = true ∧ k.mount = 0) ∨
    k.line.fsType ∉ tarTypes ∧ k.length k.line ≤ k.sectors ∧
      (l.fsType ∈ ddTypes ∨
        l.fsType ∈ tarTypes ∧ k.single.pick = "msdos".toList ∧ k.mount ≠ 1)

end Contents

section Restored

variable {α : Type u} {k : Session} {mode : Mode} {t : Tape (File α)}
  {foreign : File α → Content → Content}

theorem hasRoom_blank (k : Session) : k.HasRoom fun _ => blank := fun _ => k.room_blank

theorem oneFile_ne_blank : oneFile ≠ blank := by
  intro heq
  cases congrFun heq []

/-- What is the same for all archives is not the content of a line. -/
theorem not_const (P : Partition α) :
    ¬ ∀ contents, k.HasRoom contents → P = .files (contents k.line) := by
  intro h
  have hsame := (h (fun _ => blank) fun _ => k.room_blank).symm.trans
    (h (fun _ => oneFile) fun _ => k.room_oneFile)
  exact oneFile_ne_blank (Partition.files.inj hsame).symm

section Archive

variable {i : Nat} {fsType : Text}

theorem getBack_tar (hi : k.single.table[i]? = some k.line) (htype : fsType ∈ tarTypes)
    (contents : Line → Content) (old : Content) :
    k.getBack foreign contents fsType (some (.archive i)) old =
      .files (if k.mount = 0 ∧ k.line.fsType ∈ tarTypes then k.extract (contents k.line) old
        else old) := by
  have hsel : selectExtention fsType = some .tar := if_pos htype
  have hkind : tarItKind k.line.fsType = .tar ↔ k.line.fsType ∈ tarTypes := by
    simp [tarItKind]
  simp only [Session.getBack, Session.unpack, hsel, hi, hkind]
  split <;> split <;> simp_all

theorem getBack_dd (hi : k.single.table[i]? = some k.line) (htype : fsType ∈ ddTypes)
    (contents : Line → Content) (old : Content) :
    k.getBack foreign contents fsType (some (.archive i)) old =
      if k.line.fsType ∈ tarTypes then .raw (.archive i)
      else if k.length k.line ≤ k.sectors then .files (contents k.line)
      else .cut (contents k.line) := by
  have hsel : selectExtention fsType = some .dd := by
    rw [selectExtention, if_neg (ddTypes_disjoint _ htype), if_pos htype]
  simp only [Session.getBack, Session.dump, hsel, hi, tarItKind]
  by_cases htar : k.line.fsType ∈ tarTypes
  · simp [htar]
  · simp [htar]

theorem whole_of_dumped (hi : k.single.table[i]? = some k.line) (htype : fsType ∈ ddTypes)
    {old : Content} (hback : ∀ contents, k.HasRoom contents →
      k.getBack foreign contents fsType (some (.archive i)) old = .files (contents k.line)) :
    k.line.fsType ∉ tarTypes ∧ k.length k.line ≤ k.sectors := by
  have hblank := hback _ (hasRoom_blank k)
  rw [getBack_dd hi htype] at hblank
  split at hblank
  · cases hblank
  · rename_i hline
    split at hblank
    · rename_i hlength
      exact ⟨hline, hlength⟩
    · cases hblank

/-- What brings back all contents over another file has made a new file system first. -/
theorem made_of_unpacked (hi : k.single.table[i]? = some k.line) (htype : fsType ∈ tarTypes)
    (hback : ∀ contents, k.HasRoom contents → k.getBack foreign contents fsType (some (.archive i))
      (if k.single.mkfs then blank else oneFile) = .files (contents k.line)) :
    k.line.fsType ∈ tarTypes ∧ k.single.mkfs = true ∧ k.mount = 0 := by
  by_cases hunpacked : k.mount = 0 ∧ k.line.fsType ∈ tarTypes
  · refine ⟨hunpacked.2, ?_, hunpacked.1⟩
    by_contra hmkfs
    have hblank := hback _ (hasRoom_blank k)
    have hstays : k.extract blank oneFile = oneFile := if_pos k.room_oneFile
    rw [getBack_tar hi htype, if_pos hunpacked, if_neg hmkfs, hstays] at hblank
    exact oneFile_ne_blank (Partition.files.inj hblank)
  · exfalso
    refine not_const (k := k) (.files (if k.single.mkfs then blank else oneFile) : Partition α)
      fun contents hroom => ?_
    rw [← hback contents hroom, getBack_tar hi htype, if_neg hunpacked]

end Archive

/-- What brings back all contents is the archive of the line. -/
theorem own_of_getBack {f : Option (File α)} {fsType : Text} {old : Content}
    (hback : ∀ contents, k.HasRoom contents →
      k.getBack foreign contents fsType f old = .files (contents k.line)) :
    ∃ i, f = some (.archive i) ∧ k.single.table[i]? = some k.line := by
  by_contra hnone
  have hother : ∀ i, f = some (.archive i) → k.single.table[i]? ≠ some k.line :=
    fun i hi hline => hnone ⟨i, hi, hline⟩
  refine not_const (k := k) (k.getBack foreign (fun _ => blank) fsType f old)
    fun contents hroom => ?_
  rw [getBack_congr _ (fun m => if m = k.line then contents k.line else blank) ?_ hother, hback,
    if_pos rfl]
  · intro htar
    simpa using hroom htar
  · intro m hm
    rw [if_neg hm]

theorem Reaches.suits {l : Line} {kind : Kind} (h : Reaches k l kind) (hmenu : k.single.pick ∈ menu)
    {i : Nat} (hi : k.single.table[i]? = some k.line)
    (hback : ∀ contents, k.HasRoom contents →
      k.getBack foreign contents (k.single.fsType l) (some (.archive i))
        (if kind = .tar ∧ k.single.mkfs then blank else oneFile) = .files (contents k.line)) :
    Suits k l := by
  obtain ⟨rfl, htar, htype⟩ | ⟨rfl, hdd, htype⟩ := fsType_of_known (k := k) h.known
  · by_cases hms : k.single.pick = "msdos".toList
    · obtain ⟨hline, hlength⟩ := whole_of_dumped hi (by rw [htype, hms]; decide) hback
      exact .inr ⟨hline, hlength, .inr ⟨htar, hms, h.mounted rfl⟩⟩
    · have hpick : k.single.fsType l ∈ tarTypes := htype ▸ menu_tar _ hmenu hms
      simp only [true_and] at hback
      obtain ⟨hline, hmkfs, hmount⟩ := made_of_unpacked hi hpick hback
      exact .inl ⟨hline, htar, hms, hmkfs, hmount⟩
  · obtain ⟨hline, hlength⟩ := whole_of_dumped hi (htype ▸ hdd) hback
    exact .inr ⟨hline, hlength, .inl hdd⟩

theorem Suits.after_eq {l : Line} (h : Suits k l) (hmenu : k.single.pick ∈ menu)
    (hfits : k.fits = true) (hwanted : k.single.wanted = true)
    (hsource : sourceLine k.single.table k.single.fileSystem = some l) {i : Nat}
    (hfetched : k.fetched mode t = some (.archive i)) (hi : k.single.table[i]? = some k.line)
    {contents : Line → Content} (hroom : k.HasRoom contents) (before : Content) :
    k.after mode t foreign contents before = .files (contents k.line) := by
  rcases h with ⟨hline, htar, hms, hmkfs, hmount⟩ | ⟨hline, hlength, hdd | ⟨htar, hms, hmount⟩⟩
  · have hknown : selectExtention l.fsType = some .tar := if_pos htar
    have hreach : Reaches k l .tar := ⟨hsource, hknown, hfits, fun _ => by omega, hwanted⟩
    have htype : k.single.fsType l ∈ tarTypes := by
      rw [Single.fsType, if_pos hknown]
      exact menu_tar _ hmenu hms
    rw [after_of_reaches hreach, hfetched, getBack_tar hi htype, if_pos ⟨hmount, hline⟩,
      if_pos ⟨rfl, hmkfs⟩, Session.extract, overlay_blank, if_pos (hroom hline)]
  · have hknown : selectExtention l.fsType = some .dd := by
      rw [selectExtention, if_neg (ddTypes_disjoint _ hdd), if_pos hdd]
    have hreach : Reaches k l .dd := ⟨hsource, hknown, hfits, by simp, hwanted⟩
    have htype : k.single.fsType l ∈ ddTypes := by
      rw [Single.fsType, hknown]
      exact hdd
    rw [after_of_reaches hreach, hfetched, getBack_dd hi htype, if_neg hline, if_pos hlength]
  · have hknown : selectExtention l.fsType = some .tar := if_pos htar
    have hreach : Reaches k l .tar := ⟨hsource, hknown, hfits, fun _ => hmount, hwanted⟩
    have htype : k.single.fsType l ∈ ddTypes := by
      rw [Single.fsType, if_pos hknown, hms]
      decide
    rw [after_of_reaches hreach, hfetched, getBack_dd hi htype, if_neg hline, if_pos hlength]

/-- `restore-fs.sh` on the tape of a backup. Whatever the file system had in it that has room and
whatever was on the partition, its files come back exactly if the used blocks fit, the restore is
confirmed, the backup began at the beginning of the tape, and the archive is unpacked into a new
file system of a type for `tar`, or is a dump that is not too long and written as it is. -/
theorem single_restored_iff (hnodup : k.single.table.Nodup) (hold : ∀ i, File.archive i ∉ t.files)
    (hmenu : k.single.pick ∈ menu) :
    (∀ contents, k.HasRoom contents → ∀ before,
        k.after mode t foreign contents before = .files (contents k.line)) ↔
      k.fits = true ∧ k.single.wanted = true ∧ (mode ≠ .interactive ∨ t.pos = 0) ∧
        ∃ l, sourceLine k.single.table k.single.fileSystem = some l ∧ Suits k l := by
  rw [← fetched_own_iff hnodup hold]
  constructor
  · intro h
    obtain ⟨l, kind, hreach⟩ | ⟨c, hc⟩ := after_cases k mode t foreign blank
    · have hback : ∀ contents, k.HasRoom contents →
          k.getBack foreign contents (k.single.fsType l) (k.fetched mode t)
            (if kind = .tar ∧ k.single.mkfs then blank else oneFile) = .files (contents k.line) :=
        fun contents hroom =>
          (after_of_reaches hreach contents oneFile).symm.trans (h contents hroom oneFile)
      have hfetched := own_of_getBack hback
      refine ⟨hreach.fits, hreach.wanted, hfetched, l, hreach.source, ?_⟩
      obtain ⟨i, hi, hline⟩ := hfetched
      rw [hi] at hback
      exact hreach.suits hmenu hline hback
    · exact absurd (fun contents hroom => (hc contents).symm.trans (h contents hroom blank))
        (not_const (Partition.files c))
  · rintro ⟨hfits, hwanted, ⟨i, hi, hline⟩, l, hsource, hsuits⟩ contents hroom before
    exact hsuits.after_eq hmenu hfits hwanted hsource hi hline hroom before

end Restored

/-- A run for the root file system, with the type that is picked. -/
def rootSession (pick : Text) : Session where
  single := ⟨[TapeClone.rootLine], "/".toList, "sda1".toList, true, pick, true, true⟩
  onTape := rfl
  df := [("/".toList, 100)]
  index := 0
  line := TapeClone.rootLine
  selected := rfl
  fileSystem_eq := rfl
  size := some 100
  mount := 0
  sectors := 200
  length := fun _ => 200
  room := fun _ => true
  overflow := fun _ old => old
  room_blank := rfl
  room_oneFile := rfl

/-- The same archive comes back as `ext3`, and is written to the partition as it is for
`msdos`. -/
theorem msdos_not_unpacked :
    (∀ contents, (rootSession "ext3".toList).HasRoom contents → ∀ before,
        (rootSession "ext3".toList).after .device TapeClone.newTape (fun _ old => old) contents
          before = .files (contents TapeClone.rootLine)) ∧
      ¬ ∀ contents, (rootSession "msdos".toList).HasRoom contents → ∀ before,
        (rootSession "msdos".toList).after .device TapeClone.newTape (fun _ old => old) contents
          before = .files (contents TapeClone.rootLine) := by
  have hold : ∀ i, File.archive i ∉ TapeClone.newTape.files := fun i => List.not_mem_nil
  have htar : TapeClone.rootLine.fsType ∈ tarTypes := by decide
  constructor
  · refine (single_restored_iff (k := rootSession "ext3".toList) (List.nodup_singleton _) hold
      (by decide)).mpr ⟨by decide, rfl, .inl (by decide), TapeClone.rootLine, by decide, ?_⟩
    exact .inl ⟨htar, htar, by decide, rfl, rfl⟩
  · refine mt (single_restored_iff (k := rootSession "msdos".toList) (List.nodup_singleton _) hold
      (by decide)).mp ?_
    rintro ⟨-, -, -, l, -, ⟨-, -, hms, -⟩ | ⟨hnot, -⟩⟩
    · exact hms rfl
    · exact hnot htar

end SingleRestore
