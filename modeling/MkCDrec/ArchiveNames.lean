import MkCDrec.Table

/-!
# Names of archives

`tar-it.sh` derives the name and the kind of an archive from a line of `To_Backup`;
`start-restore.sh`, `clone-dsk.sh` and `restore-fs.sh` derive them again, each with
its own encoding of the device and from a second table of file system types.
-/

namespace ArchiveNames

open ShellText Table

inductive Kind
  | tar
  | dd
deriving DecidableEq

def Kind.ext : Kind → Text
  | .tar => "tar".toList
  | .dd => "dd".toList

/-- An archive as the scripts look for it. -/
structure Archive where
  kind : Kind
  name : Text
deriving DecidableEq

/-- `CmpExt`. -/
def cmpExt (cmpProg : Text) : Text :=
  if cmpProg = "gzip".toList then "gz".toList
  else if cmpProg = "bzip2".toList then "bz2".toList
  else if cmpProg = "compress".toList then "Z".toList
  else if cmpProg = "lzop".toList then "lzo".toList
  else "z".toList

/-- `EncExt`. -/
def encExt (cipher : Text) : Text := if cipher = [] then [] else '.' :: cipher

/-- The types that every script restores with `tar`. -/
def tarTypes : List Text :=
  ["ext2".toList, "ext3".toList, "auto".toList, "minix".toList, "reiserfs".toList, "xfs".toList,
    "jfs".toList]

/-- The types that the restore scripts know to be dumped. -/
def ddTypes : List Text := ["msdos".toList, "fat".toList, "vfat".toList]

/-- The `case` of `tar-it.sh`: whatever it does not know is dumped. -/
def tarItKind (fsType : Text) : Kind := if fsType ∈ tarTypes then .tar else .dd

/-- `SelectExtention`; an unknown type is an error. -/
def selectExtention (fsType : Text) : Option Kind :=
  if fsType ∈ tarTypes then some .tar else if fsType ∈ ddTypes then some .dd else none

section Programs

variable (cmpProg cipher : Text)

def archive (kind : Kind) (dev fs : Text) : Archive :=
  ⟨kind, dev ++ '.' :: fs ++ '.' :: kind.ext ++ '.' :: cmpExt cmpProg ++ encExt cipher⟩

/-- `DESTINATION` in `tar-it.sh`. -/
def tarIt (l : Line) : Archive :=
  archive cmpProg cipher (tarItKind l.fsType) (escape l.dev) (flat l.fs)

/-- `RESTORE` in `Get_backup_back`, from the `_Dev`, `_Fs` and `FStype` of its
caller. -/
def getBackupBack (dev fs fsType : Text) : Option Archive :=
  (selectExtention fsType).map fun kind => archive cmpProg cipher kind dev fs

def startRestore (l : Line) : Option Archive :=
  getBackupBack cmpProg cipher (escape l.dev) (flat l.fs) l.fsType

/-- `clone-dsk.sh` for the source device `sdev`. -/
def cloneDsk (sdev : Text) (l : Line) : Option Archive :=
  getBackupBack cmpProg cipher (flat sdev) (flat l.fs) l.fsType

/-- `_md`, the name of a meta device in `md/df.$HOSTNAME`, which is `SDev` when a
member of a software RAID is cloned. -/
def mdName (dev : Text) : Text := dev.erase '/'

/-- The file systems that `restore-fs.sh` offers for the new partition. -/
def menu : List Text :=
  ["minix".toList, "ext2".toList, "ext3".toList, "msdos".toList, "reiserfs".toList, "xfs".toList,
    "jfs".toList]

/-- The line that `restore-fs.sh` takes for a mount point: the last one. -/
def sourceLine (table : List Line) (fileSystem : Text) : Option Line :=
  table.foldl (fun found l => if l.fs = fileSystem then some l else found) none

/-- `restore-fs.sh` from CD or disk; for an archive made by `tar` the user chooses
the type of the new file system. -/
def restoreFs (table : List Line) (fileSystem pick : Text) : Option Archive :=
  match sourceLine table fileSystem with
  | none => none
  | some l =>
    match selectExtention l.fsType with
    | none => none
    | some kind =>
      getBackupBack cmpProg cipher (flat l.dev) (flat fileSystem)
        (if kind = .tar then pick else l.fsType)

/-- Every script finds every archive, and no two lines share one. -/
structure NamesAgree (table : List Line) (raid : Line → Bool) (pick : Text → Text) : Prop where
  start : ∀ l ∈ table, startRestore cmpProg cipher l = some (tarIt cmpProg cipher l)
  clone : ∀ l ∈ table, cloneDsk cmpProg cipher l.dev l = some (tarIt cmpProg cipher l)
  cloneMember : ∀ l ∈ table, raid l = true →
    cloneDsk cmpProg cipher (mdName l.dev) l = some (tarIt cmpProg cipher l)
  single : ∀ l ∈ table,
    restoreFs cmpProg cipher table l.fs (pick l.fs) = some (tarIt cmpProg cipher l)
  distinct : ∀ l ∈ table, ∀ m ∈ table, l ≠ m →
    (tarIt cmpProg cipher l).name ≠ (tarIt cmpProg cipher m).name

end Programs

/-- Tables and choices that all scripts can cope with. -/
structure Nameable (table : List Line) (raid : Line → Bool) (pick : Text → Text) : Prop where
  known : ∀ l ∈ table, l.fsType ∈ tarTypes ∨ l.fsType ∈ ddTypes
  plain : ∀ l ∈ table, '_' ∉ l.dev
  members : ∀ l ∈ table, raid l = true → '/' ∉ l.dev
  chosen : ∀ l ∈ table, l.fsType ∈ tarTypes → pick l.fs ≠ "msdos".toList
  mounts : ∀ l ∈ table, ∀ m ∈ table, l ≠ m → l.fs ≠ m.fs
  apart : ∀ l ∈ table, ∀ m ∈ table, l ≠ m → (l.fsType ∈ tarTypes ↔ m.fsType ∈ tarTypes) →
    flat (l.dev ++ '.' :: l.fs) ≠ flat (m.dev ++ '.' :: m.fs)

section Agreement

variable {cmpProg cipher : Text} {table : List Line} {raid : Line → Bool} {pick : Text → Text}
  {l m : Line} {fsType dev fs : Text} {kind : Kind}

theorem ddTypes_disjoint : ∀ t ∈ ddTypes, t ∉ tarTypes := by decide

theorem menu_tar : ∀ t ∈ menu, t ≠ "msdos".toList → t ∈ tarTypes := by decide

/-- The two tables of types agree on the types that the second one knows. -/
theorem selectExtention_eq_iff :
    selectExtention fsType = some (tarItKind fsType) ↔ fsType ∈ tarTypes ∨ fsType ∈ ddTypes := by
  rw [selectExtention, tarItKind]
  by_cases htar : fsType ∈ tarTypes
  · simp [htar]
  · by_cases hdd : fsType ∈ ddTypes
    · simp [htar, hdd]
    · simp [htar, hdd]

/-- The kind shows in the name. -/
theorem name_inj {k k' : Kind} {d f d' f' : Text} :
    (archive cmpProg cipher k d f).name = (archive cmpProg cipher k' d' f').name ↔
      k = k' ∧ d ++ '.' :: f = d' ++ '.' :: f' := by
  have hname : ∀ (k : Kind) (d f : Text), (archive cmpProg cipher k d f).name =
      ((d ++ '.' :: f) ++ '.' :: k.ext) ++ '.' :: (cmpExt cmpProg ++ encExt cipher) := by
    intro k d f
    simp only [archive, List.append_assoc, List.cons_append]
  rw [hname, hname, List.append_cancel_right_eq]
  constructor
  · intro h
    -- `tar` and `dd` end in different letters
    have hlast := congrArg List.getLast? h
    rw [List.getLast?_append_of_ne_nil _ (List.cons_ne_nil _ _),
      List.getLast?_append_of_ne_nil _ (List.cons_ne_nil _ _)] at hlast
    have hkind : k = k' := by
      revert hlast
      cases k <;> cases k' <;> decide
    subst hkind
    exact ⟨rfl, List.append_cancel_right h⟩
  · rintro ⟨rfl, h⟩
    rw [h]

theorem archive_inj {k k' : Kind} {d f d' f' : Text} :
    archive cmpProg cipher k d f = archive cmpProg cipher k' d' f' ↔
      k = k' ∧ d ++ '.' :: f = d' ++ '.' :: f' := by
  constructor
  · intro h
    exact name_inj.mp (congrArg Archive.name h)
  · rintro ⟨rfl, h⟩
    exact Archive.mk.injEq .. ▸ ⟨rfl, name_inj.mpr ⟨rfl, h⟩⟩

theorem foldl_sourceLine (table : List Line) (fs : Text) : ∀ found : Option Line,
    table.foldl (fun found l => if l.fs = fs then some l else found) found =
      (sourceLine table fs).or found := by
  induction table with
  | nil => intro found; rfl
  | cons l table ih =>
    intro found
    have hcons : sourceLine (l :: table) fs =
        (sourceLine table fs).or (if l.fs = fs then some l else none) := ih _
    rw [List.foldl_cons, ih, hcons]
    split
    · cases sourceLine table fs <;> rfl
    · cases sourceLine table fs <;> rfl

theorem sourceLine_cons (l : Line) (table : List Line) (fs : Text) :
    sourceLine (l :: table) fs =
      (sourceLine table fs).or (if l.fs = fs then some l else none) := foldl_sourceLine table fs _

theorem sourceLine_eq_some (h : sourceLine table fs = some m) : m ∈ table ∧ m.fs = fs := by
  induction table with
  | nil => cases h
  | cons l table ih =>
    rw [sourceLine_cons] at h
    rcases Option.or_eq_some_iff.mp h with h | ⟨_, h⟩
    · exact ⟨List.mem_cons_of_mem _ (ih h).1, (ih h).2⟩
    · split at h
      · obtain rfl := Option.some.inj h
        exact ⟨List.mem_cons_self, by assumption⟩
      · cases h

theorem exists_sourceLine (hl : l ∈ table) : ∃ m, sourceLine table l.fs = some m := by
  induction table with
  | nil => cases hl
  | cons k table ih =>
    rw [sourceLine_cons]
    rcases List.mem_cons.mp hl with rfl | hl
    · cases h : sourceLine table l.fs with
      | none => exact ⟨l, by simp⟩
      | some m => exact ⟨m, rfl⟩
    · obtain ⟨m, hm⟩ := ih hl
      exact ⟨m, by rw [hm]; rfl⟩

/-- A restore from a line finds its archive if the type is known and the encodings of
the device agree. -/
theorem getBackupBack_eq_iff {dev : Text} :
    getBackupBack cmpProg cipher dev (flat l.fs) l.fsType = some (tarIt cmpProg cipher l) ↔
      (l.fsType ∈ tarTypes ∨ l.fsType ∈ ddTypes) ∧ dev = escape l.dev := by
  rw [getBackupBack, tarIt, ← selectExtention_eq_iff]
  cases hsel : selectExtention l.fsType with
  | none => simp
  | some kind =>
    rw [Option.map_some, Option.some_inj, Option.some_inj, archive_inj, List.append_cancel_right_eq]

theorem startRestore_eq_iff :
    startRestore cmpProg cipher l = some (tarIt cmpProg cipher l) ↔
      l.fsType ∈ tarTypes ∨ l.fsType ∈ ddTypes := by
  rw [startRestore, getBackupBack_eq_iff]
  exact and_iff_left rfl

theorem cloneDsk_eq_iff {sdev : Text} :
    cloneDsk cmpProg cipher sdev l = some (tarIt cmpProg cipher l) ↔
      (l.fsType ∈ tarTypes ∨ l.fsType ∈ ddTypes) ∧ flat sdev = escape l.dev :=
  getBackupBack_eq_iff

/-- A meta device in a directory of its own is written in two ways. -/
theorem flat_mdName_eq_escape_iff (hplain : '_' ∉ dev) :
    flat (mdName dev) = escape dev ↔ '/' ∉ dev := by
  rw [← flat_eq_escape_iff.mpr hplain]
  constructor
  · intro h hmem
    have hlen := congrArg List.length h
    have hpos := List.length_pos_of_mem hmem
    rw [length_flat, length_flat, mdName, List.length_erase_of_mem hmem] at hlen
    omega
  · intro h
    rw [mdName, List.erase_of_not_mem h]

/-- `restore-fs.sh` for the file system of its own line. -/
theorem restoreFs_eq_iff {choice : Text} (hself : sourceLine table l.fs = some l)
    (hplain : '_' ∉ l.dev) (hknown : l.fsType ∈ tarTypes ∨ l.fsType ∈ ddTypes)
    (hmenu : choice ∈ menu) :
    restoreFs cmpProg cipher table l.fs choice = some (tarIt cmpProg cipher l) ↔
      (l.fsType ∈ tarTypes → choice ≠ "msdos".toList) := by
  have hdev := flat_eq_escape_iff.mpr hplain
  simp only [restoreFs, hself, selectExtention_eq_iff.mpr hknown]
  by_cases htar : l.fsType ∈ tarTypes
  · have hkind : tarItKind l.fsType = .tar := if_pos htar
    rw [if_pos hkind, hdev, getBackupBack, tarIt, hkind]
    by_cases hms : choice = "msdos".toList
    · subst hms
      refine iff_of_false ?_ (fun h => h htar rfl)
      have hsel : selectExtention "msdos".toList = some .dd := by decide
      rw [hsel, Option.map_some, Option.some_inj, archive_inj]
      rintro ⟨hkind, _⟩
      cases hkind
    · have hsel : selectExtention choice = some .tar := if_pos (menu_tar _ hmenu hms)
      rw [hsel]
      exact iff_of_true rfl fun _ => hms
  · have hkind : tarItKind l.fsType ≠ .tar := by
      rw [tarItKind, if_neg htar]
      intro h
      cases h
    rw [if_neg hkind, hdev]
    exact iff_of_true (getBackupBack_eq_iff.mpr ⟨hknown, rfl⟩) fun h => absurd h htar

theorem restoreFs_source {choice : Text} {a : Archive}
    (h : restoreFs cmpProg cipher table fs choice = some a) :
    ∃ m ∈ table, m.fs = fs ∧ sourceLine table fs = some m := by
  rw [restoreFs] at h
  split at h
  · cases h
  · rename_i m hm
    obtain ⟨hin, hfs⟩ := sourceLine_eq_some hm
    exact ⟨m, hin, hfs, hm⟩

/-- All names agree if and only if every script knows the types, no device has an
underscore in its name (nor, in a software RAID, a slash), an archive made by `tar`
is not restored to an `msdos` file system, and neither two lines of one mount point
nor devices and mount points that differ in slashes and underscores only occur. -/
theorem namesAgree_iff (table : List Line) (raid : Line → Bool) (pick : Text → Text)
    (hmenu : ∀ fs, pick fs ∈ menu) (cmpProg cipher : Text) :
    NamesAgree cmpProg cipher table raid pick ↔ Nameable table raid pick := by
  have hname : ∀ l m : Line, '_' ∉ l.dev → '_' ∉ m.dev →
      ((tarIt cmpProg cipher l).name = (tarIt cmpProg cipher m).name ↔
        (l.fsType ∈ tarTypes ↔ m.fsType ∈ tarTypes) ∧
          flat (l.dev ++ '.' :: l.fs) = flat (m.dev ++ '.' :: m.fs)) := by
    intro l m hl hm
    have hkind : tarItKind l.fsType = tarItKind m.fsType ↔
        (l.fsType ∈ tarTypes ↔ m.fsType ∈ tarTypes) := by
      by_cases hl : l.fsType ∈ tarTypes <;> by_cases hm : m.fsType ∈ tarTypes <;>
        simp [tarItKind, hl, hm]
    have hjoin : ∀ d f : Text, flat (d ++ '.' :: f) = flat d ++ '.' :: flat f := by
      intro d f
      rw [flat_append]
      rfl
    rw [tarIt, tarIt, name_inj, hkind, hjoin, hjoin, flat_eq_escape_iff.mpr hl,
      flat_eq_escape_iff.mpr hm]
  constructor
  · intro h
    have hknown : ∀ l ∈ table, l.fsType ∈ tarTypes ∨ l.fsType ∈ ddTypes :=
      fun l hl => startRestore_eq_iff.mp (h.start l hl)
    have hplain : ∀ l ∈ table, '_' ∉ l.dev := fun l hl =>
      flat_eq_escape_iff.mp (cloneDsk_eq_iff.mp (h.clone l hl)).2
    have hmounts : ∀ l ∈ table, ∀ m ∈ table, l ≠ m → l.fs ≠ m.fs := by
      intro l hl m hm hne hfs
      have hsame := h.single l hl
      rw [hfs, h.single m hm] at hsame
      exact h.distinct m hm l hl (Ne.symm hne) (congrArg Archive.name (Option.some.inj hsame))
    refine ⟨hknown, hplain, ?_, ?_, hmounts, ?_⟩
    · intro l hl hraid
      exact (flat_mdName_eq_escape_iff (hplain l hl)).mp
        (cloneDsk_eq_iff.mp (h.cloneMember l hl hraid)).2
    · intro l hl
      obtain ⟨m, hm, hfs, hsource⟩ := restoreFs_source (h.single l hl)
      have hself : sourceLine table l.fs = some l := by
        by_cases heq : m = l
        · rw [hsource, heq]
        · exact absurd hfs (hmounts m hm l hl heq)
      exact (restoreFs_eq_iff hself (hplain l hl) (hknown l hl) (hmenu _)).mp (h.single l hl)
    · intro l hl m hm hne hkind hflat
      exact h.distinct l hl m hm hne ((hname l m (hplain l hl) (hplain m hm)).mpr ⟨hkind, hflat⟩)
  · intro h
    refine ⟨fun l hl => startRestore_eq_iff.mpr (h.known l hl), ?_, ?_, ?_, ?_⟩
    · intro l hl
      exact cloneDsk_eq_iff.mpr ⟨h.known l hl, flat_eq_escape_iff.mpr (h.plain l hl)⟩
    · intro l hl hraid
      exact cloneDsk_eq_iff.mpr ⟨h.known l hl,
        (flat_mdName_eq_escape_iff (h.plain l hl)).mpr (h.members l hl hraid)⟩
    · intro l hl
      obtain ⟨m, hsource⟩ := exists_sourceLine hl
      obtain ⟨hm, hfs⟩ := sourceLine_eq_some hsource
      have hself : sourceLine table l.fs = some l := by
        by_cases heq : m = l
        · rw [hsource, heq]
        · exact absurd hfs (h.mounts m hm l hl heq)
      exact (restoreFs_eq_iff hself (h.plain l hl) (h.known l hl) (hmenu _)).mpr (h.chosen l hl)
    · intro l hl m hm hne hsame
      obtain ⟨hkind, hflat⟩ := (hname l m (h.plain l hl) (h.plain m hm)).mp hsame
      exact h.apart l hl m hm hne hkind hflat

end Agreement

def rootLine : Line := ⟨"/dev/hda1".toList, "/".toList, "ext3".toList, "rw".toList⟩

def dosLine : Line := ⟨"/dev/hda5".toList, "/dos".toList, "vfat".toList, "rw".toList⟩

/-- A logical volume whose group has an underscore in its name. -/
def homeLine : Line := ⟨"/dev/vg_sd/lvol1".toList, "/home".toList, "ext3".toList, "rw".toList⟩

theorem namesAgree_hda :
    NamesAgree "bzip2".toList "bf".toList [rootLine, dosLine] (fun _ => false)
      fun _ => "reiserfs".toList :=
  (namesAgree_iff _ _ _ (fun _ => by decide) _ _).mpr
    ⟨by decide, by decide, by decide, by decide, by decide, by decide⟩

/-- The archive of a logical volume is there under a name that only
`start-restore.sh` looks for. -/
theorem namesDiffer_lvm :
    ¬ NamesAgree "gzip".toList [] [rootLine, homeLine] (fun _ => false)
      fun _ => "ext3".toList := by
  intro h
  have hclone := h.clone homeLine (by decide)
  revert hclone
  decide

end ArchiveNames
