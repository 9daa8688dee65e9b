import MkCDrec.DiskInfo
import MkCDrec.MdadmConf

/-!
# The commands that format the file systems again

For every line of `Backup.MntPoints` the loop of `Save_diskinfo` calls the function for the
class of the device, and each of these works out the options of `mkfs` from the type in
variables of the shell. `JOURNAL` and `EXTRA_OPTS` are set every time, `CHECK_BAD_BLOCKS` is
only ever emptied. The arrays are analysed in pipelines, which have variables of their own.
-/

namespace Formatting

open ShellText MetaDevices DiskInfo

/-- A line of `Backup.MntPoints`. -/
structure MountLine where
  device : Text
  fs : Text
  fsType : Text
deriving DecidableEq

inductive Command
  | mkfs (fsType : Text) (options : Words) (dev : Text)
  | tune2fs (dev : Text)
  | dd (dev : Text)
  | mkdosfs (bits : Nat) (dev : Text)
deriving DecidableEq

def Command.dev : Command → Text
  | mkfs _ _ dev => dev
  | tune2fs dev => dev
  | dd dev => dev
  | mkdosfs _ dev => dev

/-- What knows the arrays: `raidtab`, as the second words of its lines with a device, or
`mdadm`. -/
inductive Raid
  | raidtools (raidtab : Words)
  | mdadm (k : MdadmConf.Config)

/-- The machine and its `Config.sh`; a regular file has no major number. -/
structure Host where
  destinationPath : Text
  lvmConf : Bool
  majorNr : Text → Option Nat
  devfs : Text → Option Text
  raid : Raid
  swaps : Words
  kernelMinorNr : Text
  checkBadBlocks : Words
  rooted : ∀ dev, majorNr dev ≠ none → ∃ c name, c ≠ '/' ∧ dev = "/dev/".toList ++ c :: name
  noJournal : "-j".toList ∉ checkBadBlocks

/-- `JOURNAL`, `EXTRA_OPTS` and `CHECK_BAD_BLOCKS`. -/
structure Options where
  journal : Words
  extra : Words
  check : Words

def Options.words (o : Options) : Words := o.journal ++ o.extra ++ o.check

section Generators

variable (h : Host)

/-- The part that the four functions have in common, with the name for the label of `jfs`. -/
def options (fsType name : Text) (check : Words) : Options :=
  let extra := if fsType = "reiserfs".toList ∧ h.kernelMinorNr = "2".toList then
    ["-v".toList, "1".toList] else []
  let check := if fsType = "reiserfs".toList ∨ fsType = "xfs".toList then [] else check
  let extra := if fsType = "xfs".toList then ["-f".toList] else extra
  -- `[ "${FStype}" = "ext3" ] -o [ "${FStype}" = "ext4" ]` is one test with too many arguments
  let journal := []
  if fsType = "jfs".toList then ⟨["-f".toList, "-L:jfs_".toList ++ name], extra, []⟩
  else ⟨journal, extra, check⟩

def dosCommands (bits : Nat) (dev : Text) : List Command := [.dd dev, .mkdosfs bits dev]

/-- The `case` in `hd_sd_disk_types`. -/
def hdSdDiskTypes (fsType dev : Text) (o : Options) : List Command :=
  if fsType ∈ ["ext2".toList, "auto".toList, "reiserfs".toList, "minix".toList, "xfs".toList,
      "jfs".toList] then [.mkfs fsType o.words dev]
  else if fsType ∈ ["ext3".toList, "ext4".toList] then
    [.mkfs "ext2".toList (o.extra ++ o.check) dev, .tune2fs dev]
  else if fsType ∈ ["msdos".toList, "fat".toList] then dosCommands 16 dev
  else if fsType ∈ ["vfat".toList, "ntfs".toList] then dosCommands 32 dev
  else []

/-- The `case` in `ida_disk_types`. -/
def idaDiskTypes (fsType dev : Text) (o : Options) : List Command :=
  if fsType ∈ ["ext2".toList, "ext3".toList, "ext4".toList, "auto".toList, "reiserfs".toList,
      "minix".toList, "xfs".toList, "jfs".toList] then [.mkfs fsType o.words dev]
  else if fsType ∈ ["msdos".toList, "fat".toList] then dosCommands 16 dev
  else if fsType ∈ ["vfat".toList, "ntfs".toList] then dosCommands 32 dev
  else []

/-- The lines for formatting in the files `mkfs.`, and those in the directory `md`. -/
structure Files where
  mkfs : List (Text × Command)
  md : List (Text × Command)

/-- What `Analyse_md_device` does for a member: it writes the file of the array anew. -/
def analyseMdDevice (fsType md_dev : Text) (s : Words × List (Text × Command)) :
    Words × List (Text × Command) :=
  if ['\n'].intercalate h.swaps = md_dev then s
  else
    let o := options h fsType ((cutFrom '/' 3 md_dev).erase '/') s.1
    (o.check, s.2.filter (fun l => l.1 ≠ mdMkfs md_dev) ++
      [(mdMkfs md_dev, .mkfs fsType o.words md_dev)])

/-- The members in `raidtab` below the name of the array. -/
def raidtabMembers (device : Text) : Bool → Words → Words
  | _, [] => []
  | start, w :: ws =>
    let name := (cutFrom '/' 3 w).erase '/'
    if "md".toList <:+: w then
      raidtabMembers device (name = (cutFrom '/' 3 device).erase '/') ws
    else if start then w :: raidtabMembers device start ws
    else raidtabMembers device start ws

def analyseRaidtoolsConf (raidtab : Words) (m : MountLine) (check : Words)
    (md : List (Text × Command)) : List (Text × Command) :=
  ((raidtabMembers m.device false raidtab).foldl
    (fun s _ => analyseMdDevice h m.fsType m.device s) (check, md)).2

/-- The calls for a line of `mdadm.conf`. An `ARRAY` line is read in a pipeline of its own,
and for a line of devices the array has no name. -/
def mdadmLine (k : MdadmConf.Config) (fsType : Text) (s : Words × List (Text × Command))
    (inline : Words) : Words × List (Text × Command) :=
  if "ARRAY".toList <+: inline.headD [] then
    let md_dev := inline.getD 1 []
    (s.1, ((MdadmConf.columns k.mdstat (cutFrom '/' 3 md_dev)).foldl
      (fun s _ => analyseMdDevice h fsType md_dev s) s).2)
  else
    (Words.words (sedOnce [','] [' '] (cut '=' 2 ([' '].intercalate inline)))).foldl
      (fun s _ => analyseMdDevice h fsType [] s) s

def analyseMdadmConf (k : MdadmConf.Config) (m : MountLine) (check : Words)
    (md : List (Text × Command)) : List (Text × Command) :=
  (((k.entries.flatMap MdadmConf.Entry.lines).filter fun l =>
      grep "ARRAY".toList l || grep "devices".toList l).foldl
    (mdadmLine h k m.fsType) (check, md)).2

/-- The variables and files of the loop. -/
structure State where
  check : Words
  locked : Bool
  files : Files

/-- The class of the device; there is none for a device that is not supported. -/
def MountLine.class (m : MountLine) : Option DeviceClass :=
  deviceClass h.lvmConf (h.majorNr m.device)

/-- `Dev` of the line. -/
def MountLine.dev (m : MountLine) : Text := cutFrom '/' 3 m.device

/-- One line of `Backup.MntPoints`; an error ends the loop. -/
def diskinfoLine (s : State) (m : MountLine) : Option State :=
  match m.class h with
  | none => none
  | some c =>
    if m.fs = h.destinationPath then some s
    else
      let o := options h m.fsType m.dev s.check
      match c with
      | .loopback => some s
      | .plain =>
        let file := mkfs (Table.flat ((h.devfs m.dev).getD (dropDigits m.dev)))
        let commands := hdSdDiskTypes m.fsType ("/dev/".toList ++ m.dev) o
        some { s with
          check := o.check
          files := { s.files with mkfs := s.files.mkfs ++ commands.map fun c => (file, c) } }
      | .controller =>
        let file := mkfs (Table.flat (dropPart m.dev))
        let commands := idaDiskTypes m.fsType ("/dev/".toList ++ m.dev) o
        some { s with
          check := o.check
          files := { s.files with mkfs := s.files.mkfs ++ commands.map fun c => (file, c) } }
      | .lvm =>
        if h.lvmConf then
          some { s with
            check := o.check
            files := { s.files with
              mkfs := s.files.mkfs ++ [(lvmMkfs m.device, .mkfs m.fsType o.words m.device)] } }
        else none
      | .md =>
        match h.raid with
        | .raidtools raidtab =>
          some { s with
            files := { s.files with
              md := analyseRaidtoolsConf h raidtab m s.check s.files.md } }
        | .mdadm k =>
          if s.locked then some s
          else
            some { s with
              locked := true
              files := { s.files with md := analyseMdadmConf h k m s.check s.files.md } }

def diskinfoLoop (s : State) : List MountLine → State
  | [] => s
  | m :: ms =>
    match diskinfoLine h s m with
    | none => s
    | some s' => diskinfoLoop s' ms

def saveDiskinfo (table : List MountLine) : Files :=
  (diskinfoLoop h ⟨h.checkBadBlocks, false, ⟨[], []⟩⟩ table).files

/-- The commands for the device of a line: those in the file of an array, and elsewhere those
that name the device. -/
def commandsFor (f : Files) (m : MountLine) : List Command :=
  if m.class h = some .md then (f.md.filter fun l => l.1 = mdMkfs m.device).map Prod.snd
  else (f.mkfs.filter fun l => l.2.dev = m.device).map Prod.snd

end Generators

section Visits

variable (h : Host)

/-- The types for which the bad blocks are never checked. -/
def unchecked : Words := ["reiserfs".toList, "xfs".toList, "jfs".toList]

/-- The function for the class empties `CHECK_BAD_BLOCKS` for the lines that follow. -/
def blanks (c : DeviceClass) (fsType : Text) : Bool :=
  (c = .plain || c = .controller || c = .lvm) && fsType ∈ unchecked

/-- The lines for which a function does its work, each with whether `CHECK_BAD_BLOCKS` is
empty by then. -/
def visits : Bool → List MountLine → List (MountLine × Bool)
  | _, [] => []
  | blanked, m :: ms =>
    match m.class h with
    | none => []
    | some c =>
      if m.fs = h.destinationPath then visits blanked ms
      else if c = .lvm ∧ h.lvmConf = false then []
      else (m, blanked) :: visits (blanked || blanks c m.fsType) ms

/-- What is left of the configured option. -/
def checkIn (blanked : Bool) : Words := if blanked then [] else h.checkBadBlocks

/-- What a visit adds to the files `mkfs.`. -/
def written (v : MountLine × Bool) : List (Text × Command) :=
  let m := v.1
  let o := options h m.fsType m.dev (checkIn h v.2)
  match m.class h with
  | some .plain =>
    (hdSdDiskTypes m.fsType ("/dev/".toList ++ m.dev) o).map fun c =>
      (mkfs (Table.flat ((h.devfs m.dev).getD (dropDigits m.dev))), c)
  | some .controller =>
    (idaDiskTypes m.fsType ("/dev/".toList ++ m.dev) o).map fun c =>
      (mkfs (Table.flat (dropPart m.dev)), c)
  | some .lvm => [(lvmMkfs m.device, .mkfs m.fsType o.words m.device)]
  | _ => []

/-- The lock and the files in `md`, after a visit. -/
def mdTurn (s : Bool × List (Text × Command)) (v : MountLine × Bool) :
    Bool × List (Text × Command) :=
  if v.1.class h = some .md then
    match h.raid with
    | .raidtools raidtab => (s.1, analyseRaidtoolsConf h raidtab v.1 (checkIn h v.2) s.2)
    | .mdadm k => if s.1 then s else (true, analyseMdadmConf h k v.1 (checkIn h v.2) s.2)
  else s

end Visits

section Loop

variable {h : Host} {fsType name : Text} {check : Words}

theorem options_check (h : Host) (fsType name : Text) (check : Words) :
    (options h fsType name check).check = if fsType ∈ unchecked then [] else check := by
  simp only [options, unchecked, List.mem_cons, List.not_mem_nil, or_false]
  by_cases hjfs : fsType = "jfs".toList
  · simp [hjfs]
  · rw [if_neg hjfs]
    simp only [hjfs, or_false]

/-- The variable after a function for a disk or a volume. -/
theorem check_next {c : DeviceClass} (hc : c = .plain ∨ c = .controller ∨ c = .lvm)
    (blanked : Bool) :
    (options h fsType name (checkIn h blanked)).check =
      checkIn h (blanked || blanks c fsType) := by
  rw [options_check]
  have hblanks : blanks c fsType = decide (fsType ∈ unchecked) := by
    rcases hc with rfl | rfl | rfl <;> simp [blanks]
  rw [hblanks, checkIn, checkIn]
  by_cases hmem : fsType ∈ unchecked
  · simp [hmem]
  · simp [hmem]

/-- A line ends the loop, or is passed over, or is visited. -/
theorem line_cases (h : Host) (m : MountLine) (ms : List MountLine) {s : State} {blanked : Bool}
    (hs : s.check = checkIn h blanked) :
    (diskinfoLine h s m = none ∧ visits h blanked (m :: ms) = []) ∨
    (diskinfoLine h s m = some s ∧ visits h blanked (m :: ms) = visits h blanked ms) ∨
    ∃ s' blanked', diskinfoLine h s m = some s' ∧
      visits h blanked (m :: ms) = (m, blanked) :: visits h blanked' ms ∧
      s'.check = checkIn h blanked' ∧
      s'.files.mkfs = s.files.mkfs ++ written h (m, blanked) ∧
      (s'.locked, s'.files.md) = mdTurn h (s.locked, s.files.md) (m, blanked) := by
  rw [diskinfoLine, visits]
  cases hc : m.class h with
  | none => exact Or.inl ⟨by simp, by simp⟩
  | some c =>
    by_cases hdest : m.fs = h.destinationPath
    · simp only [if_pos hdest]
      exact Or.inr (Or.inl ⟨trivial, trivial⟩)
    · simp only [if_neg hdest]
      cases c with
      | loopback =>
        right; right
        refine ⟨s, blanked || blanks .loopback m.fsType, rfl, by simp, ?_, ?_, ?_⟩
        · simpa [blanks] using hs
        · simp [written, hc]
        · simp [mdTurn, hc]
      | plain =>
        right; right
        refine ⟨_, blanked || blanks .plain m.fsType, rfl, by simp, ?_, ?_, ?_⟩
        · simp only [hs]
          exact check_next (Or.inl rfl) blanked
        · simp [written, hc, hs]
        · simp [mdTurn, hc]
      | controller =>
        right; right
        refine ⟨_, blanked || blanks .controller m.fsType, rfl, by simp, ?_, ?_, ?_⟩
        · simp only [hs]
          exact check_next (Or.inr (Or.inl rfl)) blanked
        · simp [written, hc, hs]
        · simp [mdTurn, hc]
      | lvm =>
        cases hconf : h.lvmConf with
        | false => exact Or.inl ⟨by simp, by simp⟩
        | true =>
          right; right
          refine ⟨_, blanked || blanks .lvm m.fsType, rfl, by simp, ?_, ?_, ?_⟩
          · simp only [hs]
            exact check_next (Or.inr (Or.inr rfl)) blanked
          · simp [written, hc, hs]
          · simp [mdTurn, hc]
      | md =>
        right; right
        have hblanks : (blanked || blanks .md m.fsType) = blanked := by simp [blanks]
        have hwritten : written h (m, blanked) = [] := by simp [written, hc]
        simp only [mdTurn, hc, hwritten, hblanks, List.append_nil, if_true]
        cases h.raid with
        | raidtools raidtab => exact ⟨_, blanked, rfl, by simp, hs, rfl, by simp [hs]⟩
        | mdadm k =>
          cases hlocked : s.locked with
          | true => exact ⟨s, blanked, by simp, by simp, hs, by simp, by simp [hlocked]⟩
          | false => exact ⟨_, blanked, rfl, by simp, hs, rfl, by simp [hs]⟩

/-- The files are those of the visits. -/
theorem loop_eq (h : Host) (ms : List MountLine) (s : State) (blanked : Bool)
    (hs : s.check = checkIn h blanked) :
    (diskinfoLoop h s ms).files.mkfs =
      s.files.mkfs ++ (visits h blanked ms).flatMap (written h) ∧
    ((diskinfoLoop h s ms).locked, (diskinfoLoop h s ms).files.md) =
      (visits h blanked ms).foldl (mdTurn h) (s.locked, s.files.md) := by
  induction ms generalizing s blanked with
  | nil => simp [diskinfoLoop, visits]
  | cons m ms ih =>
    rw [diskinfoLoop]
    rcases line_cases h m ms hs with ⟨hline, hvisits⟩ | ⟨hline, hvisits⟩ |
      ⟨s', blanked', hline, hvisits, hcheck, hmkfs, hmd⟩
    · rw [hline, hvisits]
      simp
    · rw [hline, hvisits]
      exact ih s blanked hs
    · rw [hline, hvisits, List.flatMap_cons, List.foldl_cons, ← hmd, ← List.append_assoc, ← hmkfs]
      exact ih s' blanked' hcheck

theorem saveDiskinfo_mkfs (h : Host) (table : List MountLine) :
    (saveDiskinfo h table).mkfs = (visits h false table).flatMap (written h) :=
  (loop_eq h table ⟨h.checkBadBlocks, false, ⟨[], []⟩⟩ false rfl).1

theorem saveDiskinfo_md (h : Host) (table : List MountLine) :
    (saveDiskinfo h table).md = ((visits h false table).foldl (mdTurn h) (false, [])).2 :=
  congrArg Prod.snd
    (loop_eq h table ⟨h.checkBadBlocks, false, ⟨[], []⟩⟩ false rfl).2

end Loop

/-- How a type is formatted: by `mkfs` of its own, as `ext2` with a journal, or by `mkdosfs`. -/
inductive Kind
  | own (fsType : Text)
  | journaled
  | dos (bits : Nat)
deriving DecidableEq

section Kinds

variable (h : Host)

def kindOf (c : DeviceClass) (fsType : Text) : Option Kind :=
  match c with
  | .plain =>
    if fsType ∈ ["ext2".toList, "auto".toList, "reiserfs".toList, "minix".toList, "xfs".toList,
      "jfs".toList] then some (.own fsType)
    else if fsType ∈ ["ext3".toList, "ext4".toList] then some .journaled
    else if fsType ∈ ["msdos".toList, "fat".toList] then some (.dos 16)
    else if fsType ∈ ["vfat".toList, "ntfs".toList] then some (.dos 32)
    else none
  | .controller =>
    if fsType ∈ ["ext2".toList, "ext3".toList, "ext4".toList, "auto".toList, "reiserfs".toList,
      "minix".toList, "xfs".toList, "jfs".toList] then some (.own fsType)
    else if fsType ∈ ["msdos".toList, "fat".toList] then some (.dos 16)
    else if fsType ∈ ["vfat".toList, "ntfs".toList] then some (.dos 32)
    else none
  | .md | .lvm => some (.own fsType)
  | .loopback => none

/-- The kind takes the option for bad blocks. -/
def Kind.checked : Kind → Bool
  | own fsType => !(fsType ∈ unchecked)
  | journaled => true
  | dos _ => false

/-- The kind, and whether the option for bad blocks is there and in force. -/
def asked (c : DeviceClass) (v : MountLine × Bool) : Option (Kind × Bool) :=
  (kindOf c v.1.fsType).map fun k => (k, k.checked && !v.2 && h.checkBadBlocks ≠ [])

def render (device : Text) : Kind × Bool → List Command
  | (.own fsType, check) =>
    [.mkfs fsType (options h fsType (cutFrom '/' 3 device)
      (if check then h.checkBadBlocks else [])).words device]
  | (.journaled, check) =>
    [.mkfs "ext2".toList (if check then h.checkBadBlocks else []) device, .tune2fs device]
  | (.dos bits, _) => dosCommands bits device

end Kinds

section Commands

variable {h : Host} {m : MountLine} {v : MountLine × Bool} {c : DeviceClass} {device : Text}

theorem cutFrom_device {dev : Text} (hdev : h.majorNr dev ≠ none) :
    "/dev/".toList ++ cutFrom '/' 3 dev = dev := by
  obtain ⟨c, name, _, rfl⟩ := h.rooted dev hdev
  rw [MdadmConf.cutFrom_dev]

theorem majorNr_of_class (hc : m.class h = some c) (hloop : c ≠ .loopback) :
    h.majorNr m.device ≠ none := by
  intro hnone
  rw [MountLine.class, hnone] at hc
  exact hloop (Option.some.inj hc).symm

theorem device_eq (hc : m.class h = some c) (hloop : c ≠ .loopback) :
    "/dev/".toList ++ m.dev = m.device :=
  cutFrom_device (majorNr_of_class hc hloop)

theorem options_unchecked (h : Host) {fsType : Text} (hunchecked : fsType ∈ unchecked)
    (name : Text) (check check' : Words) :
    options h fsType name check = options h fsType name check' := by
  simp only [unchecked, List.mem_cons, List.not_mem_nil, or_false] at hunchecked
  rcases hunchecked with rfl | rfl | rfl
  · simp [options]
  · simp [options]
  · simp [options]

/-- The option for bad blocks has no part in `mkfs` of the types that are not checked. -/
theorem options_own (h : Host) (fsType name : Text) (blanked : Bool) :
    options h fsType name (checkIn h blanked) =
      options h fsType name (if (Kind.own fsType).checked && !blanked && h.checkBadBlocks ≠ []
        then h.checkBadBlocks else []) := by
  by_cases hunchecked : fsType ∈ unchecked
  · exact options_unchecked h hunchecked name _ _
  · cases blanked with
    | true => simp [checkIn]
    | false =>
      cases hcheck : h.checkBadBlocks with
      | nil => simp [checkIn, hcheck]
      | cons w ws => simp [checkIn, hcheck, Kind.checked, hunchecked]

theorem options_ext (h : Host) {fsType : Text} (name : Text) (blanked : Bool)
    (hext : fsType ∈ ["ext3".toList, "ext4".toList]) :
    (options h fsType name (checkIn h blanked)).extra ++
        (options h fsType name (checkIn h blanked)).check =
      if Kind.journaled.checked && !blanked && h.checkBadBlocks ≠ [] then h.checkBadBlocks
      else [] := by
  have hcheck : (options h fsType name (checkIn h blanked)).extra ++
      (options h fsType name (checkIn h blanked)).check = checkIn h blanked := by
    simp only [List.mem_cons, List.not_mem_nil, or_false] at hext
    rcases hext with rfl | rfl
    · simp [options]
    · simp [options]
  rw [hcheck]
  cases blanked with
  | true => simp [checkIn]
  | false =>
    cases hconf : h.checkBadBlocks with
    | nil => simp [checkIn, hconf]
    | cons w ws => simp [checkIn, hconf, Kind.checked]

/-- The commands of a visit are those of the kind that is asked for. -/
theorem visitCommands_eq (hc : v.1.class h = some c) :
    (written h v).map Prod.snd =
      if c = .md then [] else ((asked h c v).map (render h v.1.device)).getD [] := by
  obtain ⟨m, blanked⟩ := v
  simp only [written, hc, asked]
  cases c with
  | loopback => simp [kindOf]
  | md => rfl
  | lvm =>
    simp only [kindOf, reduceCtorEq, if_false, Option.map_some, Option.getD_some, render,
      List.map_cons, List.map_nil]
    rw [options_own]
    rfl
  | plain =>
    have hdevice := device_eq hc (by simp)
    simp only [reduceCtorEq, if_false, List.map_map, Function.comp_def, List.map_id', hdevice,
      hdSdDiskTypes, kindOf]
    split
    · simp only [Option.map_some, Option.getD_some, render]
      rw [options_own]
      rfl
    split
    · rename_i hext
      simp only [Option.map_some, Option.getD_some, render]
      rw [options_ext h m.dev blanked hext]
    split
    · rfl
    split
    · rfl
    · rfl
  | controller =>
    have hdevice := device_eq hc (by simp)
    simp only [reduceCtorEq, if_false, List.map_map, Function.comp_def, List.map_id', hdevice,
      idaDiskTypes, kindOf]
    split
    · simp only [Option.map_some, Option.getD_some, render]
      rw [options_own]
      rfl
    split
    · rfl
    split
    · rfl
    · rfl

theorem dev_of_render {x : Kind × Bool} {d : Command} (hd : d ∈ render h device x) :
    d.dev = device := by
  obtain ⟨k, check⟩ := x
  cases k with
  | own fsType =>
    obtain rfl := List.mem_singleton.mp hd
    rfl
  | journaled =>
    simp only [render, List.mem_cons, List.not_mem_nil, or_false] at hd
    rcases hd with rfl | rfl
    · rfl
    · rfl
  | dos bits =>
    simp only [render, dosCommands, List.mem_cons, List.not_mem_nil, or_false] at hd
    rcases hd with rfl | rfl
    · rfl
    · rfl

theorem dev_of_written {x : Text × Command} (hx : x ∈ written h v) : x.2.dev = v.1.device := by
  have hmem : x.2 ∈ (written h v).map Prod.snd := List.mem_map_of_mem hx
  cases hc : v.1.class h with
  | none => simp [written, hc] at hx
  | some c =>
    rw [visitCommands_eq hc] at hmem
    split at hmem
    · cases hmem
    · cases hasked : asked h c v with
      | none => simp [hasked] at hmem
      | some a =>
        rw [hasked] at hmem
        exact dev_of_render hmem

theorem flatMap_ite {α β : Type} {l : List α} {p : α → Bool} {f g : α → List β}
    (hf : ∀ v ∈ l, f v = if p v then g v else []) : l.flatMap f = (l.filter p).flatMap g := by
  induction l with
  | nil => rfl
  | cons v l ih =>
    have htail := ih fun w hw => hf w (List.mem_cons_of_mem _ hw)
    rw [List.flatMap_cons, hf v List.mem_cons_self, htail]
    cases hv : p v with
    | true => rw [if_pos rfl, List.filter_cons_of_pos hv, List.flatMap_cons]
    | false => rw [if_neg Bool.false_ne_true, List.filter_cons_of_neg (by simp [hv]),
        List.nil_append]

/-- What is asked for a device, at the visits to it. -/
def asks (h : Host) (c : DeviceClass) (device : Text) (table : List MountLine) :
    List (Kind × Bool) :=
  ((visits h false table).filter fun v => v.1.device = device).filterMap (asked h c)

theorem commandsFor_eq (hc : m.class h = some c) (hmd : c ≠ .md) (table : List MountLine) :
    commandsFor h (saveDiskinfo h table) m =
      (asks h c m.device table).flatMap (render h m.device) := by
  have hother : ¬ m.class h = some .md := by
    rw [hc]
    exact fun heq => hmd (Option.some.inj heq)
  rw [commandsFor, if_neg hother, saveDiskinfo_mkfs, List.filter_flatMap, List.map_flatMap, asks,
    List.filterMap_eq_flatMap_toList, List.flatMap_assoc]
  refine flatMap_ite ?_
  intro v _
  by_cases hdevice : v.1.device = m.device
  · have hall : (written h v).filter (fun l => decide (l.2.dev = m.device)) = written h v := by
      refine List.filter_eq_self.mpr ?_
      intro x hx
      rw [dev_of_written hx]
      exact decide_eq_true hdevice
    have hclass : v.1.class h = some c := by
      rw [← hc, MountLine.class, MountLine.class, hdevice]
    rw [hall, visitCommands_eq hclass, if_neg hmd, if_pos (decide_eq_true hdevice), ← hdevice]
    cases asked h c v <;> simp
  · have hnone : (written h v).filter (fun l => decide (l.2.dev = m.device)) = [] := by
      refine List.filter_eq_nil_iff.mpr ?_
      intro x hx
      rw [dev_of_written hx]
      simpa using hdevice
    rw [hnone, if_neg (by simpa using hdevice)]
    rfl

/-- Commands that no other one ends in can be told apart in a row. -/
theorem eq_of_flatMap {α β : Type} {p : α → Prop} {f : α → List β} (hne : ∀ x, f x ≠ [])
    (hcode : ∀ x y, p x → p y → f x <:+ f y → x = y) {l l' : List α} (hl : ∀ x ∈ l, p x)
    (hl' : ∀ x ∈ l', p x) (heq : l.flatMap f = l'.flatMap f) : l = l' := by
  induction l using List.reverseRecOn generalizing l' with
  | nil =>
    cases l' with
    | nil => rfl
    | cons y l' =>
      rw [List.flatMap_nil, List.flatMap_cons] at heq
      exact absurd (List.append_eq_nil_iff.mp heq.symm).1 (hne y)
  | append_singleton l x ih =>
    rcases List.eq_nil_or_concat l' with rfl | ⟨l', y, rfl⟩
    · rw [List.flatMap_append, List.flatMap_singleton, List.flatMap_nil] at heq
      exact absurd (List.append_eq_nil_iff.mp heq).2 (hne x)
    · rw [List.concat_eq_append] at heq hl' ⊢
      rw [List.flatMap_append, List.flatMap_append, List.flatMap_singleton,
        List.flatMap_singleton] at heq
      have hx := hl x (by simp)
      have hy := hl' y (by simp)
      have hsuffix : f y <:+ l.flatMap f ++ f x := by
        rw [heq]
        exact List.suffix_append _ _
      have hxy : x = y := by
        rcases List.suffix_or_suffix_of_suffix (List.suffix_append (l.flatMap f) (f x)) hsuffix with
          hcase | hcase
        · exact hcode x y hx hy hcase
        · exact (hcode y x hy hx hcase).symm
      subst hxy
      have hrest := ih (fun z hz => hl z (by simp [hz])) (fun z hz => hl' z (by simp [hz]))
        (List.append_cancel_right heq)
      rw [hrest]

/-- What can be asked for: the option only where it is configured and the kind takes it. -/
def Askable (h : Host) (a : Kind × Bool) : Prop :=
  a.2 = true → a.1.checked = true ∧ h.checkBadBlocks ≠ []

theorem askable_of_asks {a : Kind × Bool} {table : List MountLine}
    (ha : a ∈ asks h c device table) : Askable h a := by
  obtain ⟨v, _, hv⟩ := List.mem_filterMap.mp ha
  obtain ⟨k, _, rfl⟩ := Option.map_eq_some_iff.mp hv
  intro hcheck
  simp only [Bool.and_eq_true, decide_eq_true_eq] at hcheck
  exact ⟨hcheck.1.1, hcheck.2⟩

theorem render_ne_nil (h : Host) (device : Text) (a : Kind × Bool) : render h device a ≠ [] := by
  obtain ⟨k, check⟩ := a
  cases k <;> simp [render, dosCommands]

theorem options_plain {fsType : Text} (hplain : fsType ∉ unchecked) (name : Text)
    (check : Words) : options h fsType name check = ⟨[], [], check⟩ := by
  simp only [unchecked, List.mem_cons, List.not_mem_nil, or_false, not_or] at hplain
  obtain ⟨hreiserfs, hxfs, hjfs⟩ := hplain
  simp only [options, if_neg hjfs, hreiserfs, hxfs, false_and, or_self, if_false]

theorem Askable.eq_false {k : Kind} {check : Bool} (ha : Askable h (k, check))
    (hk : k.checked = false) : check = false := by
  by_contra hcheck
  rw [Bool.not_eq_false] at hcheck
  have hchecked := (ha hcheck).1
  rw [hk] at hchecked
  exact Bool.false_ne_true hchecked

theorem Askable.check_eq {k k' : Kind} {check check' : Bool} (ha : Askable h (k, check))
    (hb : Askable h (k', check')) (hwords : (if check then h.checkBadBlocks else []) =
      if check' then h.checkBadBlocks else []) : check = check' := by
  cases check with
  | true =>
    cases check' with
    | true => rfl
    | false => exact absurd hwords (ha rfl).2
  | false =>
    cases check' with
    | false => rfl
    | true => exact absurd hwords.symm (hb rfl).2

theorem check_of_words {fsType name : Text} {check check' : Bool}
    (ha : Askable h (.own fsType, check)) (ha' : Askable h (.own fsType, check'))
    (hwords : (options h fsType name (if check then h.checkBadBlocks else [])).words =
      (options h fsType name (if check' then h.checkBadBlocks else [])).words) :
    check = check' := by
  by_cases hplain : fsType ∈ unchecked
  · have hkind : (Kind.own fsType).checked = false := by simp [Kind.checked, hplain]
    rw [ha.eq_false hkind, ha'.eq_false hkind]
  · rw [options_plain hplain, options_plain hplain] at hwords
    exact ha.check_eq ha' hwords

/-- No commands of one kind end in those of another. -/
theorem render_code {a b : Kind × Bool} (ha : Askable h a) (hb : Askable h b)
    (hsuffix : render h device a <:+ render h device b) : a = b := by
  obtain ⟨k, check⟩ := a
  obtain ⟨k', check'⟩ := b
  obtain ⟨before, heq⟩ := hsuffix
  cases k with
  | own fsType =>
    cases k' with
    | own fsType' =>
      have hnil : before ++ render h device (.own fsType, check) =
          [] ++ render h device (.own fsType', check') := heq
      obtain ⟨_, hcommand⟩ := List.append_inj' hnil rfl
      obtain ⟨rfl, hwords, _⟩ := Command.mkfs.inj (List.singleton_inj.mp hcommand)
      rw [check_of_words ha hb hwords]
    | journaled =>
      have hlast := congrArg List.getLast? heq
      simp [render] at hlast
    | dos bits =>
      have hlast := congrArg List.getLast? heq
      simp [render, dosCommands] at hlast
  | journaled =>
    cases k' with
    | own fsType' =>
      have hlen := congrArg List.length heq
      simp [render] at hlen
    | journaled =>
      have hnil : before ++ render h device (.journaled, check) =
          [] ++ render h device (.journaled, check') := heq
      obtain ⟨_, hcommands⟩ := List.append_inj' hnil rfl
      obtain ⟨hcommand, _⟩ := List.cons.inj hcommands
      obtain ⟨_, hwords, _⟩ := Command.mkfs.inj hcommand
      rw [ha.check_eq hb hwords]
    | dos bits =>
      have hlast := congrArg List.getLast? heq
      simp [render, dosCommands] at hlast
  | dos bits =>
    have hfalse : check = false := ha.eq_false rfl
    cases k' with
    | own fsType' =>
      have hlen := congrArg List.length heq
      simp [render, dosCommands] at hlen
    | journaled =>
      have hlast := congrArg List.getLast? heq
      simp [render, dosCommands] at hlast
    | dos bits' =>
      have hfalse' : check' = false := hb.eq_false rfl
      have hlast := congrArg List.getLast? heq
      simp only [render, dosCommands, List.getLast?_append, List.getLast?_cons_cons,
        List.getLast?_singleton, Option.some_or, Option.some.injEq, Command.mkdosfs.injEq] at hlast
      rw [hfalse, hfalse', hlast.1]

/-- The commands of a disk or a volume are the same where the same is asked for. -/
theorem commandsFor_eq_iff (hc : m.class h = some c) (hmd : c ≠ .md)
    (table table' : List MountLine) :
    commandsFor h (saveDiskinfo h table) m = commandsFor h (saveDiskinfo h table') m ↔
      asks h c m.device table = asks h c m.device table' := by
  rw [commandsFor_eq hc hmd, commandsFor_eq hc hmd]
  constructor
  · intro heq
    exact eq_of_flatMap (p := Askable h) (render_ne_nil h m.device)
      (fun _ _ ha hb => render_code ha hb) (fun _ => askable_of_asks)
      (fun _ => askable_of_asks) heq
  · intro heq
    rw [heq]

end Commands

section Arrays

variable {h : Host} {fsType : Text} {check : Words} {f : Text}

/-- The command in the file of an array. -/
def mdCommand (h : Host) (fsType md_dev : Text) (check : Words) : Command :=
  .mkfs fsType (options h fsType ((cutFrom '/' 3 md_dev).erase '/') check).words md_dev

/-- Values of `CHECK_BAD_BLOCKS` with the same options for a type. -/
def Alike (h : Host) (fsType : Text) (check check' : Words) : Prop :=
  ∀ name, options h fsType name check = options h fsType name check'

theorem alike_check {check' : Words} (hs : Alike h fsType check' check) (name : Text) :
    Alike h fsType (options h fsType name check').check check := by
  intro other
  rw [options_check]
  split
  · rename_i hunchecked
    exact options_unchecked h hunchecked other _ _
  · exact hs other

/-- The call that writes the file last; a swap area has none. -/
def lastCall (h : Host) (f : Text) (calls : Words) : Option Text :=
  (calls.filter fun d => mdMkfs d = f && ['\n'].intercalate h.swaps ≠ d).getLast?

theorem lastCall_append (h : Host) (f : Text) (calls calls' : Words) :
    lastCall h f (calls ++ calls') = (lastCall h f calls').or (lastCall h f calls) := by
  rw [lastCall, List.filter_append, List.getLast?_append]
  rfl

/-- The lines in the file: those of the last call, or else the old ones. -/
def inFile (h : Host) (fsType : Text) (check : Words) (f : Text) (call : Option Text)
    (md : List (Text × Command)) : List (Text × Command) :=
  match call with
  | some d => [(f, mdCommand h fsType d check)]
  | none => md.filter fun l => l.1 = f

theorem filter_analyseMdDevice {s : Words × List (Text × Command)} (hs : Alike h fsType s.1 check)
    (d : Text) : Alike h fsType (analyseMdDevice h fsType d s).1 check ∧
      (analyseMdDevice h fsType d s).2.filter (fun l => l.1 = f) =
        inFile h fsType check f (lastCall h f [d]) s.2 := by
  by_cases hswap : ['\n'].intercalate h.swaps = d
  · have hnone : lastCall h f [d] = none := by simp [lastCall, hswap]
    rw [analyseMdDevice, if_pos hswap, hnone]
    exact ⟨hs, rfl⟩
  · rw [analyseMdDevice, if_neg hswap]
    refine ⟨alike_check hs _, ?_⟩
    simp only [List.filter_append, List.filter_filter]
    by_cases hfile : mdMkfs d = f
    · have hsome : lastCall h f [d] = some d := by simp [lastCall, hswap, hfile]
      have hold : s.2.filter (fun l => decide (l.1 = f) && decide (l.1 ≠ mdMkfs d)) = [] := by
        refine List.filter_eq_nil_iff.mpr ?_
        intro l _ hl
        simp [hfile] at hl
      rw [hsome, hold, List.nil_append, inFile, mdCommand, hs]
      simp [hfile]
    · have hnone : lastCall h f [d] = none := by simp [lastCall, hfile]
      have hold : s.2.filter (fun l => decide (l.1 = f) && decide (l.1 ≠ mdMkfs d)) =
          s.2.filter fun l => decide (l.1 = f) := by
        refine List.filter_congr ?_
        intro l _
        by_cases hl : l.1 = f
        · simp [hl, Ne.symm hfile]
        · simp [hl]
      rw [hnone, hold, inFile]
      simp [hfile]

theorem inFile_inFile (call call' : Option Text) (md : List (Text × Command))
    {md' : List (Text × Command)}
    (hmd : md'.filter (fun l => l.1 = f) = inFile h fsType check f call md) :
    inFile h fsType check f call' md' = inFile h fsType check f (call'.or call) md := by
  cases call' with
  | some d => rfl
  | none => exact hmd

theorem filter_calls (calls : Words) {s : Words × List (Text × Command)}
    (hs : Alike h fsType s.1 check) :
    Alike h fsType (calls.foldl (fun s d => analyseMdDevice h fsType d s) s).1 check ∧
      (calls.foldl (fun s d => analyseMdDevice h fsType d s) s).2.filter (fun l => l.1 = f) =
        inFile h fsType check f (lastCall h f calls) s.2 := by
  induction calls using List.reverseRecOn with
  | nil => exact ⟨hs, rfl⟩
  | append_singleton calls d ih =>
    obtain ⟨halike, hfilter⟩ := ih
    obtain ⟨halike', hfilter'⟩ := filter_analyseMdDevice (f := f) halike d
    rw [List.foldl_append, List.foldl_cons, List.foldl_nil, lastCall_append]
    exact ⟨halike', hfilter'.trans (inFile_inFile _ _ _ hfilter)⟩

/-- The calls with `raidtab`. -/
def raidtabCalls (raidtab : Words) (device : Text) : Words :=
  (raidtabMembers device false raidtab).map fun _ => device

theorem filter_raidtools (raidtab : Words) (m : MountLine) (md : List (Text × Command)) :
    (analyseRaidtoolsConf h raidtab m check md).filter (fun l => l.1 = f) =
      inFile h m.fsType check f (lastCall h f (raidtabCalls raidtab m.device)) md := by
  have halike : Alike h m.fsType (check, md).1 check := fun _ => rfl
  have hcalls := (filter_calls (f := f) (raidtabCalls raidtab m.device) halike).2
  rw [raidtabCalls, List.foldl_map] at hcalls
  exact hcalls

/-- The calls for a line of `mdadm.conf`. -/
def lineCalls (k : MdadmConf.Config) (inline : Words) : Words :=
  if "ARRAY".toList <+: inline.headD [] then
    (MdadmConf.columns k.mdstat (cutFrom '/' 3 (inline.getD 1 []))).map fun _ => inline.getD 1 []
  else (Words.words (sedOnce [','] [' '] (cut '=' 2 ([' '].intercalate inline)))).map fun _ => []

def mdadmCalls (k : MdadmConf.Config) : Words :=
  ((k.entries.flatMap MdadmConf.Entry.lines).filter fun l =>
    grep "ARRAY".toList l || grep "devices".toList l).flatMap (lineCalls k)

theorem filter_mdadmLine (k : MdadmConf.Config) (inline : Words)
    {s : Words × List (Text × Command)} (hs : Alike h fsType s.1 check) :
    Alike h fsType (mdadmLine h k fsType s inline).1 check ∧
      (mdadmLine h k fsType s inline).2.filter (fun l => l.1 = f) =
        inFile h fsType check f (lastCall h f (lineCalls k inline)) s.2 := by
  have hcalls := filter_calls (h := h) (f := f) (lineCalls k inline) hs
  rw [mdadmLine]
  by_cases harray : "ARRAY".toList <+: inline.headD []
  · rw [if_pos harray]
    rw [lineCalls, if_pos harray, List.foldl_map] at hcalls
    rw [lineCalls, if_pos harray]
    exact ⟨hs, hcalls.2⟩
  · rw [if_neg harray]
    rw [lineCalls, if_neg harray, List.foldl_map] at hcalls
    rw [lineCalls, if_neg harray]
    exact hcalls

theorem filter_mdadm (k : MdadmConf.Config) (m : MountLine) (md : List (Text × Command)) :
    (analyseMdadmConf h k m check md).filter (fun l => l.1 = f) =
      inFile h m.fsType check f (lastCall h f (mdadmCalls k)) md := by
  have hlines : ∀ (lines : List Words) (s : Words × List (Text × Command)),
      Alike h m.fsType s.1 check →
      (lines.foldl (mdadmLine h k m.fsType) s).2.filter (fun l => l.1 = f) =
        inFile h m.fsType check f (lastCall h f (lines.flatMap (lineCalls k))) s.2 := by
    intro lines
    induction lines with
    | nil => intro s _; rfl
    | cons l lines ih =>
      intro s hs
      obtain ⟨halike, hfilter⟩ := filter_mdadmLine (f := f) k l hs
      rw [List.foldl_cons, List.flatMap_cons, lastCall_append, ih _ halike]
      exact inFile_inFile _ _ _ hfilter
  exact hlines _ (check, md) fun _ => rfl

end Arrays

section Mounted

variable {h : Host} {m : MountLine} {f : Text}

def isMd (h : Host) (v : MountLine × Bool) : Bool := v.1.class h = some .md

/-- The visit writes the file: the array is listed with a member and is not the swap area. -/
def writes (h : Host) (raidtab : Words) (f : Text) (v : MountLine × Bool) : Bool :=
  isMd h v && mdMkfs v.1.device = f && raidtabMembers v.1.device false raidtab ≠ [] &&
    ['\n'].intercalate h.swaps ≠ v.1.device

theorem lastCall_raidtab (h : Host) (raidtab : Words) (f device : Text) :
    lastCall h f (raidtabCalls raidtab device) =
      if mdMkfs device = f ∧ raidtabMembers device false raidtab ≠ [] ∧
        ['\n'].intercalate h.swaps ≠ device then some device else none := by
  rw [lastCall, raidtabCalls]
  generalize raidtabMembers device false raidtab = members
  by_cases hcall : mdMkfs device = f ∧ ['\n'].intercalate h.swaps ≠ device
  · have hall : (members.map fun _ => device).filter
        (fun d => mdMkfs d = f && ['\n'].intercalate h.swaps ≠ d) = members.map fun _ => device := by
      refine List.filter_eq_self.mpr ?_
      intro d hd
      obtain ⟨_, _, rfl⟩ := List.mem_map.mp hd
      simp [hcall]
    rw [hall, List.getLast?_map]
    cases members with
    | nil => simp
    | cons w ws =>
      rw [List.getLast?_eq_some_getLast (List.cons_ne_nil w ws)]
      simp [hcall]
  · have hnone : (members.map fun _ => device).filter
        (fun d => mdMkfs d = f && ['\n'].intercalate h.swaps ≠ d) = [] := by
      refine List.filter_eq_nil_iff.mpr ?_
      intro d hd
      obtain ⟨_, _, rfl⟩ := List.mem_map.mp hd
      simpa using hcall
    rw [hnone, if_neg]
    · rfl
    · rintro ⟨hfile, _, hswap⟩
      exact hcall ⟨hfile, hswap⟩

/-- With the raidtools the last visit counts. -/
theorem file_raidtools {raidtab : Words} (hraid : h.raid = .raidtools raidtab)
    (vs : List (MountLine × Bool)) (locked : Bool) :
    (vs.foldl (mdTurn h) (locked, [])).2.filter (fun l => l.1 = f) =
      ((vs.filter (writes h raidtab f)).getLast?.map fun v =>
        (f, mdCommand h v.1.fsType v.1.device (checkIn h v.2))).toList := by
  induction vs using List.reverseRecOn with
  | nil => rfl
  | append_singleton vs v ih =>
    rw [List.foldl_append, List.foldl_cons, List.foldl_nil, List.filter_append,
      List.getLast?_append]
    cases hmd : isMd h v with
    | false =>
      have hclass : ¬ v.1.class h = some .md := by simpa [isMd] using hmd
      have hwrites : writes h raidtab f v = false := by simp [writes, hmd]
      rw [mdTurn, if_neg hclass, List.filter_cons_of_neg (by simp [hwrites])]
      simpa using ih
    | true =>
      have hclass : v.1.class h = some .md := by simpa [isMd] using hmd
      rw [mdTurn, if_pos hclass, hraid]
      simp only [filter_raidtools, lastCall_raidtab]
      by_cases hcall : mdMkfs v.1.device = f ∧ raidtabMembers v.1.device false raidtab ≠ [] ∧
          ['\n'].intercalate h.swaps ≠ v.1.device
      · have hwrites : writes h raidtab f v = true := by simp [writes, hmd, hcall]
        rw [if_pos hcall, List.filter_cons_of_pos hwrites]
        rfl
      · have hwrites : writes h raidtab f v = false := by
          simp only [writes, hmd, Bool.true_and]
          by_contra htrue
          rw [Bool.not_eq_false] at htrue
          simp only [Bool.and_eq_true, decide_eq_true_eq] at htrue
          exact hcall ⟨htrue.1.1, htrue.1.2, htrue.2⟩
        rw [if_neg hcall, List.filter_cons_of_neg (by simp [hwrites]), inFile]
        simpa using ih

/-- With `mdadm` the first visit to any array counts. -/
theorem file_mdadm {k : MdadmConf.Config} (hraid : h.raid = .mdadm k)
    (vs : List (MountLine × Bool)) :
    (vs.foldl (mdTurn h) (false, [])).2.filter (fun l => l.1 = f) =
      ((lastCall h f (mdadmCalls k)).bind fun d => (vs.find? (isMd h)).map fun v =>
        (f, mdCommand h v.1.fsType d (checkIn h v.2))).toList := by
  have hlocked : ∀ (vs : List (MountLine × Bool)) md,
      vs.foldl (mdTurn h) (true, md) = (true, md) := by
    intro vs md
    induction vs with
    | nil => rfl
    | cons v vs ih =>
      have hstep : mdTurn h (true, md) v = (true, md) := by
        rw [mdTurn, hraid]
        split <;> rfl
      rw [List.foldl_cons, hstep, ih]
  induction vs with
  | nil => cases lastCall h f (mdadmCalls k) <;> rfl
  | cons v vs ih =>
    rw [List.foldl_cons, mdTurn, List.find?_cons]
    cases hmd : isMd h v with
    | false =>
      have hclass : ¬ v.1.class h = some .md := by simpa [isMd] using hmd
      rw [if_neg hclass]
      exact ih
    | true =>
      have hclass : v.1.class h = some .md := by simpa [isMd] using hmd
      rw [if_pos hclass, hraid]
      simp only [Bool.false_eq_true, if_false]
      rw [hlocked, filter_mdadm]
      cases lastCall h f (mdadmCalls k) <;> rfl

/-- The option for bad blocks is there, taken and in force. -/
def checkedAt (h : Host) (v : MountLine × Bool) : Bool :=
  (Kind.own v.1.fsType).checked && !v.2 && h.checkBadBlocks ≠ []

/-- What is asked for an array: the name, the type, and whether to check for bad blocks. -/
def arrayAsked (h : Host) (m : MountLine) (table : List MountLine) : Option (Text × Text × Bool) :=
  match h.raid with
  | .raidtools raidtab =>
    ((visits h false table).filter (writes h raidtab (mdMkfs m.device))).getLast?.map fun v =>
      (v.1.device, v.1.fsType, checkedAt h v)
  | .mdadm k =>
    (lastCall h (mdMkfs m.device) (mdadmCalls k)).bind fun d =>
      ((visits h false table).find? (isMd h)).map fun v => (d, v.1.fsType, checkedAt h v)

theorem arrayAsked_raidtools {raidtab : Words} (hraid : h.raid = .raidtools raidtab) (m : MountLine)
    (table : List MountLine) : arrayAsked h m table =
      ((visits h false table).filter (writes h raidtab (mdMkfs m.device))).getLast?.map fun v =>
        (v.1.device, v.1.fsType, checkedAt h v) := by
  rw [arrayAsked, hraid]

theorem arrayAsked_mdadm {k : MdadmConf.Config} (hraid : h.raid = .mdadm k) (m : MountLine)
    (table : List MountLine) : arrayAsked h m table =
      (lastCall h (mdMkfs m.device) (mdadmCalls k)).bind fun d =>
        ((visits h false table).find? (isMd h)).map fun v => (d, v.1.fsType, checkedAt h v) := by
  rw [arrayAsked, hraid]

theorem mdCommand_checked (h : Host) (v : MountLine × Bool) (d : Text) :
    mdCommand h v.1.fsType d (checkIn h v.2) =
      mdCommand h v.1.fsType d (if checkedAt h v then h.checkBadBlocks else []) := by
  rw [mdCommand, mdCommand, options_own]
  rfl

theorem commandsFor_array (hc : m.class h = some .md) (table : List MountLine) :
    commandsFor h (saveDiskinfo h table) m =
      ((arrayAsked h m table).map fun a =>
        mdCommand h a.2.1 a.1 (if a.2.2 then h.checkBadBlocks else [])).toList := by
  rw [commandsFor, if_pos hc, saveDiskinfo_md]
  cases hraid : h.raid with
  | raidtools raidtab =>
    rw [file_raidtools hraid, arrayAsked_raidtools hraid]
    cases ((visits h false table).filter (writes h raidtab (mdMkfs m.device))).getLast? with
    | none => rfl
    | some v => simp [mdCommand_checked h v]
  | mdadm k =>
    rw [file_mdadm hraid, arrayAsked_mdadm hraid]
    cases lastCall h (mdMkfs m.device) (mdadmCalls k) with
    | none => rfl
    | some d =>
      cases (visits h false table).find? (isMd h) with
      | none => rfl
      | some v => simp [mdCommand_checked h v]

theorem askable_of_checkedAt (v : MountLine × Bool) :
    Askable h (.own v.1.fsType, checkedAt h v) := by
  intro hcheck
  simp only [checkedAt, Bool.and_eq_true, decide_eq_true_eq] at hcheck
  exact ⟨hcheck.1.1, hcheck.2⟩

theorem askable_of_arrayAsked {table : List MountLine} {a : Text × Text × Bool}
    (ha : arrayAsked h m table = some a) : Askable h (.own a.2.1, a.2.2) := by
  cases hraid : h.raid with
  | raidtools raidtab =>
    rw [arrayAsked_raidtools hraid] at ha
    obtain ⟨v, _, rfl⟩ := Option.map_eq_some_iff.mp ha
    exact askable_of_checkedAt v
  | mdadm k =>
    rw [arrayAsked_mdadm hraid] at ha
    obtain ⟨d, _, hd⟩ := Option.bind_eq_some_iff.mp ha
    obtain ⟨v, _, rfl⟩ := Option.map_eq_some_iff.mp hd
    exact askable_of_checkedAt v

/-- Both tables ask for the same: at the visits to a disk or a volume, at the last visit that
writes the file of an array, or at the first visit to any array. -/
def Same (h : Host) (m : MountLine) (table table' : List MountLine) : Prop :=
  match m.class h with
  | none => True
  | some .md => arrayAsked h m table = arrayAsked h m table'
  | some c => asks h c m.device table = asks h c m.device table'

theorem commandsFor_unsupported (hc : m.class h = none) (table : List MountLine) :
    commandsFor h (saveDiskinfo h table) m = [] := by
  have hother : ¬ m.class h = some .md := by simp [hc]
  rw [commandsFor, if_neg hother, saveDiskinfo_mkfs]
  have hnone : ((visits h false table).flatMap (written h)).filter
      (fun l => l.2.dev = m.device) = [] := by
    refine List.filter_eq_nil_iff.mpr ?_
    intro x hx hdev
    obtain ⟨v, _, hxv⟩ := List.mem_flatMap.mp hx
    have hdevice : v.1.device = m.device := by
      rw [← dev_of_written hxv]
      exact of_decide_eq_true hdev
    have hclass : v.1.class h = none := by
      rw [← hc, MountLine.class, MountLine.class, hdevice]
    simp [written, hclass] at hxv
  rw [hnone]
  rfl

/-- The commands for a device do not depend on the other lines exactly where these ask for the
same. -/
theorem commandsFor_same_iff (h : Host) (m : MountLine) (table table' : List MountLine) :
    commandsFor h (saveDiskinfo h table) m = commandsFor h (saveDiskinfo h table') m ↔
      Same h m table table' := by
  rw [Same]
  cases hc : m.class h with
  | none =>
    rw [commandsFor_unsupported hc, commandsFor_unsupported hc]
    simp
  | some c =>
    cases c with
    | plain => exact commandsFor_eq_iff hc (by simp) table table'
    | controller => exact commandsFor_eq_iff hc (by simp) table table'
    | lvm => exact commandsFor_eq_iff hc (by simp) table table'
    | loopback => exact commandsFor_eq_iff hc (by simp) table table'
    | md =>
      rw [commandsFor_array hc, commandsFor_array hc]
      change _ ↔ arrayAsked h m table = arrayAsked h m table'
      constructor
      · intro heq
        cases ha : arrayAsked h m table with
        | none =>
          cases hb : arrayAsked h m table' with
          | none => rfl
          | some b =>
            rw [ha, hb] at heq
            cases heq
        | some a =>
          cases hb : arrayAsked h m table' with
          | none =>
            rw [ha, hb] at heq
            cases heq
          | some b =>
            rw [ha, hb] at heq
            have hchecka := askable_of_arrayAsked ha
            have hcheckb := askable_of_arrayAsked hb
            obtain ⟨d, fsType, check⟩ := a
            obtain ⟨d', fsType', check'⟩ := b
            obtain ⟨htype, hwords, hdev⟩ := Command.mkfs.inj (List.singleton_inj.mp heq)
            obtain rfl : fsType = fsType' := htype
            obtain rfl : d = d' := hdev
            obtain rfl : check = check' := check_of_words hchecka hcheckb hwords
            rfl
      · intro heq
        rw [heq]

end Mounted

/-- A machine with two partitions that are to be checked for bad blocks. -/
def twoDisks : Host where
  destinationPath := "/backup".toList
  lvmConf := false
  majorNr dev := if dev = "/dev/hda1".toList ∨ dev = "/dev/hdb1".toList then some 3 else none
  devfs _ := none
  raid := .raidtools []
  swaps := ["/dev/hda2".toList]
  kernelMinorNr := "4".toList
  checkBadBlocks := ["-c".toList]
  rooted := by
    intro dev hdev
    have hcases : dev = "/dev/hda1".toList ∨ dev = "/dev/hdb1".toList := by
      by_contra hother
      exact hdev (if_neg hother)
    rcases hcases with rfl | rfl
    · exact ⟨'h', "da1".toList, by decide, rfl⟩
    · exact ⟨'h', "db1".toList, by decide, rfl⟩
  noJournal := by decide

/-- The option is lost behind a `reiserfs` file system on another disk. -/
theorem check_lost : ¬ ∀ (h : Host) (m : MountLine) (table table' : List MountLine),
    m ∈ table → m ∈ table' →
      commandsFor h (saveDiskinfo h table) m = commandsFor h (saveDiskinfo h table') m := by
  intro hall
  have hsame := hall twoDisks ⟨"/dev/hda1".toList, "/".toList, "ext2".toList⟩
    [⟨"/dev/hda1".toList, "/".toList, "ext2".toList⟩]
    [⟨"/dev/hdb1".toList, "/home".toList, "reiserfs".toList⟩,
      ⟨"/dev/hda1".toList, "/".toList, "ext2".toList⟩]
    List.mem_cons_self (List.mem_cons_of_mem _ List.mem_cons_self)
  revert hsame
  decide +kernel

end Formatting
