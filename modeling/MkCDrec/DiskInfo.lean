import MkCDrec.Table

/-!
# `Save_diskinfo`

For every mounted file system `rd-base.sh` appends a line to `To_Backup` and a
command to the `mkfs.` file of the disk, volume group or array. Each class of
devices has its own generator of file names.
-/

namespace DiskInfo

open ShellText Table

inductive DeviceClass
  | plain
  | controller
  | md
  | lvm
  | loopback
deriving DecidableEq

/-- A line of `Backup.MntPoints`; a regular file has no major number. -/
structure Mount where
  device : Text
  fs : Text
  fsType : Text
  fsOpt : Text
  major : Option Nat
deriving DecidableEq

/-- What the scripts ask the system. `devfs` is the old style name of the disk of a
partition, `arrays` the devices in the `ARRAY` lines of `mdadm` that have members and
no swap; with the raidtools there are no such lines. -/
structure Host where
  destinationPath : Text
  lvmConf : Bool
  devfs : Text → Option Text
  arrays : Option (List Text)

/-- The `case` on `Major_nr`. -/
def deviceClass (lvmConf : Bool) : Option Nat → Option DeviceClass
  | none => some .loopback
  | some n =>
    if n ∈ [3, 22, 33, 34, 45, 47, 56, 57, 80, 81, 82, 83, 84, 85, 86, 87, 88, 89, 90] then
      some .plain
    else if n ∈ [8, 65, 66, 67, 68, 69, 70, 71, 232] then some .plain
    else if n = 202 then some .plain
    else if n = 147 then some .plain
    else if n = 9 then some .md
    else if n ∈ [72, 73, 74] then some .controller
    else if n ∈ [104, 105, 106] then some .controller
    else if n ∈ [48, 49, 50, 51, 52, 53, 54, 55] then some .controller
    else if n = 114 then some .controller
    else if n = 117 then some .controller
    else if n ∈ [58, 253, 254] then some .lvm
    else if n = 252 then if lvmConf then some .lvm else some .controller
    else none

/-- The types for which a command is written. -/
def mkfsTypes : List Text :=
  ["ext2".toList, "auto".toList, "reiserfs".toList, "minix".toList, "xfs".toList, "jfs".toList,
    "ext3".toList, "ext4".toList, "msdos".toList, "fat".toList, "vfat".toList, "ntfs".toList]

/-- `sed -e 's/[0-9]//g'`. -/
def dropDigits (s : Text) : Text := s.filter fun c => !c.isDigit

/-- `sed -e "s/p[0-9]$//"`. -/
def dropPart (s : Text) : Text :=
  match s.reverse with
  | d :: 'p' :: rest => if d.isDigit then rest.reverse else s
  | _ => s

/-- `Dev` of a mounted device. -/
def Mount.dev (m : Mount) : Text := cutFrom '/' 3 m.device

/-- `_dsk` in `hd_sd_disk_types`. -/
def plainDisk (h : Host) (m : Mount) : Text := flat ((h.devfs m.dev).getD (dropDigits m.dev))

/-- `_dsk` in `ida_disk_types`. -/
def controllerDisk (m : Mount) : Text := flat (dropPart m.dev)

def mkfs (name : Text) : Text := "mkfs.".toList ++ name

/-- The file written by `Analyse_md_device`. -/
def mdMkfs (device : Text) : Text := "md/".toList ++ mkfs ((cutFrom '/' 3 device).erase '/')

/-- The file written by `lvm`. -/
def lvmMkfs (device : Text) : Text :=
  "lvm/".toList ++ mkfs (sedChar '_' "%137".toList (cut '/' 3 device))

/-- The disks whose layout a mount adds to `/etc/recovery` itself. -/
def disksOf (h : Host) (m : Mount) : DeviceClass → List Text
  | .plain => [plainDisk h m]
  | .controller => [controllerDisk m]
  | .md | .lvm | .loopback => []

def mkfsOf (h : Host) (m : Mount) : DeviceClass → List Text
  | .plain => if m.fsType ∈ mkfsTypes then [mkfs (plainDisk h m)] else []
  | .controller => if m.fsType ∈ mkfsTypes then [mkfs (controllerDisk m)] else []
  | .md =>
    match h.arrays with
    | some arrays => arrays.map mdMkfs
    | none => [mdMkfs m.device]
  | .lvm => [lvmMkfs m.device]
  | .loopback => []

/-- The line for `To_Backup`. -/
def lineOf (m : Mount) : DeviceClass → Line
  | .plain | .controller => ⟨"/dev/".toList ++ m.dev, m.fs, m.fsType, m.fsOpt⟩
  | .md | .lvm | .loopback => ⟨m.device, m.fs, m.fsType, m.fsOpt⟩

/-- `/etc/recovery` as `Save_diskinfo` leaves it: the table and the names of the
`mkfs.` files and of the disks with a `geometry.` and an `sfdisk.` file, possibly
repeated. -/
structure Recovery where
  table : List Line
  mkfsFiles : List Text
  disks : List Text

def Recovery.add (h : Host) (m : Mount) (c : DeviceClass) (r : Recovery) : Recovery where
  table := lineOf m c :: r.table
  mkfsFiles := mkfsOf h m c ++ r.mkfsFiles
  disks := disksOf h m c ++ r.disks

/-- `Save_diskinfo`: the file system that receives the backups is left out, and an
unsupported device ends the loop. -/
def saveDiskinfo (h : Host) : List Mount → Recovery
  | [] => ⟨[], [], []⟩
  | m :: ms =>
    match deviceClass h.lvmConf m.major with
    | none => ⟨[], [], []⟩
    | some c =>
      if m.fs = h.destinationPath then saveDiskinfo h ms
      else if c = .lvm ∧ h.lvmConf = false then ⟨[], [], []⟩
      else (saveDiskinfo h ms).add h m c

end DiskInfo
