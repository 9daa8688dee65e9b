import MkCDrec.Lib.ShellText

/-!
# `To_Backup` and `To_Restore`

`Save_diskinfo` writes one line for every file system to be saved, `tar-it.sh` reads
the lines as `To_Backup`, and the restore scripts read a copy of them as
`To_Restore`. The fields are separated by tabs and contain no blanks.
-/

namespace Table

open ShellText

structure Line where
  device : Text
  fs : Text
  fsType : Text
  fsOpt : Text
deriving DecidableEq

/-- The line as it stands in the file. -/
def Line.text (l : Line) : Text :=
  l.device ++ '\t' :: (l.fs ++ '\t' :: (l.fsType ++ '\t' :: l.fsOpt))

/-- `Dev` of `ParseDevice`, the path below `/dev`. -/
def Line.dev (l : Line) : Text := cutFrom '/' 3 l.device

/-- `tr "/" "_"`, as in `_Fs`. -/
def flat (s : Text) : Text := tr '/' '_' s

/-- `_Dev` of `ParseDevice`: an underscore is kept apart from a slash. -/
def escape (dev : Text) : Text := flat (sedChar '_' "%137".toList dev)

@[simp] theorem flat_append (s t : Text) : flat (s ++ t) = flat s ++ flat t := tr_append ..

@[simp] theorem length_flat (s : Text) : (flat s).length = s.length := length_tr ..

/-- The two encodings of a device agree on names without underscores only. -/
theorem flat_eq_escape_iff {dev : Text} : flat dev = escape dev ↔ '_' ∉ dev := by
  constructor
  · intro h hmem
    have hlen := congrArg List.length h
    have hlong : 1 < "%137".toList.length := by decide
    have hlt := length_lt_sedChar hlong hmem
    rw [escape, length_flat, length_flat] at hlen
    omega
  · intro h
    rw [escape, sedChar_eq_self h]

end Table
