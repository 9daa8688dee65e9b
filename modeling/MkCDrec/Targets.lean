import MkCDrec.Failures

/-!
# Devices written by a restore to another disk

`clone-dsk.sh` and `restore-fs.sh` restore the archive of one device to another one.
`Replace_Sourcedev_Targetdev_2` puts the target disk in the place of the source disk, in
the name of a device as well as in the lines of the scripts that make file systems and
swap areas. In the functions that fetch an archive `Dev` is the device that the archive
is named after, and also the one to which a dump is written.
-/

namespace Targets

open ShellText Table ArchiveNames StartRestore Failures Grouping

def controllerNames : List Text := ["cciss".toList, "ida".toList, "ataraid".toList]

/-- `egrep -q "cciss|ida|ataraid"`. -/
def onController (dev : Text) : Bool := controllerNames.any fun w => w <:+: dev

def endsInDigit (dev : Text) : Bool := dev.getLast?.any Char.isDigit

/-- A disk below `/dev`. -/
structure Disk where
  name : Text
  controller : onController name = true → endsInDigit name = true
  letter : ∃ c ∈ name, c ≠ 'p' ∧ c.isDigit = false

/-- A partition number is set off from a name that ends in a digit. -/
def Disk.sep (d : Disk) : Text := if endsInDigit d.name then ['p'] else []

def Disk.partition (d : Disk) (n : Text) : Text := d.name ++ (d.sep ++ n)

def Number (n : Text) : Prop := n ≠ [] ∧ ∀ c ∈ n, c.isDigit = true

/-- A command on a device, with the text of its line before the name of the device. A
name of a disk does not begin inside the `/dev/` at the end of that text. -/
structure CommandLine where
  before : Text
  device : Text
deriving DecidableEq

/-- `sed 's#pat#rep#'`. -/
def CommandLine.sed (pat rep : Text) (c : CommandLine) : CommandLine :=
  if pat <:+: c.before then { c with before := sedOnce pat rep c.before }
  else { c with device := sedOnce pat rep c.device }

/-- `egrep -q "${source_dev}[0-9]+"`. -/
def followedByDigit (disk s : Text) : Bool :=
  s.tails.any fun t => disk <+: t && (t.drop disk.length).head?.any Char.isDigit

def CommandLine.numbered (disk : Text) (c : CommandLine) : Bool :=
  followedByDigit disk c.before || followedByDigit disk c.device

/-- `Replace_Sourcedev_Targetdev_2`. -/
def replace (source target : Text) (c : CommandLine) : CommandLine :=
  if onController source then
    if onController target then
      (c.sed (source ++ ['p']) (target ++ ['p'])).sed source target
    else (c.sed (source ++ ['p']) target).sed source target
  else if onController target then
    if c.numbered source then c.sed source (target ++ ['p']) else c.sed source target
  else c.sed source target

inductive Tool
  | mkfs
  | mkswap
  | mount
  | raw
  | fsck
deriving DecidableEq

/-- A device that is written, on account of the device in a line of a table or a
script. -/
structure Write where
  tool : Tool
  source : Text
  device : Text
deriving DecidableEq

/-- The types with an `fsck` that writes; `fsck.xfs` does nothing. -/
def fsckTypes : List Text :=
  ["ext2".toList, "ext3".toList, "reiserfs".toList, "jfs".toList, "msdos".toList, "vfat".toList]

/-- A run of `clone-dsk.sh`: the table, the scripts `mkfs.${_source_dev}` and `mkswap.sh`,
the lines of `md/df` with their seventh fields if there is an `mdstat`, and the
answers. -/
structure Clone where
  source : Disk
  target : Disk
  table : List Line
  mkfsScript : List CommandLine
  mkswapScript : List CommandLine
  mdDf : Option (List (Text × Text))
  mkfs : Bool
  swap : Bool
  wanted : Nat → Bool

/-- `SDev`, after which the archive is named. -/
def Clone.sdev (k : Clone) (dev : Text) : Text :=
  match k.mdDf with
  | none => dev
  | some df => ['\n'].intercalate ((df.filter fun p => dev <:+: p.1).map Prod.snd)

/-- `TDev`. -/
def Clone.tdev (k : Clone) (dev : Text) : Text :=
  (replace k.source.name k.target.name ⟨[], dev⟩).device

/-- The lines of the restore loop: it ends at a meta device that is not found, and at the
first line to be restored of a type that `SelectExtention` does not know. -/
def Clone.lines (k : Clone) : List (Line × Nat) :=
  upTo (fun p => k.wanted p.2 && !known p.1)
    ((cloneLines k.table k.source.name).takeWhile fun l => k.sdev l.dev ≠ []).zipIdx

def Clone.dumps (k : Clone) (p : Line × Nat) : Bool :=
  k.wanted p.2 && selectExtention p.1.fsType = some .dd

/-- One round of the restore loop; a dump goes to `/dev/${Dev}` with `Dev` set to `SDev`,
from every medium. -/
def Clone.restore (k : Clone) (p : Line × Nat) : List Write :=
  ⟨.mount, p.1.dev, k.tdev p.1.dev⟩ ::
    (if k.dumps p then [⟨.raw, p.1.dev, k.sdev p.1.dev⟩] else []) ++
      if k.wanted p.2 && known p.1 && p.1.fsType ∈ fsckTypes then
        [⟨.fsck, p.1.dev, k.tdev p.1.dev⟩]
      else []

def Clone.rewrite (k : Clone) (tool : Tool) (c : CommandLine) : Write :=
  ⟨tool, c.device, (replace k.source.name k.target.name c).device⟩

/-- Steps 6 to 8 of `clone-dsk.sh`. -/
def Clone.writes (k : Clone) : List Write :=
  (if k.mkfs then k.mkfsScript.map (k.rewrite .mkfs) else []) ++
    (if k.swap then
      (k.mkswapScript.filter fun c => k.source.name <:+: c.before ++ c.device).map
        (k.rewrite .mkswap)
    else []) ++ k.lines.flatMap k.restore

/-- A run of `restore-fs.sh`: the partition below `/dev` and the answers. -/
structure Single where
  table : List Line
  fileSystem : Text
  partition : Text
  tape : Bool
  pick : Text
  mkfs : Bool
  wanted : Bool

/-- `FStype` in Step 10. -/
def Single.fsType (s : Single) (l : Line) : Text :=
  if selectExtention l.fsType = some .tar then s.pick else l.fsType

/-- `Dev` in Step 10: the device that was saved, unless the archive is on tape. -/
def Single.dev (s : Single) (l : Line) : Text := if s.tape then s.partition else l.dev

/-- Steps 8 to 10 of `restore-fs.sh` for a line whose type `SelectExtention` knows. -/
def Single.restore (s : Single) (l : Line) : List Write :=
  (if selectExtention l.fsType = some .tar then
    (if s.mkfs then [⟨.mkfs, l.dev, s.partition⟩] else []) ++ [⟨.mount, l.dev, s.partition⟩]
  else []) ++
    (if s.wanted && selectExtention (s.fsType l) = some .dd then [⟨.raw, l.dev, s.dev l⟩]
    else []) ++
      if s.wanted && s.fsType l ∈ fsckTypes then
        [⟨.fsck, l.dev, if s.fsType l = "jfs".toList then s.dev l else s.partition⟩]
      else []

def Single.writes (s : Single) : List Write :=
  match sourceLine s.table s.fileSystem with
  | none => []
  | some l => if known l then s.restore l else []

inductive Run
  | clone (k : Clone)
  | single (s : Single)

def Run.writes : Run → List Write
  | .clone k => k.writes
  | .single s => s.writes

/-- The device is the partition of the target disk with the number that the device of the
line has on the source disk; in `restore-fs.sh`, the partition that was selected. -/
def Run.OnTarget : Run → Write → Prop
  | .clone k, w =>
    ∃ n, Number n ∧ w.source = k.source.partition n ∧ w.device = k.target.partition n
  | .single s, w => w.device = s.partition

/-- The replacement comes to the name of the device, and leaves it with the separator
that the target disk has. -/
def Clear (source target : Disk) (before n : Text) : Prop :=
  if onController source.name then
    if onController target.name then
      source.name = target.name ∨
        if source.name ++ ['p'] <:+: before then
          ¬ source.name <:+: sedOnce (source.name ++ ['p']) (target.name ++ ['p']) before
        else source.name <:+: before ∨ ¬ source.name <:+: target.partition n
    else if source.name ++ ['p'] <:+: before then
      ¬ source.name <:+: sedOnce (source.name ++ ['p']) target.name before ∧ target.sep = ['p']
    else target.sep = []
  else if source.name <:+: before then source.name ++ source.sep = target.name ++ target.sep
  else onController target.name = true ∨ source.sep = target.sep

section Names

variable {source target : Disk} {before n a b : Text}

theorem Disk.name_ne_nil (d : Disk) : d.name ≠ [] := by
  obtain ⟨c, hc, _⟩ := d.letter
  exact List.ne_nil_of_mem hc

theorem Disk.sep_eq (d : Disk) : d.sep = [] ∨ d.sep = ['p'] := by
  rw [Disk.sep]
  split
  · exact Or.inr rfl
  · exact Or.inl rfl

theorem Disk.sep_of_controller {d : Disk} (h : onController d.name = true) : d.sep = ['p'] :=
  if_pos (d.controller h)

theorem onController_iff : onController a = true ↔ ∃ w ∈ controllerNames, w <:+: a := by
  simp [onController]

theorem onController_mono (h : a <:+: b) (ha : onController a = true) : onController b = true := by
  obtain ⟨w, hw, hwa⟩ := onController_iff.mp ha
  exact onController_iff.mpr ⟨w, hw, hwa.trans h⟩

/-- Neither a separator nor a number makes a controller's name. -/
theorem onController_append (hb : ∀ c ∈ b, c = 'p' ∨ c.isDigit = true)
    (h : onController (a ++ b) = true) : onController a = true := by
  obtain ⟨w, hw, hwab⟩ := onController_iff.mp h
  have hletters : ∀ w ∈ controllerNames, w ≠ [] ∧ 'p' ∉ w ∧ w.any Char.isDigit = false := by
    decide
  obtain ⟨hne, hp, hdigit⟩ := hletters w hw
  refine onController_iff.mpr ⟨w, hw, infix_of_infix_append hne ?_ hwab⟩
  intro c hc hcw
  rcases hb c hc with rfl | hd
  · exact hp hcw
  · have hany : w.any Char.isDigit = true := List.any_eq_true.mpr ⟨c, hcw, hd⟩
    rw [hdigit] at hany
    cases hany

theorem partition_eq_iff :
    source.partition n = target.partition n ↔
      source.name ++ source.sep = target.name ++ target.sep := by
  rw [Disk.partition, Disk.partition, ← List.append_assoc, ← List.append_assoc,
    List.append_cancel_right_eq]

/-- What follows the name of a disk in the name of a partition. -/
theorem suffix_chars (hn : Number n) : ∀ c ∈ source.sep ++ n, c = 'p' ∨ c.isDigit = true := by
  intro c hc
  rcases List.mem_append.mp hc with hc | hc
  · rcases source.sep_eq with h | h
    · rw [h] at hc
      cases hc
    · rw [h, List.mem_singleton] at hc
      exact Or.inl hc
  · exact Or.inr (hn.2 c hc)

/-- The only place of a disk's name in the name of its partition is the first. -/
theorem eq_nil_of_partition {u v : Text} (hn : Number n)
    (h : source.partition n = u ++ source.name ++ v) : u = [] := by
  let letter : Char → Bool := fun c => c ≠ 'p' && !c.isDigit
  have hname : ∃ c ∈ source.name, letter c = true := by
    obtain ⟨c, hc, hp, hdigit⟩ := source.letter
    exact ⟨c, hc, by simp [letter, hp, hdigit]⟩
  have hsuffix : ∀ c ∈ source.sep ++ n, ¬ letter c = true := by
    intro c hc
    rcases suffix_chars hn c hc with h | h <;> simp [letter, h]
  have hcount := congrArg (List.countP letter) h
  have hzero : (source.sep ++ n).countP letter = 0 := List.countP_eq_zero.mpr hsuffix
  rw [Disk.partition, List.countP_append, hzero, List.countP_append, List.countP_append] at hcount
  have hu : ¬ ∃ c ∈ u, letter c = true := by
    have hzero : u.countP letter = 0 := by omega
    rintro ⟨c, hc, hletter⟩
    exact List.countP_eq_zero.mp hzero c hc hletter
  have hfound : source.name.findIdx letter < source.name.length :=
    List.findIdx_lt_length.mpr hname
  have hnone : ¬ u.findIdx letter < u.length := fun h => hu (List.findIdx_lt_length.mp h)
  have hleft : (source.name ++ (source.sep ++ n)).findIdx letter = source.name.findIdx letter := by
    rw [List.findIdx_append, if_pos hfound]
  have hright : (u ++ (source.name ++ v)).findIdx letter =
      source.name.findIdx letter + u.length := by
    rw [List.findIdx_append, if_neg hnone, List.findIdx_append, if_pos hfound]
  have hfirst := congrArg (List.findIdx letter) h
  rw [Disk.partition, List.append_assoc, hleft, hright] at hfirst
  exact List.length_eq_zero_iff.mp (by omega)

theorem followedByDigit_iff {disk s : Text} :
    followedByDigit disk s = true ↔ ∃ u d v, s = u ++ disk ++ d :: v ∧ d.isDigit = true := by
  simp only [followedByDigit, List.any_eq_true, List.mem_tails, Bool.and_eq_true,
    decide_eq_true_eq]
  constructor
  · rintro ⟨t, ⟨u, rfl⟩, ⟨w, rfl⟩, hdigit⟩
    rw [List.drop_left] at hdigit
    cases w with
    | nil => cases hdigit
    | cons d v => exact ⟨u, d, v, by rw [List.append_assoc], hdigit⟩
  · rintro ⟨u, d, v, rfl, hdigit⟩
    refine ⟨disk ++ d :: v, ⟨u, by rw [List.append_assoc]⟩, List.prefix_append _ _, ?_⟩
    rw [List.drop_left]
    exact hdigit

/-- A number directly behind the name of the disk is found, ... -/
theorem numbered_of_sep_nil (hn : Number n) (hsep : source.sep = []) :
    (⟨before, source.partition n⟩ : CommandLine).numbered source.name = true := by
  obtain ⟨hne, hdigits⟩ := hn
  obtain ⟨d, v, rfl⟩ := List.exists_cons_of_ne_nil hne
  have hfound : followedByDigit source.name (source.partition (d :: v)) = true := by
    refine followedByDigit_iff.mpr ⟨[], d, v, ?_, hdigits d List.mem_cons_self⟩
    rw [Disk.partition, hsep]
    rfl
  rw [CommandLine.numbered, hfound, Bool.or_true]

/-- ... and one that is set off is not. -/
theorem not_numbered (hn : Number n) (hsep : source.sep = ['p'])
    (hbefore : ¬ source.name <:+: before) :
    (⟨before, source.partition n⟩ : CommandLine).numbered source.name = false := by
  have hfirst : followedByDigit source.name before = false := by
    rw [Bool.eq_false_iff, ne_eq, followedByDigit_iff]
    rintro ⟨u, d, v, rfl, _⟩
    exact hbefore ⟨u, d :: v, rfl⟩
  have hsecond : followedByDigit source.name (source.partition n) = false := by
    rw [Bool.eq_false_iff, ne_eq, followedByDigit_iff]
    rintro ⟨u, d, v, heq, hdigit⟩
    obtain rfl := eq_nil_of_partition hn heq
    rw [Disk.partition, hsep, List.nil_append, List.append_cancel_left_eq] at heq
    injection heq with hd
    rw [← hd] at hdigit
    cases hdigit
  rw [CommandLine.numbered, hfirst, hsecond, Bool.or_false]

theorem sed_of_before {pat rep : Text} {c : CommandLine} (h : pat <:+: c.before) :
    c.sed pat rep = ⟨sedOnce pat rep c.before, c.device⟩ := if_pos h

theorem sed_of_not_before {pat rep : Text} {c : CommandLine} (h : ¬ pat <:+: c.before) :
    c.sed pat rep = ⟨c.before, sedOnce pat rep c.device⟩ := if_neg h

theorem sedOnce_partition (rep : Text) :
    sedOnce source.name rep (source.partition n) = rep ++ (source.sep ++ n) :=
  sedOnce_append source.name_ne_nil rep _

theorem sedOnce_partition_sep (hsep : source.sep = ['p']) (rep : Text) :
    sedOnce (source.name ++ ['p']) rep (source.partition n) = rep ++ n := by
  have hsplit : source.partition n = (source.name ++ ['p']) ++ n := by
    rw [Disk.partition, hsep, List.append_assoc]
  rw [hsplit, sedOnce_append (by simp)]

/-- A separator is put where the target disk needs one. -/
theorem append_eq_partition_iff {sep : Text} :
    target.name ++ (sep ++ n) = target.partition n ↔ sep = target.sep := by
  rw [Disk.partition, List.append_cancel_left_eq, List.append_cancel_right_eq]

/-- Between disks of which the first is not on a controller. -/
theorem replace_plain (hn : Number n) (hs : onController source.name = false) :
    (replace source.name target.name ⟨before, source.partition n⟩).device =
      target.partition n ↔ Clear source target before n := by
  have hclear : Clear source target before n ↔
      if source.name <:+: before then source.name ++ source.sep = target.name ++ target.sep
      else onController target.name = true ∨ source.sep = target.sep := by
    rw [Clear, hs]
    rfl
  by_cases hbefore : source.name <:+: before
  · have hkept : (replace source.name target.name ⟨before, source.partition n⟩).device =
        source.partition n := by
      simp only [replace, hs, Bool.false_eq_true, if_false, sed_of_before, hbefore]
      split
      · split <;> rfl
      · rfl
    rw [hkept, hclear, if_pos hbefore, partition_eq_iff]
  · rw [hclear, if_neg hbefore]
    by_cases ht : onController target.name = true
    · have htsep := Disk.sep_of_controller ht
      have hdone : (replace source.name target.name ⟨before, source.partition n⟩).device =
          target.partition n := by
        rcases source.sep_eq with hsep | hsep
        · have hnum : (⟨before, source.partition n⟩ : CommandLine).numbered source.name = true :=
            numbered_of_sep_nil hn hsep
          simp only [replace, hs, ht, hnum, Bool.false_eq_true, if_false, if_true]
          rw [sed_of_not_before hbefore, sedOnce_partition, hsep, List.append_assoc]
          exact append_eq_partition_iff.mpr htsep.symm
        · have hnum : (⟨before, source.partition n⟩ : CommandLine).numbered source.name = false :=
            not_numbered hn hsep hbefore
          simp only [replace, hs, ht, hnum, Bool.false_eq_true, if_false, if_true]
          rw [sed_of_not_before hbefore, sedOnce_partition, hsep]
          exact append_eq_partition_iff.mpr htsep.symm
      exact iff_of_true hdone (Or.inl ht)
    · have hreplace : (replace source.name target.name ⟨before, source.partition n⟩).device =
          target.name ++ (source.sep ++ n) := by
        simp only [replace, hs, ht, Bool.false_eq_true, if_false]
        rw [sed_of_not_before hbefore, sedOnce_partition]
      rw [hreplace, append_eq_partition_iff]
      exact (or_iff_right ht).symm

/-- From a controller to a disk that is not on one. -/
theorem replace_from_controller (hn : Number n) (hs : onController source.name = true)
    (ht : onController target.name = false) :
    (replace source.name target.name ⟨before, source.partition n⟩).device =
      target.partition n ↔ Clear source target before n := by
  have hsep := Disk.sep_of_controller hs
  have hreplace : replace source.name target.name ⟨before, source.partition n⟩ =
      ((⟨before, source.partition n⟩ : CommandLine).sed (source.name ++ ['p']) target.name).sed
        source.name target.name := by
    simp only [replace, hs, ht, Bool.false_eq_true, if_false, if_true]
  have hclear : Clear source target before n ↔
      if source.name ++ ['p'] <:+: before then
        ¬ source.name <:+: sedOnce (source.name ++ ['p']) target.name before ∧ target.sep = ['p']
      else target.sep = [] := by
    rw [Clear, hs, ht]
    rfl
  have hother : source.name ++ source.sep ≠ target.name ++ target.sep := by
    intro h
    have hmem : onController (target.name ++ target.sep) = true :=
      h ▸ onController_mono (List.prefix_append _ _).isInfix hs
    have hchars : ∀ c ∈ target.sep, c = 'p' ∨ c.isDigit = true := by
      intro c hc
      exact suffix_chars hn c (List.mem_append_left n hc)
    rw [onController_append hchars hmem] at ht
    cases ht
  rw [hreplace, hclear]
  by_cases hbefore : source.name ++ ['p'] <:+: before
  · have hsed : (⟨before, source.partition n⟩ : CommandLine).sed (source.name ++ ['p'])
        target.name = ⟨sedOnce (source.name ++ ['p']) target.name before, source.partition n⟩ :=
      sed_of_before hbefore
    rw [if_pos hbefore, hsed]
    by_cases hsecond : source.name <:+: sedOnce (source.name ++ ['p']) target.name before
    · rw [sed_of_before hsecond]
      refine iff_of_false ?_ fun h => h.1 hsecond
      rw [partition_eq_iff]
      exact hother
    · rw [sed_of_not_before hsecond, sedOnce_partition, append_eq_partition_iff, hsep]
      exact ⟨fun h => ⟨hsecond, h.symm⟩, fun h => h.2.symm⟩
  · have hnone : ¬ source.name <:+: target.name ++ n := by
      intro h
      have hmem := onController_mono h hs
      rw [onController_append (fun c hc => Or.inr (hn.2 c hc)) hmem] at ht
      cases ht
    have hdevice : ((⟨before, target.name ++ n⟩ : CommandLine).sed source.name target.name).device =
        target.name ++ n := by
      by_cases hsecond : source.name <:+: before
      · rw [sed_of_before hsecond]
      · rw [sed_of_not_before hsecond]
        exact (sedOnce_eq_self_iff source.name_ne_nil).mpr (Or.inr hnone)
    have hsed : (⟨before, source.partition n⟩ : CommandLine).sed (source.name ++ ['p'])
        target.name = ⟨before, target.name ++ n⟩ := by
      rw [sed_of_not_before hbefore, sedOnce_partition_sep hsep]
    rw [if_neg hbefore, hsed, hdevice]
    have hnil : target.name ++ n = target.name ++ ([] ++ n) := rfl
    rw [hnil, append_eq_partition_iff]
    exact eq_comm

/-- Between disks on controllers. -/
theorem replace_controllers (hs : onController source.name = true)
    (ht : onController target.name = true) :
    (replace source.name target.name ⟨before, source.partition n⟩).device =
      target.partition n ↔ Clear source target before n := by
  have hssep := Disk.sep_of_controller hs
  have htsep := Disk.sep_of_controller ht
  have hreplace : replace source.name target.name ⟨before, source.partition n⟩ =
      ((⟨before, source.partition n⟩ : CommandLine).sed (source.name ++ ['p'])
        (target.name ++ ['p'])).sed source.name target.name := by
    simp only [replace, hs, ht, if_true]
  have hclear : Clear source target before n ↔ source.name = target.name ∨
      if source.name ++ ['p'] <:+: before then
        ¬ source.name <:+: sedOnce (source.name ++ ['p']) (target.name ++ ['p']) before
      else source.name <:+: before ∨ ¬ source.name <:+: target.partition n := by
    rw [Clear, hs, ht]
    rfl
  have hsame : source.partition n = target.partition n ↔ source.name = target.name := by
    rw [partition_eq_iff, hssep, htsep, List.append_cancel_right_eq]
  rw [hreplace, hclear]
  by_cases hbefore : source.name ++ ['p'] <:+: before
  · have hsed : (⟨before, source.partition n⟩ : CommandLine).sed (source.name ++ ['p'])
        (target.name ++ ['p']) =
        ⟨sedOnce (source.name ++ ['p']) (target.name ++ ['p']) before, source.partition n⟩ :=
      sed_of_before hbefore
    rw [if_pos hbefore, hsed]
    by_cases hsecond : source.name <:+: sedOnce (source.name ++ ['p']) (target.name ++ ['p']) before
    · rw [sed_of_before hsecond, hsame]
      exact (or_iff_left fun h => h hsecond).symm
    · rw [sed_of_not_before hsecond, sedOnce_partition, append_eq_partition_iff, hssep, htsep]
      exact iff_of_true rfl (Or.inr hsecond)
  · have hfirst : target.name ++ ['p'] ++ n = target.partition n := by
      rw [Disk.partition, htsep, List.append_assoc]
    have hsed : (⟨before, source.partition n⟩ : CommandLine).sed (source.name ++ ['p'])
        (target.name ++ ['p']) = ⟨before, target.partition n⟩ := by
      rw [sed_of_not_before hbefore, sedOnce_partition_sep hssep, hfirst]
    rw [if_neg hbefore, hsed]
    by_cases hsecond : source.name <:+: before
    · rw [sed_of_before hsecond]
      exact iff_of_true rfl (Or.inr (Or.inl hsecond))
    · rw [sed_of_not_before hsecond]
      refine (sedOnce_eq_self_iff source.name_ne_nil).trans ?_
      rw [or_iff_right hsecond]

/-- Where the replacement puts the partition of the target disk. -/
theorem replace_eq_partition_iff (hn : Number n) :
    (replace source.name target.name ⟨before, source.partition n⟩).device =
      target.partition n ↔ Clear source target before n := by
  by_cases hs : onController source.name = true
  · by_cases ht : onController target.name = true
    · exact replace_controllers hs ht
    · exact replace_from_controller hn hs (Bool.eq_false_iff.mpr ht)
  · exact replace_plain hn (Bool.eq_false_iff.mpr hs)

end Names

/-- A device on the source disk whose name the replacement finds in the line. -/
def Clone.Mapped (k : Clone) (before device : Text) : Prop :=
  ∃ n, Number n ∧ device = k.source.partition n ∧ Clear k.source k.target before n

/-- Whatever the user wants is on the source disk and found by the replacement, and no
dump is restored unless its device and the target are one. -/
structure Clone.Safe (k : Clone) : Prop where
  mkfs : k.mkfs = true → ∀ c ∈ k.mkfsScript, k.Mapped c.before c.device
  swap : k.swap = true → ∀ c ∈ k.mkswapScript, k.source.name <:+: c.before ++ c.device →
    k.Mapped c.before c.device
  lines : ∀ p ∈ k.lines, k.Mapped [] p.1.dev
  dumps : ∀ p ∈ k.lines, k.dumps p = true → ∀ n, p.1.dev = k.source.partition n →
    k.sdev p.1.dev = k.target.partition n

/-- From tape, onto the device that was saved, or neither as a dump nor with a check of a
`jfs` file system. -/
def Single.Safe (s : Single) : Prop :=
  ∀ l, sourceLine s.table s.fileSystem = some l → s.wanted = true →
    s.tape = true ∨ l.dev = s.partition ∨
      selectExtention (s.fsType l) ≠ some .dd ∧ s.fsType l ≠ "jfs".toList

def Run.Safe : Run → Prop
  | .clone k => k.Safe
  | .single s => s.Safe

section Runs

variable {k : Clone} {s : Single} {l : Line}

/-- What is written behind a question. -/
theorem forall_mem_guarded {p : Prop} [Decidable p] {ws : List Write} {q : Write → Prop} :
    (∀ w ∈ (if p then ws else []), q w) ↔ (p → ∀ w ∈ ws, q w) := by
  by_cases hp : p
  · rw [if_pos hp, forall_prop_of_true hp]
  · rw [if_neg hp]
    exact iff_of_true (List.forall_mem_nil _) fun h => absurd h hp

theorem number_unique {d : Disk} {m n : Text} (h : d.partition m = d.partition n) : m = n := by
  rw [Disk.partition, Disk.partition, List.append_cancel_left_eq, List.append_cancel_left_eq] at h
  exact h

theorem onTarget_rewrite (tool : Tool) (c : CommandLine) :
    (Run.clone k).OnTarget (k.rewrite tool c) ↔ k.Mapped c.before c.device := by
  refine exists_congr fun n => and_congr_right fun hn => and_congr_right fun hdevice => ?_
  rw [← replace_eq_partition_iff hn, ← hdevice]
  rfl

theorem onTarget_tdev (tool : Tool) (dev : Text) :
    (Run.clone k).OnTarget ⟨tool, dev, k.tdev dev⟩ ↔ k.Mapped [] dev :=
  onTarget_rewrite tool ⟨[], dev⟩

/-- One round of the restore loop. -/
theorem onTarget_restore (p : Line × Nat) :
    (∀ w ∈ k.restore p, (Run.clone k).OnTarget w) ↔
      k.Mapped [] p.1.dev ∧ (k.dumps p = true → ∀ n, p.1.dev = k.source.partition n →
        k.sdev p.1.dev = k.target.partition n) := by
  rw [Clone.restore, List.cons_append, List.forall_mem_cons, onTarget_tdev]
  refine and_congr_right fun hmapped => ?_
  rw [List.forall_mem_append, forall_mem_guarded, forall_mem_guarded, List.forall_mem_singleton,
    List.forall_mem_singleton, onTarget_tdev, and_iff_left fun _ => hmapped]
  refine forall_congr' fun hdumps => ?_
  obtain ⟨n, hn, hdev, _⟩ := hmapped
  constructor
  · rintro ⟨m, _, hm, hraw⟩ n' hn'
    obtain rfl : n' = m := number_unique (hn'.symm.trans hm)
    exact hraw
  · intro h
    exact ⟨n, hn, hdev, h n hdev⟩

theorem onTarget_clone : (∀ w ∈ k.writes, (Run.clone k).OnTarget w) ↔ k.Safe := by
  have hscript : ∀ tool script, (∀ w ∈ List.map (k.rewrite tool) script,
      (Run.clone k).OnTarget w) ↔ ∀ c ∈ script, k.Mapped c.before c.device := by
    intro tool script
    simp only [List.forall_mem_map, onTarget_rewrite]
  rw [Clone.writes, List.forall_mem_append, List.forall_mem_append, forall_mem_guarded,
    forall_mem_guarded, hscript, hscript, List.forall_mem_flatMap]
  simp only [List.mem_filter, decide_eq_true_eq, and_imp]
  simp only [onTarget_restore]
  constructor
  · rintro ⟨⟨hmkfs, hswap⟩, hlines⟩
    exact ⟨hmkfs, hswap, fun p hp => (hlines p hp).1, fun p hp => (hlines p hp).2⟩
  · intro h
    exact ⟨⟨h.mkfs, h.swap⟩, fun p hp => ⟨h.lines p hp, h.dumps p hp⟩⟩

theorem dev_eq_partition_iff : s.dev l = s.partition ↔ s.tape = true ∨ l.dev = s.partition := by
  by_cases htape : s.tape = true <;> simp [Single.dev, htape]

/-- What `restore-fs.sh` formats and mounts is the partition; what is left are the dump
and the check. -/
theorem onTarget_single_restore :
    (∀ w ∈ s.restore l, w.device = s.partition) ↔
      (s.wanted = true → s.dev l = s.partition ∨
        selectExtention (s.fsType l) ≠ some .dd ∧ s.fsType l ≠ "jfs".toList) := by
  rw [Single.restore, List.forall_mem_append, List.forall_mem_append]
  simp only [forall_mem_guarded, List.forall_mem_append, List.forall_mem_singleton, implies_true,
    and_self, true_and, Bool.and_eq_true, decide_eq_true_eq, and_imp]
  constructor
  · rintro ⟨hraw, hfsck⟩ hwanted
    by_cases hdev : s.dev l = s.partition
    · exact Or.inl hdev
    · refine Or.inr ⟨fun hkind => hdev (hraw hwanted hkind), fun hjfs => hdev ?_⟩
      have hmem : s.fsType l ∈ fsckTypes := by
        rw [hjfs]
        decide
      have hwritten := hfsck hwanted hmem
      rwa [if_pos hjfs] at hwritten
  · intro h
    constructor
    · intro hwanted hkind
      exact (h hwanted).resolve_right fun hother => hother.1 hkind
    · intro hwanted _
      by_cases hjfs : s.fsType l = "jfs".toList
      · rw [if_pos hjfs]
        exact (h hwanted).resolve_right fun hother => hother.2 hjfs
      · rw [if_neg hjfs]

theorem onTarget_single : (∀ w ∈ s.writes, (Run.single s).OnTarget w) ↔ s.Safe := by
  rw [Single.writes, Single.Safe]
  cases hsource : sourceLine s.table s.fileSystem with
  | none =>
    refine iff_of_true (List.forall_mem_nil _) ?_
    intro l hl
    cases hl
  | some l =>
    have hone : (∀ m, some l = some m → s.wanted = true → s.tape = true ∨ m.dev = s.partition ∨
          selectExtention (s.fsType m) ≠ some .dd ∧ s.fsType m ≠ "jfs".toList) ↔
        (s.wanted = true → s.dev l = s.partition ∨
          selectExtention (s.fsType l) ≠ some .dd ∧ s.fsType l ≠ "jfs".toList) := by
      simp only [Option.some.injEq, forall_eq', dev_eq_partition_iff, or_assoc]
    rw [hone]
    by_cases hknown : known l = true
    · simp only [hknown, if_true]
      exact onTarget_single_restore
    · have hnone : selectExtention l.fsType = none := by
        rw [known, Option.isSome_iff_ne_none, not_not] at hknown
        exact hknown
      have hfsType : s.fsType l = l.fsType := by
        rw [Single.fsType, hnone]
        rfl
      simp only [hknown, Bool.false_eq_true, if_false]
      refine iff_of_true (List.forall_mem_nil _) fun _ => Or.inr ?_
      rw [hfsType, hnone]
      have hne : none ≠ some Kind.dd := fun h => by cases h
      refine ⟨hne, ?_⟩
      intro hjfs
      rw [hjfs] at hnone
      revert hnone
      decide

end Runs

/-- Every device that is written is the target partition of its line if and only if the
lines and commands are for partitions of the source disk, the replacement comes to the
names of the devices, and nothing is dumped, nor a `jfs` file system checked by
`restore-fs.sh`, under the name of a device that is not the target. -/
theorem writes_onTarget_iff (run : Run) : (∀ w ∈ run.writes, run.OnTarget w) ↔ run.Safe := by
  cases run with
  | clone k => exact onTarget_clone
  | single s => exact onTarget_single

/-- A `vfat` file system, saved from `/dev/hda5` and to be restored to `/dev/sdb1`. -/
def dosRun : Single where
  table := [⟨"/dev/hda5".toList, "/dos".toList, "vfat".toList, "rw".toList⟩]
  fileSystem := "/dos".toList
  partition := "sdb1".toList
  tape := false
  pick := []
  mkfs := false
  wanted := true

/-- The dump goes to the device that was saved. -/
theorem dump_written_to_source :
    ¬ ∀ w ∈ (Run.single dosRun).writes, (Run.single dosRun).OnTarget w := by
  intro h
  have hraw : "hda5".toList = "sdb1".toList :=
    h ⟨.raw, "hda5".toList, "hda5".toList⟩ (by decide)
  revert hraw
  decide

def hda : Disk := ⟨"hda".toList, by decide, 'h', by decide⟩

def sdb : Disk := ⟨"sdb".toList, by decide, 's', by decide⟩

/-- The label of a `jfs` file system holds the name of the disk, so that `mkfs` is run on
the source. -/
example : replace hda.name sdb.name ⟨"mkfs -t jfs -f -L:jfs_hda1 /dev/".toList, "hda1".toList⟩ =
    ⟨"mkfs -t jfs -f -L:jfs_sdb1 /dev/".toList, "hda1".toList⟩ := by
  decide +kernel

end Targets
