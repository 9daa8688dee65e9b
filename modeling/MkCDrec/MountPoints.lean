import MkCDrec.ExcludeList
import MkCDrec.Lib.Columns
import MkCDrec.Lib.Lines

/-!
# The file systems that are backed up

`Show_mount_output` writes the lines of `mount -v` to `Backup.MntPoints` and filters those of
excluded mount points out of the file, into the same file. `Save_diskinfo` reads what is in it.
-/

namespace MountPoints

open ShellText Words Columns Lines ExcludeList

def types : List Text :=
  ["ext2".toList, "ext3".toList, "ext4".toList, "auto".toList, "minix".toList, "reiserfs".toList,
    "fat".toList, "vfat".toList, "msdos".toList, "xfs".toList, "jfs".toList, "ntfs".toList]

/-- `SKIP`. -/
def skip (backupLoop : Bool) : List Text :=
  (if backupLoop then [] else ["loop=".toList]) ++
    ["supermount".toList, "fd0".toList, "fd1".toList, "floppy".toList, "autofs".toList,
      "removable".toList, "mvfs".toList]

/-- The fields are words, and no shell takes a character of them for anything else. -/
structure Plain (m : Mount) : Prop where
  device : IsWord m.device
  point : IsWord m.point
  fsType : IsWord m.fsType
  options : ' ' ∉ m.options ∧ '\t' ∉ m.options
  option : isOption m.device = false
  line : ∀ c ∈ m.line, c ∉ ['\n', '\\', '*', '?', '[', '^', '$']

/-- What `Show_mount_output` reads; `find` gives the directories below a path. -/
structure Job where
  list : ExcludeList.Job
  backupLoop : Bool
  find : Text → List Text
  plain : ∀ m ∈ list.mounts, Plain m

namespace Job

variable (j : Job)

/-- `exclude_list.candidates`. -/
def candidates : List Text := ls { j.list with dev := "/dev/dummy".toList }.file

def shown (l : Text) : Bool :=
  types.any (fun t => t <:+: l) && !(skip j.backupLoop).any fun w => w <:+: l

/-- The lines that the loop reads. -/
def lines : List Text := ls ((j.list.mounts.map Mount.line).filter j.shown)

/-- A candidate excludes a mount point by its name, or with a `*` the directories that are
found. -/
def names (c point : Text) : Bool :=
  if '*' ∈ c then point ∈ j.find (c.erase '*') else c = point

/-- `exclude_list.MntPoints`. -/
def excludedLines : List Text :=
  j.lines.flatMap fun l =>
    ((j.candidates.filter fun c => !decide ("proc".toList <:+: c)).filter fun c =>
      j.names c ((words l).getD 2 [])).map fun _ => echo l

/-- `Backup.MntPoints` behind the loop. -/
def all : Text := unlines (j.lines.map echo)

/-- What `grep -v` lets through, with a pattern on each line. -/
def passes (l : Text) : Bool := !j.excludedLines.any fun p => Paths.contains p l

/-- `Backup.MntPoints` can be left so, when `cat` reads blocks of `b` characters. -/
def Leaves (b : Nat) (file : Text) : Prop :=
  if j.excludedLines = [] then file = j.all
  else SelfFilter.Leaves (lineFilter j.passes) b j.all file

/-- The lines that `Save_diskinfo` works on. -/
def saved (file : Text) : List Text := if file = [] then [] else Lines.lines file

/-- The type, of several the first one. -/
def Supported (m : Mount) : Prop := cut ',' 1 m.fsType ∈ types

def Excluded (m : Mount) : Prop := ∃ c ∈ j.candidates, j.names c m.point = true

def Wanted (m : Mount) : Prop :=
  Supported m ∧ (∀ w ∈ skip j.backupLoop, ¬ w <:+: m.line) ∧ ¬ j.Excluded m

/-- In every order the file holds exactly the lines of the wanted file systems, and these are
saved. -/
def Exact (b : Nat) : Prop :=
  ∀ file, j.Leaves b file → ∀ l,
    (l ∈ Lines.lines file ↔ ∃ m ∈ j.list.mounts, j.Wanted m ∧ m.line = l) ∧
    (l ∈ saved file ↔ ∃ m ∈ j.list.mounts, j.Wanted m ∧ m.line = l)

end Job

section Line

variable {m o : Mount}

/-- The words of a line of `mount`. -/
def lineWords (m : Mount) : List Text :=
  [m.device, "on".toList, m.point, "type".toList, m.fsType, '(' :: (m.options ++ [')'])]

theorem line_eq (m : Mount) : m.line = [' '].intercalate (lineWords m) := by
  simp [Mount.line, lineWords, List.intercalate_cons_cons]

theorem Plain.words (h : Plain m) : words m.line = lineWords m := by
  have hon : IsWord "on".toList := ⟨by decide, by decide, by decide⟩
  have htype : IsWord "type".toList := ⟨by decide, by decide, by decide⟩
  have hoptions : IsWord ('(' :: (m.options ++ [')'])) := by
    refine ⟨by simp, ?_, ?_⟩
    · simp [h.options.1]
    · simp [h.options.2]
  rw [line_eq, words_intercalate]
  simp only [lineWords, List.forall_mem_cons]
  exact ⟨h.device, hon, h.point, htype, h.fsType, hoptions, by simp⟩

theorem Plain.echo (h : Plain m) : echo m.line = m.line := by
  have hdrop : (lineWords m).dropWhile isOption = lineWords m := by
    rw [lineWords, List.dropWhile_cons_of_neg]
    simp [h.option]
  rw [Words.echo, h.words, hdrop, ← line_eq]

theorem Plain.inj (h : Plain m) (ho : Plain o) (heq : m.line = o.line) : m = o := by
  have hwords : lineWords m = lineWords o := by
    rw [← h.words, ← ho.words, heq]
  simp only [lineWords, List.cons.injEq, List.append_cancel_right_eq] at hwords
  obtain ⟨hdevice, _, hpoint, _, hfsType, ⟨_, hoptions⟩, _⟩ := hwords
  cases m
  cases o
  simp only [Mount.mk.injEq]
  exact ⟨hdevice, hpoint, hfsType, hoptions⟩

theorem Plain.notMem (h : Plain m) : '\n' ∉ m.line := by
  intro hmem
  exact h.line _ hmem List.mem_cons_self

end Line

namespace Job

variable {j : Job} {b : Nat} {m : Mount} {l : Text}

theorem mem_lines : l ∈ j.lines ↔ ∃ m ∈ j.list.mounts, m.line = l ∧ j.shown l = true := by
  rw [lines, mem_ls, List.mem_filter, List.mem_map]
  constructor
  · rintro ⟨⟨m, hm, rfl⟩, hshown⟩
    exact ⟨m, hm, rfl, hshown⟩
  · rintro ⟨m, hm, rfl, hshown⟩
    exact ⟨⟨m, hm, rfl⟩, hshown⟩

theorem shown_iff : j.shown l = true ↔
    (∃ t ∈ types, t <:+: l) ∧ ∀ w ∈ skip j.backupLoop, ¬ w <:+: l := by
  simp [shown]

theorem map_echo (j : Job) : j.lines.map echo = j.lines := by
  conv_rhs => rw [← List.map_id j.lines]
  apply List.map_congr_left
  intro l hl
  obtain ⟨m, hm, rfl, _⟩ := mem_lines.mp hl
  exact (j.plain m hm).echo

theorem lines_all (j : Job) : Lines.lines j.all = j.lines := by
  rw [all, map_echo]
  apply lines_unlines
  intro l hl
  obtain ⟨m, hm, rfl, _⟩ := mem_lines.mp hl
  exact (j.plain m hm).notMem

theorem saved_eq (file : Text) : saved file = Lines.lines file := by
  rw [saved]
  split
  · rename_i hnil
    rw [hnil]
    rfl
  · rfl

theorem Supported.infix_line (h : Supported m) : ∃ t ∈ types, t <:+: m.line := by
  have hcut : cut ',' 1 m.fsType <+: m.fsType := by
    rw [cut]
    split
    · rw [head_splitOn]
      exact List.takeWhile_prefix _
    · exact List.prefix_rfl
  have hline : m.fsType <:+: m.line :=
    ⟨m.device ++ " on ".toList ++ m.point ++ " type ".toList, " (".toList ++ m.options ++ ")".toList,
      by simp [Mount.line]⟩
  exact ⟨_, h, hcut.isInfix.trans hline⟩

theorem shown_of_wanted (h : j.Wanted m) : j.shown m.line = true :=
  shown_iff.mpr ⟨h.1.infix_line, h.2.1⟩

/-- A line is excluded by a candidate without `proc` in it. -/
theorem excludedLines_eq_nil_iff (j : Job) : j.excludedLines = [] ↔
    ∀ m ∈ j.list.mounts, j.shown m.line = true →
      ∀ c ∈ j.candidates, ¬ "proc".toList <:+: c → j.names c m.point = false := by
  have hpoint : ∀ m ∈ j.list.mounts, (words m.line).getD 2 [] = m.point := by
    intro m hm
    rw [(j.plain m hm).words]
    rfl
  rw [excludedLines, List.flatMap_eq_nil_iff]
  constructor
  · intro h m hm hshown c hc hproc
    have hnil := h m.line (mem_lines.mpr ⟨m, hm, rfl, hshown⟩)
    rw [List.map_eq_nil_iff, List.filter_eq_nil_iff, hpoint m hm] at hnil
    have hkept : c ∈ j.candidates.filter fun c => !decide ("proc".toList <:+: c) :=
      List.mem_filter.mpr ⟨hc, by simpa using hproc⟩
    simpa using hnil c hkept
  · intro h l hl
    obtain ⟨m, hm, rfl, hshown⟩ := mem_lines.mp hl
    rw [List.map_eq_nil_iff, List.filter_eq_nil_iff, hpoint m hm]
    intro c hc
    obtain ⟨hc, hproc⟩ := List.mem_filter.mp hc
    simp [h m hm hshown c hc (by simpa using hproc)]

/-- Where nothing is excluded, all lines of the loop are left. -/
theorem exact_of_excludedLines_nil (h : j.excludedLines = []) :
    j.Exact b ↔ ∀ m ∈ j.list.mounts, j.shown m.line = true → Supported m ∧ ¬ j.Excluded m := by
  have hexact : j.Exact b ↔ ∀ l, l ∈ j.lines ↔ ∃ m ∈ j.list.mounts, j.Wanted m ∧ m.line = l := by
    simp only [Exact, Leaves, h, if_true, saved_eq, and_self, forall_eq, lines_all]
  rw [hexact]
  constructor
  · intro hall m hm hshown
    obtain ⟨o, ho, hwanted, hline⟩ := (hall m.line).mp (mem_lines.mpr ⟨m, hm, rfl, hshown⟩)
    obtain rfl := (j.plain o ho).inj (j.plain m hm) hline
    exact ⟨hwanted.1, hwanted.2.2⟩
  · intro hall l
    rw [mem_lines]
    constructor
    · rintro ⟨m, hm, rfl, hshown⟩
      obtain ⟨hsupported, hexcluded⟩ := hall m hm hshown
      exact ⟨m, hm, ⟨hsupported, (shown_iff.mp hshown).2, hexcluded⟩, rfl⟩
    · rintro ⟨m, hm, hwanted, rfl⟩
      exact ⟨m, hm, rfl, shown_of_wanted hwanted⟩

/-- Where something is excluded, the file can be empty before `cat` reads any of it. -/
theorem exact_of_excludedLines_ne (h : j.excludedLines ≠ []) :
    j.Exact b ↔ (∀ m ∈ j.list.mounts, ¬ j.Wanted m) ∧
      ∀ k, ∀ l ∈ Lines.lines (j.all.take (k * b)), j.passes l = false := by
  have hexact : j.Exact b ↔ ∀ k l, l ∈ (Lines.lines (j.all.take (k * b))).filter j.passes ↔
      ∃ m ∈ j.list.mounts, j.Wanted m ∧ m.line = l := by
    simp only [Exact, Leaves, h, if_false, saved_eq, and_self, SelfFilter.leaves_iff]
    constructor
    · intro hall k l
      rw [← lines_result]
      exact hall _ ⟨k, rfl⟩ l
    · rintro hall _ ⟨k, rfl⟩ l
      rw [lines_result]
      exact hall k l
  rw [hexact]
  constructor
  · intro hall
    have hnone : ∀ m ∈ j.list.mounts, ¬ j.Wanted m := by
      intro m hm hwanted
      have hmem := (hall 0 m.line).mpr ⟨m, hm, hwanted, rfl⟩
      rw [Nat.zero_mul, List.take_zero] at hmem
      cases hmem
    refine ⟨hnone, ?_⟩
    intro k l hl
    rw [Bool.eq_false_iff]
    intro hpasses
    obtain ⟨m, hm, hwanted, _⟩ := (hall k l).mp (List.mem_filter.mpr ⟨hl, hpasses⟩)
    exact hnone m hm hwanted
  · rintro ⟨hnone, hall⟩ k l
    refine iff_of_false ?_ ?_
    · intro hmem
      obtain ⟨hl, hpasses⟩ := List.mem_filter.mp hmem
      rw [hall k l hl] at hpasses
      cases hpasses
    · rintro ⟨m, hm, hwanted, _⟩
      exact hnone m hm hwanted

end Job

/-- The selection is the wanted one in every order exactly if every line that is shown has a
supported type and none is excluded, or something is excluded but nothing is wanted, and `grep`
lets nothing through of any number of blocks. -/
theorem selection_exact_iff (j : Job) (b : Nat) : j.Exact b ↔
    (∀ m ∈ j.list.mounts, j.shown m.line = true → Job.Supported m ∧ ¬ j.Excluded m) ∨
      (∃ m ∈ j.list.mounts, j.shown m.line = true ∧
        ∃ c ∈ j.candidates, ¬ "proc".toList <:+: c ∧ j.names c m.point = true) ∧
      (∀ m ∈ j.list.mounts, ¬ j.Wanted m) ∧
      ∀ k, ∀ l ∈ Lines.lines (j.all.take (k * b)), j.passes l = false := by
  by_cases h : j.excludedLines = []
  · rw [Job.exact_of_excludedLines_nil h, or_iff_left]
    rintro ⟨⟨m, hm, hshown, c, hc, hproc, hnames⟩, _⟩
    rw [j.excludedLines_eq_nil_iff.mp h m hm hshown c hc hproc] at hnames
    cases hnames
  · have hsome : ∃ m ∈ j.list.mounts, j.shown m.line = true ∧
        ∃ c ∈ j.candidates, ¬ "proc".toList <:+: c ∧ j.names c m.point = true := by
      rw [Job.excludedLines_eq_nil_iff] at h
      push Not at h
      simpa using h
    rw [Job.exact_of_excludedLines_ne h, and_iff_right hsome, or_iff_right]
    intro hall
    obtain ⟨m, hm, hshown, c, hc, _, hnames⟩ := hsome
    exact (hall m hm hshown).2 ⟨c, hc, hnames⟩

def rootMount : Mount := ⟨"/dev/sda1".toList, ['/'], "ext3".toList, "rw".toList⟩

def homeMount : Mount := ⟨"/dev/sda3".toList, "/home".toList, "ext3".toList, "rw".toList⟩

/-- `EXCLUDE_LIST="/home"`. -/
def homeExcluded : Job where
  list := ⟨[], [], false, "/var/tmp/backup".toList, "/var/tmp/iso".toList, "/var/tmp/rootfs".toList,
    "/home".toList, [rootMount, homeMount]⟩
  backupLoop := false
  find := fun _ => []
  plain := by
    have hplain : ∀ m : Mount, IsWord m.device → IsWord m.point → IsWord m.fsType →
        ' ' ∉ m.options → '\t' ∉ m.options → isOption m.device = false →
        (m.line.all fun c => c ∉ ['\n', '\\', '*', '?', '[', '^', '$']) = true → Plain m := by
      intro m hdevice hpoint htype hblank htab hoption hline
      exact ⟨hdevice, hpoint, htype, ⟨hblank, htab⟩, hoption,
        fun c hc => of_decide_eq_true (List.all_eq_true.mp hline c hc)⟩
    simp only [List.forall_mem_cons]
    refine ⟨hplain _ ?_ ?_ ?_ (by decide) (by decide) (by decide) (by decide +kernel),
      hplain _ ?_ ?_ ?_ (by decide) (by decide) (by decide) (by decide +kernel), by simp⟩ <;>
    exact ⟨by decide, by decide, by decide⟩

/-- The file system on `/` is not backed up. -/
theorem root_not_saved : ¬ homeExcluded.Exact 32768 := by
  have hsome : homeExcluded.excludedLines ≠ [] := by decide +kernel
  have hsupported : cut ',' 1 rootMount.fsType ∈ types := by decide
  have hskip : ∀ w ∈ skip false, ¬ w <:+: rootMount.line := by decide +kernel
  have hexcluded : ¬ homeExcluded.Excluded rootMount := by
    have hall : (homeExcluded.candidates.all fun c => !homeExcluded.names c rootMount.point) =
        true := by decide +kernel
    rintro ⟨c, hc, hnames⟩
    have hno := List.all_eq_true.mp hall c hc
    rw [hnames] at hno
    cases hno
  have hwanted : homeExcluded.Wanted rootMount := And.intro hsupported (And.intro hskip hexcluded)
  intro h
  rw [Job.exact_of_excludedLines_ne hsome] at h
  exact h.1 rootMount List.mem_cons_self hwanted

end MountPoints
