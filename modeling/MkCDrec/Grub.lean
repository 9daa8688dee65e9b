import MkCDrec.MdadmConf
import MkCDrec.StartRestore
import MkCDrec.Lib.Columns

/-!
# Where GRUB is installed

Step 8 looks for the lines of `/` and `/boot` as Step 7 does, by the names of the `mkfs.`
files, and makes the arguments of `root` and `setup` from the names of the partition and the
disk. `restore_boot_loader.sh` does the same, but never knows of meta devices.
-/

namespace Grub

open ShellText Table DiskInfo DeviceNames Runs Words Columns StartRestore

section Search

/-- `DevFS_naming_mix`. -/
def devfsNamingMix (table : List Line) (dsk : Text) : Option Text :=
  let xdev := if dsk.take 2 = "hd".toList then "ide".toList else "scsi".toList
  let found := ((table.filter fun l => xdev <:+: l.text).map Line.device).filter fun t =>
    "part1".toList <:+: t ∨ "part5".toList <:+: t
  (ls found).getLast?.map fun t => cutTo '/' ((t.splitOn '/').length - 1) t

/-- What is looked for in the table on account of a file. -/
def sought (table : List Line) (file : Text) : Option Text :=
  if table.any (grep (dsk file)) then some (dsk file) else devfsNamingMix table (dsk file)

/-- A device and its disk, as in `/tmp/BOOTDEV` and `/tmp/BOOTDSK`. -/
structure Noted where
  dev : Text
  dsk : Text

/-- What has been noted of `/` and of `/boot`. -/
structure Search where
  root : Option Noted
  boot : Option Noted

def note (x : Text) (r : Search) (l : Line) : Search :=
  let n : Noted := ⟨"/dev/".toList ++ l.dev, "/dev/".toList ++ x⟩
  { root := if l.fs = "/".toList then some n else r.root
    boot := if l.fs = "/boot".toList then some n else r.boot }

/-- The loop over the files; without a disk under `DevFS` it is an error. -/
def search (table : List Line) : List Text → Search → Option Search
  | [], r => some r
  | file :: files, r =>
    match sought table file with
    | none => none
    | some x => search table files ((table.filter (grep x)).foldl (note x) r)

end Search

/-- What the boot loader step reads. -/
structure System where
  table : List Line
  mkfsFiles : List Text
  mdstat : List MetaDevices.Device
  deviceMap : List Text
  grubDevmap : Text
  mdGeometry : Bool
  /-- `ls mkfs.* md/mkfs.* lvm/mkfs.*`. -/
  files : ∀ f ∈ mkfsFiles, ∃ dir ∈ [[], "md/".toList, "lvm/".toList], ∃ t, '/' ∉ t ∧
    f = dir ++ mkfs t
  absolute : ∀ l ∈ table, l.device.head? = some '/'
  named : ∀ a ∈ mdstat, ∀ m ∈ a.members, ∃ c ∈ m.partition, c.isDigit = false
  path : grubDevmap.head? = some '/'

section Commands

/-- `sed -e 's/[A-Za-z]//g'`. -/
def dropLetters (s : Text) : Text := s.filter fun c => !c.isAlpha

def given (ws : List Text) : List Text := ws.filter fun w => w ≠ []

/-- `expr ${GRUB_PARTITION} - 1`; an error prints nothing. -/
def lessOne : List Text → Text
  | ['-' :: t] => if t ≠ [] ∧ t.all Char.isDigit then '-' :: numeral (value t + 1) else []
  | [t] =>
    if t ≠ [] ∧ t.all Char.isDigit then
      match value t with
      | 0 => ['-', '1']
      | n + 1 => numeral n
    else []
  | _ => []

def firstWord (l : Text) : Text := (words l).headD []

/-- The words of `mdstat` with `[0]`, on the lines with a name. -/
def firstMembers (s : System) (md_dev : Text) : List Text :=
  (s.mdstat.filter fun a => md_dev ≠ [] && MetaDevices.grep md_dev a.line).flatMap fun a =>
    (a.line.filter fun w => "[0]".toList <:+: w).map (cut '[' 1)

/-- `grep ${TARGET_DISK} ${GRUB_DEVMAP}`. Without a pattern the file is taken for it, and words
behind it are taken for files, so the lines have the name of the file in front. -/
def grepDevmap (s : System) : List Text → List Text
  | [] => []
  | [t] => s.deviceMap.filter fun l => t <:+: l
  | t :: _ => (s.deviceMap.filter fun l => t <:+: l).map fun l => s.grubDevmap ++ ':' :: l

/-- The arguments of the commands that `grub` is given. -/
structure Commands where
  root : Text
  setup : Text
deriving DecidableEq

def grub (s : System) (mdDevFound : Bool) (n : Noted) : Commands :=
  let members := firstMembers s (cut '/' 3 n.dsk)
  let partition := if mdDevFound then members else [sedOnce n.dsk [] n.dev]
  let target := if mdDevFound then given (members.map dropDigits) else [n.dsk]
  let number := lessOne (given (partition.map dropLetters))
  let disk := (grepDevmap s target).map firstWord
  { root := sedOnce [')'] (',' :: (number ++ [')'])) ([' '].intercalate disk)
    setup := ['\n'].intercalate disk }

inductive Script
  | startRestore
  | restoreBootLoader

def Script.mdDevFound (s : System) : Script → Bool
  | startRestore => s.mdGeometry
  | restoreBootLoader => false

/-- The commands, where no error ends the script before them. -/
def commands (s : System) (script : Script) : Option Commands :=
  match search s.table (ls s.mkfsFiles) ⟨none, none⟩ with
  | none => none
  | some r => r.root.map fun root => grub s (script.mdDevFound s) (r.boot.getD root)

end Commands

section Claim

/-- The `mkfs.` file of a disk or an array. -/
def ownFile (d : Disk) (n : Nat) : Text :=
  match d with
  | .ide _ | .scsi _ _ => mkfs (flat (dropDigits (d.partition n)))
  | .controller _ _ _ | .ataraid _ => mkfs (flat (dropPart (d.partition n)))
  | .md => mdMkfs ("/dev/".toList ++ d.partition n)

/-- The line of a mount point, with its partition or array. -/
structure Place (s : System) (fs : Text) where
  line : Line
  disk : Disk
  number : Nat
  only : (s.table.filter fun l => l.fs = fs) = [line]
  device : line.device = "/dev/".toList ++ disk.partition number
  own : ownFile disk number ∈ s.mkfsFiles

/-- There is a line for `/`, and perhaps one for `/boot`. -/
inductive Places (s : System)
  | root (root : Place s "/".toList) (none : (s.table.filter fun l => l.fs = "/boot".toList) = [])
  | boot (root : Place s "/".toList) (boot : Place s "/boot".toList)

namespace Places

variable {s : System}

/-- The line of `/boot`, or of `/` if there is no other. -/
def line : Places s → Line
  | root p _ => p.line
  | boot _ p => p.line

def disk : Places s → Disk
  | root p _ => p.disk
  | boot _ p => p.disk

def number : Places s → Nat
  | root p _ => p.number
  | boot _ p => p.number

end Places

/-- What is between the columns of a line. -/
structure Gap where
  blanks : Text
  ne : blanks ≠ []
  blank : ∀ c ∈ blanks, c = ' ' ∨ c = '\t'

/-- A line of `device.map`. -/
def mapLine (drive : Text) (gap : Gap) (d : Disk) : Text :=
  '(' :: (drive ++ ')' :: (gap.blanks ++ ("/dev/".toList ++ d.name)))

/-- The partition from which the machine boots, that of the first member for an array, and the
line of its disk in `device.map`. -/
structure Target (s : System) (p : Places s) where
  disk : Disk
  number : Nat
  drive : Text
  gap : Gap
  physical : disk ≠ .md
  pos : 0 < number
  holds : if p.disk = .md then
      ∃ a ∈ s.mdstat, a.number = p.number ∧ ∃ m ∈ a.members,
        m.partition = disk.partition number ∧ ∀ o ∈ a.members, m.role ≤ o.role
    else p.disk = disk ∧ p.number = number
  letters : ∀ c ∈ drive, c.isAlphanum = true
  listed : mapLine drive gap disk ∈ s.deviceMap
  single : ∀ l ∈ s.deviceMap, firstWord l = '(' :: (drive ++ [')']) → l = mapLine drive gap disk

/-- `root (hdX,Y)` and `setup (hdX)` with the disk and the partition of the target. -/
def Installs {s : System} {p : Places s} (t : Target s p) (script : Script) : Prop :=
  commands s script = some
    ⟨'(' :: (t.drive ++ ',' :: (numeral (t.number - 1) ++ [')'])), '(' :: (t.drive ++ [')'])⟩

/-- The last file on account of which a line is found. -/
structure LastFile (s : System) (l : Line) (file x : Text) : Prop where
  mem : file ∈ s.mkfsFiles
  sought : sought s.table file = some x
  finds : grep x l = true
  last : ∀ f ∈ s.mkfsFiles, ∀ y, Grub.sought s.table f = some y → grep y l = true →
    strcoll f file = true

/-- In `device.map` the text stands in the line of the target only. -/
def Alone {s : System} {p : Places s} (t : Target s p) (x : Text) : Prop :=
  (s.deviceMap.filter fun l => x <:+: l) = [mapLine t.drive t.gap t.disk]

/-- The digits are those of a number. -/
structure IsNumber (t : Text) (n : Nat) : Prop where
  ne : t ≠ []
  digits : ∀ c ∈ t, c.isDigit = true
  value : ShellText.value t = n

/-- The members with the number 0 in the arrays with a name on their lines. -/
def zeroMembers (s : System) (x : Text) : List MetaDevices.Member :=
  (s.mdstat.filter fun a => x ≠ [] && MetaDevices.grep x a.line).flatMap fun a =>
    a.members.filter fun m => m.role = 0

end Claim

section Search

variable {table : List Line} {files : List Text} {r r' : Search} {l : Line} {fs : Text}

theorem isSome_search : (search table files r).isSome = true ↔
    ∀ f ∈ files, (sought table f).isSome = true := by
  induction files generalizing r with
  | nil => simp [search]
  | cons f files ih =>
    rw [search, List.forall_mem_cons]
    cases h : sought table f with
    | none => simp
    | some x => simpa using ih

/-- What is noted of one mount point. -/
structure Notes (fs : Text) (get : Search → Option Noted) : Prop where
  note : ∀ x r l, get (note x r l) =
    if l.fs = fs then some ⟨"/dev/".toList ++ l.dev, "/dev/".toList ++ x⟩ else get r

theorem notes_root : Notes "/".toList Search.root := ⟨fun _ _ _ => rfl⟩

theorem notes_boot : Notes "/boot".toList Search.boot := ⟨fun _ _ _ => rfl⟩

variable {get : Search → Option Noted}

theorem Notes.foldl_skip (h : Notes fs get) {lines : List Line} (hl : ∀ l ∈ lines, l.fs ≠ fs)
    (x : Text) (r : Search) : get (lines.foldl (Grub.note x) r) = get r := by
  induction lines generalizing r with
  | nil => rfl
  | cons l lines ih =>
    obtain ⟨hne, hl⟩ := List.forall_mem_cons.mp hl
    rw [List.foldl_cons, ih hl, h.note, if_neg hne]

theorem Notes.foldl_note (h : Notes fs get) (hl : (table.filter fun l => l.fs = fs) = [l])
    (x : Text) (r : Search) : get ((table.filter (grep x)).foldl (Grub.note x) r) =
      if grep x l = true then some ⟨"/dev/".toList ++ l.dev, "/dev/".toList ++ x⟩ else get r := by
  obtain ⟨before, after, rfl, hbefore, hfs, hafter⟩ := List.filter_eq_cons_iff.mp hl
  rw [List.filter_eq_nil_iff] at hafter
  have hskip : ∀ lines : List Line, (∀ l ∈ lines, ¬ (decide (l.fs = fs) = true)) → ∀ r,
      get ((lines.filter (grep x)).foldl (Grub.note x) r) = get r := by
    intro lines hlines r
    apply h.foldl_skip
    intro l hl
    simpa using hlines l (List.mem_of_mem_filter hl)
  have hl' : l.fs = fs := by simpa using hfs
  rw [List.filter_append, List.foldl_append, List.filter_cons]
  by_cases hgrep : grep x l = true
  · rw [if_pos hgrep, List.foldl_cons, hskip _ hafter, h.note, if_pos hl', if_pos hgrep]
  · rw [if_neg hgrep, hskip _ hafter, hskip _ hbefore, if_neg hgrep]

/-- In sorted files, what is noted comes from the last file on account of which the line is
found. -/
theorem Notes.search_cases (h : Notes fs get) (hl : (table.filter fun l => l.fs = fs) = [l])
    (hfiles : files.Pairwise fun s t => strcoll s t = true) (hr : search table files r = some r') :
    (∃ file ∈ files, ∃ x, sought table file = some x ∧ grep x l = true ∧
      get r' = some ⟨"/dev/".toList ++ l.dev, "/dev/".toList ++ x⟩ ∧
      ∀ f ∈ files, ∀ y, sought table f = some y → grep y l = true → strcoll f file = true) ∨
    (get r' = get r ∧ ∀ f ∈ files, ∀ y, sought table f = some y → grep y l = false) := by
  induction files generalizing r with
  | nil =>
    obtain rfl := Option.some.inj hr
    exact Or.inr ⟨rfl, by simp⟩
  | cons f files ih =>
    obtain ⟨hf, hfiles⟩ := List.pairwise_cons.mp hfiles
    rw [search] at hr
    cases hx : sought table f with
    | none => simp [hx] at hr
    | some x =>
      simp only [hx] at hr
      rcases ih hfiles hr with ⟨file, hfile, y, hy, hgrep, hget, hlast⟩ | ⟨hget, hnone⟩
      · refine Or.inl ⟨file, List.mem_cons_of_mem f hfile, y, hy, hgrep, hget, ?_⟩
        rw [List.forall_mem_cons]
        exact ⟨fun _ _ _ => hf file hfile, hlast⟩
      · rw [h.foldl_note hl] at hget
        by_cases hgrep : grep x l = true
        · rw [if_pos hgrep] at hget
          refine Or.inl ⟨f, List.mem_cons_self, x, hx, hgrep, hget, ?_⟩
          rw [List.forall_mem_cons]
          refine ⟨fun _ _ _ => (strcoll_total f f).elim id id, ?_⟩
          intro g hg y hy hyl
          rw [hnone g hg y hy] at hyl
          cases hyl
        · rw [if_neg hgrep] at hget
          refine Or.inr ⟨hget, ?_⟩
          rw [List.forall_mem_cons]
          refine ⟨?_, hnone⟩
          intro y hy
          rw [hx] at hy
          obtain rfl := Option.some.inj hy
          simpa using hgrep

theorem Notes.search_none (h : Notes fs get) (hl : (table.filter fun l => l.fs = fs) = [])
    (hr : search table files r = some r') : get r' = get r := by
  rw [List.filter_eq_nil_iff] at hl
  induction files generalizing r with
  | nil =>
    obtain rfl := Option.some.inj hr
    rfl
  | cons f files ih =>
    rw [search] at hr
    cases hx : sought table f with
    | none => simp [hx] at hr
    | some x =>
      simp only [hx] at hr
      rw [ih hr]
      apply h.foldl_skip
      intro l hmem
      simpa using hl l (List.mem_of_mem_filter hmem)

end Search

section Own

variable {d : Disk} {n : Nat}

/-- The name that stands in the own file of a partition. -/
def ownName (d : Disk) (n : Nat) : Text :=
  match d with
  | .ide _ | .scsi _ _ => d.name
  | .controller _ _ _ | .ataraid _ => dropPart (d.partition n)
  | .md => d.partition n

theorem dropPart_cases (s : Text) : dropPart s = s ∨ ∃ c, s = dropPart s ++ ['p', c] := by
  rw [dropPart]
  split
  · rename_i c rest h
    split
    · refine Or.inr ⟨c, ?_⟩
      have hs := congrArg List.reverse h
      rw [List.reverse_reverse] at hs
      simp [hs]
    · exact Or.inl rfl
  · exact Or.inl rfl

theorem dropPart_prefix_self (s : Text) : dropPart s <+: s := by
  rcases dropPart_cases s with h | ⟨c, h⟩
  · rw [h]
  · exact ⟨_, h.symm⟩

theorem name_prefix_dropPart (h : d.sep = ['p']) : d.name <+: dropPart (d.partition n) := by
  rcases dropPart_cases (d.partition n) with hall | ⟨c, hc⟩
  · rw [hall]
    exact List.prefix_append _ _
  · have hpos : 0 < (numeral n).length := List.length_pos_of_ne_nil (numeral_ne_nil n)
    have hwhole : (d.partition n).length = d.name.length + (numeral n).length + 1 := by
      simp only [Disk.partition, h, List.length_append, List.length_singleton]
      omega
    have hlength := congrArg List.length hc
    rw [List.length_append, List.length_cons, List.length_singleton, hwhole] at hlength
    have hname : d.name <+: d.partition n := List.prefix_append _ _
    exact List.prefix_of_prefix_length_le hname (dropPart_prefix_self _) (by omega)

theorem ownName_prefix_partition (d : Disk) (n : Nat) : ownName d n <+: d.partition n := by
  cases d with
  | ide unit => exact List.prefix_append _ _
  | scsi unit units => exact List.prefix_append _ _
  | md => exact List.prefix_rfl
  | controller driver card disk => exact dropPart_prefix_self _
  | ataraid disk => exact dropPart_prefix_self _

theorem name_prefix_ownName (d : Disk) (n : Nat) : d.name <+: ownName d n := by
  cases d with
  | ide unit => exact List.prefix_rfl
  | scsi unit units => exact List.prefix_rfl
  | md => exact List.prefix_append _ _
  | controller driver card disk => exact name_prefix_dropPart rfl
  | ataraid disk => exact name_prefix_dropPart rfl

theorem ownName_ne_nil (d : Disk) (n : Nat) : ownName d n ≠ [] := by
  obtain ⟨t, ht⟩ := name_prefix_ownName d n
  rw [← ht]
  simp [d.name_ne_nil]

theorem partition_chars {c : Char} (h : c ∈ d.partition n) : Disk.nameChar c = true := by
  rw [Disk.partition, List.mem_append, List.mem_append] at h
  rcases h with h | h | h
  · exact Disk.nameChar_of_mem_name h
  · rw [Disk.mem_sep h]
    rfl
  · exact Disk.nameChar_of_mem_numeral h

theorem dropDigits_partition (h : d.sep = []) (hname : ∀ c ∈ d.name, c.isDigit = false) :
    dropDigits (d.partition n) = d.name := by
  have hnumber : dropDigits (numeral n) = [] := by
    apply List.filter_eq_nil_iff.mpr
    intro c hc
    simp [isDigit_of_mem_numeral hc]
  have hself : dropDigits d.name = d.name := by
    apply List.filter_eq_self.mpr
    intro c hc
    simp [hname c hc]
  have happend : dropDigits (d.partition n) = dropDigits d.name ++ dropDigits (numeral n) := by
    rw [Disk.partition, h, List.nil_append, dropDigits, List.filter_append]
    rfl
  rw [happend, hself, hnumber, List.append_nil]

theorem notDigit_of_letter (u : Letter) : u.1.isDigit = false := by
  obtain ⟨c, hc⟩ := u
  rw [Bool.eq_false_iff]
  intro hdigit
  rw [isLower_eq_false_of_isDigit hdigit] at hc
  cases hc

theorem dropDigits_ide (u : Letter) :
    dropDigits ((Disk.ide u).partition n) = (Disk.ide u).name := by
  apply dropDigits_partition rfl
  intro c hc
  simp only [Disk.name, List.mem_cons, List.not_mem_nil, or_false] at hc
  rcases hc with rfl | rfl | rfl
  · rfl
  · rfl
  · exact notDigit_of_letter u

theorem dropDigits_scsi (u : Letter) (us : List Letter) :
    dropDigits ((Disk.scsi u us).partition n) = (Disk.scsi u us).name := by
  apply dropDigits_partition rfl
  intro c hc
  simp only [Disk.name, List.mem_cons, List.mem_map] at hc
  rcases hc with rfl | rfl | ⟨v, _, rfl⟩
  · rfl
  · rfl
  · exact notDigit_of_letter v

theorem ownName_chars {c : Char} (h : c ∈ ownName d n) : Disk.nameChar c = true :=
  partition_chars ((ownName_prefix_partition d n).subset h)

theorem notMem_ownName {c : Char} (h : Disk.nameChar c = false) : c ∉ ownName d n := by
  intro hmem
  rw [ownName_chars hmem] at h
  cases h

theorem ownFile_eq (h : d ≠ .md) : ownFile d n = mkfs (flat (ownName d n)) := by
  cases d with
  | ide unit => rw [ownFile, dropDigits_ide, ownName]
  | scsi unit units => rw [ownFile, dropDigits_scsi, ownName]
  | md => exact absurd rfl h
  | controller driver card disk => rfl
  | ataraid disk => rfl

theorem ownFile_md (n : Nat) : ownFile .md n = "md/".toList ++ mkfs (Disk.md.partition n) := by
  have hslash : '/' ∉ Disk.md.partition n := by
    have hnumber : '/' ∉ numeral n := by
      intro h
      exact notMem_numeral (by decide) _ h
    simp [Disk.partition, Disk.name, Disk.sep, hnumber]
  rw [ownFile, mdMkfs, MdadmConf.cutFrom_dev, List.erase_of_not_mem hslash]

theorem dsk_ownFile (d : Disk) (n : Nat) : dsk (ownFile d n) = ownName d n := by
  have hdot : '.' ∉ ownName d n := notMem_ownName rfl
  have hplain : '_' ∉ ownName d n := notMem_ownName rfl
  have hpercent : '%' ∉ ownName d n := notMem_ownName rfl
  by_cases hd : d = .md
  · subst hd
    rw [ownName] at hdot hplain hpercent
    rw [ownFile_md, dsk, cut_two_mkfs (by decide) hdot, tr_eq_self hplain, ownName]
    exact sedText_eq_self hpercent
  · rw [ownFile_eq hd, dsk_mkfs hdot hplain hpercent]

end Own

section Texts

variable {c : Char} {u w t x dev drive : Text} {k : Nat} {ws : List Text}

theorem infix_append_cons_iff (hu : c ∉ u) (ht : c ∉ t) : c :: w <:+: u ++ c :: t ↔ w <+: t := by
  rw [infix_append_left_iff hu, List.infix_cons_iff, List.cons_prefix_cons]
  constructor
  · rintro (⟨_, hpre⟩ | hin)
    · exact hpre
    · exact absurd (hin.subset List.mem_cons_self) ht
  · intro hpre
    exact Or.inl ⟨rfl, hpre⟩

theorem not_slash_infix_name (d : Disk) : ¬ '/' :: ("dev/".toList ++ x) <:+: d.name := by
  intro h
  have hslash : '/' ∈ d.name := h.subset List.mem_cons_self
  have hnumeral : ∀ n, '/' ∉ numeral n := notMem_numeral (by decide)
  cases d with
  | ide unit => exact absurd ((Disk.slash_mem_name_iff _).mp hslash) (by simp [Disk.sep])
  | scsi unit units => exact absurd ((Disk.slash_mem_name_iff _).mp hslash) (by simp [Disk.sep])
  | md => exact absurd hslash (by decide)
  | controller driver card disk =>
    have hdriver : '/' ∉ driver.name := by cases driver <;> decide
    rw [Disk.name, infix_append_cons_iff hdriver (by simp [hnumeral])] at h
    exact absurd (List.cons_prefix_cons.mp h).1 (by decide)
  | ataraid disk =>
    have hsplit : (Disk.ataraid disk).name = "ataraid".toList ++ '/' :: 'd' :: numeral disk := rfl
    rw [hsplit, infix_append_cons_iff (by decide) (by simp [hnumeral])] at h
    have he : 'e' ∈ 'd' :: numeral disk := h.subset (List.mem_append_left x (by decide))
    rcases List.mem_cons.mp he with he | he
    · exact absurd he (by decide)
    · exact notMem_numeral (by decide) _ he

theorem Gap.notMem (gap : Gap) {c : Char} (hblank : c ≠ ' ') (htab : c ≠ '\t') :
    c ∉ gap.blanks := by
  intro hmem
  rcases gap.blank c hmem with h | h
  · exact hblank h
  · exact htab h

/-- In a line of `device.map` the path of a disk begins where the path of its own disk does. -/
theorem prefix_of_infix_mapLine {d : Disk} {gap : Gap} (hdrive : '/' ∉ drive)
    (h : "/dev/".toList ++ x <:+: mapLine drive gap d) : x <+: d.name := by
  have hsplit : mapLine drive gap d = ('(' :: (drive ++ ')' :: gap.blanks)) ++
      ("/dev/".toList ++ d.name) := by
    simp [mapLine]
  have hbefore : '/' ∉ '(' :: (drive ++ ')' :: gap.blanks) := by
    simp [hdrive, gap.notMem (c := '/') (by decide) (by decide)]
  have hpattern : "/dev/".toList ++ x = '/' :: ("dev/".toList ++ x) := rfl
  have hpath : "/dev/".toList ++ d.name = '/' :: ("dev".toList ++ '/' :: d.name) := rfl
  rw [hsplit, hpattern, infix_append_left_iff hbefore, hpath, List.infix_cons_iff,
    List.cons_prefix_cons, infix_append_left_iff (by decide), List.infix_cons_iff,
    List.cons_prefix_cons] at h
  rcases h with ⟨_, hpre⟩ | ⟨_, hpre⟩ | hin
  · exact (List.prefix_append_right_inj "dev/".toList).mp hpre
  · obtain ⟨a, ha, hhead⟩ := d.head_name
    obtain ⟨v, hv⟩ := hpre
    rw [← hv] at hhead
    obtain rfl := Option.some.inj hhead
    exact absurd ha (by decide)
  · exact absurd hin (not_slash_infix_name d)

/-- Only at the beginning `sed` takes all slashes away. -/
theorem prefix_of_sedOnce
    (h : '/' ∉ sedOnce ("/dev/".toList ++ x) [] ("/dev/".toList ++ dev)) : x <+: dev := by
  have hcons : sedOnce ("/dev/".toList ++ x) [] ("/dev/".toList ++ dev) =
      if "/dev/".toList ++ x <+: "/dev/".toList ++ dev then
        [] ++ ("/dev/".toList ++ dev).drop ("/dev/".toList ++ x).length
      else '/' :: sedOnce ("/dev/".toList ++ x) [] ("dev/".toList ++ dev) := rfl
  rw [hcons] at h
  split at h
  · rename_i hpre
    exact (List.prefix_append_right_inj "/dev/".toList).mp hpre
  · exact absurd List.mem_cons_self h

theorem lessOne_given_iff : lessOne (given [t]) = numeral k ↔ IsNumber t (k + 1) := by
  have hminus : '-' ∉ numeral k := notMem_numeral (by decide) k
  have hne : numeral k ≠ [] := numeral_ne_nil k
  cases t with
  | nil => exact iff_of_false (fun h => hne h.symm) (fun h => h.ne rfl)
  | cons c t =>
    have hgiven : given [c :: t] = [c :: t] := by simp [given]
    rw [hgiven]
    by_cases hc : c = '-'
    · subst hc
      refine iff_of_false ?_ (fun h => absurd (h.digits '-' List.mem_cons_self) (by decide))
      intro h
      rw [lessOne] at h
      split at h
      · exact hminus (h ▸ List.mem_cons_self)
      · exact hne h.symm
    · rw [lessOne]
      · by_cases hdigits : (c :: t).all Char.isDigit = true
        · rw [if_pos ⟨List.cons_ne_nil c t, hdigits⟩]
          have hnumber : IsNumber (c :: t) (k + 1) ↔ value (c :: t) = k + 1 :=
            ⟨IsNumber.value, fun h => ⟨List.cons_ne_nil c t, List.all_eq_true.mp hdigits, h⟩⟩
          rw [hnumber]
          cases value (c :: t) with
          | zero =>
            refine iff_of_false ?_ (by simp)
            intro h
            exact hminus (h ▸ List.mem_cons_self)
          | succ m =>
            simp only [numeral_injective.eq_iff, Nat.add_right_cancel_iff]
        · rw [if_neg (fun h => hdigits h.2)]
          refine iff_of_false (fun h => hne h.symm) ?_
          intro h
          exact hdigits (List.all_eq_true.mpr h.digits)
      · intro u hu
        exact hc (List.cons_eq_cons.mp hu).1

theorem IsNumber.slash_notMem (h : IsNumber (dropLetters t) k) : '/' ∉ t := by
  intro hmem
  have hkept : '/' ∈ dropLetters t := List.mem_filter.mpr ⟨hmem, by decide⟩
  exact absurd (h.digits _ hkept) (by decide)

theorem dropLetters_numeral (n : Nat) : dropLetters (numeral n) = numeral n := by
  apply List.filter_eq_self.mpr
  intro c hc
  have hdigit := isDigit_of_mem_numeral hc
  simp [isAlpha_eq_false_of_isDigit hdigit]

theorem dropLetters_append (s t : Text) : dropLetters (s ++ t) = dropLetters s ++ dropLetters t :=
  List.filter_append s t

theorem isNumber_partition (d : Disk) (n : Nat) :
    IsNumber (dropLetters (d.sep ++ numeral n)) n := by
  have hsep : dropLetters d.sep = [] := by
    rcases d.sep_cases with h | h <;> rw [h] <;> rfl
  rw [dropLetters_append, hsep, dropLetters_numeral, List.nil_append]
  exact ⟨numeral_ne_nil n, fun c hc => isDigit_of_mem_numeral hc, value_numeral n⟩

theorem intercalate_eq_iff (h : c ∉ t) (hne : t ≠ []) : [c].intercalate ws = t ↔ ws = [t] := by
  constructor
  · intro heq
    cases ws with
    | nil => exact absurd heq.symm hne
    | cons w ws =>
      cases ws with
      | nil =>
        rw [← heq]
        simp
      | cons v ws =>
        rw [List.intercalate_cons_cons] at heq
        rw [← heq] at h
        simp at h
  · rintro rfl
    simp

end Texts

section Words

variable {c : Char} {t : Text}

theorem words_tab (s t : Text) : words (s ++ '\t' :: t) = words (s ++ ' ' :: t) := by
  simp only [words, tr_append]
  rfl

theorem words_gap (gap : Gap) (s t : Text) :
    ∃ rest, words (s ++ (gap.blanks ++ t)) = words s ++ rest := by
  obtain ⟨c, cs, hgap⟩ := List.exists_cons_of_ne_nil gap.ne
  refine ⟨words (cs ++ t), ?_⟩
  rw [hgap, List.cons_append]
  rcases gap.blank c (by rw [hgap]; exact List.mem_cons_self) with rfl | rfl
  · exact words_append s _
  · rw [words_tab, words_append]

theorem firstWord_mapLine {drive : Text} (h : ∀ c ∈ drive, c.isAlphanum = true) (gap : Gap)
    (d : Disk) : firstWord (mapLine drive gap d) = '(' :: (drive ++ [')']) := by
  have hblank : ∀ c, c.isAlphanum = false → c ∉ drive := by
    intro c hc hmem
    rw [h c hmem] at hc
    cases hc
  have hword : IsWord ('(' :: (drive ++ [')'])) := by
    refine ⟨by simp, ?_, ?_⟩
    · simp [hblank ' ' (by decide)]
    · simp [hblank '\t' (by decide)]
  have hsplit : mapLine drive gap d =
      ('(' :: (drive ++ [')'])) ++ (gap.blanks ++ ("/dev/".toList ++ d.name)) := by
    simp [mapLine]
  obtain ⟨rest, hrest⟩ := words_gap gap ('(' :: (drive ++ [')'])) ("/dev/".toList ++ d.name)
  rw [firstWord, hsplit, hrest, words_of_isWord hword]
  rfl

/-- A first word begins where the line does. -/
theorem head_firstWord (hblank : c ≠ ' ') (htab : c ≠ '\t') (t : Text) :
    (firstWord (c :: t)).head? = some c := by
  have htr : tr '\t' ' ' (c :: t) = c :: tr '\t' ' ' t := by
    simp [tr, htab]
  obtain ⟨w, ws, hws⟩ := List.exists_cons_of_ne_nil (List.splitOn_ne_nil ' ' (tr '\t' ' ' t))
  rw [firstWord, words, htr, List.splitOn_cons_eq_if_modifyHead, hws]
  simp [hblank]

end Words

section Evaluation

variable {s : System} {p : Places s} {t : Target s p} {x : Text} {ts ws : List Text}

theorem Target.notMem_drive (t : Target s p) {c : Char} (h : c.isAlphanum = false) :
    c ∉ t.drive := by
  intro hmem
  rw [t.letters c hmem] at h
  cases h

theorem map_filter_iff (t : Target s p) :
    (s.deviceMap.filter fun l => x <:+: l).map firstWord = ['(' :: (t.drive ++ [')'])] ↔
      Alone t x := by
  rw [Alone]
  constructor
  · intro h
    obtain ⟨l, hl, hfirst⟩ := List.map_eq_singleton_iff.mp h
    have hmem : l ∈ s.deviceMap := by
      apply List.mem_of_mem_filter (p := fun l => decide (x <:+: l))
      rw [hl]
      exact List.mem_singleton_self l
    rw [hl, t.single l hmem hfirst]
  · intro h
    rw [h, List.map_singleton, firstWord_mapLine t.letters t.gap]

/-- Only with one pattern the lines begin as they do in `device.map`. -/
theorem grepDevmap_iff (t : Target s p) :
    (grepDevmap s ts).map firstWord = ['(' :: (t.drive ++ [')'])] ↔
      ∃ x, ts = [x] ∧ Alone t x := by
  cases ts with
  | nil => simp [grepDevmap]
  | cons x ts =>
    cases ts with
    | nil =>
      rw [grepDevmap, map_filter_iff]
      simp
    | cons y ts =>
      refine iff_of_false ?_ (by simp)
      intro h
      rw [grepDevmap.eq_3 _ _ _ (by simp), List.map_map] at h
      obtain ⟨l, hl, hfirst⟩ := List.map_eq_singleton_iff.mp h
      obtain ⟨r, hr⟩ := List.head?_eq_some_iff.mp s.path
      have hhead := head_firstWord (c := '/') (by decide) (by decide) (r ++ ':' :: l)
      rw [Function.comp_apply, hr, List.cons_append] at hfirst
      rw [hfirst] at hhead
      exact absurd (Option.some.inj hhead) (by decide)

/-- The arguments are right exactly if both parts of them are. -/
theorem arguments_iff (t : Target s p) {number : Text} :
    (⟨sedOnce [')'] (',' :: (number ++ [')'])) ([' '].intercalate ws), ['\n'].intercalate ws⟩ :
      Commands) =
        ⟨'(' :: (t.drive ++ ',' :: (numeral (t.number - 1) ++ [')'])), '(' :: (t.drive ++ [')'])⟩ ↔
      ws = ['(' :: (t.drive ++ [')'])] ∧ number = numeral (t.number - 1) := by
  have hline : '\n' ∉ '(' :: (t.drive ++ [')']) := by
    simp [t.notMem_drive (c := '\n') (by decide)]
  have hsed : ∀ rep, sedOnce [')'] rep ('(' :: (t.drive ++ [')'])) = '(' :: (t.drive ++ rep) := by
    intro rep
    have hbefore : ')' ∉ '(' :: t.drive := by
      simp [t.notMem_drive (c := ')') (by decide)]
    have hclose : sedOnce [')'] rep [')'] = rep := by
      simpa using sedOnce_append (List.cons_ne_nil ')' []) rep []
    rw [← List.cons_append, sedOnce_append_left hbefore, hclose, List.cons_append]
  rw [Commands.mk.injEq, intercalate_eq_iff hline (by simp)]
  constructor
  · rintro ⟨hroot, rfl⟩
    refine ⟨rfl, ?_⟩
    have hsingle : [' '].intercalate ['(' :: (t.drive ++ [')'])] = '(' :: (t.drive ++ [')']) := by
      simp
    rw [hsingle, hsed] at hroot
    simpa using hroot
  · rintro ⟨rfl, rfl⟩
    have hsingle : [' '].intercalate ['(' :: (t.drive ++ [')'])] = '(' :: (t.drive ++ [')']) := by
      simp
    rw [hsingle, hsed]
    exact ⟨rfl, rfl⟩

theorem zero_infix_word (m : MetaDevices.Member) : "[0]".toList <:+: m.word ↔ m.role = 0 := by
  have hnumeral : ∀ c ∈ numeral m.role, c ≠ '[' ∧ c ≠ ']' := by
    intro c hc
    constructor
    · rintro rfl
      exact notMem_numeral (by decide) _ hc
    · rintro rfl
      exact notMem_numeral (by decide) _ hc
  have hrest : '[' ∉ numeral m.role ++ ']' :: if m.failed then "(F)".toList else [] := by
    rw [List.mem_append, List.mem_cons, not_or, not_or]
    refine ⟨fun h => (hnumeral _ h).1 rfl, by decide, ?_⟩
    cases m.failed <;> decide
  have hpattern : "[0]".toList = '[' :: ['0', ']'] := rfl
  rw [MetaDevices.Member.word, hpattern, infix_append_cons_iff m.plain hrest]
  constructor
  · rintro ⟨z, hz⟩
    have htake := congrArg (List.takeWhile fun c => c ≠ ']') hz
    have hall : ∀ c ∈ numeral m.role, decide (c ≠ ']') = true := by
      intro c hc
      simpa using (hnumeral c hc).2
    rw [List.takeWhile_append_of_pos hall] at htake
    have hzero : numeral m.role = ['0'] := by
      simpa using htake.symm
    exact numeral_injective hzero
  · intro h
    rw [h]
    exact List.prefix_append ['0', ']'] _

theorem firstMembers_eq (s : System) (x : Text) :
    firstMembers s x = (zeroMembers s x).map MetaDevices.Member.partition := by
  rw [firstMembers, zeroMembers, List.map_flatMap]
  apply List.flatMap_congr
  intro a _
  have hhead : ((a.name :: [':'] :: a.state).filter fun w => "[0]".toList <:+: w) = [] := by
    apply List.filter_eq_nil_iff.mpr
    intro w hw hin
    exact MetaDevices.bracket_notMem_head a w hw ((of_decide_eq_true hin).subset (by decide))
  have hwords : (a.members.map MetaDevices.Member.word).filter (fun w => "[0]".toList <:+: w) =
      (a.members.filter fun m => m.role = 0).map MetaDevices.Member.word := by
    rw [List.filter_map]
    congr 1
    apply List.filter_congr
    intro m _
    exact decide_eq_decide.mpr (zero_infix_word m)
  rw [MetaDevices.line_eq, List.filter_append, hhead, hwords, List.nil_append, List.map_map]
  apply List.map_congr_left
  intro m _
  exact MdadmConf.cut_word m

theorem installs_cases (t : Target s p) (md : Bool) (n : Noted) :
    grub s md n =
        ⟨'(' :: (t.drive ++ ',' :: (numeral (t.number - 1) ++ [')'])), '(' :: (t.drive ++ [')'])⟩ ↔
      if md then
        ∃ m, zeroMembers s (cut '/' 3 n.dsk) = [m] ∧ IsNumber (dropLetters m.partition) t.number ∧
          Alone t (dropDigits m.partition)
      else IsNumber (dropLetters (sedOnce n.dsk [] n.dev)) t.number ∧ Alone t n.dsk := by
  obtain ⟨k, hk⟩ : ∃ k, t.number = k + 1 := Nat.exists_eq_succ_of_ne_zero t.pos.ne'
  rw [grub, arguments_iff, grepDevmap_iff, hk, Nat.add_sub_cancel]
  cases md with
  | false =>
    simp only [Bool.false_eq_true, if_false, List.map_singleton, lessOne_given_iff]
    constructor
    · rintro ⟨⟨x, hx, halone⟩, hnumber⟩
      obtain rfl := List.singleton_inj.mp hx
      exact ⟨hnumber, halone⟩
    · rintro ⟨hnumber, halone⟩
      exact ⟨⟨_, rfl, halone⟩, hnumber⟩
  | true =>
    have hkept : ∀ ms : List MetaDevices.Member, (∀ m ∈ ms, m ∈ zeroMembers s (cut '/' 3 n.dsk)) →
        given ((ms.map MetaDevices.Member.partition).map dropDigits) =
          (ms.map MetaDevices.Member.partition).map dropDigits := by
      intro ms hms
      apply List.filter_eq_self.mpr
      intro w hw
      rw [List.map_map] at hw
      obtain ⟨m, hm, rfl⟩ := List.mem_map.mp hw
      obtain ⟨a, ha, hma⟩ := List.mem_flatMap.mp (hms m hm)
      obtain ⟨c, hc, hdigit⟩ := s.named a (List.mem_of_mem_filter ha) m (List.mem_of_mem_filter hma)
      have hmem : c ∈ dropDigits m.partition := List.mem_filter.mpr ⟨hc, by simp [hdigit]⟩
      simpa using List.ne_nil_of_mem hmem
    simp only [if_true, firstMembers_eq, hkept _ (fun _ h => h)]
    constructor
    · rintro ⟨⟨x, hx, halone⟩, hnumber⟩
      rw [List.map_map] at hx
      obtain ⟨m, hm, rfl⟩ := List.map_eq_singleton_iff.mp hx
      rw [hm, List.map_singleton, List.map_singleton, lessOne_given_iff] at hnumber
      exact ⟨m, hm, hnumber, halone⟩
    · rintro ⟨m, hm, hnumber, halone⟩
      rw [hm, List.map_singleton, List.map_singleton, List.map_singleton, lessOne_given_iff]
      exact ⟨⟨_, rfl, halone⟩, hnumber⟩

end Evaluation

section Last

variable {s : System} {fs : Text} {q : Place s fs} {l : Line} {f file x y : Text}

theorem partition_infix_text (q : Place s fs) : q.disk.partition q.number <:+: q.line.text := by
  rw [Line.text, q.device]
  exact ((List.suffix_append _ _).isInfix.trans (List.prefix_append _ _).isInfix)

/-- On account of its own file a partition is found. -/
theorem Place.finds (q : Place s fs) :
    sought s.table (ownFile q.disk q.number) = some (ownName q.disk q.number) ∧
      grep (ownName q.disk q.number) q.line = true := by
  have hgrep : grep (ownName q.disk q.number) q.line = true := by
    have hin := (ownName_prefix_partition q.disk q.number).isInfix.trans (partition_infix_text q)
    simp [grep, ownName_ne_nil, hin]
  have hmem : q.line ∈ s.table := by
    apply List.mem_of_mem_filter (p := fun l => decide (l.fs = fs))
    rw [q.only]
    exact List.mem_singleton_self q.line
  refine ⟨?_, hgrep⟩
  rw [sought, dsk_ownFile, if_pos (List.any_eq_true.mpr ⟨q.line, hmem, hgrep⟩)]

theorem LastFile.unique (h : LastFile s l file x) (h' : LastFile s l f y) : file = f ∧ x = y := by
  have hfile : file = f :=
    strcoll_antisymm (h'.last file h.mem x h.sought h.finds) (h.last f h'.mem y h'.sought h'.finds)
  subst hfile
  exact ⟨rfl, Option.some.inj (h.sought.symm.trans h'.sought)⟩

variable {get : Search → Option Noted} {r : Search}

theorem Notes.lastFile (h : Notes fs get) (q : Place s fs)
    (hr : search s.table (ls s.mkfsFiles) ⟨none, none⟩ = some r) :
    ∃ file x, LastFile s q.line file x ∧
      get r = some ⟨"/dev/".toList ++ q.line.dev, "/dev/".toList ++ x⟩ := by
  obtain ⟨hown, hgrep⟩ := q.finds
  have hsorted : (ls s.mkfsFiles).Pairwise fun a b => strcoll a b = true := by
    apply (pairwise_ls s.mkfsFiles).imp
    intro a b hab
    apply (strcoll_total a b).resolve_right
    simp [hab]
  rcases h.search_cases q.only hsorted hr with
    ⟨file, hfile, x, hx, hfinds, hget, hlast⟩ | ⟨_, hnone⟩
  · refine ⟨file, x, ⟨mem_ls.mp hfile, hx, hfinds, ?_⟩, hget⟩
    intro f hf
    exact hlast f (mem_ls.mpr hf)
  · rw [hnone _ (mem_ls.mpr q.own) _ hown] at hgrep
    cases hgrep

/-- Under `DevFS` a name is looked for that begins with a slash. -/
theorem head_devfsNamingMix (h : devfsNamingMix s.table y = some x) :
    x = [] ∨ x.head? = some '/' := by
  rw [devfsNamingMix] at h
  obtain ⟨t, ht, rfl⟩ := Option.map_eq_some_iff.mp h
  have hmem := mem_ls.mp (List.mem_of_getLast? ht)
  obtain ⟨l, hl, rfl⟩ := List.mem_map.mp (List.mem_of_mem_filter hmem)
  obtain ⟨r, hr⟩ := List.head?_eq_some_iff.mp (s.absolute l (List.mem_of_mem_filter hl))
  have hsplit : ('/' :: r).splitOn '/' = [] :: r.splitOn '/' := by
    have hnil : '/' ∉ ([] : Text) := List.not_mem_nil
    exact List.splitOn_append_cons_self_of_not_mem hnil r
  obtain ⟨w, ws, hws⟩ := List.exists_cons_of_ne_nil (List.splitOn_ne_nil '/' r)
  rw [hr, cutTo, if_pos List.mem_cons_self, hsplit, hws]
  simp only [List.length_cons, Nat.add_sub_cancel, List.take_succ_cons]
  cases (w :: ws).take ws.length with
  | nil => exact Or.inl (by simp)
  | cons v vs => exact Or.inr (by simp)

theorem flat_tr (h : '/' ∉ y) : flat (tr '_' '/' y) = y := by
  rw [flat, tr, tr, List.map_map]
  conv_rhs => rw [← List.map_id y]
  apply List.map_congr_left
  intro c hc
  have hslash : c ≠ '/' := ne_of_mem_of_not_mem hc h
  by_cases hplain : c = '_'
  · simp [hplain]
  · simp [hslash, hplain]

theorem strcoll_append_left (u a b : Text) : strcoll (u ++ a) (u ++ b) = strcoll a b := by
  induction u with
  | nil => rfl
  | cons c u ih =>
    simp [strcoll, ih]

/-- The names of disks have no character before the dot. -/
theorem strcoll_dot {c : Char} (hc : Disk.nameChar c = true) (a b : Text) :
    strcoll ((if c = '/' then '_' else c) :: a) ('.' :: b) = false := by
  have hnot : ∀ d : Char, '.' < d → strcoll (d :: a) ('.' :: b) = false := by
    intro d hd
    have hlt : ¬ d < '.' := lt_asymm hd
    have hne : d ≠ '.' := ne_of_gt hd
    simp [strcoll, hlt, hne]
  split
  · exact hnot '_' (by decide)
  · rename_i hslash
    apply hnot
    simp only [Disk.nameChar, hslash, decide_false, Bool.or_false, Bool.or_eq_true, isLower_iff,
      Char.isDigit, Bool.and_eq_true, decide_eq_true_eq] at hc
    rcases hc with hc | hc
    · exact lt_of_lt_of_le (by decide : '.' < 'a') hc.1
    · exact lt_of_lt_of_le (by decide : '.' < '0') hc.1

/-- A file that comes behind the file of a disk does not name the beginning of the disk. -/
theorem not_behind (hy : ∀ c ∈ y, Disk.nameChar c = true) (hx : x <+: y) (hne : x ≠ y)
    (hf : f ∈ s.mkfsFiles) (hdsk : dsk f = x) : strcoll (mkfs (flat y)) f = false := by
  obtain ⟨dir, hdir, t, hslash, rfl⟩ := s.files f hf
  simp only [List.mem_cons, List.not_mem_nil, or_false] at hdir
  rcases hdir with rfl | rfl | rfl
  · rw [List.nil_append] at hdsk ⊢
    have hcut : cut '.' 2 (mkfs t) = t.takeWhile (· ≠ '.') :=
      cut_two_takeWhile (a := "mkfs".toList) (by decide) t
    have hunder : '_' ∉ x := by
      intro hmem
      exact absurd (hy '_' (hx.subset hmem)) (by decide)
    rw [dsk, hcut] at hdsk
    have htr : tr '_' '/' (t.takeWhile (· ≠ '.')) = x := by
      by_cases hin : "%137".toList <:+: tr '_' '/' (t.takeWhile (· ≠ '.'))
      · obtain ⟨u, v, _, hsed⟩ := exists_first _ ['_'] hin
        rw [hdsk] at hsed
        exact absurd (by simp [hsed (by decide)]) hunder
      · rw [← hdsk, sedText_absent hin]
    have hflat : flat x = t.takeWhile (· ≠ '.') := by
      rw [← htr]
      exact flat_tr fun hmem => hslash ((List.takeWhile_prefix _).subset hmem)
    obtain ⟨z, rfl⟩ := hx
    obtain ⟨c, z, rfl⟩ := List.exists_cons_of_ne_nil (l := z) (by
      rintro rfl
      exact hne (List.append_nil x).symm)
    have hown : mkfs (flat (x ++ c :: z)) =
        mkfs (flat x) ++ ((if c = '/' then '_' else c) :: flat z) := by
      simp [mkfs, flat, tr]
    have hother : mkfs t = mkfs (flat x) ++ t.dropWhile (· ≠ '.') := by
      rw [hflat, mkfs, mkfs, List.append_assoc, List.takeWhile_append_dropWhile]
    rw [hown, hother, strcoll_append_left]
    cases hrest : t.dropWhile (· ≠ '.') with
    | nil => rfl
    | cons a rest =>
      have ha : a = '.' := by
        have hnot := List.head?_dropWhile_not (fun c => decide (c ≠ '.')) t
        rw [hrest] at hnot
        simpa using hnot
      rw [ha]
      exact strcoll_dot (hy c (by simp)) (flat z) rest
  · rfl
  · rfl

theorem eq_name_of_prefix_name (h : LastFile s q.line file x) (hd : q.disk ≠ .md)
    (hx : x <+: q.disk.name) : x = q.disk.name := by
  by_contra hne
  have hxne : x ≠ [] := by
    rintro rfl
    exact absurd h.finds (by simp [grep])
  have hhead : x.head? ≠ some '/' := by
    intro hslash
    obtain ⟨v, hv⟩ := hx
    obtain ⟨c, hc, hname⟩ := q.disk.head_name
    rw [← hv, List.head?_append_of_ne_nil _ hxne, hslash] at hname
    obtain rfl := Option.some.inj hname
    exact absurd hc (by decide)
  have hdsk : dsk file = x := by
    have hsought := h.sought
    rw [Grub.sought] at hsought
    split at hsought
    · exact Option.some.inj hsought
    · rcases head_devfsNamingMix hsought with hnil | hslash
      · exact absurd hnil hxne
      · exact absurd hslash hhead
  have hxown : x ≠ ownName q.disk q.number := by
    rintro rfl
    exact hne (hx.eq_of_length_le (name_prefix_ownName q.disk q.number).length_le)
  have hle : strcoll (ownFile q.disk q.number) file = true :=
    h.last _ q.own _ q.finds.1 q.finds.2
  rw [ownFile_eq hd, not_behind (fun c hc => ownName_chars hc)
    (hx.trans (name_prefix_ownName q.disk q.number)) hxown h.mem hdsk] at hle
  cases hle

end Last

section Installation

variable {s : System} {p : Places s} {r : Search} {x : Text}

theorem Places.exists_place (p : Places s) : ∃ fs, ∃ q : Place s fs,
    q.line = p.line ∧ q.disk = p.disk ∧ q.number = p.number := by
  cases p with
  | root q _ => exact ⟨_, q, rfl, rfl, rfl⟩
  | boot _ q => exact ⟨_, q, rfl, rfl, rfl⟩

/-- What the search finds of the place from which the machine boots. -/
theorem Places.noted (p : Places s)
    (hr : search s.table (ls s.mkfsFiles) ⟨none, none⟩ = some r) :
    ∃ root, r.root = some root ∧ ∃ file x, LastFile s p.line file x ∧
      r.boot.getD root = ⟨"/dev/".toList ++ p.line.dev, "/dev/".toList ++ x⟩ := by
  cases p with
  | root q hnone =>
    obtain ⟨file, x, hlast, hroot⟩ := notes_root.lastFile q hr
    have hboot : r.boot = none := notes_boot.search_none hnone hr
    exact ⟨_, hroot, file, x, hlast, by rw [hboot]; rfl⟩
  | boot q q' =>
    obtain ⟨_, _, _, hroot⟩ := notes_root.lastFile q hr
    obtain ⟨file, x, hlast, hboot⟩ := notes_boot.lastFile q' hr
    exact ⟨_, hroot, file, x, hlast, by rw [hboot]; rfl⟩

theorem Places.dev_line (p : Places s) : p.line.dev = p.disk.partition p.number := by
  obtain ⟨_, q, hline, hdisk, hnumber⟩ := p.exists_place
  rw [← hline, ← hdisk, ← hnumber, Line.dev, q.device, MdadmConf.cutFrom_dev]

/-- Without meta devices the names of the partition and of the disk have to fit together. -/
theorem plain_iff (t : Target s p) {file : Text} (h : LastFile s p.line file x) :
    IsNumber (dropLetters (sedOnce ("/dev/".toList ++ x) [] ("/dev/".toList ++ p.line.dev)))
        t.number ∧ Alone t ("/dev/".toList ++ x) ↔
      p.disk ≠ .md ∧ x = p.disk.name ∧ Alone t ("/dev/".toList ++ x) := by
  have hholds := t.holds
  constructor
  · rintro ⟨hnumber, halone⟩
    have hxdev : x <+: p.disk.partition p.number := by
      rw [← p.dev_line]
      exact prefix_of_sedOnce hnumber.slash_notMem
    have hxdisk : x <+: t.disk.name := by
      apply prefix_of_infix_mapLine (t.notMem_drive (c := '/') (by decide))
      have hmem : mapLine t.drive t.gap t.disk ∈
          s.deviceMap.filter fun l => "/dev/".toList ++ x <:+: l := by
        rw [halone]
        exact List.mem_singleton_self _
      exact of_decide_eq_true (List.mem_filter.mp hmem).2
    have hmd : p.disk ≠ .md := by
      intro hmd
      have hxne : x ≠ [] := by
        rintro rfl
        exact absurd h.finds (by simp [grep])
      obtain ⟨c, u, rfl⟩ := List.exists_cons_of_ne_nil hxne
      obtain ⟨v, hv⟩ := hxdev
      obtain ⟨w, hw⟩ := hxdisk
      rw [hmd] at hv
      obtain rfl := (List.cons_eq_cons.mp hv).1
      exact Disk.head_ne_m t.physical (by rw [← hw]; rfl)
    rw [if_neg hmd] at hholds
    obtain ⟨fs, q, hline, hdisk, _⟩ := p.exists_place
    rw [← hline] at h
    rw [← hholds.1, ← hdisk] at hxdisk
    rw [← hdisk] at hmd
    refine ⟨hdisk ▸ hmd, ?_, halone⟩
    rw [eq_name_of_prefix_name h hmd hxdisk, hdisk]
  · rintro ⟨hmd, rfl, halone⟩
    rw [if_neg hmd] at hholds
    refine ⟨?_, halone⟩
    have hpath : "/dev/".toList ++ p.disk.name ≠ [] := by simp
    rw [p.dev_line, Disk.partition, ← List.append_assoc, sedOnce_append hpath, List.nil_append,
      hholds.2]
    exact isNumber_partition _ _

/-- GRUB is installed at the boot partition exactly if the last file on account of which the line
is found leads to it: the file is that of its disk and no meta device is known of, or the member 0
of the arrays with the name of that file is a partition with its number on its disk. -/
theorem installs_iff (t : Target s p) (script : Script) : Installs t script ↔
    (∀ f ∈ s.mkfsFiles, (sought s.table f).isSome = true) ∧
      ∃ file x, LastFile s p.line file x ∧
        if script.mdDevFound s then
          ∃ m, zeroMembers s (cut '/' 3 ("/dev/".toList ++ x)) = [m] ∧
            IsNumber (dropLetters m.partition) t.number ∧ Alone t (dropDigits m.partition)
        else p.disk ≠ .md ∧ x = p.disk.name ∧ Alone t ("/dev/".toList ++ x) := by
  rw [Installs, commands]
  cases hr : search s.table (ls s.mkfsFiles) ⟨none, none⟩ with
  | none =>
    refine iff_of_false (by simp) ?_
    rintro ⟨hall, _⟩
    have hsome : (search s.table (ls s.mkfsFiles) ⟨none, none⟩).isSome = true :=
      isSome_search.mpr fun f hf => hall f (mem_ls.mp hf)
    rw [hr] at hsome
    cases hsome
  | some r =>
    have hall : ∀ f ∈ s.mkfsFiles, (sought s.table f).isSome = true := by
      intro f hf
      have hsome : (search s.table (ls s.mkfsFiles) ⟨none, none⟩).isSome = true := by simp [hr]
      exact isSome_search.mp hsome f (mem_ls.mpr hf)
    obtain ⟨root, hroot, file, x, hlast, hnoted⟩ := p.noted hr
    have hunique : ∀ {P : Text → Prop}, (∃ file x, LastFile s p.line file x ∧ P x) ↔ P x := by
      intro P
      constructor
      · rintro ⟨f, y, hy, hP⟩
        rw [(hlast.unique hy).2]
        exact hP
      · intro hP
        exact ⟨file, x, hlast, hP⟩
    rw [hunique, and_iff_right hall]
    simp only [hroot, Option.map_some, Option.some.injEq, hnoted, installs_cases]
    cases script.mdDevFound s with
    | false => simpa only [Bool.false_eq_true, if_false] using plain_iff t hlast
    | true => simp only [if_true]

/-- A member is a partition of an IDE or SCSI disk that is listed. -/
structure Listed (s : System) (m : MetaDevices.Member) (d : Disk) (n : Nat) : Prop where
  partition : m.partition = d.partition n
  plain : (∃ u, d = .ide u) ∨ ∃ u us, d = .scsi u us
  listed : ∃ drive gap, (∀ c ∈ drive, c.isAlphanum = true) ∧ mapLine drive gap d ∈ s.deviceMap

variable {m : MetaDevices.Member} {d : Disk} {n : Nat}

theorem Listed.dropDigits (h : Listed s m d n) : dropDigits m.partition = d.name := by
  rw [h.partition]
  rcases h.plain with ⟨u, rfl⟩ | ⟨u, us, rfl⟩
  · exact dropDigits_ide u
  · exact dropDigits_scsi u us

theorem Listed.dropLetters (h : Listed s m d n) : dropLetters m.partition = numeral n := by
  have hletter : ∀ u : Letter, u.1.isAlpha = true := fun u => isAlpha_of_isLower u.2
  have hname : Grub.dropLetters d.name = [] := by
    apply List.filter_eq_nil_iff.mpr
    intro c hc
    rcases h.plain with ⟨u, rfl⟩ | ⟨u, us, rfl⟩
    · simp only [Disk.name, List.mem_cons, List.not_mem_nil, or_false] at hc
      rcases hc with rfl | rfl | rfl
      · decide
      · decide
      · simp [hletter u]
    · simp only [Disk.name, List.mem_cons, List.mem_map] at hc
      rcases hc with rfl | rfl | ⟨v, _, rfl⟩
      · decide
      · decide
      · simp [hletter v]
  have hsep : d.sep = [] := by
    rcases h.plain with ⟨u, rfl⟩ | ⟨u, us, rfl⟩ <;> rfl
  rw [h.partition, Disk.partition, hsep, List.nil_append, dropLetters_append, hname,
    dropLetters_numeral, List.nil_append]

theorem dropWhile_mapLine {drive : Text} (h : ∀ c ∈ drive, c.isAlphanum = true) (gap : Gap)
    (d : Disk) : (mapLine drive gap d).dropWhile (· ≠ '/') = "/dev/".toList ++ d.name := by
  have hslash : '/' ∉ drive := by
    intro hmem
    exact absurd (h _ hmem) (by decide)
  have hbefore : ∀ c ∈ '(' :: (drive ++ ')' :: gap.blanks), decide (c ≠ '/') = true := by
    intro c hc
    refine decide_eq_true (ne_of_mem_of_not_mem hc ?_)
    simp [hslash, gap.notMem (c := '/') (by decide) (by decide)]
  have hsplit : mapLine drive gap d = ('(' :: (drive ++ ')' :: gap.blanks)) ++
      ("/dev/".toList ++ d.name) := by
    simp [mapLine]
  rw [hsplit, List.dropWhile_append_of_pos hbefore]
  rfl

theorem name_of_mapLine {drive drive' : Text} {gap gap' : Gap} {d' : Disk}
    (h : ∀ c ∈ drive, c.isAlphanum = true) (h' : ∀ c ∈ drive', c.isAlphanum = true)
    (heq : mapLine drive gap d = mapLine drive' gap' d') : d.name = d'.name := by
  have hdrop := congrArg (List.dropWhile (· ≠ '/')) heq
  rw [dropWhile_mapLine h, dropWhile_mapLine h'] at hdrop
  exact List.append_cancel_left hdrop

/-- Where arrays are known of, GRUB is never installed at a partition that is in none of them. -/
theorem not_installs_of_mixed (t : Target s p) (script : Script)
    (hmd : script.mdDevFound s = true) (hp : p.disk ≠ .md)
    (hmembers : ∀ a ∈ s.mdstat, ∀ m ∈ a.members, ∃ d n, Listed s m d n ∧
      (d.name, n) ≠ (p.disk.name, p.number)) : ¬ Installs t script := by
  intro h
  rw [Installs, commands] at h
  cases hr : search s.table (ls s.mkfsFiles) ⟨none, none⟩ with
  | none => simp [hr] at h
  | some r =>
    obtain ⟨root, hroot, file, x, _, hnoted⟩ := p.noted hr
    simp only [hr, hroot, Option.map_some, Option.some.injEq, hmd, installs_cases, if_true] at h
    obtain ⟨m, hm, hnumber, halone⟩ := h
    have hmem : m ∈ zeroMembers s (cut '/' 3 (r.boot.getD root).dsk) := by
      rw [hm]
      exact List.mem_singleton_self m
    obtain ⟨a, ha, hma⟩ := List.mem_flatMap.mp hmem
    obtain ⟨d, n, hlisted, hne⟩ :=
      hmembers a (List.mem_of_mem_filter ha) m (List.mem_of_mem_filter hma)
    obtain ⟨drive, gap, hletters, hline⟩ := hlisted.listed
    have hin : d.name <:+: mapLine drive gap d := by
      have hsuffix : d.name <:+ mapLine drive gap d :=
        ⟨'(' :: (drive ++ ')' :: (gap.blanks ++ "/dev/".toList)), by simp [mapLine]⟩
      exact hsuffix.isInfix
    rw [hlisted.dropDigits] at halone
    have hfiltered : mapLine drive gap d ∈ s.deviceMap.filter fun l => d.name <:+: l :=
      List.mem_filter.mpr ⟨hline, decide_eq_true hin⟩
    rw [halone, List.mem_singleton] at hfiltered
    have hholds := t.holds
    rw [if_neg hp] at hholds
    have hvalue := hnumber.value
    rw [hlisted.dropLetters, value_numeral] at hvalue
    apply hne
    rw [name_of_mapLine hletters t.letters hfiltered, hvalue, hholds.1, hholds.2]

end Installation

/-- A machine with `/` on an array and `/boot` on a partition beside it. -/
def mixed : System where
  table := [⟨"/dev/hda1".toList, "/boot".toList, "ext3".toList, "rw".toList⟩,
    ⟨"/dev/md0".toList, "/".toList, "ext3".toList, "rw".toList⟩]
  mkfsFiles := ["mkfs.hda".toList, "md/mkfs.md0".toList]
  mdstat := [⟨0, ["active".toList, "raid1".toList],
    [⟨"hdc2".toList, 1, false, by decide⟩, ⟨"hda2".toList, 0, false, MetaDevices.Clone.hda2.plain⟩],
    none, by simp, MetaDevices.Clone.raid1_plain⟩]
  deviceMap := ["(hd0)\t/dev/hda".toList, "(hd1)\t/dev/hdc".toList]
  grubDevmap := "/mnt/local/boot/grub/device.map".toList
  mdGeometry := true
  files := by
    simp only [List.forall_mem_cons]
    exact ⟨⟨[], by simp, "hda".toList, by decide, rfl⟩,
      ⟨"md/".toList, by simp, "md0".toList, by decide, rfl⟩, by simp⟩
  absolute := by decide
  named := by
    simp only [List.forall_mem_cons]
    exact ⟨⟨⟨'h', by decide, rfl⟩, ⟨'h', by decide, rfl⟩, by simp⟩, by simp⟩
  path := rfl

def mixedPlaces : Places mixed :=
  .boot ⟨⟨"/dev/md0".toList, "/".toList, "ext3".toList, "rw".toList⟩, .md, 0, by decide +kernel,
      by decide, by decide +kernel⟩
    ⟨⟨"/dev/hda1".toList, "/boot".toList, "ext3".toList, "rw".toList⟩, .ide ⟨'a', by decide⟩, 1,
      by decide +kernel, by decide, by decide +kernel⟩

def mixedTarget : Target mixed mixedPlaces where
  disk := .ide ⟨'a', by decide⟩
  number := 1
  drive := "hd0".toList
  gap := ⟨['\t'], by decide, by simp⟩
  physical := by decide
  pos := by decide
  holds := by
    rw [if_neg (by decide)]
    exact ⟨rfl, rfl⟩
  letters := by
    have hall : "hd0".toList.all Char.isAlphanum = true := by decide
    exact List.all_eq_true.mp hall
  listed := by decide +kernel
  single := by decide +kernel

/-- `root` gets the partition that is the first member of the array. -/
theorem root_at_member : commands mixed .startRestore =
    some ⟨"(hd0,1)".toList, "(hd0)".toList⟩ ∧ ¬ ∀ script, Installs mixedTarget script := by
  have hcommands : commands mixed .startRestore =
      some ⟨"(hd0,1)".toList, "(hd0)".toList⟩ := by decide +kernel
  refine ⟨hcommands, ?_⟩
  intro h
  have hroot := h .startRestore
  rw [Installs, hcommands] at hroot
  revert hroot
  decide +kernel

end Grub
