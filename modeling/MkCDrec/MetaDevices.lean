import MkCDrec.DeviceNames

/-!
# Clones of meta devices

A disk with members of RAID arrays is cloned to a single disk. Wherever a file of the
backup names an array, `clone-dsk.sh` puts the partition of the source disk that is a
member of it: in `mkfs` and `mkswap.sh` the partition is looked up in `mdstat`, in
`mke2label.sh` and `fstab` in `md/df`, and the restore loop goes the other way to find
the archive. A line is the list of its words, and the lines of `mdstat` are those of
the arrays.
-/

namespace MetaDevices

open ShellText DeviceNames

abbrev Words := List Text

/-- `grep` of a pattern without blanks. -/
def grep (pat : Text) (l : Words) : Bool := l.any fun w => pat <:+: w

/-- `sed -e 's/.*pat/pat/'`. -/
def sedLast (pat : Text) : Words → Words
  | [] => []
  | w :: l =>
    if grep pat l then sedLast pat l
    else match fromLast pat w with
      | some r => r :: l
      | none => w :: l

/-- `cut -d"[" -f 1`. -/
def cutBracket : Words → Words
  | [] => []
  | w :: l => if '[' ∈ w then [w.takeWhile (· ≠ '[')] else w :: cutBracket l

/-- `sed -e 's/'${pat}'/'${x}'/g'` with the words of `x`: a replacement with blanks or
slashes is an error, and nothing is printed. -/
def sedAll (pat : Text) : Words → List Words → List Words
  | [], file => file.map fun l => l.map (sedText pat [])
  | [x], file => if '/' ∈ x then [] else file.map fun l => l.map (sedText pat x)
  | _ :: _ :: _, _ => []

/-- A member of an array, as in `hda3[0]` or `hda3[0](F)`. -/
structure Member where
  partition : Text
  role : Nat
  failed : Bool
  plain : '[' ∉ partition

def Member.word (m : Member) : Text :=
  m.partition ++ '[' :: (numeral m.role ++ ']' :: if m.failed then "(F)".toList else [])

/-- A file system on an array: its line of `df -P`, and what is on its line of `mkfs`. -/
structure FileSystem where
  blocks : Text
  used : Text
  available : Text
  capacity : Text
  mounted : Text
  fsType : Text
  modules : Words
  options : Words
  plain : ∀ w ∈ fsType :: modules ++ options, ¬ "md".toList <:+: w

structure Device where
  number : Nat
  state : Words
  members : List Member
  fileSystem : Option FileSystem
  members_ne : members ≠ []
  plain : ∀ w ∈ state, '[' ∉ w

def mdName (number : Nat) : Text := 'm' :: 'd' :: numeral number

namespace Device

def name (a : Device) : Text := mdName a.number

/-- The line of `mdstat`. -/
def line (a : Device) : Words := a.name :: [':'] :: (a.state ++ a.members.map Member.word)

end Device

/-- A word of a script, or one that ends in the name of a device. -/
inductive Piece
  | word (w : Text)
  | device (before : Text)

def Piece.fill (dev : Text) : Piece → Text
  | word w => w
  | device before => before ++ dev

/-- The line of `mkfs`; the label of a `jfs` file system is named after the array. -/
def FileSystem.command (fs : FileSystem) : List Piece :=
  [.word "mkfs".toList, .word "-t".toList, .word fs.fsType] ++
    (if fs.fsType = "jfs".toList then [.word "-f".toList, .device "-L:jfs_".toList] else []) ++
    fs.options.map .word ++ [.device "/dev/".toList]

def FileSystem.template (fs : FileSystem) : List (List Piece) :=
  (fs.fsType :: fs.modules).map (fun m => [.word "modprobe".toList, .word "-q".toList, .word m,
      .word ">/dev/null".toList, .word "2>&1".toList]) ++
    [fs.command, [.word "rc=$((rc+$?))".toList]]

/-- `md/mkfs.md*`, with the name of a device in the place of the array. -/
def FileSystem.mkfsFile (fs : FileSystem) (dev : Text) : List Words :=
  fs.template.map fun l => l.map (Piece.fill dev)

/-- A line of `md/df`. -/
structure DfLine where
  partition : Text
  blocks : Text
  used : Text
  available : Text
  capacity : Text
  mounted : Text
  device : Text
deriving DecidableEq

def DfLine.words (e : DfLine) : Words :=
  ["/dev/".toList ++ e.partition, e.blocks, e.used, e.available, e.capacity, e.mounted, e.device]

/-- A swap area with the words of its line in `mkswap.sh`. -/
structure SwapArea where
  device : Text
  options : Words
  plain : ∃ c d, device = c :: d ∧ c ≠ '/'

def SwapArea.lines (s : SwapArea) (dev : Text) : List Words :=
  ["mkswap".toList :: (s.options ++ ["-v1".toList, "/dev/".toList ++ dev]),
    ["swapon".toList, "/dev/".toList ++ dev]]

/-- A line of `mke2label.sh`. -/
structure Label where
  program : Text
  device : Text
  label : Text

/-- What `clone-dsk.sh` reads; a disk with file systems of its own has a script for them. -/
structure Clone where
  devices : List Device
  source : Disk
  diskScript : Option (List Words)
  swap : List SwapArea
  labels : List Label
  fstab : List Words
  nodup : (devices.map Device.number).Nodup
  single : ∀ a ∈ devices, (a.members.filter fun m => (source.number m.partition).isSome).length ≤ 1
  notMd : source ≠ .md

namespace Clone

variable (k : Clone)

def mdstat : List Words := k.devices.map Device.line

def fileSystems : List (Device × FileSystem) :=
  k.devices.filterMap fun a => a.fileSystem.map fun fs => (a, fs)

/-- What `Analyse_md_device` appends to `md/df`. -/
def fileSystemLines : List DfLine :=
  k.fileSystems.flatMap fun p => p.1.members.map fun m =>
    ⟨m.partition, p.2.blocks, p.2.used, p.2.available, p.2.capacity, p.2.mounted, p.1.name⟩

/-- `md_swap_tracking`. -/
def swapTracking : List DfLine :=
  (k.swap.filter fun s => "md".toList <:+: s.device).flatMap fun s =>
    let md_sw := cut '/' 3 ("/dev/".toList ++ s.device)
    (k.mdstat.filter (grep md_sw)).flatMap fun l => ((l.drop 4).take 4).map fun swdev =>
      ⟨cut '[' 1 swdev, "swap".toList, "0".toList, "0".toList, "0".toList, "0".toList, md_sw⟩

/-- `md/df` after `sort -u`. -/
def df : List DfLine :=
  (k.fileSystemLines ++ k.swapTracking).dedup.insertionSort fun d e =>
    strcoll ([' '].intercalate d.words) ([' '].intercalate e.words)

/-- `grep xmd mdstat | sed -e 's/.*disk/disk/g' | cut -d"[" -f 1`. -/
def lookup (disk xmd : Text) : Words :=
  ((k.mdstat.filter (grep xmd)).map fun l => cutBracket (sedLast disk l)).flatten

/-- The files `md/mkfs.md*` in the order of `ls`. -/
def mkfsFiles : List (Device × FileSystem) :=
  k.fileSystems.insertionSort fun p q => strcoll p.1.name q.1.name

/-- One round of the loop of step 6. -/
def mkfsRound (script : List Words) (p : Device × FileSystem) : List Words :=
  sedAll p.1.name (k.lookup (tr '/' '_' k.source.name) p.1.name) (script ++ p.2.mkfsFile p.1.name)

/-- `mkfs.${_source_dev}`, to which step 6 adds nothing if it is there. -/
def mkfsScript : List Words := k.diskScript.getD (k.mkfsFiles.foldl k.mkfsRound [])

/-- `mkswap.sh` after step 7; a disk name with a slash is an error of `sed`. -/
def mkswapScript : List Words :=
  let file := k.swap.flatMap fun s => s.lines s.device
  match k.swap.getLast? with
  | none => file
  | some s =>
    let xmd := cut '/' 3 ("/dev/".toList ++ s.device)
    sedAll xmd (if '/' ∈ k.source.name then [] else k.lookup k.source.name xmd) file

/-- `grep xmd md/df | grep disk`. -/
def dfLines (xmd : Text) : List DfLine :=
  k.df.filter fun e => grep xmd e.words && grep k.source.name e.words

/-- The lines that `echo` prints around the lines of `x`. -/
def echo (before : Words) : Words → Words → List Words
  | [], after => [before ++ after]
  | [x], after => [before ++ x :: after]
  | x :: y :: xs, after => (before ++ [x]) :: echo [] (y :: xs) after

/-- `mke2label.sh` after step 7bis. -/
def labelScript : List Words :=
  k.labels.flatMap fun l =>
    let xmd := cut '/' 3 ("/dev/".toList ++ l.device)
    echo ["e2label".toList] ((k.dfLines xmd).map fun e => "/dev/".toList ++ e.partition) [l.label]

/-- A line of `fstab`, whose fields after the sixth are not printed. -/
def fstabLine (l : Words) : List Words :=
  match l with
  | [] => [[]]
  | dev :: fields =>
    if "/dev/md".toList <+: dev then
      match (k.dfLines (cut '/' 3 dev)).map fun e => cut '/' 3 ("/dev/".toList ++ e.partition) with
      | [] => [("/dev/".toList) :: fields.take 5]
      | x :: xs => echo [] (("/dev/".toList ++ x) :: xs) (fields.take 5)
    else [l]

def fstabFile : List Words := k.fstab.flatMap k.fstabLine

/-- `SDev` in the restore loop, the devices after which the archive is named. -/
def sdev (dev : Text) : Words := (k.df.filter fun e => grep dev e.words).map DfLine.device

/-- The member on the source disk. -/
def member (a : Device) : Option Text :=
  (a.members.map Member.partition).find? fun p => (k.source.number p).isSome

/-- What is to stand for a device. -/
def shown (dev : Text) : Text :=
  match k.devices.find? fun a => a.name = dev with
  | some a => (k.member a).getD dev
  | none => dev

/-- The script that is to be there: the disk's own commands and those of the arrays on it. In a
script for arrays only, those that are not on the disk stay. -/
def mkfsShown : List Words :=
  match k.diskScript with
  | none => k.mkfsFiles.flatMap fun p => p.2.mkfsFile (k.shown p.1.name)
  | some script => script ++ (k.mkfsFiles.filter fun p => (k.member p.1).isSome).flatMap
      fun p => p.2.mkfsFile (k.shown p.1.name)

/-- The line that is to stand in `fstab`. -/
def fstabShown (l : Words) : Words :=
  match l with
  | [] => []
  | dev :: fields => if "/dev/".toList <+: dev then
      ("/dev/".toList ++ k.shown (dev.drop 5)) :: fields else l

/-- All the rewritings put the member on the source disk for an array that has one, and
leave the other devices. -/
structure Agrees : Prop where
  mkfs : k.mkfsScript = k.mkfsShown
  swap : k.mkswapScript = k.swap.flatMap fun s => s.lines (k.shown s.device)
  label : k.labelScript = k.labels.map fun l =>
    [if k.shown l.device = l.device then l.program else "e2label".toList,
      "/dev/".toList ++ k.shown l.device, l.label]
  fstab : k.fstabFile = k.fstab.map k.fstabShown
  restore : ∀ p ∈ k.fileSystems, ∀ m, k.member p.1 = some m → k.sdev m = [p.1.name]

/-- From the last occurrence of the name of the disk in the names of the members on, the
name of the member is that of the partition. -/
def Last (a : Device) (p : Text) : Prop :=
  ∃ pre m post, a.members = pre ++ m :: post ∧ fromLast k.source.name m.partition = some p ∧
    ∀ n ∈ post, ¬ k.source.name <:+: n.partition

/-- The line of the array is the only one of `mdstat` in which its name occurs, and its
last member is the one on the disk. -/
structure Found (a : Device) (p : Text) : Prop where
  plain : '/' ∉ k.source.name
  alone : ∀ b ∈ k.devices, grep a.name b.line = true → b = a
  last : k.Last a p

/-- One line of `md/df` has the names in it, and it is that of the partition. -/
def OneLine (xmd p : Text) : Prop := ∃ e, k.dfLines xmd = [e] ∧ e.partition = p

/-- The last swap area: an array that is found while no other one has a member on the
disk, or a device that is found under its own name. -/
def SwapFound (s : SwapArea) : Prop :=
  (∃ a ∈ k.devices, s.device = a.name ∧ ∃ p, k.member a = some p ∧ k.Found a p ∧
    ∀ t ∈ k.swap, (∀ w ∈ t.options, ¬ a.name <:+: w) ∧
      (t.device = a.name ∨ k.shown t.device = t.device ∧ ¬ a.name <:+: t.device)) ∨
  ((∀ t ∈ k.swap, k.shown t.device = t.device) ∧ '/' ∉ k.source.name ∧
    ∃ a ∈ k.devices, grep (cut '/' 3 ("/dev/".toList ++ s.device)) a.line = true ∧
      (∀ b ∈ k.devices, grep (cut '/' 3 ("/dev/".toList ++ s.device)) b.line = true → b = a) ∧
      k.Last a (cut '/' 3 ("/dev/".toList ++ s.device)))

/-- When the rewritings agree: every array with a file system has a member on the disk
and is found in `mdstat`, or none has one if the disk has file systems of its own, the
devices of labels and of the lines of `fstab` for arrays are on one line of `md/df`, and so
are the members. -/
structure Clear : Prop where
  mkfs : ∀ p ∈ k.fileSystems,
    if k.diskScript.isSome then k.member p.1 = none else ∃ m, k.member p.1 = some m ∧ k.Found p.1 m
  swap : ∀ s, k.swap.getLast? = some s → k.SwapFound s
  label : ∀ l ∈ k.labels,
    k.OneLine (cut '/' 3 ("/dev/".toList ++ l.device)) (k.shown l.device) ∧
      (k.shown l.device = l.device → l.program = "e2label".toList)
  fstab : ∀ dev fields, dev :: fields ∈ k.fstab → "/dev/md".toList <+: dev →
    (∃ e, k.dfLines (cut '/' 3 dev) = [e] ∧
      cut '/' 3 ("/dev/".toList ++ e.partition) = k.shown (dev.drop 5)) ∧ fields.length ≤ 5
  restore : ∀ p ∈ k.fileSystems, ∀ m, k.member p.1 = some m →
    ∃ e, (k.df.filter fun e => grep m e.words) = [e]

end Clone

section Lines

variable {s : Text} {a : Device} {m : Member} {q : Text}

theorem fromLast_append_cons {c : Char} {u v : Text} (hs : s ≠ []) (hc : c ∉ s)
    (hv : ¬ s <:+: v) : fromLast s (u ++ c :: v) = (fromLast s u).map (· ++ c :: v) := by
  induction u with
  | nil =>
    refine (fromLast_eq_none_iff hs).mpr ?_
    intro h
    rcases (infix_cons_iff_of_notMem (u := []) hc).mp h with h | h
    · exact hs (List.infix_nil.mp h)
    · exact hv h
  | cons x u ih =>
    have hpre : s <+: x :: (u ++ c :: v) ↔ s <+: x :: u := prefix_append_cons_iff (u := x :: u) hc
    rw [List.cons_append, fromLast, ih, fromLast]
    simp only [hpre]
    cases fromLast s u with
    | some r => rfl
    | none => by_cases h : s <+: x :: u <;> simp [h]

theorem d_notMem_role (m : Member) :
    'd' ∉ numeral m.role ++ ']' :: if m.failed then "(F)".toList else [] := by
  intro h
  rcases List.mem_append.mp h with h | h
  · exact notMem_numeral (by decide) _ h
  · revert h
    cases m.failed <;> decide

theorem infix_word_iff (hs : '[' ∉ s) (hd : 'd' ∈ s) : s <:+: m.word ↔ s <:+: m.partition := by
  rw [Member.word, infix_cons_iff_of_notMem hs]
  exact or_iff_left fun h => d_notMem_role m (h.subset hd)

theorem fromLast_word (hs : '[' ∉ s) (hd : 'd' ∈ s) (h : fromLast s m.partition = some q) :
    ∃ t, fromLast s m.word = some (q ++ '[' :: t) := by
  have hrole : ¬ s <:+: numeral m.role ++ ']' :: if m.failed then "(F)".toList else [] :=
    fun hin => d_notMem_role m (hin.subset hd)
  refine ⟨numeral m.role ++ ']' :: if m.failed then "(F)".toList else [], ?_⟩
  rw [Member.word, fromLast_append_cons (List.ne_nil_of_mem hd) hs hrole, h]
  rfl

theorem grep_eq_false_iff {pat : Text} {l : Words} :
    grep pat l = false ↔ ∀ w ∈ l, ¬ pat <:+: w := by
  simp [grep]

theorem grep_members_eq_false_iff {members : List Member} (hs : '[' ∉ s) (hd : 'd' ∈ s) :
    grep s (members.map Member.word) = false ↔ ∀ n ∈ members, ¬ s <:+: n.partition := by
  rw [grep_eq_false_iff, List.forall_mem_map]
  refine forall₂_congr fun n _ => ?_
  rw [infix_word_iff hs hd]

/-- The last occurrence of the pattern is in the word before `post`. -/
theorem sedLast_append_cons {l post : Words} {w r : Text} (hw : fromLast s w = some r)
    (hpost : grep s post = false) : sedLast s (l ++ w :: post) = r :: post := by
  induction l with
  | nil =>
    rw [List.nil_append, sedLast, hpost, if_neg Bool.false_ne_true, hw]
  | cons x l ih =>
    obtain ⟨hpre, hsuf⟩ := fromLast_eq_some hw
    have hin : s <:+: w := hpre.isInfix.trans hsuf.isInfix
    have hgrep : grep s (l ++ w :: post) = true :=
      List.any_eq_true.mpr ⟨w, by simp, by simpa using hin⟩
    rw [List.cons_append, sedLast, if_pos hgrep, ih]

/-- What is cut off a line whose end has no occurrence leaves words before it. -/
theorem sedLast_append {l l' : Words} (hl : l ≠ []) (hl' : grep s l' = false)
    (hplain : ∀ w ∈ l, '[' ∉ w) :
    ∃ t, t ≠ [] ∧ (∀ w ∈ t, '[' ∉ w) ∧ sedLast s (l ++ l') = t ++ l' := by
  induction l with
  | nil => exact absurd rfl hl
  | cons w l ih =>
    obtain ⟨hw, hplain⟩ := List.forall_mem_cons.mp hplain
    by_cases hl0 : l = []
    · subst hl0
      rw [List.cons_append, List.nil_append, sedLast, hl', if_neg Bool.false_ne_true]
      cases hlast : fromLast s w with
      | none => exact ⟨[w], by simp, by simpa using hw, rfl⟩
      | some r =>
        have hr : '[' ∉ r := fun h => hw ((fromLast_eq_some hlast).2.subset h)
        exact ⟨[r], by simp, by simpa using hr, rfl⟩
    · obtain ⟨t, ht, htplain, heq⟩ := ih hl0 hplain
      rw [List.cons_append, sedLast]
      split
      · exact ⟨t, ht, htplain, heq⟩
      · cases hlast : fromLast s w with
        | none => exact ⟨w :: l, by simp, List.forall_mem_cons.mpr ⟨hw, hplain⟩, rfl⟩
        | some r =>
          have hr : '[' ∉ r := fun h => hw ((fromLast_eq_some hlast).2.subset h)
          exact ⟨r :: l, by simp, List.forall_mem_cons.mpr ⟨hr, hplain⟩, rfl⟩

theorem cutBracket_append {t l : Words} (ht : ∀ w ∈ t, '[' ∉ w) :
    cutBracket (t ++ l) = t ++ cutBracket l := by
  induction t with
  | nil => rfl
  | cons w t ih =>
    obtain ⟨hw, ht⟩ := List.forall_mem_cons.mp ht
    rw [List.cons_append, cutBracket, if_neg hw, ih ht, List.cons_append]

theorem cutBracket_ne_nil {l : Words} (h : l ≠ []) : cutBracket l ≠ [] := by
  cases l with
  | nil => exact absurd rfl h
  | cons w l =>
    rw [cutBracket]
    split <;> simp

/-- The last member in which the pattern occurs. -/
theorem exists_last {members : List Member} (h : ∃ m ∈ members, s <:+: m.partition) :
    ∃ pre m post, members = pre ++ m :: post ∧ s <:+: m.partition ∧
      ∀ n ∈ post, ¬ s <:+: n.partition := by
  induction members with
  | nil => simp at h
  | cons x members ih =>
    by_cases htail : ∃ m ∈ members, s <:+: m.partition
    · obtain ⟨pre, m, post, rfl, hm⟩ := ih htail
      exact ⟨x :: pre, m, post, rfl, hm⟩
    · rw [List.exists_mem_cons_iff, or_iff_left htail] at h
      refine ⟨[], x, members, rfl, h, ?_⟩
      intro n hn hin
      exact htail ⟨n, hn, hin⟩

theorem line_eq (a : Device) :
    a.line = (a.name :: [':'] :: a.state) ++ a.members.map Member.word := rfl

theorem bracket_notMem_head (a : Device) : ∀ w ∈ a.name :: [':'] :: a.state, '[' ∉ w := by
  intro w hw
  rcases List.mem_cons.mp hw with rfl | hw
  · intro h
    rw [Device.name, mdName, List.mem_cons, List.mem_cons] at h
    rcases h with h | h | h
    · exact absurd h (by decide)
    · exact absurd h (by decide)
    · exact notMem_numeral (by decide) _ h
  · rcases List.mem_cons.mp hw with rfl | hw
    · decide
    · exact a.plain w hw

/-- What is left of a line is one word just if a member has it. -/
theorem cutBracket_sedLast_eq_iff (hs : '[' ∉ s) (hd : 'd' ∈ s) :
    cutBracket (sedLast s a.line) = [q] ↔
      ∃ pre m post, a.members = pre ++ m :: post ∧ fromLast s m.partition = some q ∧
        ∀ n ∈ post, ¬ s <:+: n.partition := by
  have hlast : ∀ {pre m post r}, a.members = pre ++ m :: post → fromLast s m.partition = some r →
      (∀ n ∈ post, ¬ s <:+: n.partition) → cutBracket (sedLast s a.line) = [r] := by
    intro pre m post r hmembers hm hpost
    obtain ⟨t, ht⟩ := fromLast_word hs hd hm
    have hplain : '[' ∉ r := fun h => m.plain ((fromLast_eq_some hm).2.subset h)
    have htake : (r ++ '[' :: t).takeWhile (· ≠ '[') = r := by
      rw [List.takeWhile_append_of_pos]
      · simp
      · intro c hc
        simp only [ne_eq, decide_not, Bool.not_eq_eq_eq_not, Bool.not_true, decide_eq_false_iff_not]
        rintro rfl
        exact hplain hc
    rw [line_eq, hmembers, List.map_append, List.map_cons, ← List.append_assoc,
      sedLast_append_cons ht ((grep_members_eq_false_iff hs hd).mpr hpost), cutBracket,
      if_pos (by simp), htake]
  constructor
  · intro h
    by_cases hm : ∃ m ∈ a.members, s <:+: m.partition
    · obtain ⟨pre, m, post, hmembers, hin, hpost⟩ := exists_last hm
      cases hr : fromLast s m.partition with
      | none => exact absurd hin ((fromLast_eq_none_iff (List.ne_nil_of_mem hd)).mp hr)
      | some r =>
        rw [hlast hmembers hr hpost, List.singleton_inj] at h
        subst h
        exact ⟨pre, m, post, hmembers, hr, hpost⟩
    · exfalso
      have hnone : grep s (a.members.map Member.word) = false := by
        rw [grep_members_eq_false_iff hs hd]
        intro n hn hin
        exact hm ⟨n, hn, hin⟩
      obtain ⟨t, ht, hplain, heq⟩ := sedLast_append (by simp) hnone (bracket_notMem_head a)
      have hne : a.members.map Member.word ≠ [] := by simpa using a.members_ne
      have hlen := congrArg List.length h
      rw [line_eq, heq, cutBracket_append hplain, List.length_append, List.length_singleton] at hlen
      have := List.length_pos_iff.mpr ht
      have := List.length_pos_iff.mpr (cutBracket_ne_nil hne)
      omega
  · rintro ⟨pre, m, post, hmembers, hm, hpost⟩
    exact hlast hmembers hm hpost

theorem sedLast_ne_nil {l : Words} (h : l ≠ []) : sedLast s l ≠ [] := by
  induction l with
  | nil => exact absurd rfl h
  | cons w l ih =>
    rw [sedLast]
    split
    · rename_i hgrep
      refine ih ?_
      rintro rfl
      cases hgrep
    · split <;> simp

end Lines

theorem flatten_map_eq_singleton {α β : Type} {f : α → List β} {l : List α} {q : β}
    (hf : ∀ x ∈ l, f x ≠ []) : (l.map f).flatten = [q] ↔ ∃ x, l = [x] ∧ f x = [q] := by
  constructor
  · intro h
    cases l with
    | nil => cases h
    | cons x l =>
      obtain ⟨hx, hf⟩ := List.forall_mem_cons.mp hf
      cases l with
      | nil => exact ⟨x, rfl, by simpa using h⟩
      | cons y l =>
        have hy := hf y List.mem_cons_self
        have hlen := congrArg List.length h
        simp only [List.map_cons, List.flatten_cons, List.length_append,
          List.length_singleton] at hlen
        have := List.length_pos_iff.mpr hx
        have := List.length_pos_iff.mpr hy
        omega
  · rintro ⟨x, rfl, hx⟩
    simpa using hx

namespace Clone

section Lookup

variable {k : Clone} {a b : Device} {s xmd q p : Text}

theorem eq_of_number (ha : a ∈ k.devices) (hb : b ∈ k.devices) (h : a.number = b.number) : a = b :=
  List.inj_on_of_nodup_map k.nodup ha hb h

theorem eq_of_name (ha : a ∈ k.devices) (hb : b ∈ k.devices) (h : a.name = b.name) : a = b := by
  refine eq_of_number ha hb (numeral_injective ?_)
  rw [Device.name, Device.name, mdName, mdName] at h
  exact (List.cons_eq_cons.mp (List.cons_eq_cons.mp h).2).2

theorem grep_name (a : Device) : grep a.name a.line = true := by
  simp [grep, Device.line]

theorem lookup_eq (s xmd : Text) : k.lookup s xmd =
    ((k.devices.filter fun a => grep xmd a.line).map fun a =>
      cutBracket (sedLast s a.line)).flatten := by
  rw [lookup, mdstat, List.filter_map, List.map_map]
  rfl

theorem cut_ne_nil (s : Text) (a : Device) : cutBracket (sedLast s a.line) ≠ [] :=
  cutBracket_ne_nil (sedLast_ne_nil (by simp [Device.line]))

theorem filter_eq_singleton (ha : a ∈ k.devices) (hgrep : grep xmd a.line = true)
    (h : ∀ b ∈ k.devices, grep xmd b.line = true → b = a) :
    (k.devices.filter fun b => grep xmd b.line) = [a] := by
  have hnodup : (k.devices.filter fun b => grep xmd b.line).Nodup :=
    (List.Nodup.of_map _ k.nodup).filter _
  have hmem : a ∈ k.devices.filter fun b => grep xmd b.line := List.mem_filter.mpr ⟨ha, hgrep⟩
  refine List.perm_singleton.mp ((List.perm_ext_iff_of_nodup hnodup (List.nodup_singleton a)).mpr ?_)
  intro b
  rw [List.mem_singleton]
  constructor
  · intro hb
    exact h b (List.mem_of_mem_filter hb) (List.mem_filter.mp hb).2
  · rintro rfl
    exact hmem

/-- What is found is one word just if one line has the name in it. -/
theorem lookup_eq_singleton_iff : k.lookup s xmd = [q] ↔
    ∃ a ∈ k.devices, grep xmd a.line = true ∧
      (∀ b ∈ k.devices, grep xmd b.line = true → b = a) ∧ cutBracket (sedLast s a.line) = [q] := by
  rw [lookup_eq, flatten_map_eq_singleton fun a _ => cut_ne_nil s a]
  constructor
  · rintro ⟨a, ha, hq⟩
    have hmem : ∀ b, b ∈ k.devices ∧ grep xmd b.line = true ↔ b = a := by
      intro b
      have hfilter : (b ∈ k.devices.filter fun a => grep xmd a.line) ↔
          b ∈ k.devices ∧ grep xmd b.line = true := List.mem_filter
      rw [ha, List.mem_singleton] at hfilter
      exact hfilter.symm
    obtain ⟨hdev, hgrep⟩ := (hmem a).mpr rfl
    exact ⟨a, hdev, hgrep, fun b hb hbgrep => (hmem b).mp ⟨hb, hbgrep⟩, hq⟩
  · rintro ⟨a, ha, hgrep, halone, hq⟩
    exact ⟨a, filter_eq_singleton ha hgrep halone, hq⟩

theorem lookup_eq_singleton (ha : a ∈ k.devices) (h : k.lookup s a.name = [q]) :
    (∀ b ∈ k.devices, grep a.name b.line = true → b = a) ∧ cutBracket (sedLast s a.line) = [q] := by
  obtain ⟨b, _, _, halone, hq⟩ := lookup_eq_singleton_iff.mp h
  obtain rfl := halone a ha (grep_name a)
  exact ⟨halone, hq⟩

theorem member_mem (h : k.member a = some p) :
    ∃ m ∈ a.members, m.partition = p ∧ (k.source.number p).isSome := by
  have hmem := List.mem_of_find?_eq_some h
  obtain ⟨m, hm, rfl⟩ := List.mem_map.mp hmem
  have hsome := List.find?_some h
  exact ⟨m, hm, rfl, hsome⟩

theorem name_prefix_member (h : k.member a = some p) : k.source.name <+: p := by
  obtain ⟨m, _, rfl, hnumber⟩ := member_mem h
  obtain ⟨n, hn⟩ := Option.isSome_iff_exists.mp hnumber
  rw [(Disk.number_eq_some_iff.mp hn).1]
  exact List.prefix_append ..

theorem bracket_notMem_name (k : Clone) : '[' ∉ k.source.name := by
  intro h
  exact absurd (Disk.nameChar_of_mem_name h) (by decide)

/-- The look-up of an array comes to a partition. -/
theorem lookup_eq_iff (ha : a ∈ k.devices) (hplain : '/' ∉ k.source.name) :
    k.lookup k.source.name a.name = [p] ↔ k.Found a p := by
  have hs := k.bracket_notMem_name
  have hd := k.source.d_mem_name
  constructor
  · intro h
    obtain ⟨halone, hcut⟩ := lookup_eq_singleton ha h
    exact ⟨hplain, halone, (cutBracket_sedLast_eq_iff hs hd).mp hcut⟩
  · intro h
    rw [lookup_eq_singleton_iff]
    exact ⟨a, ha, grep_name a, h.alone, (cutBracket_sedLast_eq_iff hs hd).mpr h.last⟩

end Lookup

section Scripts

variable {k : Clone} {fs : FileSystem} {number : Nat} {x y : Text}

theorem mdName_eq (number : Nat) : mdName number = 'm' :: ('d' :: numeral number) := rfl

theorem mdName_ne_nil (number : Nat) : mdName number ≠ [] :=
  List.cons_ne_nil 'm' _

theorem md_infix_mdName (number : Nat) : "md".toList <:+: mdName number :=
  (List.prefix_append "md".toList (numeral number)).isInfix

/-- A name that is found behind text without an `m` is found in the rest. -/
theorem mdName_infix_append {u v : Text} (hu : 'm' ∉ u) (h : mdName number <:+: u ++ v) :
    mdName number <:+: v := by
  induction u with
  | nil => exact h
  | cons c u ih =>
    obtain ⟨hc, hu⟩ := List.ne_and_not_mem_of_not_mem_cons hu
    rw [List.cons_append, List.infix_cons_iff] at h
    rcases h with h | h
    · exact absurd (List.cons_prefix_cons.mp h).1 hc
    · exact ih hu h

/-- No word of a script but the names of devices has the name of an array in it. -/
def Plain : Piece → Prop
  | .word w => ¬ "md".toList <:+: w
  | .device before => 'm' ∉ before

theorem plain_template (fs : FileSystem) : ∀ l ∈ fs.template, ∀ piece ∈ l, Plain piece := by
  have hplain := fs.plain
  simp only [List.cons_append, List.forall_mem_cons, List.forall_mem_append] at hplain
  obtain ⟨hfsType, hmodules, hoptions⟩ := hplain
  have hword : ∀ w ∈ ["modprobe".toList, "-q".toList, ">/dev/null".toList, "2>&1".toList,
      "mkfs".toList, "-t".toList, "-f".toList, "rc=$((rc+$?))".toList],
      ¬ "md".toList <:+: w := by decide +kernel
  have hdevice : 'm' ∉ "-L:jfs_".toList ∧ 'm' ∉ "/dev/".toList := by decide
  simp only [List.forall_mem_cons] at hword
  intro l hl piece hpiece
  rcases List.mem_append.mp hl with hl | hl
  · obtain ⟨m, hm, rfl⟩ := List.mem_map.mp hl
    have hm' : ¬ "md".toList <:+: m := by
      rcases List.mem_cons.mp hm with rfl | hm
      · exact hfsType
      · exact hmodules m hm
    simp only [List.mem_cons, List.not_mem_nil, or_false] at hpiece
    rcases hpiece with rfl | rfl | rfl | rfl | rfl
    · exact hword.1
    · exact hword.2.1
    · exact hm'
    · exact hword.2.2.1
    · exact hword.2.2.2.1
  · simp only [List.mem_cons, List.not_mem_nil, or_false] at hl
    rcases hl with rfl | rfl
    · rw [FileSystem.command, List.mem_append, List.mem_append, List.mem_append] at hpiece
      rcases hpiece with ((hpiece | hpiece) | hpiece) | hpiece
      · simp only [List.mem_cons, List.not_mem_nil, or_false] at hpiece
        rcases hpiece with rfl | rfl | rfl
        · exact hword.2.2.2.2.1
        · exact hword.2.2.2.2.2.1
        · exact hfsType
      · split at hpiece
        · simp only [List.mem_cons, List.not_mem_nil, or_false] at hpiece
          rcases hpiece with rfl | rfl
          · exact hword.2.2.2.2.2.2.1
          · exact hdevice.1
        · cases hpiece
      · obtain ⟨w, hw, rfl⟩ := List.mem_map.mp hpiece
        exact hoptions w hw
      · rw [List.mem_singleton.mp hpiece]
        exact hdevice.2
    · rw [List.mem_singleton.mp hpiece]
      exact hword.2.2.2.2.2.2.2.1

theorem sedText_fill {piece : Piece} (h : Plain piece) :
    sedText (mdName number) x (piece.fill (mdName number)) = piece.fill x := by
  cases piece with
  | word w =>
    refine sedText_absent ?_
    intro hin
    exact h ((md_infix_mdName number).trans hin)
  | device before =>
    rw [Piece.fill, mdName_eq, sedText_append_left h, ← mdName_eq,
      sedText_self (mdName_ne_nil number)]
    rfl

theorem infix_fill {piece : Piece} (h : Plain piece) (hin : mdName number <:+: piece.fill x) :
    mdName number <:+: x := by
  cases piece with
  | word w => exact absurd ((md_infix_mdName number).trans hin) h
  | device before => exact mdName_infix_append h hin

theorem sedAll_mkfsFile :
    ((fs.mkfsFile (mdName number)).map fun l => l.map (sedText (mdName number) x)) =
      fs.mkfsFile x := by
  rw [FileSystem.mkfsFile, List.map_map]
  refine List.map_congr_left ?_
  intro l hl
  rw [Function.comp_apply, List.map_map]
  refine List.map_congr_left ?_
  intro piece hpiece
  exact sedText_fill (plain_template fs l hl piece hpiece)

theorem infix_mkfsFile {l : Words} {w : Text} (hl : l ∈ fs.mkfsFile x) (hw : w ∈ l)
    (hin : mdName number <:+: w) : mdName number <:+: x := by
  obtain ⟨t, ht, rfl⟩ := List.mem_map.mp hl
  obtain ⟨piece, hpiece, rfl⟩ := List.mem_map.mp hw
  exact infix_fill (plain_template fs t ht piece hpiece) hin

theorem command_mem (fs : FileSystem) : fs.command ∈ fs.template :=
  List.mem_append_right _ List.mem_cons_self

theorem mkfsFile_injective (h : fs.mkfsFile x = fs.mkfsFile y) : x = y := by
  have hline := List.map_inj_left.mp (List.map_inj_left.mp h fs.command (command_mem fs))
  have hmem : Piece.device "/dev/".toList ∈ fs.command :=
    List.mem_append_right _ (List.mem_singleton_self _)
  exact List.append_cancel_left (hline _ hmem)

theorem length_mkfsFile (fs : FileSystem) (x y : Text) :
    (fs.mkfsFile x).length = (fs.mkfsFile y).length := by
  rw [FileSystem.mkfsFile, FileSystem.mkfsFile, List.length_map, List.length_map]

theorem length_mkfsFile_pos (fs : FileSystem) (x : Text) : 0 < (fs.mkfsFile x).length := by
  rw [FileSystem.mkfsFile, List.length_map]
  exact List.length_pos_of_mem (command_mem fs)

theorem sedAll_eq_self {pat : Text} {file : List Words}
    (h : ∀ l ∈ file, ∀ w ∈ l, ¬ pat <:+: w) : (file.map fun l => l.map (sedText pat x)) = file := by
  have hid : (file.map fun l => l.map (sedText pat x)) = file.map id := by
    refine List.map_congr_left ?_
    intro l hl
    have hline : l.map (sedText pat x) = l.map id :=
      List.map_congr_left fun w hw => sedText_absent (h l hl w hw)
    rw [hline, List.map_id, id]
  rw [hid, List.map_id]

/-- The lines without the name of an array stay through its round. -/
theorem mkfsRound_eq {script : List Words} {p : Device × FileSystem}
    (hx : k.lookup (tr '/' '_' k.source.name) p.1.name = [x]) (hplain : '/' ∉ x) :
    k.mkfsRound script p =
      (script.map fun l => l.map (sedText p.1.name x)) ++ p.2.mkfsFile x := by
  rw [mkfsRound, hx, sedAll, if_neg hplain, List.map_append, Device.name, sedAll_mkfsFile]

theorem length_sedAll_le (pat : Text) (xs : Words) (file : List Words) :
    (sedAll pat xs file).length ≤ file.length := by
  fun_cases sedAll pat xs file <;> simp

theorem length_foldl_le (files : List (Device × FileSystem)) (script : List Words) :
    (files.foldl k.mkfsRound script).length ≤
      script.length + (files.flatMap fun p => p.2.mkfsFile (k.shown p.1.name)).length := by
  induction files generalizing script with
  | nil => simp
  | cons p files ih =>
    have hround := length_sedAll_le p.1.name (k.lookup (tr '/' '_' k.source.name) p.1.name)
      (script ++ p.2.mkfsFile p.1.name)
    have hrest := ih (k.mkfsRound script p)
    have hlen := length_mkfsFile p.2 p.1.name (k.shown p.1.name)
    rw [List.length_append] at hround
    rw [List.foldl_cons, List.flatMap_cons, List.length_append]
    rw [mkfsRound] at hrest ⊢
    omega

/-- Lines in which no name of a later array occurs stay where they are. -/
theorem foldl_keep {files : List (Device × FileSystem)} {s t : List Words}
    (hfiles : ∀ p ∈ files, ∃ x, k.lookup (tr '/' '_' k.source.name) p.1.name = [x] ∧ '/' ∉ x)
    (ht : ∀ p ∈ files, ∀ l ∈ t, ∀ w ∈ l, ¬ p.1.name <:+: w) :
    ∃ s' u, s'.length = s.length ∧ files.foldl k.mkfsRound (s ++ t) = s' ++ (t ++ u) := by
  suffices h : ∀ v, ∃ s' u, s'.length = s.length ∧
      files.foldl k.mkfsRound (s ++ (t ++ v)) = s' ++ (t ++ u) by
    have hnil := h []
    rwa [List.append_nil] at hnil
  induction files generalizing s with
  | nil => exact fun v => ⟨s, v, rfl, rfl⟩
  | cons p files ih =>
    intro v
    obtain ⟨hp, hfiles⟩ := List.forall_mem_cons.mp hfiles
    obtain ⟨hpt, ht⟩ := List.forall_mem_cons.mp ht
    obtain ⟨x, hx, hplain⟩ := hp
    rw [List.foldl_cons, mkfsRound_eq hx hplain, List.map_append, List.map_append,
      sedAll_eq_self hpt, List.append_assoc, List.append_assoc]
    obtain ⟨s', u, hlen, heq⟩ := ih hfiles ht (s := s.map fun l => l.map (sedText p.1.name x))
      ((v.map fun l => l.map (sedText p.1.name x)) ++ p.2.mkfsFile x)
    exact ⟨s', u, by rw [hlen, List.length_map], heq⟩

/-- The look-up of another array says that its name is not in what was found. -/
theorem notInfix_of_lookup {a b : Device} {s t : Text} (ha : a ∈ k.devices) (hb : b ∈ k.devices)
    (hne : a ≠ b) (hs : '[' ∉ s) (hd : 'd' ∈ s) (hx : k.lookup s a.name = [x])
    (hy : k.lookup t b.name = [y]) : ¬ b.name <:+: x := by
  intro hin
  obtain ⟨pre, m, post, hmembers, hlast, _⟩ :=
    (cutBracket_sedLast_eq_iff hs hd).mp (lookup_eq_singleton ha hx).2
  have hword : b.name <:+: m.word :=
    hin.trans ((fromLast_eq_some hlast).2.isInfix.trans (List.prefix_append ..).isInfix)
  refine hne ((lookup_eq_singleton hb hy).1 a ha ?_)
  refine List.any_eq_true.mpr ⟨m.word, ?_, by simpa using hword⟩
  rw [line_eq, hmembers]
  simp

theorem flat_name (k : Clone) :
    '[' ∉ tr '/' '_' k.source.name ∧ 'd' ∈ tr '/' '_' k.source.name := by
  constructor
  · intro h
    obtain ⟨c, hc, heq⟩ := List.mem_map.mp h
    split at heq
    · exact absurd heq (by decide)
    · subst heq
      exact k.bracket_notMem_name hc
  · exact List.mem_map.mpr ⟨'d', k.source.d_mem_name, by decide⟩

/-- The names of the arrays of the files are found as the partitions that are to be shown. -/
theorem lookup_of_foldl {files : List (Device × FileSystem)} {s s' : List Words}
    (hmem : ∀ p ∈ files, p.1 ∈ k.devices) (hnodup : (files.map Prod.fst).Nodup)
    (hlen : s.length = s'.length)
    (heq : files.foldl k.mkfsRound s =
      s' ++ files.flatMap fun p => p.2.mkfsFile (k.shown p.1.name)) :
    ∀ p ∈ files, k.lookup (tr '/' '_' k.source.name) p.1.name = [k.shown p.1.name] ∧
      '/' ∉ k.shown p.1.name := by
  induction files generalizing s s' with
  | nil => simp
  | cons p files ih =>
    obtain ⟨hp, hmem⟩ := List.forall_mem_cons.mp hmem
    rw [List.map_cons, List.nodup_cons] at hnodup
    rw [List.foldl_cons, List.flatMap_cons] at heq
    have hround : k.mkfsRound s p ≠ [] := by
      intro hnil
      have hle := length_foldl_le (k := k) files []
      rw [hnil] at heq
      rw [heq] at hle
      have hpos := length_mkfsFile_pos p.2 (k.shown p.1.name)
      simp only [List.length_append, List.length_nil] at hle
      omega
    obtain ⟨x, hx, hplain⟩ : ∃ x, k.lookup (tr '/' '_' k.source.name) p.1.name = [x] ∧ '/' ∉ x := by
      have hself : k.lookup (tr '/' '_' k.source.name) p.1.name ≠ [] := by
        rw [lookup_eq]
        intro hnil
        have hone := List.flatten_eq_nil_iff.mp hnil _
          (List.mem_map.mpr ⟨p.1, List.mem_filter.mpr ⟨hp, grep_name p.1⟩, rfl⟩)
        exact cut_ne_nil _ _ hone
      rw [mkfsRound] at hround
      revert hself hround
      fun_cases sedAll p.1.name (k.lookup (tr '/' '_' k.source.name) p.1.name)
        (s ++ p.2.mkfsFile p.1.name) with
      | case1 => simp
      | case2 x hx hslash => simp
      | case3 x hx hslash => exact fun _ _ => ⟨x, rfl, hslash⟩
      | case4 => simp
    rw [mkfsRound_eq hx hplain] at heq
    have hlens : ((s.map fun l => l.map (sedText p.1.name x)) ++ p.2.mkfsFile x).length =
        (s' ++ p.2.mkfsFile (k.shown p.1.name)).length := by
      rw [List.length_append, List.length_append, List.length_map, hlen,
        length_mkfsFile p.2 x (k.shown p.1.name)]
    have hrest := ih hmem hnodup.2 hlens (by rw [heq, List.append_assoc])
    have hfresh : ∀ q ∈ files, ∀ l ∈ p.2.mkfsFile x, ∀ w ∈ l, ¬ q.1.name <:+: w := by
      intro q hq l hl w hw hin
      have hne : p.1 ≠ q.1 := by
        rintro hpq
        exact hnodup.1 (hpq ▸ List.mem_map_of_mem hq)
      exact notInfix_of_lookup hp (hmem q hq) hne k.flat_name.1 k.flat_name.2 hx (hrest q hq).1
        (infix_mkfsFile hl hw hin)
    obtain ⟨t, u, htlen, hkeep⟩ := foldl_keep (s := s.map fun l => l.map (sedText p.1.name x))
      (fun q hq => ⟨_, hrest q hq⟩) hfresh
    rw [hkeep] at heq
    have hfile := (List.append_inj heq (by rw [htlen, List.length_map, hlen])).2
    have hshown := (List.append_inj hfile (length_mkfsFile p.2 x _)).1
    obtain rfl := mkfsFile_injective hshown
    exact List.forall_mem_cons.mpr ⟨⟨hx, hplain⟩, hrest⟩

/-- With all arrays found, every round leaves what is there and appends a file. -/
theorem foldl_of_lookup {files : List (Device × FileSystem)} {s : List Words}
    (hmem : ∀ p ∈ files, p.1 ∈ k.devices) (hnodup : (files.map Prod.fst).Nodup)
    (hs : ∀ p ∈ files, ∀ l ∈ s, ∀ w ∈ l, ¬ p.1.name <:+: w)
    (h : ∀ p ∈ files, k.lookup (tr '/' '_' k.source.name) p.1.name = [k.shown p.1.name] ∧
      '/' ∉ k.shown p.1.name) :
    files.foldl k.mkfsRound s = s ++ files.flatMap fun p => p.2.mkfsFile (k.shown p.1.name) := by
  induction files generalizing s with
  | nil => simp
  | cons p files ih =>
    obtain ⟨hp, hmem⟩ := List.forall_mem_cons.mp hmem
    obtain ⟨hps, hs⟩ := List.forall_mem_cons.mp hs
    obtain ⟨⟨hx, hplain⟩, h⟩ := List.forall_mem_cons.mp h
    rw [List.map_cons, List.nodup_cons] at hnodup
    rw [List.foldl_cons, mkfsRound_eq hx hplain, sedAll_eq_self hps, ih hmem hnodup.2 ?_ h,
      List.flatMap_cons, List.append_assoc]
    intro q hq l hl w hw hin
    rcases List.mem_append.mp hl with hl | hl
    · exact hs q hq l hl w hw hin
    · have hne : p.1 ≠ q.1 := by
        rintro hpq
        exact hnodup.1 (hpq ▸ List.mem_map_of_mem hq)
      exact notInfix_of_lookup hp (hmem q hq) hne k.flat_name.1 k.flat_name.2 hx (h q hq).1
        (infix_mkfsFile hl hw hin)

theorem shown_name {a : Device} (ha : a ∈ k.devices) :
    k.shown a.name = (k.member a).getD a.name := by
  cases hfind : k.devices.find? fun b => b.name = a.name with
  | none =>
    have hnone := List.find?_eq_none.mp hfind a ha
    simp at hnone
  | some b =>
    have hname : b.name = a.name := by simpa using List.find?_some hfind
    obtain rfl := eq_of_name (List.mem_of_find?_eq_some hfind) ha hname
    rw [shown, hfind]

theorem mem_fileSystems {p : Device × FileSystem} (h : p ∈ k.fileSystems) : p.1 ∈ k.devices := by
  obtain ⟨a, ha, hfs⟩ := List.mem_filterMap.mp h
  obtain ⟨fs, _, rfl⟩ := Option.map_eq_some_iff.mp hfs
  exact ha

theorem perm_mkfsFiles (k : Clone) : k.mkfsFiles.Perm k.fileSystems := List.perm_insertionSort _ _

theorem nodup_mkfsFiles (k : Clone) : (k.mkfsFiles.map Prod.fst).Nodup := by
  have hfst : k.fileSystems.map Prod.fst = k.devices.filter fun a => a.fileSystem.isSome := by
    rw [fileSystems]
    induction k.devices with
    | nil => rfl
    | cons a devices ih =>
      rw [List.filterMap_cons, List.filter_cons]
      cases a.fileSystem with
      | none => exact ih
      | some fs => simpa using ih
  rw [(k.perm_mkfsFiles.map Prod.fst).nodup_iff, hfst]
  exact (List.Nodup.of_map _ k.nodup).filter _

theorem slash_notMem_member {a : Device} (h : k.member a = some x) (hplain : '/' ∉ k.source.name) :
    '/' ∉ x := by
  obtain ⟨m, _, rfl, hnumber⟩ := member_mem h
  obtain ⟨n, hn⟩ := Option.isSome_iff_exists.mp hnumber
  obtain ⟨hpartition, _, hdigits⟩ := Disk.number_eq_some_iff.mp hn
  rw [hpartition, List.mem_append, List.mem_append]
  rintro (hc | hc | hc)
  · exact hplain hc
  · exact absurd (Disk.mem_sep hc) (by decide)
  · exact absurd (hdigits _ hc) (by decide)

/-- What is found begins with the name of the disk, and an array does not. -/
theorem lookup_ne_name {a : Device} (ha : a ∈ k.devices) :
    k.lookup (tr '/' '_' k.source.name) a.name ≠ [a.name] := by
  intro h
  obtain ⟨_, m, _, _, hlast, _⟩ := (cutBracket_sedLast_eq_iff k.flat_name.1 k.flat_name.2).mp
    (lookup_eq_singleton ha h).2
  have hhead := Disk.head_ne_m k.notMd
  have hpre := (fromLast_eq_some hlast).1
  rw [Device.name, mdName_eq] at hpre
  cases hname : k.source.name with
  | nil => exact k.source.name_ne_nil hname
  | cons c t =>
    rw [hname, tr, List.map_cons, List.cons_prefix_cons] at hpre
    rw [hname, List.head?_cons, ne_eq, Option.some.injEq] at hhead
    have hc := hpre.1
    split at hc
    · exact absurd hc (by decide)
    · exact hhead hc

/-- The loop over the files of the arrays. -/
theorem foldl_iff :
    (k.mkfsFiles.foldl k.mkfsRound [] =
      k.mkfsFiles.flatMap fun p => p.2.mkfsFile (k.shown p.1.name)) ↔
      ∀ p ∈ k.fileSystems, ∃ m, k.member p.1 = some m ∧ k.Found p.1 m := by
  have hmem : ∀ p ∈ k.mkfsFiles, p.1 ∈ k.devices :=
    fun p hp => mem_fileSystems (k.perm_mkfsFiles.mem_iff.mp hp)
  constructor
  · intro h p hp
    have hdev := mem_fileSystems hp
    have hall := lookup_of_foldl hmem k.nodup_mkfsFiles (Eq.refl ([] : List Words).length) h
    obtain ⟨hx, hplain⟩ := hall p (k.perm_mkfsFiles.mem_iff.mpr hp)
    rw [shown_name hdev] at hx hplain
    cases hmember : k.member p.1 with
    | none =>
      rw [hmember] at hx
      exact absurd hx (lookup_ne_name hdev)
    | some m =>
      rw [hmember, Option.getD_some] at hx hplain
      have hslash : '/' ∉ k.source.name :=
        fun hin => hplain ((name_prefix_member hmember).subset hin)
      rw [tr_eq_self hslash, lookup_eq_iff hdev hslash] at hx
      exact ⟨m, rfl, hx⟩
  · intro h
    have hall : ∀ p ∈ k.mkfsFiles,
        k.lookup (tr '/' '_' k.source.name) p.1.name = [k.shown p.1.name] ∧
          '/' ∉ k.shown p.1.name := by
      intro p hp
      obtain ⟨m, hmember, hfound⟩ := h p (k.perm_mkfsFiles.mem_iff.mp hp)
      rw [shown_name (hmem p hp), hmember, Option.getD_some, tr_eq_self hfound.plain]
      exact ⟨(lookup_eq_iff (hmem p hp) hfound.plain).mpr hfound,
        slash_notMem_member hmember hfound.plain⟩
    rw [foldl_of_lookup hmem k.nodup_mkfsFiles (by simp) hall, List.nil_append]

theorem mkfs_iff : k.mkfsScript = k.mkfsShown ↔ ∀ p ∈ k.fileSystems,
    if k.diskScript.isSome then k.member p.1 = none
      else ∃ m, k.member p.1 = some m ∧ k.Found p.1 m := by
  cases hscript : k.diskScript with
  | none =>
    simp only [mkfsScript, mkfsShown, hscript, Option.getD_none, Option.isSome_none,
      Bool.false_eq_true, if_false]
    exact foldl_iff
  | some script =>
    simp only [mkfsScript, mkfsShown, hscript, Option.getD_some, Option.isSome_some, if_true]
    rw [List.self_eq_append_right, List.flatMap_eq_nil_iff]
    constructor
    · intro h p hp
      rw [← Option.not_isSome_iff_eq_none]
      intro hsome
      have hmem : p ∈ k.mkfsFiles.filter fun p => (k.member p.1).isSome :=
        List.mem_filter.mpr ⟨k.perm_mkfsFiles.mem_iff.mpr hp, hsome⟩
      exact absurd (h p hmem) (List.ne_nil_of_length_pos (length_mkfsFile_pos ..))
    · intro h p hp
      obtain ⟨hp, hsome⟩ := List.mem_filter.mp hp
      rw [h p (k.perm_mkfsFiles.mem_iff.mp hp)] at hsome
      cases hsome

theorem splitOn_dev (dev : Text) :
    ("/dev/".toList ++ dev).splitOn '/' = [] :: "dev".toList :: dev.splitOn '/' := by
  have hslash : "/dev/".toList ++ dev = [] ++ '/' :: ("dev".toList ++ '/' :: dev) := rfl
  rw [hslash, List.splitOn_append_cons_self_of_not_mem (by simp),
    List.splitOn_append_cons_self_of_not_mem (by decide)]

/-- `cut -d"/" -f 3` of a path below `/dev`. -/
theorem cut_dev (dev : Text) : cut '/' 3 ("/dev/".toList ++ dev) = dev.takeWhile (· ≠ '/') := by
  rw [cut, if_pos (by simp), splitOn_dev]
  exact head_splitOn '/' dev

theorem cut_name (a : Device) : cut '/' 3 ("/dev/".toList ++ a.name) = a.name := by
  rw [cut_dev]
  refine takeWhile_ne_eq_self ?_
  rw [Device.name, mdName, List.mem_cons, List.mem_cons]
  rintro (hc | hc | hc)
  · exact absurd hc (by decide)
  · exact absurd hc (by decide)
  · exact notMem_numeral (by decide) _ hc

theorem flatMap_eq_iff {α β : Type} {f g : α → List β} {l : List α}
    (hlen : ∀ x ∈ l, (f x).length = (g x).length) :
    l.flatMap f = l.flatMap g ↔ ∀ x ∈ l, f x = g x := by
  induction l with
  | nil => simp
  | cons x l ih =>
    obtain ⟨hx, hlen⟩ := List.forall_mem_cons.mp hlen
    rw [List.flatMap_cons, List.flatMap_cons, List.forall_mem_cons, ← ih hlen]
    constructor
    · intro h
      exact List.append_inj h hx
    · rintro ⟨hx, hl⟩
      rw [hx, hl]

/-- Pieces of which each has an element make up a list of as many elements just if each has
one. -/
theorem flatMap_eq_map_iff {α β : Type} {f : α → List β} {g : α → β} {l : List α}
    (hf : ∀ x ∈ l, f x ≠ []) : l.flatMap f = l.map g ↔ ∀ x ∈ l, f x = [g x] := by
  have hle : ∀ m : List α, (∀ x ∈ m, f x ≠ []) → m.length ≤ (m.flatMap f).length := by
    intro m hm
    induction m with
    | nil => simp
    | cons x m ih =>
      obtain ⟨hx, hm⟩ := List.forall_mem_cons.mp hm
      have := List.length_pos_iff.mpr hx
      have := ih hm
      rw [List.flatMap_cons, List.length_append, List.length_cons]
      omega
  induction l with
  | nil => simp
  | cons x l ih =>
    obtain ⟨hx, hf⟩ := List.forall_mem_cons.mp hf
    rw [List.flatMap_cons, List.map_cons, List.forall_mem_cons]
    constructor
    · intro h
      have hlen := congrArg List.length h
      rw [List.length_append, List.length_cons, List.length_map] at hlen
      have := hle l hf
      have := List.length_pos_iff.mpr hx
      have hone : (f x).length = [g x].length := by
        rw [List.length_singleton]
        omega
      obtain ⟨hx, hl⟩ := List.append_inj h hone
      exact ⟨hx, (ih hf).mp hl⟩
    · rintro ⟨hx, hl⟩
      rw [hx, (ih hf).mpr hl]
      rfl

theorem member_ne_nil {a : Device} (h : k.member a = some x) : x ≠ [] := by
  rintro rfl
  exact k.source.name_ne_nil (List.prefix_nil.mp (name_prefix_member h))

/-- The fixed words of `mkswap.sh` have no name of an array in them. -/
theorem sedText_word {w : Text} (hw : ¬ "md".toList <:+: w) : sedText (mdName number) x w = w :=
  sedText_absent fun hin => hw ((md_infix_mdName number).trans hin)

theorem sedText_dev (dev : Text) :
    sedText (mdName number) x ("/dev/".toList ++ dev) =
      "/dev/".toList ++ sedText (mdName number) x dev :=
  sedText_append_left (by decide) dev

/-- The lines of a swap area after the replacement of an array. -/
theorem lines_eq_iff (t : SwapArea) (dev : Text) :
    ((t.lines t.device).map fun l => l.map (sedText (mdName number) x)) = t.lines dev ↔
      (∀ w ∈ t.options, sedText (mdName number) x w = w) ∧
        sedText (mdName number) x t.device = dev := by
  have hwords : sedText (mdName number) x "mkswap".toList = "mkswap".toList ∧
      sedText (mdName number) x "swapon".toList = "swapon".toList ∧
      sedText (mdName number) x "-v1".toList = "-v1".toList :=
    ⟨sedText_word (by decide +kernel), sedText_word (by decide +kernel),
      sedText_word (by decide +kernel)⟩
  have hoptions : t.options.map (sedText (mdName number) x) = t.options ↔
      ∀ w ∈ t.options, sedText (mdName number) x w = w := by
    conv_lhs => rhs; rw [← List.map_id t.options]
    exact List.map_inj_left
  simp only [SwapArea.lines, List.map_cons, List.map_append, List.map_nil, hwords.1, hwords.2.1,
    hwords.2.2, sedText_dev, List.cons.injEq, true_and, and_true, List.append_cancel_left_eq]
  rw [← hoptions]
  constructor
  · rintro ⟨h, hdev⟩
    subst hdev
    exact ⟨List.append_cancel_right h, rfl⟩
  · rintro ⟨h, hdev⟩
    rw [h, hdev]
    exact ⟨rfl, rfl⟩

theorem length_lines (t : SwapArea) (x y : Text) : (t.lines x).length = (t.lines y).length := rfl

theorem sedAll_flatMap (pat x : Text) (areas : List SwapArea) :
    ((areas.flatMap fun t => t.lines t.device).map fun l => l.map (sedText pat x)) =
      areas.flatMap fun t => (t.lines t.device).map fun l => l.map (sedText pat x) :=
  List.map_flatMap ..

/-- After the replacement the last command is `swapon` of the last area. -/
theorem sedText_last {areas : List SwapArea} {s : SwapArea} {pat : Text}
    (hs : areas.getLast? = some s)
    (h : ((areas.flatMap fun t => t.lines t.device).map fun l => l.map (sedText pat x)) =
      areas.flatMap fun t => t.lines (k.shown t.device)) :
    sedText pat x ("/dev/".toList ++ s.device) = "/dev/".toList ++ k.shown s.device := by
  obtain ⟨front, rfl⟩ := List.getLast?_eq_some_iff.mp hs
  rw [sedAll_flatMap] at h
  have hlines := (flatMap_eq_iff fun t _ => (List.length_map ..).trans (length_lines t _ _)).mp h s
    (List.mem_append_right front (List.mem_singleton_self s))
  simp only [SwapArea.lines, List.map_cons, List.map_nil, List.cons.injEq, and_true] at hlines
  exact hlines.2.2

theorem shown_cases (k : Clone) (dev : Text) : k.shown dev = dev ∨
    ∃ a ∈ k.devices, dev = a.name ∧ ∃ p, k.member a = some p ∧ k.shown dev = p := by
  cases hfind : k.devices.find? fun a => a.name = dev with
  | none => exact Or.inl (by rw [shown, hfind])
  | some a =>
    have hname : a.name = dev := by simpa using List.find?_some hfind
    have ha := List.mem_of_find?_eq_some hfind
    have hshown := shown_name ha
    rw [hname] at hshown
    cases hmember : k.member a with
    | none => exact Or.inl (by rw [hshown, hmember, Option.getD_none])
    | some p =>
      exact Or.inr ⟨a, ha, hname.symm, p, hmember, by rw [hshown, hmember, Option.getD_some]⟩

theorem name_ne_member {a b : Device} (h : k.member b = some x) : a.name ≠ x := by
  rintro rfl
  obtain ⟨t, ht⟩ := name_prefix_member h
  have hhead := Disk.head_ne_m k.notMd
  rw [Device.name, mdName_eq] at ht
  cases hname : k.source.name with
  | nil => exact k.source.name_ne_nil hname
  | cons c u =>
    rw [hname, List.cons_append] at ht
    rw [hname, List.head?_cons, ne_eq, Option.some.injEq] at hhead
    exact hhead (List.cons_eq_cons.mp ht).1

theorem lines_injective {t : SwapArea} (h : t.lines x = t.lines y) : x = y := by
  simp only [SwapArea.lines, List.cons.injEq, and_true, true_and] at h
  exact List.append_cancel_left h.2

/-- The component of the device of an area is a piece of its path. -/
theorem cut_dev_infix (t : SwapArea) :
    cut '/' 3 ("/dev/".toList ++ t.device) <:+: "/dev/".toList ++ t.device ∧
      cut '/' 3 ("/dev/".toList ++ t.device) ≠ [] ∧ '/' ∉ cut '/' 3 ("/dev/".toList ++ t.device) := by
  rw [cut_dev]
  refine ⟨(List.takeWhile_prefix _).isInfix.trans (List.suffix_append _ _).isInfix, ?_, ?_⟩
  · obtain ⟨c, d, hdev, hc⟩ := t.plain
    rw [hdev, List.takeWhile_cons_of_pos (by simpa using hc)]
    exact List.cons_ne_nil c _
  · exact notMem_takeWhile_ne '/' t.device

/-- The script with the last area an array that has a member on the disk. -/
theorem sedAll_array {a : Device} (ha : a ∈ k.devices) (hmember : k.member a = some x)
    (halone : ∀ b ∈ k.devices, grep a.name b.line = true → b = a) :
    ((k.swap.flatMap fun t => t.lines t.device).map fun l => l.map (sedText a.name x)) =
        (k.swap.flatMap fun t => t.lines (k.shown t.device)) ↔
      ∀ t ∈ k.swap, (∀ w ∈ t.options, ¬ a.name <:+: w) ∧
        (t.device = a.name ∨ k.shown t.device = t.device ∧ ¬ a.name <:+: t.device) := by
  have hself : ∀ w, sedText a.name x w = w ↔ ¬ a.name <:+: w := by
    intro w
    refine (sedText_eq_self_iff (mdName_ne_nil a.number)).trans ?_
    exact or_iff_right (name_ne_member hmember)
  rw [sedAll_flatMap, flatMap_eq_iff fun t _ => (List.length_map ..).trans (length_lines t _ _)]
  refine forall₂_congr fun t _ => (lines_eq_iff t _).trans ?_
  refine and_congr (forall₂_congr fun w _ => hself w) ?_
  constructor
  · intro h
    by_cases hname : t.device = a.name
    · exact Or.inl hname
    · by_cases hin : a.name <:+: t.device
      · exfalso
        rcases k.shown_cases t.device with hshown | ⟨b, hb, hdev, _⟩
        · rw [hshown] at h
          exact (hself t.device).mp h hin
        · rw [hdev] at hin hname
          refine hname (congrArg Device.name (halone b hb ?_))
          exact List.any_eq_true.mpr ⟨b.name, List.mem_cons_self, by simpa using hin⟩
      · exact Or.inr ⟨h.symm.trans ((hself t.device).mpr hin), hin⟩
  · rintro (hname | ⟨hshown, hin⟩)
    · rw [hname, shown_name ha, hmember, Option.getD_some]
      exact sedText_self (mdName_ne_nil a.number) x
    · rw [hshown]
      exact (hself t.device).mpr hin

/-- A replacement by itself leaves the areas. -/
theorem sedAll_same {pat : Text} (hpat : pat ≠ []) :
    ((k.swap.flatMap fun t => t.lines t.device).map fun l => l.map (sedText pat pat)) =
        (k.swap.flatMap fun t => t.lines (k.shown t.device)) ↔
      ∀ t ∈ k.swap, k.shown t.device = t.device := by
  have hid : ∀ file : List Words, (file.map fun l => l.map (sedText pat pat)) = file := by
    intro file
    have hsed : sedText pat pat = id := funext fun w => (sedText_eq_self_iff hpat).mpr (Or.inl rfl)
    simp [hsed]
  rw [hid, flatMap_eq_iff fun t _ => length_lines t _ _]
  refine forall₂_congr fun t _ => ?_
  constructor
  · intro h
    exact (lines_injective h).symm
  · intro h
    rw [h]

/-- The replacement in `mkswap.sh` when it is the areas that are to be shown. -/
theorem exists_of_sedAll {xs : Words} {pat : Text} {s : SwapArea} (hs : k.swap.getLast? = some s)
    (h : sedAll pat xs (k.swap.flatMap fun t => t.lines t.device) =
      k.swap.flatMap fun t => t.lines (k.shown t.device)) :
    ∃ x, (xs = [] ∧ x = [] ∨ xs = [x]) ∧
      ((k.swap.flatMap fun t => t.lines t.device).map fun l => l.map (sedText pat x)) =
        k.swap.flatMap fun t => t.lines (k.shown t.device) := by
  have hne : ([] : List Words) ≠ k.swap.flatMap fun t => t.lines (k.shown t.device) := by
    intro hnil
    have := List.flatMap_eq_nil_iff.mp hnil.symm s (List.mem_of_getLast? hs)
    cases this
  revert h
  fun_cases sedAll pat xs (k.swap.flatMap fun t => t.lines t.device) with
  | case1 => exact fun h => ⟨[], Or.inl ⟨rfl, rfl⟩, h⟩
  | case2 x hslash => exact fun h => absurd h hne
  | case3 x hslash => exact fun h => ⟨x, Or.inr rfl, h⟩
  | case4 => exact fun h => absurd h hne

theorem lookup_of_swap {xmd : Text}
    (h : (if '/' ∈ k.source.name then [] else k.lookup k.source.name xmd) = [x]) :
    '/' ∉ k.source.name ∧ k.lookup k.source.name xmd = [x] := by
  split at h
  · cases h
  · rename_i hplain
    exact ⟨hplain, h⟩

theorem swap_iff :
    k.mkswapScript = (k.swap.flatMap fun s => s.lines (k.shown s.device)) ↔
      ∀ s, k.swap.getLast? = some s → k.SwapFound s := by
  rw [mkswapScript]
  cases hs : k.swap.getLast? with
  | none =>
    rw [List.getLast?_eq_none_iff] at hs
    simp [hs]
  | some s =>
    obtain ⟨hpath, hne, hslash⟩ := cut_dev_infix s
    simp only [Option.some.injEq, forall_eq']
    constructor
    · intro h
      obtain ⟨x, hx, hscript⟩ := exists_of_sedAll hs h
      have hlast := sedText_last hs hscript
      rcases k.shown_cases s.device with hshown | ⟨a, ha, hdev, p, hmember, hshown⟩
      · right
        rw [hshown, sedText_eq_self_iff hne, or_iff_left (not_not.mpr hpath)] at hlast
        rcases hx with ⟨_, rfl⟩ | hx
        · exact absurd hlast hne
        · obtain ⟨hplain, hlookup⟩ := lookup_of_swap hx
          rw [← hlast] at hlookup hscript
          obtain ⟨a, ha, hgrep, halone, hcut⟩ := lookup_eq_singleton_iff.mp hlookup
          exact ⟨(sedAll_same hne).mp hscript, hplain, a, ha, hgrep, halone,
            (cutBracket_sedLast_eq_iff k.bracket_notMem_name k.source.d_mem_name).mp hcut⟩
      · left
        rw [hdev, cut_name] at hx hlast hscript
        rw [← hdev, hshown, hdev, Device.name, sedText_dev, List.append_cancel_left_eq,
          sedText_self (mdName_ne_nil a.number)] at hlast
        subst hlast
        rcases hx with ⟨_, rfl⟩ | hx
        · exact absurd rfl (member_ne_nil hmember)
        · obtain ⟨hplain, hlookup⟩ := lookup_of_swap hx
          have hfound := (lookup_eq_iff ha hplain).mp hlookup
          exact ⟨a, ha, hdev, x, hmember, hfound, (sedAll_array ha hmember hfound.alone).mp hscript⟩
    · rintro (⟨a, ha, hdev, p, hmember, hfound, hareas⟩ |
        ⟨hareas, hplain, a, ha, hgrep, halone, hlast⟩)
      · rw [hdev, cut_name, if_neg hfound.plain, (lookup_eq_iff ha hfound.plain).mpr hfound, sedAll,
          if_neg (slash_notMem_member hmember hfound.plain)]
        exact (sedAll_array ha hmember hfound.alone).mpr hareas
      · have hlookup := lookup_eq_singleton_iff.mpr ⟨a, ha, hgrep, halone,
          (cutBracket_sedLast_eq_iff k.bracket_notMem_name k.source.d_mem_name).mpr hlast⟩
        rw [if_neg hplain, hlookup, sedAll, if_neg hslash]
        exact (sedAll_same hne).mpr hareas

theorem echo_ne_nil (before xs after : Words) : echo before xs after ≠ [] := by
  fun_cases echo before xs after <;> simp

/-- What is printed is one line just if there is at most one line to be printed. -/
theorem echo_eq_singleton_iff {before xs after l : Words} : echo before xs after = [l] ↔
    xs = [] ∧ before ++ after = l ∨ ∃ x, xs = [x] ∧ before ++ x :: after = l := by
  fun_cases echo before xs after with
  | case1 => simp
  | case2 x => simp
  | case3 x y xs =>
    have := echo_ne_nil [] (y :: xs) after
    simp [this]

theorem label_iff :
    (k.labelScript = k.labels.map fun l =>
      [if k.shown l.device = l.device then l.program else "e2label".toList,
        "/dev/".toList ++ k.shown l.device, l.label]) ↔
      ∀ l ∈ k.labels, k.OneLine (cut '/' 3 ("/dev/".toList ++ l.device)) (k.shown l.device) ∧
        (k.shown l.device = l.device → l.program = "e2label".toList) := by
  rw [labelScript, flatMap_eq_map_iff fun l _ => echo_ne_nil _ _ _]
  refine forall₂_congr fun l _ => echo_eq_singleton_iff.trans ?_
  have hprogram : "e2label".toList =
      (if k.shown l.device = l.device then l.program else "e2label".toList) ↔
      (k.shown l.device = l.device → l.program = "e2label".toList) := by
    by_cases h : k.shown l.device = l.device
    · rw [if_pos h, forall_prop_of_true h]
      exact eq_comm
    · rw [if_neg h]
      exact iff_of_true rfl fun h' => absurd h' h
  rw [← hprogram, OneLine]
  constructor
  · rintro (⟨_, h⟩ | ⟨x, hx, h⟩)
    · have hlen := congrArg List.length h
      cases hlen
    · obtain ⟨e, he, rfl⟩ := List.map_eq_singleton_iff.mp hx
      simp only [List.singleton_append, List.cons.injEq, and_true, List.append_cancel_left_eq] at h
      exact ⟨⟨e, he, h.2⟩, h.1⟩
  · rintro ⟨⟨e, he, hpartition⟩, h⟩
    right
    refine ⟨"/dev/".toList ++ e.partition, by rw [he]; rfl, ?_⟩
    rw [← h, hpartition]
    rfl

theorem shown_ne_nil {dev : Text} (h : dev ≠ []) : k.shown dev ≠ [] := by
  rcases k.shown_cases dev with hshown | ⟨a, _, _, p, hmember, hshown⟩
  · rw [hshown]
    exact h
  · rw [hshown]
    exact member_ne_nil hmember

/-- A line that is not for an array is to stay. -/
theorem fstabShown_other {dev : Text} {fields : Words} (h : ¬ "/dev/md".toList <+: dev) :
    k.fstabShown (dev :: fields) = dev :: fields := by
  rw [fstabShown]
  split
  · rename_i hdev
    obtain ⟨d, rfl⟩ := hdev
    rcases k.shown_cases d with hshown | ⟨a, _, hname, _⟩
    · have hdrop : ("/dev/".toList ++ d).drop 5 = d := rfl
      rw [hdrop, hshown]
    · exact absurd ⟨numeral a.number, by rw [hname]; rfl⟩ h
  · rfl

theorem fstabLine_iff {dev : Text} {fields : Words} (h : "/dev/md".toList <+: dev) :
    k.fstabLine (dev :: fields) = [k.fstabShown (dev :: fields)] ↔
      (∃ e, k.dfLines (cut '/' 3 dev) = [e] ∧
        cut '/' 3 ("/dev/".toList ++ e.partition) = k.shown (dev.drop 5)) ∧ fields.length ≤ 5 := by
  have hdev : "/dev/".toList <+: dev := (List.prefix_append "/dev/".toList "md".toList).trans h
  have hne : dev.drop 5 ≠ [] := by
    obtain ⟨t, rfl⟩ := h
    exact List.cons_ne_nil 'm' _
  rw [fstabLine, if_pos h, fstabShown, if_pos hdev, ← List.take_eq_self_iff]
  cases hlines : k.dfLines (cut '/' 3 dev) with
  | nil =>
    rw [List.map_nil]
    simp only [List.cons.injEq, and_true]
    constructor
    · rintro ⟨h, _⟩
      have hnil := List.append_cancel_left ((List.append_nil "/dev/".toList).trans h)
      exact absurd hnil.symm (shown_ne_nil hne)
    · rintro ⟨⟨e, he, _⟩, _⟩
      cases he
  | cons e es =>
    rw [List.map_cons]
    simp only [echo_eq_singleton_iff, List.cons.injEq, reduceCtorEq, false_and, false_or,
      List.map_eq_nil_iff, List.nil_append]
    constructor
    · rintro ⟨x, ⟨rfl, hes⟩, hpartition, hfields⟩
      exact ⟨⟨e, ⟨rfl, hes⟩, List.append_cancel_left hpartition⟩, hfields⟩
    · rintro ⟨⟨e', ⟨rfl, hes⟩, hpartition⟩, hfields⟩
      exact ⟨_, ⟨rfl, hes⟩, by rw [hpartition], hfields⟩

theorem fstab_iff : k.fstabFile = k.fstab.map k.fstabShown ↔
    ∀ dev fields, dev :: fields ∈ k.fstab → "/dev/md".toList <+: dev →
      (∃ e, k.dfLines (cut '/' 3 dev) = [e] ∧
        cut '/' 3 ("/dev/".toList ++ e.partition) = k.shown (dev.drop 5)) ∧ fields.length ≤ 5 := by
  have hne : ∀ l ∈ k.fstab, k.fstabLine l ≠ [] := by
    intro l _
    fun_cases fstabLine k l with
    | case1 => simp
    | case2 dev fields h hlines => simp
    | case3 dev fields h x xs hlines => exact echo_ne_nil _ _ _
    | case4 dev fields h => simp
  rw [fstabFile, flatMap_eq_map_iff hne]
  constructor
  · intro h dev fields hl hdev
    exact (fstabLine_iff hdev).mp (h _ hl)
  · intro h l hl
    cases l with
    | nil => rfl
    | cons dev fields =>
      by_cases hdev : "/dev/md".toList <+: dev
      · exact (fstabLine_iff hdev).mpr (h dev fields hl hdev)
      · rw [fstabShown_other hdev, fstabLine, if_neg hdev]

/-- The line of a member of an array with a file system stands in `md/df`. -/
theorem exists_mem_df {p : Device × FileSystem} (hp : p ∈ k.fileSystems)
    (hmember : k.member p.1 = some x) :
    ∃ e ∈ k.df, grep x e.words = true ∧ e.device = p.1.name := by
  obtain ⟨m, hm, rfl, _⟩ := member_mem hmember
  refine ⟨⟨m.partition, p.2.blocks, p.2.used, p.2.available, p.2.capacity, p.2.mounted, p.1.name⟩,
    ?_, ?_, rfl⟩
  · rw [df, (List.perm_insertionSort _ _).mem_iff, List.mem_dedup]
    exact List.mem_append_left _ (List.mem_flatMap.mpr ⟨p, hp, List.mem_map_of_mem hm⟩)
  · have hin : m.partition <:+: "/dev/".toList ++ m.partition := (List.suffix_append _ _).isInfix
    exact List.any_eq_true.mpr ⟨_, List.mem_cons_self, decide_eq_true hin⟩

theorem sdev_iff {p : Device × FileSystem} (hp : p ∈ k.fileSystems)
    (hmember : k.member p.1 = some x) :
    k.sdev x = [p.1.name] ↔ ∃ e, (k.df.filter fun e => grep x e.words) = [e] := by
  constructor
  · intro h
    obtain ⟨e, he, _⟩ := List.map_eq_singleton_iff.mp h
    exact ⟨e, he⟩
  · rintro ⟨e, he⟩
    obtain ⟨e', hdf, hgrep, hdevice⟩ := exists_mem_df hp hmember
    have hmem : e' ∈ k.df.filter fun e => grep x e.words := List.mem_filter.mpr ⟨hdf, hgrep⟩
    rw [he, List.mem_singleton] at hmem
    rw [sdev, he, List.map_singleton, ← hmem, hdevice]

/-- Just under these conditions the rewritings agree. -/
theorem agrees_iff (k : Clone) : k.Agrees ↔ k.Clear := by
  constructor
  · intro h
    exact ⟨mkfs_iff.mp h.mkfs, swap_iff.mp h.swap, label_iff.mp h.label, fstab_iff.mp h.fstab,
      fun p hp m hm => (sdev_iff hp hm).mp (h.restore p hp m hm)⟩
  · intro h
    exact ⟨mkfs_iff.mpr h.mkfs, swap_iff.mpr h.swap, label_iff.mpr h.label, fstab_iff.mpr h.fstab,
      fun p hp m hm => (sdev_iff hp hm).mpr (h.restore p hp m hm)⟩

end Scripts

def hda1 : Member := ⟨"hda1".toList, 0, false, by decide⟩

def hda2 : Member := ⟨"hda2".toList, 0, false, by decide⟩

def hdb1 : Member := ⟨"hdb1".toList, 1, false, by decide⟩

def hdb2 : Member := ⟨"hdb2".toList, 1, false, by decide⟩

def ext3 (mounted : Text) : FileSystem where
  blocks := "1000".toList
  used := "500".toList
  available := "500".toList
  capacity := "50%".toList
  mounted := mounted
  fsType := "ext3".toList
  modules := ["raid1".toList]
  options := ["-j".toList]
  plain := by decide +kernel

theorem raid1_plain : ∀ w ∈ ["active".toList, "raid1".toList], '[' ∉ w := by decide

/-- A mirror of two members. -/
def mirror (number : Nat) (first second : Member) (mounted : Text) : Device where
  number := number
  state := ["active".toList, "raid1".toList]
  members := [second, first]
  fileSystem := some (ext3 mounted)
  members_ne := by simp
  plain := raid1_plain

/-- The disk `hda` with a member of either of two mirrors. -/
def mirrors (m n : Nat) (h : m ≠ n) : Clone where
  devices := [mirror m hda1 hdb1 "/".toList, mirror n hda2 hdb2 "/home".toList]
  source := .ide ⟨'a', rfl⟩
  diskScript := none
  swap := []
  labels := [⟨"e2label".toList, mdName m, "/".toList⟩]
  fstab := [["/dev/".toList ++ mdName n, "/home".toList, "ext3".toList, "defaults".toList]]
  nodup := by simpa [mirror] using h
  single := by
    have hone : ∀ first second : Member, first = hda1 ∧ second = hdb1 ∨ first = hda2 ∧ second = hdb2 →
        ([second, first].filter fun m =>
          ((Disk.ide ⟨'a', rfl⟩).number m.partition).isSome).length ≤ 1 := by
      rintro _ _ (⟨rfl, rfl⟩ | ⟨rfl, rfl⟩) <;> decide +kernel
    rw [List.forall_mem_cons, List.forall_mem_singleton]
    exact ⟨hone _ _ (Or.inl ⟨rfl, rfl⟩), hone _ _ (Or.inr ⟨rfl, rfl⟩)⟩
  notMd := by decide

/-- The mirrors `md0` and `md1` are cloned as they should be. -/
example : (mirrors 0 1 (by decide)).mkfsScript =
      (ext3 "/".toList).mkfsFile "hda1".toList ++ (ext3 "/home".toList).mkfsFile "hda2".toList ∧
    (mirrors 0 1 (by decide)).labelScript =
      [["e2label".toList, "/dev/hda1".toList, "/".toList]] ∧
    (mirrors 0 1 (by decide)).fstabFile =
      [["/dev/hda2".toList, "/home".toList, "ext3".toList, "defaults".toList]] ∧
    (mirrors 0 1 (by decide)).sdev "hda1".toList = ["md0".toList] := by
  decide +kernel

/-- With `md1` and `md10` the commands for `md1` are lost. -/
theorem prefix_lost : ¬ ∀ k : Clone, k.Agrees := by
  intro h
  have hscript := (h (mirrors 1 10 (by decide))).mkfs
  have hlost : (mirrors 1 10 (by decide)).mkfsScript.length = 4 := by decide +kernel
  have hkept : (mirrors 1 10 (by decide)).mkfsShown.length = 8 := by decide +kernel
  rw [hscript, hkept] at hlost
  cases hlost

end Clone

end MetaDevices
