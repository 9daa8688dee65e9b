import MkCDrec.Lib.Script
import MkCDrec.Lib.ShellText

/-!
# The scripts that build arrays and volumes again

`buildraid.sh` and `buildLVM.sh` call one generated script after the other and leave when
`rc` is not zero. The scripts they call add to an `rc` of their own. Only `mkraid` is
called in `buildraid.sh` itself, and its status is looked at.
-/

namespace BuildScripts

open ShellText Script

inductive Phase
  | partition
  | pvcreate
  | vgcreate
  | lvcreate
  | create
  | mkfs
deriving DecidableEq

/-- The order of the phases; the volumes have no `create`, and the arrays neither volumes nor
groups. -/
def Phase.rank : Phase → Nat
  | partition => 0
  | pvcreate => 1
  | vgcreate => 2
  | lvcreate => 3
  | create => 4
  | mkfs => 5

/-- A command and the phase that it belongs to. -/
structure Command where
  phase : Option Phase
  line : Text
deriving DecidableEq

/-- A generated script: it counts, but does not look at what it counted. -/
structure Child where
  lines : List (Line Command)
  unchecked : ∀ l ∈ lines, l ≠ .check ∧ l ≠ .checkLast

inductive Job
  | command (c : Command)
  | script (s : Child)

def Job.commands : Job → List Command
  | command c => [c]
  | script s => calls s.lines

section Run

variable (σ : Nat → Nat)

/-- A command has the exit status that is set for it in the order of the commands. -/
def runCommand (c : Command) (ran : List Command) : Ended Command := (ran ++ [c], σ ran.length)

def runJob : Job → List Command → Ended Command
  | .command c, ran => runCommand σ c ran
  | .script s, ran => run (runCommand σ) s.lines ran

end Run

section Files

/-- A file of lines that are commands. -/
def listed (phase : Phase) (lines : List Text) : Child where
  lines := lines.map fun l => .call ⟨some phase, l⟩
  unchecked := by simp

/-- Commands, whose last status is counted, and one more that is not. -/
def counted (phase : Phase) (lines : List Text) (last : List Text) : List (Line Command) :=
  (lines.map fun l => .call ⟨some phase, l⟩) ++ .count :: last.map fun l => .call ⟨some phase, l⟩

theorem counted_unchecked (phase : Phase) (lines last : List Text) :
    ∀ l ∈ counted phase lines last, l ≠ .check ∧ l ≠ .checkLast := by
  simp only [counted, List.mem_append, List.mem_cons, List.mem_map]
  rintro l (⟨_, _, rfl⟩ | rfl | ⟨_, _, rfl⟩) <;> simp

/-- `sfdisk.dsk` in the directory `lvm` or `md`. -/
def sfdiskFile (dir dsk : Text) : Child where
  lines := counted .partition
    ["sfdisk --force /dev/".toList ++ dsk ++ " < /etc/recovery/".toList ++ dir ++
      "/partitions.".toList ++ tr '/' '_' dsk]
    ["touch /tmp/sfdisk.".toList ++ tr '/' '_' dsk ++ ".done".toList]
  unchecked := counted_unchecked _ _ _

/-- `mkfs.VG` or `mkfs.mdN`: for each file system the modules, and then `mkfs`. -/
def mkfsFile (fileSystems : List (List Text × Text)) : Child where
  lines := fileSystems.flatMap fun f => counted .mkfs (f.1 ++ [f.2]) []
  unchecked := by
    intro l hl
    obtain ⟨f, _, hl⟩ := List.mem_flatMap.mp hl
    exact counted_unchecked _ _ _ l hl

/-- `for s in files; do $s; if [ $rc -ne 0 ]; then exit 1; fi; done`. -/
def loop (files : List Child) : List (Line Job) :=
  files.flatMap fun s => [.call (.script s), .check]

/-- The same with the name of the file on the screen. -/
def echoLoop (files : List Child) : List (Line Job) :=
  files.flatMap fun s => [.echo, .call (.script s), .check]

/-- A command of no phase. -/
def other (line : Text) : Line Job := .call (.command ⟨none, line⟩)

/-- The generated files for the volumes; `mkfs` has them with the name of the group. -/
structure LvmFiles where
  partitioning : List Child
  pvcreate : List (List Text)
  vgcreate : List Text
  lvcreate : List Text
  mkfs : List (Text × List (List Text × Text))
  groups : List Text

/-- `buildLVM.sh` behind the question. -/
def buildLVM (k : LvmFiles) : List (Line Job) :=
  [other "mkmdnod".toList, other "modprobe -q dm_mod 2>/dev/null".toList,
    other "modprobe -q dm-mod  2>/dev/null".toList,
    other "modprobe -q lvm-mod 2>/dev/null".toList, other "vgscan".toList, .clear, .echo] ++
  echoLoop k.partitioning ++
  [other "udevstart".toList, other "makedev".toList, .clear, .echo] ++
  (k.mkfs.flatMap fun f => [.echo, other ("rm -r /dev/".toList ++ f.1)]) ++
  (k.groups.map fun vg => other ("rm -r /dev/".toList ++ vg)) ++
  [.echo, other "mkmdnod".toList, .echo] ++
  echoLoop (k.pvcreate.map (listed .pvcreate)) ++
  [.clear, .echo, .call (.script (listed .vgcreate k.vgcreate)), .check,
    .echo, other "vgchange -a y".toList, .echo,
    .call (.script (listed .lvcreate k.lvcreate)), .check, .echo] ++
  echoLoop (k.mkfs.map fun f => mkfsFile f.2) ++
  [.echo, other "vgcfgbackup".toList, .echo]

/-- The arrays are made by `mkraid` for each of them, or by `mdadm-create.sh`. -/
inductive Create
  | raidtools (devices : List Text)
  | mdadm (lines : List Text)

structure MdFiles where
  disks : List Text
  create : Create
  mkfs : List (List (List Text × Text))

def mkraid (md : Text) : Job := .command ⟨some .create, "mkraid --really-force ".toList ++ md⟩

def Create.lines : Create → List (Line Job)
  | raidtools devices => (devices.map mkraid).flatMap fun c => [.call c, .checkLast]
  | mdadm lines => [.call (.script (listed .create lines))]

def buildraid (k : MdFiles) : List (Line Job) :=
  .clear :: loop (k.disks.map (sfdiskFile "md".toList)) ++ [.clear] ++ k.create.lines ++
    (.clear :: loop (k.mkfs.map mkfsFile)) ++ [.echo]

end Files

section Outcomes

variable (σ : Nat → Nat)

/-- `buildLVM.sh` with the answer to its question. -/
def runLVM (k : LvmFiles) (an : Text) : Ended Command :=
  if an = "q".toList then ([], 1) else run (runJob σ) (buildLVM k) []

def runRaid (k : MdFiles) : Ended Command := run (runJob σ) (buildraid k) []

/-- After the failure of a command of a phase the script ends with status 1, and nothing of a
later phase is run. -/
def StopsAtFailure (r : Ended Command) : Prop :=
  ∀ i c phase, r.1[i]? = some c → c.phase = some phase → σ i ≠ 0 →
    r.2 = 1 ∧ ∀ d ∈ r.1, ∀ later, d.phase = some later → later.rank ≤ phase.rank

end Outcomes

section Lines

variable {σ : Nat → Nat} {p : List (Line Job)} {files : List Child}

theorem runCommand_ran (c : Command) (ran : List Command) : (runCommand σ c ran).1 = ran ++ [c] :=
  rfl

/-- A script is run to its end. -/
theorem runJob_ran (j : Job) (ran : List Command) : (runJob σ j ran).1 = ran ++ j.commands := by
  cases j with
  | command c => rfl
  | script s =>
    obtain ⟨s', hs', hran⟩ := exec_of_unchecked (runCommand_ran (σ := σ)) s.unchecked ⟨0, 0, ran⟩
    simp [runJob, run, hs', outcome, hran, Job.commands]

/-- A line that cannot make `rc` different from zero, and does not look at the last status. -/
def Uncounted (l : Line Job) : Prop := l ≠ .count ∧ l ≠ .checkLast

theorem uncounted_loop (files : List Child) : ∀ l ∈ loop files, Uncounted l := by
  simp only [loop, List.mem_flatMap, List.mem_cons, List.not_mem_nil, or_false]
  rintro l ⟨s, _, rfl | rfl⟩ <;> simp [Uncounted]

theorem uncounted_echoLoop (files : List Child) : ∀ l ∈ echoLoop files, Uncounted l := by
  simp only [echoLoop, List.mem_flatMap, List.mem_cons, List.not_mem_nil, or_false]
  rintro l ⟨s, _, rfl | rfl | rfl⟩ <;> simp [Uncounted]

theorem calls_loop (files : List Child) : calls (loop files) = files.map .script := by
  induction files with
  | nil => rfl
  | cons s files ih => exact congrArg _ ih

theorem calls_checked (cs : List Job) :
    calls (cs.flatMap fun c => [.call c, .checkLast]) = cs := by
  induction cs with
  | nil => rfl
  | cons c cs ih => exact congrArg _ ih

/-- Without a look at a status of its own such a script runs all of its commands, and ends with
the status of its last `echo`. -/
theorem exec_of_echo {s : Shell Command} (hp : ∀ l ∈ p, Uncounted l)
    (hlast : p.getLast? = some .echo) (hrc : s.rc = 0) :
    outcome (exec (runJob σ) p s) = (s.ran ++ (calls p).flatMap Job.commands, 0) := by
  obtain ⟨q, rfl⟩ := List.getLast?_eq_some_iff.mp hlast
  have hq : ∀ l ∈ q, Uncounted l := fun l hl => hp l (List.mem_append_left _ hl)
  obtain ⟨s', hs', _, hran⟩ := exec_of_uncounted (runJob_ran (σ := σ)) hq hrc
  rw [exec_append_of_ok hs', calls_append]
  simp [exec, step, outcome, hran, calls]

theorem stopsAtFailure_zero (cs : List Command) : StopsAtFailure σ (cs, 0) ↔
    ∀ i c phase, cs[i]? = some c → c.phase = some phase → σ i = 0 := by
  constructor
  · intro h i c phase hc hphase
    by_contra hfail
    cases (h i c phase hc hphase hfail).1
  · intro h i c phase hc hphase hfail
    exact absurd (h i c phase hc hphase) hfail

end Lines

section Volumes

variable {σ : Nat → Nat}

/-- The commands in the order of the scripts. -/
def LvmFiles.commands (k : LvmFiles) : List Command := (calls (buildLVM k)).flatMap Job.commands

theorem uncounted_buildLVM (k : LvmFiles) : ∀ l ∈ buildLVM k, Uncounted l := by
  have hother : ∀ line, Uncounted (other line) := fun _ => by simp [Uncounted, other]
  have hcall : ∀ s : Child, Uncounted (.call (.script s)) := fun _ => by simp [Uncounted]
  have hecho : Uncounted .echo := by simp [Uncounted]
  have hclear : Uncounted .clear := by simp [Uncounted]
  have hcheck : Uncounted .check := by simp [Uncounted]
  have hgroups : ∀ l ∈ k.groups.map fun vg => other ("rm -r /dev/".toList ++ vg), Uncounted l := by
    intro l hl
    obtain ⟨vg, _, rfl⟩ := List.mem_map.mp hl
    exact hother _
  have hmkfs : ∀ l ∈ k.mkfs.flatMap fun f => [.echo, other ("rm -r /dev/".toList ++ f.1)],
      Uncounted l := by
    intro l hl
    obtain ⟨f, _, hl⟩ := List.mem_flatMap.mp hl
    rcases List.mem_pair.mp hl with rfl | rfl
    · exact hecho
    · exact hother _
  simp only [buildLVM, List.forall_mem_append, List.forall_mem_cons, hother, hcall, hecho, hclear,
    hcheck, true_and]
  simp only [List.not_mem_nil, false_imp_iff, implies_true, and_true]
  exact ⟨⟨⟨⟨⟨trivial, uncounted_echoLoop _⟩, hmkfs⟩, hgroups⟩, uncounted_echoLoop _⟩,
    uncounted_echoLoop _⟩

theorem runLVM_eq (k : LvmFiles) {an : Text} (han : an ≠ "q".toList) :
    runLVM σ k an = (k.commands, 0) := by
  have hlast : (buildLVM k).getLast? = some .echo := by
    rw [buildLVM, List.getLast?_append]
    rfl
  rw [runLVM, if_neg han, run, exec_of_echo (uncounted_buildLVM k) hlast rfl, List.nil_append,
    LvmFiles.commands]

/-- `buildLVM.sh` never stops at a failure. -/
theorem runLVM_stops_iff (k : LvmFiles) (an : Text) : StopsAtFailure σ (runLVM σ k an) ↔
    an = "q".toList ∨ ∀ i c phase, k.commands[i]? = some c → c.phase = some phase → σ i = 0 := by
  by_cases han : an = "q".toList
  · rw [runLVM, if_pos han]
    refine iff_of_true ?_ (Or.inl han)
    intro i c phase hc
    simp at hc
  · rw [runLVM_eq k han, stopsAtFailure_zero, or_iff_right han]

end Volumes

section Arrays

variable {σ : Nat → Nat}

namespace MdFiles

variable (k : MdFiles)

/-- The commands of the phases. -/
def partitioning : List Command :=
  k.disks.flatMap fun dsk => calls (sfdiskFile "md".toList dsk).lines

def creating : List Command := (calls k.create.lines).flatMap Job.commands

def formatting : List Command := k.mkfs.flatMap fun f => calls (mkfsFile f).lines

/-- No command fails but `mkraid`, and nothing at all if no `mkraid` does. -/
def Succeeds (σ : Nat → Nat) : Prop :=
  (∀ i < k.partitioning.length, σ i = 0) ∧
    ((∀ i < k.creating.length + k.formatting.length, σ (k.partitioning.length + i) = 0) ∨
      (∃ devices, k.create = .raidtools devices) ∧
        ∃ i < k.creating.length, σ (k.partitioning.length + i) ≠ 0)

end MdFiles

theorem phase_counted {c : Command} {phase : Phase} {lines last : List Text}
    (h : c ∈ calls (counted phase lines last)) : c.phase = some phase := by
  have hmap : ∀ ls : List Text,
      calls (ls.map fun l => Line.call (⟨some phase, l⟩ : Command)) = ls.map (⟨some phase, ·⟩) := by
    intro ls
    induction ls with
    | nil => rfl
    | cons l ls ih => exact congrArg _ ih
  rw [counted, calls_append, hmap] at h
  rcases List.mem_append.mp h with h | h
  · obtain ⟨_, _, rfl⟩ := List.mem_map.mp h
    rfl
  · simp only [calls, hmap] at h
    obtain ⟨_, _, rfl⟩ := List.mem_map.mp h
    rfl

namespace MdFiles

variable {k : MdFiles} {c : Command}

theorem phase_partitioning (h : c ∈ k.partitioning) : c.phase = some .partition := by
  obtain ⟨dsk, _, hc⟩ := List.mem_flatMap.mp h
  exact phase_counted hc

theorem calls_listed (phase : Phase) (lines : List Text) :
    calls (listed phase lines).lines = lines.map (⟨some phase, ·⟩) := by
  simp only [listed]
  induction lines with
  | nil => rfl
  | cons l ls ih => exact congrArg _ ih

theorem creating_raidtools {devices : List Text} (hcreate : k.create = .raidtools devices) :
    k.creating = (devices.map mkraid).flatMap Job.commands := by
  rw [creating, hcreate, Create.lines, calls_checked]

theorem phase_creating (h : c ∈ k.creating) : c.phase = some .create := by
  cases hcreate : k.create with
  | raidtools devices =>
    rw [creating_raidtools hcreate] at h
    obtain ⟨j, hj, hc⟩ := List.mem_flatMap.mp h
    obtain ⟨md, _, rfl⟩ := List.mem_map.mp hj
    obtain rfl := List.mem_singleton.mp hc
    rfl
  | mdadm lines =>
    rw [creating, hcreate] at h
    have hc : c ∈ calls (listed .create lines).lines := by
      simpa [Create.lines, calls, Job.commands] using h
    rw [calls_listed] at hc
    obtain ⟨_, _, rfl⟩ := List.mem_map.mp hc
    rfl

theorem phase_formatting (h : c ∈ k.formatting) : c.phase = some .mkfs := by
  obtain ⟨f, _, hc⟩ := List.mem_flatMap.mp h
  have hflat : ∀ (fs : List (List Text × Text)),
      c ∈ calls (fs.flatMap fun f => counted .mkfs (f.1 ++ [f.2]) []) → c.phase = some .mkfs := by
    intro fs hc
    induction fs with
    | nil => cases hc
    | cons f fs ih =>
      rw [List.flatMap_cons, calls_append] at hc
      rcases List.mem_append.mp hc with hc | hc
      · exact phase_counted hc
      · exact ih hc
  exact hflat f hc

theorem commands_loop (files : List Child) :
    (calls (loop files)).flatMap Job.commands = files.flatMap fun s => calls s.lines := by
  rw [calls_loop, List.flatMap_map]
  rfl

/-- The lines before and behind those that make the arrays. -/
def head (k : MdFiles) : List (Line Job) :=
  .clear :: loop (k.disks.map (sfdiskFile "md".toList)) ++ [.clear]

def tail (k : MdFiles) : List (Line Job) := .clear :: loop (k.mkfs.map mkfsFile) ++ [.echo]

theorem buildraid_eq (k : MdFiles) : buildraid k = k.head ++ (k.create.lines ++ k.tail) := by
  simp [buildraid, head, tail]

theorem commands_head (k : MdFiles) : (calls k.head).flatMap Job.commands = k.partitioning := by
  rw [head, calls_append, List.flatMap_append, calls, commands_loop, List.flatMap_map]
  · simp [calls, partitioning]
  · simp

theorem commands_tail (k : MdFiles) : (calls k.tail).flatMap Job.commands = k.formatting := by
  rw [tail, calls_append, List.flatMap_append, calls, commands_loop, List.flatMap_map]
  · simp [calls, formatting]
  · simp

theorem uncounted_head (k : MdFiles) : ∀ l ∈ k.head, Uncounted l := by
  have hclear : Uncounted .clear := by simp [Uncounted]
  simp only [head, List.forall_mem_append, List.forall_mem_cons, hclear, true_and]
  simp only [List.not_mem_nil, false_imp_iff, implies_true, and_true]
  exact uncounted_loop _

theorem uncounted_tail (k : MdFiles) : ∀ l ∈ k.tail, Uncounted l := by
  have hclear : Uncounted .clear := by simp [Uncounted]
  have hecho : Uncounted .echo := by simp [Uncounted]
  simp only [tail, List.forall_mem_append, List.forall_mem_cons, hclear, hecho, true_and]
  simp only [List.not_mem_nil, false_imp_iff, implies_true, and_true]
  exact uncounted_loop _

end MdFiles

open MdFiles

variable {k : MdFiles}

/-- With `mdadm` everything is run. -/
theorem runRaid_mdadm {lines : List Text} (hcreate : k.create = .mdadm lines) :
    runRaid σ k = (k.partitioning ++ k.creating ++ k.formatting, 0) := by
  have hlast : (buildraid k).getLast? = some .echo := by
    rw [buildraid, List.getLast?_append]
    rfl
  have huncounted : ∀ l ∈ buildraid k, Uncounted l := by
    have hcall : ∀ l ∈ k.create.lines, Uncounted l := by
      rw [hcreate]
      simp [Create.lines, Uncounted]
    rw [buildraid_eq]
    simp only [List.forall_mem_append]
    exact ⟨uncounted_head k, hcall, uncounted_tail k⟩
  rw [runRaid, run, exec_of_echo huncounted hlast rfl, buildraid_eq, calls_append, calls_append,
    List.flatMap_append, List.flatMap_append, commands_head, commands_tail]
  simp [creating]

/-- With the raidtools everything is run, or there is an end at the first `mkraid` that fails. -/
theorem runRaid_raidtools {devices : List Text} (hcreate : k.create = .raidtools devices) :
    (runRaid σ k = (k.partitioning ++ k.creating ++ k.formatting, 0) ∧
      ∀ i < k.creating.length, σ (k.partitioning.length + i) = 0) ∨
    ∃ before c after, k.creating = before ++ c :: after ∧
      σ (k.partitioning.length + before.length) ≠ 0 ∧
      runRaid σ k = (k.partitioning ++ before ++ [c], 1) := by
  obtain ⟨s, hs, hrc, hran⟩ := exec_of_uncounted (s := ⟨0, 0, []⟩) (runJob_ran (σ := σ))
    (uncounted_head k) rfl
  rw [commands_head, List.nil_append] at hran
  have hjobs : ∀ ds : List Text, (ds.map mkraid).flatMap Job.commands =
      ds.map fun md => ⟨some .create, "mkraid --really-force ".toList ++ md⟩ := by
    intro ds
    induction ds with
    | nil => rfl
    | cons d ds ih => exact congrArg _ ih
  rw [runRaid, run, buildraid_eq, exec_append_of_ok hs, creating_raidtools hcreate, hcreate,
    Create.lines]
  rcases exec_of_checked (runJob_ran (σ := σ)) (devices.map mkraid) s with
    ⟨s', hs', hrc', hran', hall⟩ | ⟨before, j, after, hsplit, hfail, herror⟩
  · left
    have hlast : k.tail.getLast? = some .echo := by
      rw [MdFiles.tail, List.getLast?_append]
      rfl
    rw [exec_append_of_ok hs', exec_of_echo (uncounted_tail k) hlast (hrc'.trans hrc),
      commands_tail, hran', hran]
    refine ⟨rfl, ?_⟩
    intro i hi
    have hi : i < devices.length := by simpa [hjobs] using hi
    have hsplit : devices.map mkraid = (devices.take i).map mkraid ++
        mkraid (devices[i]) :: (devices.drop (i + 1)).map mkraid := by
      rw [← List.map_cons, ← List.map_append, List.getElem_cons_drop, List.take_append_drop]
    have hzero := hall _ _ _ hsplit
    rw [hran, hjobs] at hzero
    simpa [runJob, mkraid, runCommand, Nat.min_eq_left hi.le] using hzero
  · right
    obtain ⟨ds, rest, rfl, rfl, hrest⟩ := List.map_eq_append_iff.mp hsplit
    obtain ⟨md, ds', rfl, rfl, rfl⟩ := List.map_eq_cons_iff.mp hrest
    rw [exec_append_of_error herror, hran, hjobs]
    refine ⟨ds.map fun md => ⟨some .create, "mkraid --really-force ".toList ++ md⟩,
      ⟨some .create, "mkraid --really-force ".toList ++ md⟩, _, by rw [List.map_append]; rfl, ?_, ?_⟩
    · rw [hran, hjobs] at hfail
      simpa [runJob, mkraid, runCommand] using hfail
    · simp [outcome, hjobs, mkraid, Job.commands]

theorem getElem?_phase {cs : List Command} {phase : Phase} (hcs : ∀ c ∈ cs, c.phase = some phase)
    {i : Nat} {c : Command} {later : Phase} (hc : cs[i]? = some c) (hphase : c.phase = some later) :
    later = phase := by
  have hmem := List.mem_of_getElem? hc
  rw [hcs c hmem] at hphase
  exact (Option.some.inj hphase).symm

/-- Where everything is run, nothing may fail. -/
theorem stopsAtFailure_all (k : MdFiles) :
    StopsAtFailure σ (k.partitioning ++ k.creating ++ k.formatting, 0) ↔
      (∀ i < k.partitioning.length, σ i = 0) ∧
        ∀ i < k.creating.length + k.formatting.length, σ (k.partitioning.length + i) = 0 := by
  have hphase : ∀ c ∈ k.partitioning ++ k.creating ++ k.formatting,
      ∃ phase, c.phase = some phase := by
    intro c hc
    rcases List.mem_append.mp hc with hc | hc
    · rcases List.mem_append.mp hc with hc | hc
      · exact ⟨_, phase_partitioning hc⟩
      · exact ⟨_, phase_creating hc⟩
    · exact ⟨_, phase_formatting hc⟩
  have hlength : (k.partitioning ++ k.creating ++ k.formatting).length =
      k.partitioning.length + (k.creating.length + k.formatting.length) := by
    simp only [List.length_append]
    omega
  rw [stopsAtFailure_zero]
  constructor
  · intro h
    have hall : ∀ i < (k.partitioning ++ k.creating ++ k.formatting).length, σ i = 0 := by
      intro i hi
      obtain ⟨phase, hc⟩ := hphase _ (List.getElem_mem hi)
      exact h i _ phase (List.getElem?_eq_getElem hi) hc
    constructor
    · intro i hi
      exact hall i (by omega)
    · intro i hi
      exact hall _ (by omega)
  · rintro ⟨hhead, hrest⟩ i c phase hc _
    obtain ⟨hi, _⟩ := List.getElem?_eq_some_iff.mp hc
    by_cases hlt : i < k.partitioning.length
    · exact hhead i hlt
    · have hsum : k.partitioning.length + (i - k.partitioning.length) = i := by omega
      rw [← hsum]
      exact hrest _ (by omega)

theorem runRaid_stops_iff (k : MdFiles) : StopsAtFailure σ (runRaid σ k) ↔ k.Succeeds σ := by
  rw [Succeeds]
  cases hcreate : k.create with
  | mdadm lines =>
    have hother : ¬ ∃ devices, Create.mdadm lines = .raidtools devices := by simp
    rw [runRaid_mdadm hcreate, stopsAtFailure_all]
    simp only [hother, false_and, or_false]
  | raidtools devices =>
    rcases runRaid_raidtools (σ := σ) hcreate with
      ⟨hrun, hzero⟩ | ⟨before, c, after, hsplit, hfail, hrun⟩
    · rw [hrun, stopsAtFailure_all]
      refine and_congr_right fun _ => ?_
      rw [or_iff_left]
      rintro ⟨_, i, hi, hfail⟩
      exact hfail (hzero i hi)
    · have hlt : before.length < k.creating.length := by simp [hsplit]
      have hright : (∀ i < k.creating.length + k.formatting.length,
          σ (k.partitioning.length + i) = 0) ∨
          (∃ ds, Create.raidtools devices = .raidtools ds) ∧
            ∃ i < k.creating.length, σ (k.partitioning.length + i) ≠ 0 :=
        Or.inr ⟨⟨devices, rfl⟩, before.length, hlt, hfail⟩
      have hcreating : ∀ d ∈ before ++ [c], d.phase = some .create := by
        intro d hd
        apply phase_creating (k := k)
        rw [hsplit]
        rcases List.mem_append.mp hd with hd | hd
        · exact List.mem_append_left _ hd
        · obtain rfl := List.mem_singleton.mp hd
          simp
      rw [hrun, and_iff_left hright, List.append_assoc]
      constructor
      · intro h i hi
        by_contra hstatus
        have hget : (k.partitioning ++ (before ++ [c]))[i]? = some (k.partitioning[i]) := by
          rw [List.getElem?_append_left hi, List.getElem?_eq_getElem hi]
        obtain ⟨_, hlater⟩ := h i _ .partition hget (phase_partitioning (List.getElem_mem hi)) hstatus
        have hrank := hlater c (by simp) .create (hcreating c (by simp))
        exact absurd hrank (by decide)
      · intro h i d phase hd hphase hstatus
        have hle : k.partitioning.length ≤ i := by
          by_contra hlt
          exact hstatus (h i (Nat.not_le.mp hlt))
        rw [List.getElem?_append_right hle] at hd
        obtain rfl := getElem?_phase hcreating hd hphase
        refine ⟨rfl, ?_⟩
        intro e he later hlater
        rcases List.mem_append.mp he with he | he
        · rw [phase_partitioning he] at hlater
          obtain rfl := Option.some.inj hlater
          decide
        · rw [hcreating e he] at hlater
          obtain rfl := Option.some.inj hlater
          decide

end Arrays

/-- A generated script is a process of its own, so the scripts stop at the first failure exactly
where there is none, where the user leaves, or where it is `mkraid` that fails. -/
theorem stops_iff (σ : Nat → Nat) :
    (∀ k an, StopsAtFailure σ (runLVM σ k an) ↔
      an = "q".toList ∨ ∀ i c phase, k.commands[i]? = some c → c.phase = some phase → σ i = 0) ∧
    ∀ k, StopsAtFailure σ (runRaid σ k) ↔ k.Succeeds σ :=
  ⟨runLVM_stops_iff, runRaid_stops_iff⟩

/-- A machine with one disk in an array. -/
def oneDisk : MdFiles where
  disks := ["hda".toList]
  create := .mdadm ["mdadm --create /dev/md0 --level=1 --raid-devices=1 /dev/hda1".toList]
  mkfs := [[(["modprobe -q ext2".toList], "mkfs -t ext2 /dev/md0".toList)]]

/-- `sfdisk` fails, and the array is made and formatted all the same. -/
theorem formatted_after_failure :
    ¬ ∀ (σ : Nat → Nat) (k : MdFiles), StopsAtFailure σ (runRaid σ k) := by
  intro hall
  have hstop := hall (fun i => if i = 0 then 1 else 0) oneDisk 0
    ⟨some .partition,
      "sfdisk --force /dev/hda < /etc/recovery/md/partitions.hda".toList⟩ .partition
    (by decide) rfl (by decide)
  exact absurd hstop.1 (by decide)

end BuildScripts
