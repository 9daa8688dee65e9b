import Mathlib.Data.List.Perm.Basic
import Mathlib.Data.Nat.Prime.Basic
import MkCDrec.Lib.Collecting
import MkCDrec.Lib.Patterns

/-!
# The scripts for the logical volumes

`lvm2` writes a `vgcreate` for every volume group and an `lvcreate` for every logical
volume, each time it is called. Lists leave the loops through files in `/tmp`, which stay
as they are where a loop has nothing to do. The physical volumes of a logical volume are
tested with `grep` before they are listed, and its stripes are read from the last line of
`lvs`, in megabytes of 1000000 bytes with two decimals.
-/

namespace LogicalVolumes

open ShellText Collecting Paths Patterns

abbrev Words := List Text

/-- A line of a report: what it names, and the words behind that. -/
structure ReportLine where
  label : Text
  values : Words

/-- `grep -i label | awk '{print $n}'` with the word behind the label. -/
def field (label : Text) (report : List ReportLine) : Words :=
  (report.filter fun l => label <:+: l.label).map fun l => l.values.headD []

/-- What a part of a segment lies on: a physical volume, or a leg of a mirror, which is a
hidden logical volume of its own. -/
inductive Area
  | physical (pv : Text)
  | leg (lv : Text) (pvs : Words)

/-- A physical volume has a name below `/dev`. -/
def device (pv : Text) : Text := "/dev/".toList ++ pv

def Area.pvs : Area → Words
  | physical pv => [device pv]
  | leg _ pvs => pvs.map device

def Area.line : Area → ReportLine
  | physical pv => ⟨"Physical volume".toList, [device pv]⟩
  | leg lv _ => ⟨"Logical volume".toList, [lv]⟩

/-- A segment, with the size of its stripes in bytes. A segment without stripes has size 0. -/
structure Segment where
  areas : List Area
  stripes : Nat
  stripeSize : Nat
  power : stripeSize = 0 ∨ ∃ n, stripeSize = 2 ^ n

def Segment.Striped (s : Segment) : Prop := 1 < s.stripes ∧ s.stripeSize ≠ 0

instance (s : Segment) : Decidable s.Striped := inferInstanceAs (Decidable (_ ∧ _))

/-- A size as `lvs --units M` prints it. -/
def megabytes (size : Nat) : Text :=
  if size = 0 then "0M".toList
  else
    let h := (size + 5000) / 10000
    numeral (h / 100) ++ ['.', (h % 100 / 10).digitChar, (h % 10).digitChar, 'M']

/-- A number with two decimals, in hundredths. -/
def hundredths (t : Text) : Nat := value (t.filter Char.isDigit)

/-- What `lvcreate` may take for a megabyte. -/
inductive Mega
  | decimal
  | binary

def Mega.bytes : Mega → Nat
  | decimal => 1000 * 1000
  | binary => 1024 * 1024

/-- The options of `lvcreate` are those of the segment: its own number and size of stripes,
and none for a segment without stripes. -/
def Segment.Fits (s : Segment) (mega : Mega) : Option (Text × Text) → Prop
  | none => ¬ s.Striped
  | some (stripes, strsize) => s.Striped ∧ stripes = numeral s.stripes ∧
      hundredths strsize * mega.bytes = 100 * s.stripeSize

structure LogicalVolume where
  name : Text
  currentLE : Text
  readAhead : Text
  segments : List Segment
  plain : '/' ∉ name

namespace LogicalVolume

variable (l : LogicalVolume)

/-- The physical volumes it lies on. -/
def pvs : Words := l.segments.flatMap fun s => s.areas.flatMap Area.pvs

/-- `lvdisplay -m`. -/
def lvdisplayM : List ReportLine :=
  l.segments.flatMap fun s => ⟨"Logical extents".toList, []⟩ :: s.areas.map Area.line

/-- The physical volumes in `lvdisplay -m`, with repetitions. -/
def shown : Words := field "Physical volume".toList l.lvdisplayM

end LogicalVolume

structure VolumeGroup where
  name : Text
  maxLV : Text
  maxPV : Text
  /-- The size of an extent and its unit. -/
  peSize : Words
  pvs : Words
  lvs : List LogicalVolume
  pvs_ne : pvs ≠ []
  distinct : pvs.Nodup
  names : (lvs.map LogicalVolume.name).Nodup
  plain : '/' ∉ name

namespace VolumeGroup

variable (g : VolumeGroup)

def path (l : LogicalVolume) : Text := device (g.name ++ '/' :: l.name)

def vgdisplay : List ReportLine :=
  [⟨"VG Name".toList, [g.name]⟩, ⟨"MAX LV".toList, [g.maxLV]⟩, ⟨"Max PV".toList, [g.maxPV]⟩,
    ⟨"PE Size".toList, g.peSize⟩]

def vgdisplayV : List ReportLine :=
  g.vgdisplay ++
    (g.lvs.flatMap fun l =>
      [⟨"LV Name".toList, [g.path l]⟩, ⟨"VG Name".toList, [g.name]⟩]) ++
    g.pvs.map fun pv => ⟨"PV Name".toList, [device pv]⟩

def lvdisplay (l : LogicalVolume) : List ReportLine :=
  [⟨"LV Name".toList, [g.path l]⟩, ⟨"VG Name".toList, [g.name]⟩,
    ⟨"Current LE".toList, [l.currentLE]⟩, ⟨"Read ahead sectors".toList, [l.readAhead]⟩]

end VolumeGroup

/-- The volumes of a machine. `lvs` has a line for every segment, with at least eight
columns before those that follow, and a last one that is asked for. -/
structure Lvm where
  groups : List VolumeGroup
  lvs : List (Words × Segment)
  names : (groups.map VolumeGroup.name).Nodup
  listed : (lvs.map Prod.snd).Perm (groups.flatMap fun g => g.lvs.flatMap LogicalVolume.segments)
  wide : ∀ r ∈ lvs, 8 ≤ r.1.length
  /-- The percentage of a copy is not a number without a point. -/
  percent : ∀ r ∈ lvs, ∀ w ∈ r.1.drop 8, w = [] ∨ '.' ∈ w

/-- A line of `vgcreate.sh`. -/
structure VgCreate where
  maxLV : Words
  maxPV : Words
  peSize : Text
  name : Text
  pvs : Words
deriving DecidableEq

def VgCreate.words (c : VgCreate) : Words :=
  ["vgcreate".toList, "-A".toList, "n".toList, "-v".toList, "-l".toList] ++ c.maxLV ++
    "-p".toList :: c.maxPV ++ ["-s".toList, c.peSize, c.name] ++ c.pvs

/-- A line of `lvcreate.sh`. -/
structure LvCreate where
  extents : Words
  readAhead : Words
  stripes : Option (Text × Text)
  name : Text
  group : Words
  pvs : Words
deriving DecidableEq

def LvCreate.words (c : LvCreate) : Words :=
  ["lvcreate".toList, "-A".toList, "n".toList, "-v".toList, "-l".toList] ++ c.extents ++
    "-r".toList :: c.readAhead ++
    (match c.stripes with
      | some (stripes, strsize) => ["-i".toList, stripes, "-I".toList, strsize]
      | none => []) ++
    "-n".toList :: c.name :: c.group ++ c.pvs

/-- `vgcreate.sh`, `lvcreate.sh` and the files `/tmp/PVs_VG` and `/tmp/PVs_LV`. -/
structure Files where
  vgcreate : List VgCreate
  lvcreate : List LvCreate
  pvsVG : Words
  pvsLV : Words

/-- `sed -e 's/B//'` for the size of an extent, the number without a fraction and the unit. -/
def peSize (size : Words) : Text :=
  let pe := sedOnce ['B'] [] size.flatten
  (cut ',' 1 (cut '.' 1 pe)).eraseP Char.isAlpha ++ (pe.filter fun c => !c.isDigit).drop 1

/-- `[ "${s}" -gt n ]`: an error for what is no number. -/
def exceeds (s : Text) (n : Nat) : Bool := s ≠ [] && s.all Char.isDigit && n < value s

/-- Whether `grep` finds a name in the list. -/
def listedIn (kept : Words) (pv : Text) : Bool := contains pv ([' '].intercalate kept)

/-- One turn of the loop over the physical volumes of a logical volume. -/
def pvTurn (s : Words × Words) (line : Text) : Words × Words :=
  if listedIn s.1 line then s else (s.1 ++ [line], s.1 ++ [line])

section Loops

variable (k : Lvm)

/-- `cut -d: -f9- | sed -e 's/://g'` of the last line of `lvs`, with a column added. -/
def lastColumns (added : Segment → Text) : Text :=
  match k.lvs.getLast? with
  | none => []
  | some (columns, s) => ((columns ++ [added s]).drop 8).flatten

def stripeOptions : Option (Text × Text) :=
  let stripes := lastColumns k fun s => numeral s.stripes
  let strsize := lastColumns k fun s => megabytes s.stripeSize
  if stripes ≠ [] ∧ exceeds stripes 1 ∧ strsize ≠ [] ∧ strsize ≠ "0M".toList then
    some (stripes, strsize)
  else none

/-- The loop over the logical volumes of a group. -/
def lvTurn (g : VolumeGroup) (f : Files) (l : LogicalVolume) : Files :=
  let pvs := (l.shown.foldl pvTurn ([], f.pvsLV)).2
  { f with
    pvsLV := pvs
    lvcreate := f.lvcreate ++ [{
      extents := field "Current LE".toList (g.lvdisplay l)
      readAhead := field "Read ahead sectors".toList (g.lvdisplay l)
      stripes := stripeOptions k
      name := cutFrom '/' 4 (g.path l)
      group := field "VG Name".toList (g.lvdisplay l)
      pvs := pvs }] }

/-- The loop over the groups. -/
def vgTurn (f : Files) (g : VolumeGroup) : Files :=
  let lines := field "PV Name".toList g.vgdisplayV
  let pvs := (lines.foldl (fun s line => (s.1 ++ [line], s.1 ++ [line])) ([], f.pvsVG)).2
  g.lvs.foldl (lvTurn k g) { f with
    pvsVG := pvs
    vgcreate := f.vgcreate ++ [{
      maxLV := field "MAX LV".toList g.vgdisplay
      maxPV := field "Max PV".toList g.vgdisplay
      peSize := peSize g.peSize
      name := g.name
      pvs := pvs }] }

def lvm2 (f : Files) : Files := k.groups.foldl (vgTurn k) f

/-- `lvm`: after the scripts are written they are sorted, and the files in `/tmp` go. -/
def lvm (f : Files) : Files :=
  let f := lvm2 k f
  { vgcreate := f.vgcreate.dedup.insertionSort fun c d =>
      strcoll ([' '].intercalate c.words) ([' '].intercalate d.words)
    lvcreate := f.lvcreate.dedup.insertionSort fun c d =>
      strcoll ([' '].intercalate c.words) ([' '].intercalate d.words)
    pvsVG := []
    pvsLV := [] }

/-- The files after some calls. -/
def afterCalls : Nat → Files
  | 0 => ⟨[], [], [], []⟩
  | n + 1 => lvm k (afterCalls n)

end Loops

section Fields

variable {label : Text} {report : List ReportLine}

@[simp] theorem field_nil (label : Text) : field label [] = [] := rfl

theorem field_cons (label l : Text) (values : Words) (report : List ReportLine) :
    field label (⟨l, values⟩ :: report) =
      if label <:+: l then values.headD [] :: field label report else field label report := by
  by_cases h : label <:+: l
  · simp [field, h]
  · simp [field, h]

theorem field_append (label : Text) (report report' : List ReportLine) :
    field label (report ++ report') = field label report ++ field label report' := by
  simp [field]

variable (g : VolumeGroup) (l : LogicalVolume)

theorem field_currentLE : field "Current LE".toList (g.lvdisplay l) = [l.currentLE] := by
  simp +decide only [VolumeGroup.lvdisplay, field_cons, field_nil]
  rfl

theorem field_readAhead : field "Read ahead sectors".toList (g.lvdisplay l) = [l.readAhead] := by
  simp +decide only [VolumeGroup.lvdisplay, field_cons, field_nil]
  rfl

theorem field_vgName : field "VG Name".toList (g.lvdisplay l) = [g.name] := by
  simp +decide only [VolumeGroup.lvdisplay, field_cons, field_nil]
  rfl

theorem field_maxLV : field "MAX LV".toList g.vgdisplay = [g.maxLV] := by
  simp +decide only [VolumeGroup.vgdisplay, field_cons, field_nil]
  rfl

theorem field_maxPV : field "Max PV".toList g.vgdisplay = [g.maxPV] := by
  simp +decide only [VolumeGroup.vgdisplay, field_cons, field_nil]
  rfl

theorem field_pvName : field "PV Name".toList g.vgdisplayV = g.pvs.map device := by
  have hgroup : field "PV Name".toList g.vgdisplay = [] := by
    simp +decide only [VolumeGroup.vgdisplay, field_cons, field_nil]
    rfl
  have hlvs : ∀ lvs : List LogicalVolume, field "PV Name".toList (lvs.flatMap fun l =>
      [⟨"LV Name".toList, [g.path l]⟩, ⟨"VG Name".toList, [g.name]⟩]) = [] := by
    intro lvs
    induction lvs with
    | nil => rfl
    | cons l lvs ih =>
      simp +decide only [List.flatMap_cons, List.cons_append, List.nil_append, field_cons, ih]
      rfl
  have hpvs : ∀ pvs : Words, field "PV Name".toList (pvs.map fun pv =>
      ⟨"PV Name".toList, [device pv]⟩) = pvs.map device := by
    intro pvs
    induction pvs with
    | nil => rfl
    | cons pv pvs ih =>
      rw [List.map_cons, field_cons, if_pos List.infix_rfl, ih]
      rfl
  simp only [VolumeGroup.vgdisplayV, field_append, hgroup, hlvs, hpvs, List.nil_append]

end Fields

section Physical

theorem device_ne_nil (pv : Text) : device pv ≠ [] := by
  intro h
  cases h

theorem test_listedIn : Test listedIn where
  self _ _ h := contains_of_infix (infix_intercalate h)
  mono kept rest pv h := by
    obtain ⟨t, ht⟩ := intercalate_append ' ' kept rest
    rw [listedIn, ht]
    exact contains_mono h t

/-- The physical volumes in the report are among those that it lies on. -/
theorem mem_shown {l : LogicalVolume} {pv : Text} (h : pv ∈ l.shown) : pv ∈ l.pvs ∧ pv ≠ [] := by
  obtain ⟨line, hline, rfl⟩ := List.mem_map.mp h
  obtain ⟨hline, hlabel⟩ := List.mem_filter.mp hline
  obtain ⟨s, hs, hline⟩ := List.mem_flatMap.mp hline
  rcases List.mem_cons.mp hline with rfl | hline
  · exact absurd (of_decide_eq_true hlabel) (by decide)
  · obtain ⟨a, ha, rfl⟩ := List.mem_map.mp hline
    cases a with
    | physical pv =>
      refine ⟨List.mem_flatMap.mpr ⟨s, hs, List.mem_flatMap.mpr ⟨.physical pv, ha, ?_⟩⟩,
        device_ne_nil pv⟩
      exact List.mem_singleton.mpr rfl
    | leg lv pvs =>
      have hother : ¬ "Physical volume".toList <:+: "Logical volume".toList := by decide
      exact absurd (of_decide_eq_true hlabel) hother

/-- The file in `/tmp` is written where there is something to write. -/
theorem foldl_pvTurn (lines tmp : Words) (hlines : ∀ pv ∈ lines, pv ≠ []) :
    lines.foldl pvTurn ([], tmp) =
      (collect listedIn lines, if lines = [] then tmp else collect listedIn lines) := by
  induction lines using List.reverseRecOn with
  | nil => rfl
  | append_singleton lines pv ih =>
    have hinit := ih fun x hx => hlines x (List.mem_append_left _ hx)
    have hne : ¬ lines ++ [pv] = [] := by simp
    rw [List.foldl_append, hinit, collect_snoc, if_neg hne]
    simp only [List.foldl_cons, List.foldl_nil, pvTurn]
    split
    · rename_i hfound
      have hlines : lines ≠ [] := by
        rintro rfl
        have hpv := hlines pv (by simp)
        simp [listedIn, contains_nil hpv] at hfound
      rw [if_neg hlines]
    · rfl

theorem foldl_lines (lines tmp : Words) :
    lines.foldl (fun (s : Words × Words) line => (s.1 ++ [line], s.1 ++ [line])) ([], tmp) =
      (lines, if lines = [] then tmp else lines) := by
  induction lines using List.reverseRecOn with
  | nil => rfl
  | append_singleton lines line ih =>
    have hne : ¬ lines ++ [line] = [] := by simp
    simp [List.foldl_append, ih, hne]

end Physical

section Calls

variable (k : Lvm)

/-- The logical volumes in the order of the loops. -/
def Lvm.volumes : List (VolumeGroup × LogicalVolume) :=
  k.groups.flatMap fun g => g.lvs.map fun l => (g, l)

/-- The names in the last report that has some. -/
def lastShown : Words → List (VolumeGroup × LogicalVolume) → Words
  | last, [] => last
  | last, p :: ps => lastShown (if p.2.shown = [] then last else p.2.shown) ps

def vgCommand (g : VolumeGroup) : VgCreate where
  maxLV := [g.maxLV]
  maxPV := [g.maxPV]
  peSize := peSize g.peSize
  name := g.name
  pvs := g.pvs.map device

def lvCommand (p : VolumeGroup × LogicalVolume) (last : Words) : LvCreate where
  extents := [p.2.currentLE]
  readAhead := [p.2.readAhead]
  stripes := stripeOptions k
  name := p.2.name
  group := [p.1.name]
  pvs := collect listedIn last

/-- What one call writes to `lvcreate.sh`. -/
def lvCommands : Words → List (VolumeGroup × LogicalVolume) → List LvCreate
  | _, [] => []
  | last, p :: ps =>
    let last := if p.2.shown = [] then last else p.2.shown
    lvCommand k p last :: lvCommands last ps

variable {k}

theorem cutFrom_path (g : VolumeGroup) (l : LogicalVolume) : cutFrom '/' 4 (g.path l) = l.name := by
  have hslash : '/' ∈ g.path l := by simp [VolumeGroup.path, device]
  have hsplit : (g.path l).splitOn '/' = [[], "dev".toList, g.name, l.name] := by
    have hpath : g.path l = [] ++ '/' :: ("dev".toList ++ '/' :: (g.name ++ '/' :: l.name)) := rfl
    rw [hpath, List.splitOn_append_cons_self_of_not_mem List.not_mem_nil,
      List.splitOn_append_cons_self_of_not_mem (by decide), splitOn_pair g.plain l.plain]
  rw [cutFrom, if_pos hslash, hsplit]
  simp

/-- One turn, with the names that the last report left in `/tmp`. -/
theorem lvTurn_eq (g : VolumeGroup) (l : LogicalVolume) {f : Files} {last : Words}
    (hf : f.pvsLV = collect listedIn last) :
    lvTurn k g f l = { f with
      pvsLV := collect listedIn (if l.shown = [] then last else l.shown)
      lvcreate := f.lvcreate ++ [lvCommand k (g, l) (if l.shown = [] then last else l.shown)] } := by
  have hpvs : (l.shown.foldl pvTurn ([], f.pvsLV)).2 =
      collect listedIn (if l.shown = [] then last else l.shown) := by
    rw [foldl_pvTurn _ _ fun pv hpv => (mem_shown hpv).2, hf]
    split
    · rfl
    · rfl
  rw [lvTurn, hpvs, field_currentLE, field_readAhead, field_vgName, cutFrom_path]
  rfl

theorem foldl_lvTurn (g : VolumeGroup) (lvs : List LogicalVolume) {f : Files} {last : Words}
    (hf : f.pvsLV = collect listedIn last) :
    lvs.foldl (lvTurn k g) f = { f with
      pvsLV := collect listedIn (lastShown last (lvs.map fun l => (g, l)))
      lvcreate := f.lvcreate ++ lvCommands k last (lvs.map fun l => (g, l)) } := by
  induction lvs generalizing f last with
  | nil => simp [lastShown, lvCommands, ← hf]
  | cons l lvs ih =>
    rw [List.foldl_cons, lvTurn_eq g l hf, ih rfl]
    simp [lastShown, lvCommands]

theorem vgTurn_eq (g : VolumeGroup) {f : Files} {last : Words}
    (hf : f.pvsLV = collect listedIn last) :
    vgTurn k f g = {
      vgcreate := f.vgcreate ++ [vgCommand g]
      lvcreate := f.lvcreate ++ lvCommands k last (g.lvs.map fun l => (g, l))
      pvsVG := g.pvs.map device
      pvsLV := collect listedIn (lastShown last (g.lvs.map fun l => (g, l))) } := by
  have hne : ¬ g.pvs.map device = [] := by simpa using g.pvs_ne
  rw [vgTurn, field_pvName, foldl_lines, if_neg hne, field_maxLV, field_maxPV]
  exact foldl_lvTurn g g.lvs hf

theorem lastShown_append (last : Words) (ps qs : List (VolumeGroup × LogicalVolume)) :
    lastShown last (ps ++ qs) = lastShown (lastShown last ps) qs := by
  induction ps generalizing last with
  | nil => rfl
  | cons p ps ih => exact ih _

theorem lvCommands_append (last : Words) (ps qs : List (VolumeGroup × LogicalVolume)) :
    lvCommands k last (ps ++ qs) = lvCommands k last ps ++ lvCommands k (lastShown last ps) qs := by
  induction ps generalizing last with
  | nil => rfl
  | cons p ps ih => simp [lvCommands, lastShown, ih]

theorem foldl_vgTurn (gs : List VolumeGroup) {f : Files} {last : Words}
    (hf : f.pvsLV = collect listedIn last) :
    (gs.foldl (vgTurn k) f).vgcreate = f.vgcreate ++ gs.map vgCommand ∧
      (gs.foldl (vgTurn k) f).lvcreate = f.lvcreate ++
        lvCommands k last (gs.flatMap fun g => g.lvs.map fun l => (g, l)) := by
  induction gs generalizing f last with
  | nil => simp [lvCommands]
  | cons g gs ih =>
    have hnext : (vgTurn k f g).pvsLV =
        collect listedIn (lastShown last (g.lvs.map fun l => (g, l))) := by
      simp only [vgTurn_eq g hf]
    obtain ⟨hvg, hlv⟩ := ih hnext
    rw [List.foldl_cons, hvg, hlv, List.flatMap_cons, lvCommands_append, vgTurn_eq g hf]
    simp

/-- What is in the scripts after some calls. -/
theorem mem_afterCalls (n : Nat) :
    (∀ c, c ∈ (afterCalls k (n + 1)).vgcreate ↔ c ∈ k.groups.map vgCommand) ∧
      ∀ c, c ∈ (afterCalls k (n + 1)).lvcreate ↔ c ∈ lvCommands k [] k.volumes := by
  have hcall : ∀ f : Files, f.pvsLV = [] →
      (∀ c, c ∈ (lvm k f).vgcreate ↔ c ∈ f.vgcreate ∨ c ∈ k.groups.map vgCommand) ∧
        ∀ c, c ∈ (lvm k f).lvcreate ↔ c ∈ f.lvcreate ∨ c ∈ lvCommands k [] k.volumes := by
    intro f hf
    have hnone : f.pvsLV = collect listedIn [] := hf
    obtain ⟨hvg, hlv⟩ := foldl_vgTurn (k := k) k.groups hnone
    constructor
    · intro c
      simp only [lvm, lvm2, hvg, List.mem_insertionSort, List.mem_dedup, List.mem_append]
    · intro c
      simp only [lvm, lvm2, hlv, Lvm.volumes, List.mem_insertionSort, List.mem_dedup,
        List.mem_append]
  induction n with
  | zero =>
    obtain ⟨hvg, hlv⟩ := hcall (afterCalls k 0) rfl
    exact ⟨fun c => (hvg c).trans (by simp [afterCalls]),
      fun c => (hlv c).trans (by simp [afterCalls])⟩
  | succ n ih =>
    obtain ⟨hvg, hlv⟩ := hcall (afterCalls k (n + 1)) rfl
    constructor
    · intro c
      rw [afterCalls, hvg c, ih.1 c, or_self]
    · intro c
      rw [afterCalls, hlv c, ih.2 c, or_self]

theorem nodup_afterCalls (n : Nat) :
    (afterCalls k n).vgcreate.Nodup ∧ (afterCalls k n).lvcreate.Nodup := by
  cases n with
  | zero => exact ⟨List.nodup_nil, List.nodup_nil⟩
  | succ n =>
    constructor
    · exact (List.perm_insertionSort _ _).nodup_iff.mpr (List.nodup_dedup _)
    · exact (List.perm_insertionSort _ _).nodup_iff.mpr (List.nodup_dedup _)

/-- Every command is for one logical volume, with the last names in a report by then. -/
theorem mem_lvCommands {c : LvCreate} {last : Words} {ps : List (VolumeGroup × LogicalVolume)} :
    c ∈ lvCommands k last ps ↔
      ∃ before p after, ps = before ++ p :: after ∧
        c = lvCommand k p (lastShown last (before ++ [p])) := by
  induction ps generalizing last with
  | nil => simp [lvCommands]
  | cons q ps ih =>
    rw [lvCommands, List.mem_cons, ih]
    constructor
    · rintro (rfl | ⟨before, p, after, rfl, rfl⟩)
      · exact ⟨[], q, ps, rfl, rfl⟩
      · exact ⟨q :: before, p, after, rfl, rfl⟩
    · rintro ⟨before, p, after, hps, rfl⟩
      cases before with
      | nil =>
        obtain ⟨rfl, rfl⟩ := List.cons.inj hps
        exact Or.inl rfl
      | cons b before =>
        obtain ⟨rfl, rfl⟩ := List.cons.inj hps
        exact Or.inr ⟨before, p, after, rfl, rfl⟩

end Calls

section Stripes

theorem exceeds_numeral (n : Nat) : exceeds (numeral n) 1 = true ↔ 1 < n := by
  simp [exceeds, numeral_ne_nil, all_isDigit_numeral]

theorem exceeds_of_dot {t : Text} (h : '.' ∈ t) (n : Nat) : exceeds t n = false := by
  have hdigits : t.all Char.isDigit = false := by
    apply List.all_eq_false.mpr
    exact ⟨'.', h, by decide⟩
  simp [exceeds, hdigits]

theorem megabytes_ne_nil (size : Nat) : megabytes size ≠ [] := by
  rw [megabytes]
  split
  · decide
  · simp

theorem megabytes_ne_zero {size : Nat} (h : size ≠ 0) : megabytes size ≠ "0M".toList := by
  intro heq
  have hdot : '.' ∈ megabytes size := by simp [megabytes, h]
  rw [heq] at hdot
  revert hdot
  decide

/-- Two decimals are left of a size. -/
theorem hundredths_megabytes {size : Nat} (h : size ≠ 0) :
    hundredths (megabytes size) = (size + 5000) / 10000 := by
  have hdigit : ∀ n < 10, n.digitChar.isDigit = true := by decide
  have hfirst : (size + 5000) / 10000 % 100 / 10 < 10 := by omega
  have hsecond : (size + 5000) / 10000 % 10 < 10 := by omega
  have hnumeral := List.filter_eq_self.mpr fun c hc =>
    List.all_eq_true.mp (all_isDigit_numeral ((size + 5000) / 10000 / 100)) c hc
  have hfilter : (megabytes size).filter Char.isDigit =
      numeral ((size + 5000) / 10000 / 100) ++
        [((size + 5000) / 10000 % 100 / 10).digitChar, ((size + 5000) / 10000 % 10).digitChar] := by
    rw [megabytes, if_neg h, List.filter_append, hnumeral]
    simp [hdigit _ hfirst, hdigit _ hsecond]
  have hvalue := value_numeral ((size + 5000) / 10000 / 100)
  rw [value] at hvalue
  rw [hundredths, hfilter, value, Nat.ofDigitChars_append, hvalue,
    Nat.ofDigitChars_cons_digitChar_of_lt_ten hfirst,
    Nat.ofDigitChars_cons_digitChar_of_lt_ten hsecond, Nat.ofDigitChars_nil]
  omega

/-- Two decimals of a power of two are never a power of two again, for either megabyte. -/
theorem hundredths_ne (mega : Mega) (n m : Nat) :
    (2 ^ n + 5000) / 10000 * mega.bytes ≠ 100 * 2 ^ m := by
  intro heq
  generalize hh : (2 ^ n + 5000) / 10000 = h at heq
  cases mega with
  | decimal =>
    have hbytes : Mega.decimal.bytes = 1000000 := rfl
    rw [hbytes] at heq
    have hfive : 5 ∣ 2 ^ m := ⟨h * 2000, by omega⟩
    exact absurd (Nat.prime_five.dvd_of_dvd_pow hfive) (by decide)
  | binary =>
    have heq : h * 2 ^ 18 = 25 * 2 ^ m := by
      have hbytes : h * Mega.binary.bytes = h * 2 ^ 18 * 4 := by rw [Nat.mul_assoc]; rfl
      apply Nat.eq_of_mul_eq_mul_right (by decide : 0 < 4)
      rw [← hbytes, heq, Nat.mul_right_comm]
    rcases Nat.lt_or_ge m 18 with hm | hm
    · obtain ⟨d, hd⟩ := Nat.exists_eq_add_of_lt hm
      have hodd : h * (2 ^ d * 2) = 25 := by
        apply Nat.eq_of_mul_eq_mul_right (Nat.two_pow_pos m)
        rw [← heq, hd, Nat.add_assoc, Nat.pow_add, Nat.pow_succ, Nat.mul_assoc,
          Nat.mul_comm (2 ^ m)]
      rw [← Nat.mul_assoc] at hodd
      omega
    · obtain ⟨j, rfl⟩ := Nat.exists_eq_add_of_le hm
      have hj := Nat.one_le_two_pow (n := j)
      have hh' : h = 25 * 2 ^ j := by
        rw [Nat.pow_add, Nat.mul_comm (2 ^ 18), ← Nat.mul_assoc] at heq
        exact Nat.eq_of_mul_eq_mul_right (Nat.two_pow_pos 18) heq
      -- 25 times a power of two in hundredths lies between two powers of two
      rcases Nat.lt_or_ge n (18 + j) with hn | hn
      · have hle : 2 ^ n ≤ 2 ^ 17 * 2 ^ j := by
          rw [← Nat.pow_add]
          exact Nat.pow_le_pow_right (by decide) (by omega)
        omega
      · have hle : 2 ^ 18 * 2 ^ j ≤ 2 ^ n := by
          rw [← Nat.pow_add]
          exact Nat.pow_le_pow_right (by decide) hn
        omega

/-- The options of the segment on the last line of `lvs`, which has no copy percentage. -/
def Lvm.lastOptions (k : Lvm) : Option (Text × Text) :=
  match k.lvs.getLast? with
  | none => none
  | some (columns, s) =>
    if (columns.drop 8).flatten = [] ∧ s.Striped then
      some (numeral s.stripes, megabytes s.stripeSize)
    else none

theorem lastColumns_of_some {k : Lvm} {columns : Words} {s : Segment}
    (h : k.lvs.getLast? = some (columns, s)) (added : Segment → Text) :
    lastColumns k added = (columns.drop 8).flatten ++ added s := by
  have hwide : 8 ≤ columns.length := k.wide _ (List.mem_of_getLast? h)
  simp only [lastColumns, h]
  rw [List.drop_append_of_le_length hwide]
  simp

theorem stripeOptions_eq (k : Lvm) : stripeOptions k = k.lastOptions := by
  rcases (k.lvs.getLast?).eq_none_or_eq_some with hlast | ⟨⟨columns, s⟩, hlast⟩
  · simp [stripeOptions, lastColumns, Lvm.lastOptions, hlast]
  · simp only [stripeOptions, lastColumns_of_some hlast, Lvm.lastOptions, hlast]
    by_cases hempty : (columns.drop 8).flatten = []
    · by_cases hsize : s.stripeSize = 0
      · simp [hempty, hsize, megabytes, Segment.Striped]
      · have hprinted : megabytes s.stripeSize ≠ ['0', 'M'] := megabytes_ne_zero hsize
        simp [hempty, numeral_ne_nil, exceeds_numeral, megabytes_ne_nil, hprinted, hsize,
          Segment.Striped]
    · have hdot : '.' ∈ (columns.drop 8).flatten := by
        simp only [List.flatten_eq_nil_iff, not_forall] at hempty
        obtain ⟨w, hw, hne⟩ := hempty
        rcases k.percent _ (List.mem_of_getLast? hlast) w hw with hnil | hdot
        · exact absurd hnil hne
        · exact List.mem_flatten.mpr ⟨w, hw, hdot⟩
      have hnumber := exceeds_of_dot (List.mem_append_left (numeral s.stripes) hdot) 1
      simp [hempty, hnumber]

/-- The options are never those of a striped segment. -/
theorem fits_lastOptions {k : Lvm} (s : Segment) (mega : Mega) :
    s.Fits mega k.lastOptions ↔ ¬ s.Striped ∧ k.lastOptions = none := by
  rcases hopts : k.lastOptions with _ | ⟨stripes, strsize⟩
  · simp [Segment.Fits]
  · have hnot : ¬ s.Fits mega (some (stripes, strsize)) := by
      rintro ⟨hstriped, -, hsize⟩
      obtain ⟨last, hlast, rfl⟩ : ∃ last : Segment,
          last.Striped ∧ strsize = megabytes last.stripeSize := by
        rw [Lvm.lastOptions] at hopts
        split at hopts
        · cases hopts
        · rename_i columns last _
          split at hopts
          · rename_i hlast
            cases hopts
            exact ⟨last, hlast.2, rfl⟩
          · cases hopts
      obtain ⟨n, hn⟩ := last.power.resolve_left hlast.2
      obtain ⟨m, hm⟩ := s.power.resolve_left hstriped.2
      rw [hundredths_megabytes hlast.2, hn, hm] at hsize
      exact hundredths_ne mega n m hsize
    simp [hnot]

end Stripes

section Layout

/-- The command builds the volume again. -/
structure Rebuilds (mega : Mega) (l : LogicalVolume) (c : LvCreate) : Prop where
  extents : c.extents = [l.currentLE]
  once : c.pvs.Nodup
  pvs : ∀ pv, pv ∈ c.pvs ↔ pv ∈ l.pvs
  stripes : ∀ s ∈ l.segments, s.Fits mega c.stripes

/-- One command for every group and one for every volume, and no others. -/
structure Reproduced (mega : Mega) (k : Lvm) (f : Files) : Prop where
  group : ∀ g ∈ k.groups, ∃ c, f.vgcreate.filter (fun c => c.name = g.name) = [c] ∧
    c.pvs = g.pvs.map device
  volume : ∀ g ∈ k.groups, ∀ l ∈ g.lvs, ∃ c,
    f.lvcreate.filter (fun c => c.group = [g.name] ∧ c.name = l.name) = [c] ∧
      Rebuilds mega l c
  groups : ∀ c ∈ f.vgcreate, ∃ g ∈ k.groups, c.name = g.name
  volumes : ∀ c ∈ f.lvcreate, ∃ g ∈ k.groups, ∃ l ∈ g.lvs, c.group = [g.name] ∧ c.name = l.name

/-- No name is found in those before it; what the last report by then shows is what the volume
lies on; and no segment is striped. -/
structure Plain (k : Lvm) : Prop where
  clear : ∀ p ∈ k.volumes, Clear listedIn p.2.shown
  shown : ∀ before p after, k.volumes = before ++ p :: after →
    ∀ pv, pv ∈ lastShown [] (before ++ [p]) ↔ pv ∈ p.2.pvs
  stripes : ∀ p ∈ k.volumes, ∀ s ∈ p.2.segments, ¬ s.Striped

variable {k : Lvm} {mega : Mega}

theorem mem_volumes {p : VolumeGroup × LogicalVolume} :
    p ∈ k.volumes ↔ p.1 ∈ k.groups ∧ p.2 ∈ p.1.lvs := by
  obtain ⟨g, l⟩ := p
  simp [Lvm.volumes, List.mem_flatMap]

theorem nodup_volumes (k : Lvm) : k.volumes.Nodup := by
  apply List.nodup_flatMap.mpr
  constructor
  · intro g _
    apply List.Nodup.map
    · intro l l' heq
      exact (Prod.mk.inj heq).2
    · exact g.names.of_map _
  · apply (k.names.of_map _).imp
    intro g g' hne p hp hp'
    obtain ⟨l, _, rfl⟩ := List.mem_map.mp hp
    obtain ⟨l', _, heq⟩ := List.mem_map.mp hp'
    exact hne (Prod.mk.inj heq).1.symm

/-- A volume has its place in the order of the loops. -/
theorem eq_of_names {before before' after after' : List (VolumeGroup × LogicalVolume)}
    {p p' : VolumeGroup × LogicalVolume} (h : k.volumes = before ++ p :: after)
    (h' : k.volumes = before' ++ p' :: after') (hgroup : p.1.name = p'.1.name)
    (hname : p.2.name = p'.2.name) : before = before' ∧ p = p' := by
  obtain ⟨g, l⟩ := p
  obtain ⟨g', l'⟩ := p'
  have hp : (g, l) ∈ k.volumes := by simp [h]
  have hp' : (g', l') ∈ k.volumes := by simp [h']
  obtain ⟨hg, hl⟩ := mem_volumes.mp hp
  obtain ⟨hg', hl'⟩ := mem_volumes.mp hp'
  obtain rfl : g = g' := List.inj_on_of_nodup_map k.names hg hg' hgroup
  obtain rfl : l = l' := List.inj_on_of_nodup_map g.names hl hl' hname
  have hnodup := nodup_volumes k
  rw [h] at hnodup
  have hrest : (g, l) ∉ before ++ after := (List.nodup_cons.mp (List.nodup_middle.mp hnodup)).1
  have hbefore : (g, l) ∉ before := fun hmem => hrest (List.mem_append_left _ hmem)
  have hafter : (g, l) ∉ after := fun hmem => hrest (List.mem_append_right _ hmem)
  obtain ⟨heq, _, _⟩ := (List.append_cons_inj_of_notMem hbefore hafter).mp (h.symm.trans h')
  exact ⟨heq, rfl⟩

theorem filter_eq_singleton {α : Type} {lines : List α} {p : α → Bool} {c : α}
    (hnodup : lines.Nodup) (hc : c ∈ lines) (hp : p c = true)
    (hall : ∀ d ∈ lines, p d = true → d = c) : lines.filter p = [c] := by
  apply List.perm_singleton.mp
  apply (List.perm_ext_iff_of_nodup (hnodup.filter p) (List.nodup_singleton c)).mpr
  intro d
  rw [List.mem_filter, List.mem_singleton]
  constructor
  · rintro ⟨hd, hpd⟩
    exact hall d hd hpd
  · rintro rfl
    exact ⟨hc, hp⟩

theorem filter_vgcreate (n : Nat) {g : VolumeGroup} (hg : g ∈ k.groups) :
    (afterCalls k (n + 1)).vgcreate.filter (fun c => c.name = g.name) = [vgCommand g] := by
  apply filter_eq_singleton (nodup_afterCalls (n + 1)).1
  · exact ((mem_afterCalls n).1 _).mpr (List.mem_map_of_mem hg)
  · simp [vgCommand]
  · intro d hd hname
    obtain ⟨g', hg', rfl⟩ := List.mem_map.mp (((mem_afterCalls n).1 d).mp hd)
    have hname : g'.name = g.name := of_decide_eq_true hname
    rw [List.inj_on_of_nodup_map k.names hg' hg hname]

theorem filter_lvcreate (n : Nat) {before after : List (VolumeGroup × LogicalVolume)}
    {p : VolumeGroup × LogicalVolume} (h : k.volumes = before ++ p :: after) :
    (afterCalls k (n + 1)).lvcreate.filter (fun c => c.group = [p.1.name] ∧ c.name = p.2.name) =
      [lvCommand k p (lastShown [] (before ++ [p]))] := by
  apply filter_eq_singleton (nodup_afterCalls (n + 1)).2
  · exact ((mem_afterCalls n).2 _).mpr (mem_lvCommands.mpr ⟨before, p, after, h, rfl⟩)
  · simp [lvCommand]
  · intro d hd hnames
    obtain ⟨before', p', after', h', rfl⟩ := mem_lvCommands.mp (((mem_afterCalls n).2 d).mp hd)
    simp only [lvCommand, List.cons.injEq, and_true, decide_eq_true_eq] at hnames
    obtain ⟨rfl, rfl⟩ := eq_of_names h h' hnames.1.symm hnames.2.symm
    rfl

/-- The names are those of one of the reports. -/
theorem lastShown_cases (ps : List (VolumeGroup × LogicalVolume)) :
    lastShown [] ps = [] ∨ ∃ p ∈ ps, lastShown [] ps = p.2.shown := by
  induction ps using List.reverseRecOn with
  | nil => exact Or.inl rfl
  | append_singleton ps p ih =>
    rw [lastShown_append]
    by_cases hp : p.2.shown = []
    · have hlast : lastShown (lastShown [] ps) [p] = lastShown [] ps := by simp [lastShown, hp]
      rw [hlast]
      rcases ih with hnil | ⟨q, hq, heq⟩
      · exact Or.inl hnil
      · exact Or.inr ⟨q, List.mem_append_left _ hq, heq⟩
    · right
      refine ⟨p, List.mem_append_right _ List.mem_cons_self, ?_⟩
      simp [lastShown, hp]

theorem clear_nil : Clear listedIn [] := by
  intro pre a post heq
  simp at heq

/-- What a list of the volumes shows last is clear if every report is. -/
theorem clear_lastShown {before after : List (VolumeGroup × LogicalVolume)}
    {p : VolumeGroup × LogicalVolume} (hclear : ∀ p ∈ k.volumes, Clear listedIn p.2.shown)
    (h : k.volumes = before ++ p :: after) : Clear listedIn (lastShown [] (before ++ [p])) := by
  rcases lastShown_cases (before ++ [p]) with hnil | ⟨q, hq, heq⟩
  · rw [hnil]
    exact clear_nil
  · rw [heq]
    apply hclear
    rw [h]
    rcases List.mem_append.mp hq with hq | hq
    · exact List.mem_append_left _ hq
    · obtain rfl := List.mem_singleton.mp hq
      simp

/-- The last line of `lvs` is that of a segment of some volume. -/
theorem lastOptions_eq_none (h : ∀ p ∈ k.volumes, ∀ s ∈ p.2.segments, ¬ s.Striped) :
    k.lastOptions = none := by
  rcases (k.lvs.getLast?).eq_none_or_eq_some with hlast | ⟨⟨columns, s⟩, hlast⟩
  · simp [Lvm.lastOptions, hlast]
  · have hmem : s ∈ k.lvs.map Prod.snd := List.mem_map_of_mem (List.mem_of_getLast? hlast)
    obtain ⟨g, hg, hs⟩ := List.mem_flatMap.mp (k.listed.mem_iff.mp hmem)
    obtain ⟨l, hl, hs⟩ := List.mem_flatMap.mp hs
    have hnot := h (g, l) (mem_volumes.mpr ⟨hg, hl⟩) s hs
    simp [Lvm.lastOptions, hlast, hnot]

theorem rebuilds_iff {before : List (VolumeGroup × LogicalVolume)}
    {p : VolumeGroup × LogicalVolume} (hclear : Clear listedIn (lastShown [] (before ++ [p]))) :
    Rebuilds mega p.2 (lvCommand k p (lastShown [] (before ++ [p]))) ↔
      (∀ pv, pv ∈ lastShown [] (before ++ [p]) ↔ pv ∈ p.2.pvs) ∧
        ∀ s ∈ p.2.segments, ¬ s.Striped ∧ k.lastOptions = none := by
  have hmem : ∀ pv, pv ∈ collect listedIn (lastShown [] (before ++ [p])) ↔
      pv ∈ lastShown [] (before ++ [p]) := by
    intro pv
    rw [collect_of_clear test_listedIn hclear, List.mem_eraseDups]
  constructor
  · intro h
    refine ⟨fun pv => (hmem pv).symm.trans (h.pvs pv), ?_⟩
    intro s hs
    apply (fits_lastOptions s mega).mp
    rw [← stripeOptions_eq]
    exact h.stripes s hs
  · rintro ⟨hpvs, hstripes⟩
    refine ⟨rfl, nodup_collect test_listedIn _, fun pv => (hmem pv).trans (hpvs pv), ?_⟩
    intro s hs
    have hfits := (fits_lastOptions s mega).mpr (hstripes s hs)
    rwa [← stripeOptions_eq] at hfits

theorem Reproduced.rebuilds {n : Nat} (h : Reproduced mega k (afterCalls k (n + 1)))
    {before after : List (VolumeGroup × LogicalVolume)} {p : VolumeGroup × LogicalVolume}
    (hp : k.volumes = before ++ p :: after) :
    Rebuilds mega p.2 (lvCommand k p (lastShown [] (before ++ [p]))) := by
  obtain ⟨hg, hl⟩ := mem_volumes.mp (show p ∈ k.volumes by simp [hp])
  obtain ⟨c, hc, hrebuilds⟩ := h.volume p.1 hg p.2 hl
  rw [filter_lvcreate n hp] at hc
  obtain rfl := List.singleton_inj.mp hc
  exact hrebuilds

theorem Reproduced.clear {n : Nat} (h : Reproduced mega k (afterCalls k (n + 1))) :
    ∀ p ∈ k.volumes, Clear listedIn p.2.shown := by
  intro p hp
  by_cases hshown : p.2.shown = []
  · rw [hshown]
    exact clear_nil
  · obtain ⟨before, after, hsplit⟩ := List.append_of_mem hp
    have hlast : lastShown [] (before ++ [p]) = p.2.shown := by
      simp [lastShown_append, lastShown, hshown]
    have hpvs := (h.rebuilds hsplit).pvs
    rw [hlast] at hpvs
    apply clear_of_complete test_listedIn
    intro pv hpv
    exact (hpvs pv).mpr (mem_shown hpv).1

/-- After any number of calls the scripts build the layout again exactly where no name of a
physical volume is found in those before it, every volume is shown with what it lies on, and none
is striped. -/
theorem reproduced_iff (mega : Mega) (k : Lvm) (n : Nat) :
    Reproduced mega k (afterCalls k (n + 1)) ↔ Plain k := by
  constructor
  · intro h
    refine ⟨h.clear, ?_, ?_⟩
    · intro before p after hp
      exact ((rebuilds_iff (clear_lastShown h.clear hp)).mp (h.rebuilds hp)).1
    · intro p hp s hs
      obtain ⟨before, after, hsplit⟩ := List.append_of_mem hp
      exact (((rebuilds_iff (clear_lastShown h.clear hsplit)).mp (h.rebuilds hsplit)).2 s hs).1
  · intro h
    constructor
    · intro g hg
      exact ⟨vgCommand g, filter_vgcreate n hg, rfl⟩
    · intro g hg l hl
      obtain ⟨before, after, hsplit⟩ := List.append_of_mem (mem_volumes (p := (g, l)).mpr ⟨hg, hl⟩)
      refine ⟨_, filter_lvcreate n hsplit, ?_⟩
      apply (rebuilds_iff (clear_lastShown h.clear hsplit)).mpr
      refine ⟨h.shown before (g, l) after hsplit, ?_⟩
      intro s hs
      exact ⟨h.stripes (g, l) (mem_volumes.mpr ⟨hg, hl⟩) s hs, lastOptions_eq_none h.stripes⟩
    · intro c hc
      obtain ⟨g, hg, rfl⟩ := List.mem_map.mp (((mem_afterCalls n).1 c).mp hc)
      exact ⟨g, hg, rfl⟩
    · intro c hc
      obtain ⟨before, p, after, hp, rfl⟩ := mem_lvCommands.mp (((mem_afterCalls n).2 c).mp hc)
      obtain ⟨hg, hl⟩ := mem_volumes.mp (show p ∈ k.volumes by simp [hp])
      exact ⟨p.1, hg, p.2, hl, rfl, rfl⟩

end Layout

/-- A volume on `/dev/sda10` and then on `/dev/sda1`. -/
def twoPartitions : LogicalVolume where
  name := "home".toList
  currentLE := "512".toList
  readAhead := "auto".toList
  segments := [⟨[.physical "sda10".toList], 1, 0, Or.inl rfl⟩,
    ⟨[.physical "sda1".toList], 1, 0, Or.inl rfl⟩]
  plain := by decide

def oneGroup : Lvm where
  groups := [{
    name := "vg00".toList
    maxLV := "0".toList
    maxPV := "0".toList
    peSize := ["4.00".toList, "MB".toList]
    pvs := ["sda1".toList, "sda10".toList]
    lvs := [twoPartitions]
    pvs_ne := List.cons_ne_nil _ _
    distinct := by decide
    names := by simp
    plain := by decide }]
  lvs := twoPartitions.segments.map fun s => (List.replicate 8 [], s)
  names := by simp
  listed := by simp
  wide := by simp
  percent := by simp

/-- The second partition is taken for one that is listed already. -/
theorem partition_lost :
    ¬ ∀ (mega : Mega) (k : Lvm) (n : Nat), Reproduced mega k (afterCalls k (n + 1)) := by
  intro hall
  have hclear := (hall .binary oneGroup 0).clear
    (oneGroup.groups.head (List.cons_ne_nil _ _), twoPartitions) (mem_volumes.mpr ⟨List.mem_cons_self, List.mem_cons_self⟩)
  have hsda1 := hclear [device "sda10".toList] (device "sda1".toList) [] (by decide) (by decide)
  revert hsda1
  decide

end LogicalVolumes
