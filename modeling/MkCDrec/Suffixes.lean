import MkCDrec.StartRestore
import Mathlib.Data.Set.Basic

/-!
# Names of devices in the names of files

The backup keeps the files about a disk or a volume group under names that end in the
name of the device, with underscores for slashes. The restore reads the name back from
such a file. Only some of the encoders and some of the loops know that an underscore of
the name itself stands as `%137`, and all loops end the name at a dot.
-/

namespace Suffixes

open ShellText Table StartRestore

inductive Encoder
  | parseDevice
  | parseDisk
  | diskTypes
  | vgDev
deriving DecidableEq

/-- `_Dev` of `ParseDevice`, `_dsk` of `ParseDisk` and of `hd_sd_disk_types` and
`ida_disk_types`, and `VGdev` of `lvm`. -/
def suffix : Encoder → Text → Text
  | .parseDevice, name => escape name
  | .parseDisk, name => flat name
  | .diskTypes, name => flat name
  | .vgDev, name => sedChar '_' "%137".toList name

inductive Loop
  | step3
  | step4
  | step5
  | step8
  | startRestore
  | cloneDsk
  | buildLVM
deriving DecidableEq

/-- `dsk` or `VG`, read from the name of a file. -/
def decode : Loop → Text → Text
  | .step3, file => tr '_' '/' (cut '.' 2 file)
  | .step4, file => tr '_' '/' (cut '.' 2 file)
  | .step5, file => tr '_' '/' (cut '.' 2 file)
  | .step8, file => dsk file
  | .startRestore, file => dsk file
  | .cloneDsk, file => tr '_' '/' (cut '.' 2 file)
  | .buildLVM, file => sedText "%137".toList ['_'] (cut '.' 2 file)

/-- The files that the backup writes and the loop reads. -/
def files : Encoder → Loop → List Text
  | .parseDisk, .cloneDsk => ["md/geometry".toList]
  | .diskTypes, .step3 => ["geometry".toList]
  | .diskTypes, .step4 => ["sfdisk".toList, "parted".toList]
  | .diskTypes, .step5 => ["mkfs".toList]
  | .diskTypes, .step8 => ["mkfs".toList]
  | .diskTypes, .startRestore => ["mkfs".toList]
  | .diskTypes, .cloneDsk => ["geometry".toList]
  | .vgDev, .step5 => ["lvm/mkfs".toList]
  | .vgDev, .step8 => ["lvm/mkfs".toList]
  | .vgDev, .startRestore => ["lvm/mkfs".toList]
  | .vgDev, .buildLVM => ["/etc/recovery/lvm/mkfs".toList]
  | _, _ => []

/-- A name that may have to be encoded; the name of a volume group is a component of a
path. -/
structure Name (e : Encoder) where
  text : Text
  plain : ¬ "%137".toList <:+: text
  vg : e = .vgDev → '/' ∉ text

/-- Every loop reads the names back, and no two of them have one suffix. -/
structure Exact {e : Encoder} (names : Set (Name e)) : Prop where
  decode : ∀ n ∈ names, ∀ l, ∀ file ∈ files e l, decode l (file ++ '.' :: suffix e n.text) = n.text
  distinct : ∀ n ∈ names, ∀ m ∈ names, suffix e n.text = suffix e m.text → n.text = m.text

/-- The underscore of a name comes back through the loop. -/
def unescapes : Encoder → Loop → Bool
  | .vgDev, .step8 => true
  | .vgDev, .startRestore => true
  | .vgDev, .buildLVM => true
  | _, _ => false

/-- The loop comes to the end of the name, and to its underscores. -/
structure Clear (e : Encoder) (l : Loop) (name : Text) : Prop where
  dot : '.' ∉ name
  underscore : unescapes e l = false → '_' ∉ name

section Loops

variable {e : Encoder} {l : Loop} {file name : Text}

theorem dot_notMem_file (h : file ∈ files e l) : '.' ∉ file := by
  have hall : ∀ file ∈ files e l, '.' ∉ file := by cases e <;> cases l <;> decide
  exact hall file h

theorem underscore_notMem_sedChar (name : Text) : '_' ∉ sedChar '_' "%137".toList name := by
  intro h
  rcases mem_sedChar h with h | ⟨_, hne⟩
  · exact absurd h (by decide)
  · exact hne rfl

theorem dot_notMem_suffix (h : '.' ∉ name) : '.' ∉ suffix e name := by
  have hflat : ∀ s : Text, '.' ∉ s → '.' ∉ flat s := by
    intro s hs hmem
    rcases mem_tr hmem with hmem | hmem
    · exact absurd hmem (by decide)
    · exact hs hmem
  have hsed : '.' ∉ sedChar '_' "%137".toList name := by
    intro hmem
    rcases mem_sedChar hmem with hmem | ⟨hmem, _⟩
    · exact absurd hmem (by decide)
    · exact h hmem
  cases e with
  | parseDevice => exact hflat _ hsed
  | parseDisk => exact hflat _ h
  | diskTypes => exact hflat _ h
  | vgDev => exact hsed

/-- No loop reads a name with a dot. -/
theorem dot_notMem_decode (hfile : '.' ∉ file) (s : Text) : '.' ∉ decode l (file ++ '.' :: s) := by
  have hcut : '.' ∉ cut '.' 2 (file ++ '.' :: s) := by
    rw [cut_two_takeWhile hfile]
    exact notMem_takeWhile_ne '.' s
  have htr : '.' ∉ tr '_' '/' (cut '.' 2 (file ++ '.' :: s)) := by
    intro h
    rcases mem_tr h with h | h
    · exact absurd h (by decide)
    · exact hcut h
  have hsed : ∀ t : Text, '.' ∉ t → '.' ∉ sedText "%137".toList ['_'] t := by
    intro t ht h
    rcases mem_sedText h with h | h
    · exact absurd h (by decide)
    · exact ht h
  cases l with
  | step3 => exact htr
  | step4 => exact htr
  | step5 => exact htr
  | step8 => exact hsed _ htr
  | startRestore => exact hsed _ htr
  | cloneDsk => exact htr
  | buildLVM => exact hsed _ hcut

theorem cut_suffix (hfile : '.' ∉ file) (hdot : '.' ∉ name) :
    cut '.' 2 (file ++ '.' :: suffix e name) = suffix e name := by
  rw [cut_two_takeWhile hfile, takeWhile_ne_eq_self (dot_notMem_suffix hdot)]

theorem tr_flat_eq (name : Text) : tr '_' '/' (flat name) = tr '_' '/' name := by
  rw [flat, tr, tr, tr, List.map_map]
  refine List.map_congr_left fun c _ => ?_
  rw [Function.comp_apply]
  by_cases hc : c = '/'
  · simp [hc]
  · rw [if_neg hc]

theorem tr_flat_eq_self_iff : tr '_' '/' (flat name) = name ↔ '_' ∉ name := by
  rw [tr_flat_eq]
  exact tr_eq_self_iff (by decide)

/-- The text `%137` does not come about by the slashes. -/
theorem sedText_flat_eq_self_iff (hplain : ¬ "%137".toList <:+: name) :
    sedText "%137".toList ['_'] (tr '_' '/' (flat name)) = name ↔ '_' ∉ name := by
  have hno : ¬ "%137".toList <:+: tr '_' '/' (flat name) := by
    rw [tr_flat_eq]
    intro h
    exact hplain (infix_of_infix_tr (by decide) h)
  rw [sedText_absent hno, tr_flat_eq_self_iff]

theorem tr_sedChar (name : Text) :
    tr '_' '/' (sedChar '_' "%137".toList name) = sedChar '_' "%137".toList name :=
  tr_eq_self (underscore_notMem_sedChar name)

theorem sedText_sedChar_name (hplain : ¬ "%137".toList <:+: name) :
    sedText "%137".toList ['_'] (sedChar '_' "%137".toList name) = name :=
  sedText_sedChar_absent (by decide) hplain

/-- A loop that comes to the end of the name. -/
theorem decode_eq_iff_of_dot (hfile : file ∈ files e l) (hdot : '.' ∉ name)
    (hplain : ¬ "%137".toList <:+: name) :
    decode l (file ++ '.' :: suffix e name) = name ↔ (unescapes e l = false → '_' ∉ name) := by
  have hcut : ∀ e, cut '.' 2 (file ++ '.' :: suffix e name) = suffix e name :=
    fun _ => cut_suffix (dot_notMem_file hfile) hdot
  have hvg : sedChar '_' "%137".toList name = name ↔ '_' ∉ name :=
    sedChar_eq_self_iff (by decide)
  have hdisk : tr '_' '/' (flat name) = name ↔ '_' ∉ name := tr_flat_eq_self_iff
  have hdsk := sedText_flat_eq_self_iff hplain
  have hlost : ∀ e l, unescapes e l = false → ('_' ∉ name ↔ unescapes e l = false → '_' ∉ name) :=
    fun _ _ h => ⟨fun hno _ => hno, fun himp => himp h⟩
  cases e with
  | parseDevice => cases l <;> cases hfile
  | parseDisk =>
    cases l with
    | cloneDsk =>
      rw [decode, hcut, suffix, hdisk]
      exact hlost _ _ rfl
    | _ => cases hfile
  | diskTypes =>
    cases l with
    | buildLVM => cases hfile
    | step8 =>
      rw [decode, dsk, hcut, suffix, hdsk]
      exact hlost _ _ rfl
    | startRestore =>
      rw [decode, dsk, hcut, suffix, hdsk]
      exact hlost _ _ rfl
    | _ =>
      rw [decode, hcut, suffix, hdisk]
      exact hlost _ _ rfl
  | vgDev =>
    cases l with
    | step5 =>
      rw [decode, hcut, suffix, tr_sedChar, hvg]
      exact hlost _ _ rfl
    | step8 =>
      rw [decode, dsk, hcut, suffix, tr_sedChar, sedText_sedChar_name hplain]
      exact iff_of_true rfl fun h => by cases h
    | startRestore =>
      rw [decode, dsk, hcut, suffix, tr_sedChar, sedText_sedChar_name hplain]
      exact iff_of_true rfl fun h => by cases h
    | buildLVM =>
      rw [decode, hcut, suffix, sedText_sedChar_name hplain]
      exact iff_of_true rfl fun h => by cases h
    | _ => cases hfile

theorem decode_eq_iff (hfile : file ∈ files e l) (hplain : ¬ "%137".toList <:+: name) :
    decode l (file ++ '.' :: suffix e name) = name ↔ Clear e l name := by
  constructor
  · intro h
    have hdot : '.' ∉ name := by
      rw [← h]
      exact dot_notMem_decode (dot_notMem_file hfile) _
    exact ⟨hdot, (decode_eq_iff_of_dot hfile hdot hplain).mp h⟩
  · intro h
    exact (decode_eq_iff_of_dot hfile h.dot hplain).mpr h.underscore

/-- The escaped name of a device is read back without a loop. -/
theorem decode_escape (hplain : ¬ "%137".toList <:+: name) :
    sedText "%137".toList ['_'] (tr '_' '/' (escape name)) = name := by
  have hflat := (tr_flat_eq_self_iff).mpr (underscore_notMem_sedChar name)
  rw [escape, hflat, sedText_sedChar_name hplain]

theorem exists_file (he : e ≠ .parseDevice) : ∃ l file, file ∈ files e l := by
  cases e with
  | parseDevice => exact absurd rfl he
  | parseDisk => exact ⟨.cloneDsk, _, List.mem_cons_self⟩
  | diskTypes => exact ⟨.step3, _, List.mem_cons_self⟩
  | vgDev => exact ⟨.buildLVM, _, List.mem_cons_self⟩

end Loops

/-- The names are read back from all files, and are told apart, just if none of them has a
dot, and those have no underscores that meet a loop which does not know the escape. -/
theorem readBack_iff (e : Encoder) (names : Set (Name e)) :
    Exact names ↔ ∀ n ∈ names, ∀ l, files e l ≠ [] → Clear e l n.text := by
  constructor
  · intro h n hn l hl
    obtain ⟨file, hfile⟩ := List.exists_mem_of_ne_nil _ hl
    exact (decode_eq_iff hfile n.plain).mp (h.decode n hn l file hfile)
  · intro h
    have hdecode : ∀ n ∈ names, ∀ l, ∀ file ∈ files e l,
        decode l (file ++ '.' :: suffix e n.text) = n.text := by
      intro n hn l file hfile
      exact (decode_eq_iff hfile n.plain).mpr (h n hn l (List.ne_nil_of_mem hfile))
    refine ⟨hdecode, ?_⟩
    intro n hn m hm heq
    by_cases he : e = .parseDevice
    · subst he
      have hn' := decode_escape n.plain
      have hm' := decode_escape m.plain
      rw [← hn', ← hm']
      exact congrArg (fun s => sedText "%137".toList ['_'] (tr '_' '/' s)) heq
    · obtain ⟨l, file, hfile⟩ := exists_file he
      rw [← hdecode n hn l file hfile, ← hdecode m hm l file hfile, heq]

def vgSd : Name .vgDev := ⟨"vg_sd".toList, by decide +kernel, fun _ => by decide⟩

/-- Step 5 reads `vg%137sd` where step 8 reads `vg_sd`. -/
theorem step5_escape_left : ¬ ∀ (e : Encoder) (names : Set (Name e)), Exact names := by
  intro h
  have hread := (h .vgDev {vgSd}).decode vgSd rfl .step5 _ List.mem_cons_self
  have hescape : decode .step5 ("lvm/mkfs".toList ++ '.' :: suffix .vgDev vgSd.text) =
      "vg%137sd".toList := by decide +kernel
  have hname : vgSd.text = "vg_sd".toList := rfl
  rw [hescape, hname] at hread
  revert hread
  decide

end Suffixes
