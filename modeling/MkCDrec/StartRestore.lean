import MkCDrec.ArchiveNames
import MkCDrec.DiskInfo
import MkCDrec.Lib.Grouping
import Mathlib.Data.List.Infix

/-!
# The loops of `start-restore.sh`

Step 7 goes through the `mkfs.` files and, for each of them, through the lines of
`To_Restore` in which `grep` finds the name of the disk, volume group or array.
Nothing ties a line to one file: the name may stand anywhere in the line.
-/

namespace StartRestore

open ShellText Table ArchiveNames DiskInfo Grouping

/-- `dsk`, decoded from the name of a `mkfs.` file. -/
def dsk (file : Text) : Text := sedText "%137".toList ['_'] (tr '_' '/' (cut '.' 2 file))

/-- `grep ${dsk}`; without a pattern nothing is found. -/
def grep (pat : Text) (l : Line) : Bool := pat ≠ [] && pat <:+: l.text

/-- The lines for one file, with their places in the table. -/
def group (table : List Line) (file : Text) : List (Line × Nat) :=
  table.zipIdx.filter fun p => grep (dsk file) p.1

/-- `SelectExtention` knows the type of the line. -/
def known (l : Line) : Bool := (selectExtention l.fsType).isSome

/-- The lines of a group for which `Get_backup_back` is called while no command fails.
A type that `SelectExtention` does not know ends the subshell of the group. -/
def calls : List (Line × Nat) → List Nat
  | [] => []
  | (l, i) :: rest => if known l then i :: calls rest else [i]

/-- Step 7: the places of the lines for which `Get_backup_back` is called. -/
def step7 (r : Recovery) : List Nat :=
  (ls r.mkfsFiles).flatMap fun file => calls (group r.table file)

/-- Each file system is restored exactly once. -/
def RestoredOnce (r : Recovery) : Prop := ∀ i < r.table.length, (step7 r).count i = 1

/-- The file selects the line at place `i`, and no earlier line of an unknown type. -/
def Reaches (table : List Line) (file : Text) (i : Nat) : Prop :=
  (∃ l, table[i]? = some l ∧ grep (dsk file) l = true) ∧
    ∀ j l, j < i → table[j]? = some l → grep (dsk file) l = true → known l = true

section Groups

variable {table : List Line} {file : Text} {i : Nat} {l : Line} {files : List Text}

theorem mem_group :
    (l, i) ∈ group table file ↔ table[i]? = some l ∧ grep (dsk file) l = true := by
  rw [group, List.mem_filter, List.mk_mem_zipIdx_iff_getElem?]

/-- A group keeps the order of the table. -/
theorem pairwise_group (table : List Line) (file : Text) :
    ((group table file).map Prod.snd).Pairwise (· < ·) := by
  have hsub : ((group table file).map Prod.snd).Sublist (table.zipIdx.map Prod.snd) :=
    List.filter_sublist.map _
  rw [List.zipIdx_map_snd] at hsub
  exact List.Pairwise.sublist hsub List.pairwise_lt_range'

theorem calls_sublist (g : List (Line × Nat)) : (calls g).Sublist (g.map Prod.snd) := by
  induction g with
  | nil => exact List.Sublist.refl _
  | cons p g ih =>
    simp only [calls, List.map_cons]
    split
    · exact ih.cons_cons _
    · exact (List.nil_sublist _).cons_cons _

/-- In a group with increasing places the calls stop after the first line of an
unknown type. -/
theorem mem_calls {g : List (Line × Nat)} (hg : (g.map Prod.snd).Pairwise (· < ·)) :
    i ∈ calls g ↔ (∃ l, (l, i) ∈ g) ∧ ∀ j l, j < i → (l, j) ∈ g → known l = true := by
  induction g with
  | nil => simp [calls]
  | cons p g ih =>
    obtain ⟨l, k⟩ := p
    obtain ⟨hlt, hg⟩ := List.pairwise_cons.mp hg
    have hlt : ∀ m j, (m, j) ∈ g → k < j := fun m j h => hlt j (List.mem_map_of_mem h)
    have hcons : ∀ m j, (m, j) ∈ (l, k) :: g ↔ (m = l ∧ j = k) ∨ (m, j) ∈ g := by
      intro m j
      rw [List.mem_cons, Prod.mk.injEq]
    specialize ih hg
    have hfirst : ∀ j m, j < k → (m, j) ∈ (l, k) :: g → known m = true := by
      intro j m hj hm
      rcases (hcons m j).mp hm with ⟨_, rfl⟩ | hm
      · exact absurd hj (lt_irrefl _)
      · exact absurd (hlt m j hm) hj.not_gt
    rw [calls]
    split
    · rename_i hknown
      rw [List.mem_cons, ih]
      constructor
      · rintro (rfl | ⟨⟨m, hm⟩, hall⟩)
        · exact ⟨⟨l, List.mem_cons_self⟩, hfirst⟩
        · refine ⟨⟨m, List.mem_cons_of_mem _ hm⟩, fun j n hj hn => ?_⟩
          rcases (hcons n j).mp hn with ⟨rfl, _⟩ | hn
          · exact hknown
          · exact hall j n hj hn
      · rintro ⟨⟨m, hm⟩, hall⟩
        rcases (hcons m i).mp hm with ⟨_, rfl⟩ | hm
        · exact Or.inl rfl
        · exact Or.inr ⟨⟨m, hm⟩, fun j n hj hn => hall j n hj (List.mem_cons_of_mem _ hn)⟩
    · rename_i hknown
      rw [List.mem_singleton]
      constructor
      · rintro rfl
        exact ⟨⟨l, List.mem_cons_self⟩, hfirst⟩
      · rintro ⟨⟨m, hm⟩, hall⟩
        rcases (hcons m i).mp hm with ⟨_, rfl⟩ | hm
        · rfl
        · exact absurd (hall k l (hlt m i hm) List.mem_cons_self) hknown

theorem mem_calls_group : i ∈ calls (group table file) ↔ Reaches table file i := by
  rw [mem_calls (pairwise_group table file), Reaches]
  simp only [mem_group, and_imp]

theorem nodup_calls_group : (calls (group table file)).Nodup :=
  ((pairwise_group table file).imp fun h => h.ne).sublist (calls_sublist _)

/-- Every line is restored exactly once if and only if there is exactly one file whose
decoded name occurs in the line, but in no earlier line of a type unknown to
`SelectExtention`. -/
theorem restoredOnce_iff (h : Host) (mounts : List Mount) :
    RestoredOnce (saveDiskinfo h mounts) ↔
      ∀ i < (saveDiskinfo h mounts).table.length,
        ∃! file, file ∈ (saveDiskinfo h mounts).mkfsFiles ∧
          Reaches (saveDiskinfo h mounts).table file i := by
  refine forall₂_congr fun i _ => ?_
  rw [step7, count_flatMap_eq_one_iff (nodup_ls _) fun file _ => nodup_calls_group]
  simp only [mem_ls, mem_calls_group]

end Groups

section Names

variable {name vg lv : Text}

theorem cut_two_mkfs {dir : Text} (hdir : '.' ∉ dir) (hname : '.' ∉ name) :
    cut '.' 2 (dir ++ mkfs name) = name := by
  have hsplit : dir ++ mkfs name = (dir ++ "mkfs".toList) ++ '.' :: name := by
    rw [List.append_assoc]
    rfl
  have hbefore : '.' ∉ dir ++ "mkfs".toList := by
    rw [List.mem_append, not_or]
    exact ⟨hdir, by decide⟩
  rw [hsplit, cut_two hbefore hname]

theorem tr_flat (hname : '_' ∉ name) : tr '_' '/' (flat name) = name := by
  induction name with
  | nil => rfl
  | cons c name ih =>
    obtain ⟨hc, hname⟩ := List.ne_and_not_mem_of_not_mem_cons hname
    have hcons : tr '_' '/' (flat (c :: name)) =
        (if (if c = '/' then '_' else c) = '_' then '/' else if c = '/' then '_' else c) ::
          tr '_' '/' (flat name) := rfl
    rw [hcons, ih hname]
    by_cases hslash : c = '/'
    · rw [if_pos hslash, if_pos rfl, hslash]
    · rw [if_neg hslash, if_neg (Ne.symm hc)]

/-- The name of a disk is read back from its file. -/
theorem dsk_mkfs (hdot : '.' ∉ name) (hplain : '_' ∉ name) (hpercent : '%' ∉ name) :
    dsk (mkfs (flat name)) = name := by
  have hcut : cut '.' 2 (mkfs (flat name)) = flat name := by
    refine cut_two_mkfs (List.not_mem_nil) ?_
    intro hmem
    obtain ⟨c, hc, heq⟩ := List.mem_map.mp hmem
    split at heq
    · exact absurd heq (by decide)
    · exact hdot (heq ▸ hc)
  rw [dsk, hcut, tr_flat hplain]
  exact sedText_eq_self hpercent

end Names

/-- Two mounts: a partition of an IDE disk on `/home`, and a logical volume of a
volume group with that name. -/
def homeMounts : List Mount :=
  [⟨"/dev/hda2".toList, "/home".toList, "ext3".toList, "rw".toList, some 3⟩,
    ⟨"/dev/home/lvol1".toList, "/srv".toList, "ext3".toList, "rw".toList, some 254⟩]

def lvmHost : Host := ⟨[], true, fun _ => none, none⟩

example : step7 (saveDiskinfo lvmHost homeMounts) = [0, 1, 0] := by decide +kernel

/-- The group of the volume group takes the partition along. -/
theorem restoredTwice_home : ¬ RestoredOnce (saveDiskinfo lvmHost homeMounts) := by
  intro h
  have hfirst := h 0 (by decide)
  revert hfirst
  decide +kernel

end StartRestore
