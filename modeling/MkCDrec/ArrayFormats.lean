import MkCDrec.Formatting

/-!
# The file systems of arrays

With the raidtools every mounted array is analysed by itself. With `mdadm` all arrays of
`mdadm.conf` are analysed when the first of them is met, and all for its type.
-/

namespace ArrayFormats

open ShellText MetaDevices Formatting
open DiskInfo (mdMkfs)

section Conditions

variable (h : Host)

/-- The options of `mkfs` for a type. -/
def belonging (fsType name : Text) : Words :=
  if fsType = "reiserfs".toList then
    if h.kernelMinorNr = "2".toList then ["-v".toList, "1".toList] else []
  else if fsType = "xfs".toList then ["-f".toList]
  else if fsType = "jfs".toList then ["-f".toList, "-L:jfs_".toList ++ name]
  else if fsType ∈ ["ext3".toList, "ext4".toList] then ["-j".toList]
  else h.checkBadBlocks

/-- The file of the array is there, and formats it with its type. -/
def Formatted (table : List MountLine) (m : MountLine) : Prop :=
  ∃ dev, mdMkfs dev = mdMkfs m.device ∧ commandsFor h (saveDiskinfo h table) m =
    [.mkfs m.fsType (belonging h m.fsType ((cutFrom '/' 3 dev).erase '/')) dev]

/-- The visit has the type, and an option for bad blocks is not lost by then. -/
structure Fitting (fsType : Text) (v : MountLine × Bool) : Prop where
  type : v.1.fsType = fsType
  check : v.2 = true → h.checkBadBlocks = [] ∨ fsType ∈ unchecked

/-- The array is found, and the visit that counts has its type. -/
def Found (table : List MountLine) (m : MountLine) : Prop :=
  match h.raid with
  | .raidtools raidtab =>
    ∃ v, ((visits h false table).filter (writes h raidtab (mdMkfs m.device))).getLast? = some v ∧
      Fitting h m.fsType v
  | .mdadm k =>
    (∃ e ∈ k.entries, mdMkfs e.dev = mdMkfs m.device ∧ MdadmConf.columns k.mdstat e.name ≠ [] ∧
      ['\n'].intercalate h.swaps ≠ e.dev) ∧
    ∃ v, (visits h false table).find? (isMd h) = some v ∧ Fitting h m.fsType v

end Conditions

section Options

variable {h : Host} {fsType : Text} {check : Bool}

theorem words_eq_iff (name : Text) (ha : Askable h (.own fsType, check)) :
    (options h fsType name (if check then h.checkBadBlocks else [])).words =
        belonging h fsType name ↔
      fsType ∉ ["ext3".toList, "ext4".toList] ∧
        (h.checkBadBlocks = [] ∨ fsType ∈ unchecked ∨ check = true) := by
  by_cases hunchecked : fsType ∈ unchecked
  · rw [options_unchecked h hunchecked name _ []]
    simp only [unchecked, List.mem_cons, List.not_mem_nil, or_false] at hunchecked
    refine iff_of_true ?_ ⟨?_, Or.inr (Or.inl ?_)⟩
    · rcases hunchecked with rfl | rfl | rfl
      · simp [options, Options.words, belonging]
      · simp [options, Options.words, belonging]
      · simp [options, Options.words, belonging]
    · rcases hunchecked with rfl | rfl | rfl
      · decide
      · decide
      · decide
    · simpa [unchecked] using hunchecked
  · have hwords : (options h fsType name (if check then h.checkBadBlocks else [])).words =
        if check then h.checkBadBlocks else [] := by
      rw [options_plain hunchecked]
      rfl
    have hbelonging : belonging h fsType name =
        if fsType ∈ ["ext3".toList, "ext4".toList] then ["-j".toList] else h.checkBadBlocks := by
      simp only [unchecked, List.mem_cons, List.not_mem_nil, or_false, not_or] at hunchecked
      obtain ⟨hreiserfs, hxfs, hjfs⟩ := hunchecked
      rw [belonging, if_neg hreiserfs, if_neg hxfs, if_neg hjfs]
    rw [hwords, hbelonging]
    by_cases hext : fsType ∈ ["ext3".toList, "ext4".toList]
    · rw [if_pos hext]
      refine iff_of_false ?_ fun hall => hall.1 hext
      intro heq
      cases check with
      | false => cases heq
      | true =>
        have hconf : h.checkBadBlocks = ["-j".toList] := heq
        exact h.noJournal (by simp [hconf])
    · rw [if_neg hext]
      simp only [hext, hunchecked, not_false_eq_true, true_and, false_or]
      cases check with
      | true => simp
      | false => simp [eq_comm]

theorem fitting_iff {v : MountLine × Bool} (hv : v.1.fsType = fsType) :
    h.checkBadBlocks = [] ∨ fsType ∈ unchecked ∨ checkedAt h v = true ↔ Fitting h fsType v := by
  subst hv
  constructor
  · intro hcheck
    refine ⟨rfl, ?_⟩
    intro hblanked
    rcases hcheck with hconf | hunchecked | hchecked
    · exact Or.inl hconf
    · exact Or.inr hunchecked
    · simp [checkedAt, hblanked] at hchecked
  · intro hfitting
    by_cases hconf : h.checkBadBlocks = []
    · exact Or.inl hconf
    · by_cases hunchecked : v.1.fsType ∈ unchecked
      · exact Or.inr (Or.inl hunchecked)
      · right; right
        have hblanked : v.2 = false := by
          by_contra htrue
          rw [Bool.not_eq_false] at htrue
          rcases hfitting.check htrue with h' | h'
          · exact hconf h'
          · exact hunchecked h'
        simp [checkedAt, hblanked, hconf, Kind.checked, hunchecked]

end Options

section Calls

variable {h : Host} {k : MdadmConf.Config} {d : Text}

theorem lineCalls_array (k : MdadmConf.Config) (e : MdadmConf.Entry) :
    lineCalls k ("ARRAY".toList :: e.dev :: e.attributes.map e.word) =
      (MdadmConf.columns k.mdstat e.name).map fun _ => e.dev := by
  rw [lineCalls, List.headD_cons, if_pos List.prefix_rfl, List.getD_cons_succ,
    List.getD_cons_zero, MdadmConf.Entry.dev, MdadmConf.cutFrom_dev]

/-- The calls with a name are those for the arrays that are found in `mdstat`. -/
theorem mem_mdadmCalls (hd : d ≠ []) :
    d ∈ mdadmCalls k ↔ ∃ e ∈ k.entries, e.dev = d ∧ MdadmConf.columns k.mdstat e.name ≠ [] := by
  rw [mdadmCalls, List.mem_flatMap]
  constructor
  · rintro ⟨inline, hinline, hcall⟩
    obtain ⟨e, he, hline⟩ := List.mem_flatMap.mp (List.mem_filter.mp hinline).1
    rcases List.mem_cons.mp hline with rfl | hline
    · rw [lineCalls_array] at hcall
      obtain ⟨w, hw, rfl⟩ := List.mem_map.mp hcall
      exact ⟨e, he, rfl, List.ne_nil_of_mem hw⟩
    · split at hline
      · obtain rfl := List.mem_singleton.mp hline
        have hother : ¬ "ARRAY".toList <+: "devices=".toList ++ [','].intercalate e.members := by
          intro h
          exact absurd (List.cons_prefix_cons.mp h).1 (by decide)
        rw [lineCalls, List.headD_cons, if_neg hother] at hcall
        obtain ⟨_, _, rfl⟩ := List.mem_map.mp hcall
        exact absurd rfl hd
      · cases hline
  · rintro ⟨e, he, rfl, hcolumns⟩
    refine ⟨"ARRAY".toList :: e.dev :: e.attributes.map e.word, List.mem_filter.mpr ⟨?_, ?_⟩, ?_⟩
    · exact List.mem_flatMap.mpr ⟨e, he, List.mem_cons_self⟩
    · simp only [grep, List.any_cons, List.infix_rfl, decide_true, Bool.true_or]
    · rw [lineCalls_array]
      obtain ⟨w, hw⟩ := List.exists_mem_of_ne_nil _ hcolumns
      exact List.mem_map.mpr ⟨w, hw, rfl⟩

theorem lastCall_some {h : Host} {f : Text} {calls : Words} (hd : lastCall h f calls = some d) :
    d ∈ calls ∧ mdMkfs d = f ∧ ['\n'].intercalate h.swaps ≠ d := by
  have hmem := List.mem_filter.mp (List.mem_of_getLast? hd)
  simp only [Bool.and_eq_true, decide_eq_true_eq] at hmem
  exact hmem

theorem lastCall_none {h : Host} {f : Text} {calls : Words} (hnone : lastCall h f calls = none)
    (hd : d ∈ calls) (hfile : mdMkfs d = f) : ['\n'].intercalate h.swaps = d := by
  have hempty := List.getLast?_eq_none_iff.mp hnone
  by_contra hswap
  refine List.filter_eq_nil_iff.mp hempty d hd ?_
  simp only [Bool.and_eq_true, decide_eq_true_eq]
  exact ⟨hfile, hswap⟩

end Calls

section Mounted

variable {h : Host} {m : MountLine}

/-- A line of devices has no array, and writes no file of an array. -/
theorem mdMkfs_ne (hc : m.class h = some .md) : mdMkfs m.device ≠ mdMkfs [] := by
  obtain ⟨c, name, hslash, hdev⟩ := h.rooted m.device (majorNr_of_class hc (by simp))
  intro heq
  have hname : (cutFrom '/' 3 m.device).erase '/' = [] := by
    have hfiles := List.append_cancel_left (List.append_cancel_left heq)
    exact hfiles
  rw [hdev, MdadmConf.cutFrom_dev, List.erase_cons_tail (by simpa using hslash)] at hname
  cases hname

/-- The file of an array is written for the arrays that are listed and found. -/
theorem lastCall_isSome_iff (hc : m.class h = some .md) (k : MdadmConf.Config) :
    (∃ d, lastCall h (mdMkfs m.device) (mdadmCalls k) = some d) ↔
      ∃ e ∈ k.entries, mdMkfs e.dev = mdMkfs m.device ∧ MdadmConf.columns k.mdstat e.name ≠ [] ∧
        ['\n'].intercalate h.swaps ≠ e.dev := by
  constructor
  · rintro ⟨d, hd⟩
    obtain ⟨hcall, hfile, hswap⟩ := lastCall_some hd
    have hne : d ≠ [] := by
      rintro rfl
      exact mdMkfs_ne hc hfile.symm
    obtain ⟨e, he, rfl, hcolumns⟩ := (mem_mdadmCalls hne).mp hcall
    exact ⟨e, he, hfile, hcolumns, hswap⟩
  · rintro ⟨e, he, hfile, hcolumns, hswap⟩
    have hne : e.dev ≠ [] := by
      intro hnil
      rw [hnil] at hfile
      exact mdMkfs_ne hc hfile.symm
    cases hcall : lastCall h (mdMkfs m.device) (mdadmCalls k) with
    | some d => exact ⟨d, rfl⟩
    | none =>
      have hmem := (mem_mdadmCalls hne).mpr ⟨e, he, rfl, hcolumns⟩
      exact absurd (lastCall_none hcall hmem hfile) hswap

/-- The command that is asked for is the one of the array. -/
theorem formatted_iff_asked (hc : m.class h = some .md) (table : List MountLine) :
    Formatted h table m ↔ m.fsType ∉ ["ext3".toList, "ext4".toList] ∧
      ∃ d check, arrayAsked h m table = some (d, m.fsType, check) ∧ mdMkfs d = mdMkfs m.device ∧
        (h.checkBadBlocks = [] ∨ m.fsType ∈ unchecked ∨ check = true) := by
  rw [Formatted, commandsFor_array hc]
  constructor
  · rintro ⟨dev, hfile, hcommands⟩
    cases hasked : arrayAsked h m table with
    | none =>
      rw [hasked] at hcommands
      cases hcommands
    | some a =>
      rw [hasked] at hcommands
      obtain ⟨d, fsType, check⟩ := a
      obtain ⟨htype, hwords, hdev⟩ := Command.mkfs.inj (List.singleton_inj.mp hcommands)
      obtain rfl : fsType = m.fsType := htype
      obtain rfl : d = dev := hdev
      obtain ⟨hext, hcheck⟩ := (words_eq_iff _ (askable_of_arrayAsked hasked)).mp hwords
      exact ⟨hext, d, check, rfl, hfile, hcheck⟩
  · rintro ⟨hext, d, check, hasked, hfile, hcheck⟩
    refine ⟨d, hfile, ?_⟩
    have hwords := (words_eq_iff ((cutFrom '/' 3 d).erase '/')
      (askable_of_arrayAsked hasked)).mpr ⟨hext, hcheck⟩
    rw [hasked, ← hwords]
    rfl

theorem formatted_iff (hc : m.class h = some .md) (table : List MountLine) :
    Formatted h table m ↔ m.fsType ∉ ["ext3".toList, "ext4".toList] ∧ Found h table m := by
  rw [formatted_iff_asked hc]
  refine and_congr_right fun _ => ?_
  rw [Found]
  cases hraid : h.raid with
  | raidtools raidtab =>
    rw [arrayAsked_raidtools hraid]
    constructor
    · rintro ⟨d, check, hasked, _, hcheck⟩
      obtain ⟨v, hv, heq⟩ := Option.map_eq_some_iff.mp hasked
      obtain ⟨_, hrest⟩ := Prod.mk.inj heq
      obtain ⟨htype, hchecked⟩ := Prod.mk.inj hrest
      subst hchecked
      exact ⟨v, hv, (fitting_iff htype).mp hcheck⟩
    · rintro ⟨v, hv, hfitting⟩
      have hwrites := (List.mem_filter.mp (List.mem_of_getLast? hv)).2
      simp only [writes, Bool.and_eq_true, decide_eq_true_eq] at hwrites
      refine ⟨v.1.device, checkedAt h v, ?_, hwrites.1.1.2, (fitting_iff hfitting.type).mpr hfitting⟩
      rw [hv, Option.map_some, hfitting.type]
  | mdadm k =>
    rw [arrayAsked_mdadm hraid]
    constructor
    · rintro ⟨d, check, hasked, _, hcheck⟩
      obtain ⟨d', hd', hfirst⟩ := Option.bind_eq_some_iff.mp hasked
      obtain ⟨v, hv, heq⟩ := Option.map_eq_some_iff.mp hfirst
      obtain ⟨_, hrest⟩ := Prod.mk.inj heq
      obtain ⟨htype, hchecked⟩ := Prod.mk.inj hrest
      subst hchecked
      exact ⟨(lastCall_isSome_iff hc k).mp ⟨d', hd'⟩, v, hv, (fitting_iff htype).mp hcheck⟩
    · rintro ⟨hentry, v, hv, hfitting⟩
      obtain ⟨d, hd⟩ := (lastCall_isSome_iff hc k).mpr hentry
      refine ⟨d, checkedAt h v, ?_, (lastCall_some hd).2.1, (fitting_iff hfitting.type).mpr hfitting⟩
      rw [hd, hv, Option.bind_some, Option.map_some, hfitting.type]

/-- Every array is formatted as what it was exactly where none has a journal in its type and each
is found by a visit with its type. -/
theorem formatted_all_iff (h : Host) (table : List MountLine) :
    (∀ m ∈ table, m.class h = some .md → Formatted h table m) ↔
      ∀ m ∈ table, m.class h = some .md →
        m.fsType ∉ ["ext3".toList, "ext4".toList] ∧ Found h table m := by
  constructor
  · intro hall m hm hc
    exact (formatted_iff hc table).mp (hall m hm hc)
  · intro hall m hm hc
    exact (formatted_iff hc table).mpr (hall m hm hc)

end Mounted

/-- An array of one disk, as `/dev/md0` or `/dev/md1`. -/
def oneDisk (number : Nat) (partition : Text) (plain : '[' ∉ partition) : Device where
  number := number
  state := ["active".toList, "raid1".toList]
  members := [⟨partition, 0, false, plain⟩]
  fileSystem := none
  members_ne := List.cons_ne_nil _ _
  plain := Clone.raid1_plain

theorem bracket_notMem_sda1 : '[' ∉ "sda1".toList := by decide

theorem bracket_notMem_sdb1 : '[' ∉ "sdb1".toList := by decide

def oneDiskEntry (a : Device) : MdadmConf.Entry where
  device := a
  devfs := false
  level := .raid 1
  numDevices := 1
  attributes := [.level, .numDevices]
  devices := false

def twoArrays : Host where
  destinationPath := "/backup".toList
  lvmConf := false
  majorNr dev := if dev = "/dev/md0".toList ∨ dev = "/dev/md1".toList then some 9 else none
  devfs _ := none
  raid := .mdadm {
    mdstat := [oneDisk 0 "sda1".toList bracket_notMem_sda1,
      oneDisk 1 "sdb1".toList bracket_notMem_sdb1]
    entries := [oneDiskEntry (oneDisk 0 "sda1".toList bracket_notMem_sda1),
      oneDiskEntry (oneDisk 1 "sdb1".toList bracket_notMem_sdb1)]
    listed := by
      simp only [List.forall_mem_cons]
      exact ⟨List.mem_cons_self, List.mem_cons_of_mem _ List.mem_cons_self, by simp⟩
    distinct := by decide
    numbers := by decide
    partitions := by decide
    states := by decide
    kernel := by decide }
  swaps := ["/dev/sda2".toList]
  kernelMinorNr := "6".toList
  checkBadBlocks := []
  rooted := by
    intro dev hdev
    have hcases : dev = "/dev/md0".toList ∨ dev = "/dev/md1".toList := by
      by_contra hother
      exact hdev (if_neg hother)
    rcases hcases with rfl | rfl
    · exact ⟨'m', "d0".toList, by decide, rfl⟩
    · exact ⟨'m', "d1".toList, by decide, rfl⟩
  noJournal := by decide

/-- The second array gets the type of the first. -/
theorem second_as_first : ¬ ∀ (h : Host) (table : List MountLine),
    ∀ m ∈ table, m.class h = some .md → Formatted h table m := by
  intro hall
  obtain ⟨dev, _, hcommands⟩ := hall twoArrays
    [⟨"/dev/md0".toList, "/".toList, "ext2".toList⟩,
      ⟨"/dev/md1".toList, "/srv".toList, "minix".toList⟩]
    ⟨"/dev/md1".toList, "/srv".toList, "minix".toList⟩ (by simp) (by decide +kernel)
  have hfirst : commandsFor twoArrays (saveDiskinfo twoArrays
      [⟨"/dev/md0".toList, "/".toList, "ext2".toList⟩,
        ⟨"/dev/md1".toList, "/srv".toList, "minix".toList⟩])
      ⟨"/dev/md1".toList, "/srv".toList, "minix".toList⟩ =
        [.mkfs "ext2".toList [] "/dev/md1".toList] := by decide +kernel
  rw [hfirst] at hcommands
  obtain ⟨htype, _⟩ := Command.mkfs.inj (List.singleton_inj.mp hcommands)
  revert htype
  decide

end ArrayFormats
