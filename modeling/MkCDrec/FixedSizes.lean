import MkCDrec.Shares

/-!
# Sizes that are not to change

The user may keep a partition of the target disk and choose the size of a swap area, and
`fixed.*` lists partitions that are not resized. The second round sets the start of every
primary partition but the first to `next_sector`, and leaves out the size of the last
partition.
-/

namespace FixedSizes

open ShellNumber Layout Shares

variable (s : Setup)

/-- The script has the values that the user and the configuration have fixed. -/
structure Keeps (script : List Entry) : Prop where
  kept : ∀ p n q, (p, n) ∈ s.numbered → s.kept n p = some q →
    ∃ e, script[n - 1]? = some e ∧ e.start = .int q.start ∧ e.size = .int q.size ∧
      e.type = .id q.id
  fixed : ∀ p n, (p, n) ∈ s.numbered → n ∈ s.fixed →
    ∃ e, script[n - 1]? = some e ∧ e.size = .int p.size
  swap : ∀ p n, (p, n) ∈ s.numbered → s.menu n p →
    ∃ e, script[n - 1]? = some e ∧ e.size = .int (s.swapSize n p)

/-- A second partition that is kept begins where the first one ends, with an extended one
counted as long as the sectors before it. No partition that is listed in `fixed.*` and no swap
area with a menu is the last one, and one that is listed has neither lost its type nor been
given another size by an answer. -/
structure Fits : Prop where
  second : ∀ p p' q, (p, 1) ∈ s.numbered → (p', 2) ∈ s.numbered → s.kept 2 p' = some q →
    isLost s 1 p = false ∧
      q.start = sectorFor s 2 + if isExtended p.id then firstSector s else 0
  listed : ∀ p n, (p, n) ∈ s.numbered → n ∈ s.fixed →
    n ≠ s.lastPartNr ∧ typeOf s n p ≠ 0 ∧ sizeOf s n p = p.size
  swap : ∀ p n, (p, n) ∈ s.numbered → s.menu n p → n ≠ s.lastPartNr

variable {s}

/-- The next sector behind the first line of the script. -/
theorem nextSector_one {p : Partition} (hp : (p, 1) ∈ s.numbered) :
    (s.cursor 1).nextSector = if isLost s 1 p then .empty
      else .int (sectorFor s 2 + if isExtended p.id then firstSector s else 0 : Nat) := by
  have hrow := Setup.row_of_numbered hp
  have hlast : 1 < s.lastPartNr := by
    have := s.table.four
    simp only [Setup.lastPartNr]
    omega
  have hcount : s.CountedTo 1 ↔ isLost s 1 p = false := by
    rw [Setup.countedTo_succ hrow, sized_iff]
    simp [Setup.CountedTo]
  cases hlost : isLost s 1 p with
  | true => exact (Setup.lost_of_not_countedTo (by simp [hcount, hlost])).1 hlast
  | false =>
    have hext := Setup.extendedBefore_succ hrow
    rw [((hcount.2 hlost).sums le_rfl hlast).1, hext, row_extended hp,
      show s.before 1 = sectorFor s 2 from before_eq s 2, start1_eq]
    simp [Setup.extendedBefore]

theorem entry_kept (c : Cursor) {n : Nat} {p q : Partition} (h : s.kept n p = some q) :
    let e := (s.secondRound c (s.figures n p).row).1
    e.start = (if n = 1 then .int q.start else c.nextSector) ∧ e.size = .int q.size ∧
      e.type = .id q.id := by
  obtain ⟨⟨hn, -⟩, -, -, hid⟩ := Setup.asked_of_kept h
  obtain ⟨h0, hext, h82, -⟩ := Setup.dosType_plain hid
  have hrow := congrArg Figures.row (Setup.figures_kept h)
  have hlast : n ≠ s.lastPartNr := by
    have := s.table.four
    simp only [Setup.lastPartNr]
    omega
  have hsize : s.partSize (s.figures n p).row = .int q.size := by
    have := Setup.partSize_of_fixed (s := s) (r := (s.figures n p).row) (by rw [hrow])
      (.inr (by rw [hrow]; change n < 4; omega))
    rw [this, hrow]
  refine ⟨?_, ?_, ?_⟩
  · simp only [Setup.secondRound, hrow, if_neg h0, hext, Bool.false_eq_true, if_false]
    split
    · rfl
    · rw [if_pos (by omega)]
  · rw [Setup.secondRound_size c (by rw [hrow]; exact h0) (by rw [hrow]; exact hext), hsize]
    simp [hrow, hlast, h82]
  · simp only [Setup.secondRound, hrow, if_neg h0, hext, Bool.false_eq_true, if_false, if_neg h82]

theorem entry_menu (c : Cursor) {n : Nat} {p : Partition} (h : s.menu n p) :
    (s.secondRound c (s.figures n p).row).1.size =
      if n ≠ s.lastPartNr then .int (s.swapSize n p) else .empty := by
  have hrow := congrArg Figures.row (Setup.figures_menu h)
  have h0 : (s.figures n p).row.id ≠ 0 := by simp [hrow]
  have hext : isExtended (s.figures n p).row.id = false := by simp [hrow, isExtended]
  rw [Setup.secondRound_size c h0 hext, hrow]
  simp

/-- A partition that is listed has sectors of its own, also where it is not on the backup. -/
theorem entry_listed (c : Cursor) {n : Nat} {p : Partition} (hp : (p, n) ∈ s.numbered)
    (h : n ∈ s.fixed) :
    (s.secondRound c (s.figures n p).row).1.size =
      if typeOf s n p = 0 then .int 0
      else if n ≠ s.lastPartNr then .int (sizeOf s n p) else .empty := by
  obtain ⟨hpos, hext⟩ := s.filesystem p n hp (.inr h)
  have hid := row_id s n p
  by_cases h0 : typeOf s n p = 0
  · rw [Setup.secondRound_empty c (hid.trans h0), if_pos h0]
  · rw [Setup.secondRound_size c (by rwa [hid]) (by rwa [row_extended hp]), if_neg h0,
      Setup.figures_ipart, hid, row_size]
    by_cases h82 : typeOf s n p = 0x82
    · rw [if_pos h82]
    · have hscal : (s.figures n p).row.scalable = false := by
        rw [row_scalable]
        simp [Setup.scalable, h]
      have hsize : (s.figures n p).row.size ≠ 0 ∨ (s.figures n p).row.ipart < 4 := by
        rw [Setup.figures_ipart]
        by_cases hn : n < 4
        · exact .inr hn
        · refine .inl ?_
          rw [(left_of_typeOf (by omega) h82).figures_row]
          exact hpos
      rw [if_neg h82, Setup.partSize_of_fixed hscal hsize, row_size]

theorem fits_of_keeps {script : List Entry} (h : s.resizePartitionLayout = some script)
    (hkeeps : Keeps s script) : Fits s := by
  have hline := fun p n (hp : (p, n) ∈ s.numbered) => s.script_getElem? h hp
  refine ⟨?_, ?_, ?_⟩
  · intro p p' q hp hp' hq
    obtain ⟨e, he, hstart, -⟩ := hkeeps.kept p' 2 q hp' hq
    rw [hline p' 2 hp', Option.some.injEq] at he
    have hentry := (entry_kept (s.cursor (2 - 1)) hq).1
    rw [he, hstart, if_neg (by decide), nextSector_one hp] at hentry
    cases hlost : isLost s 1 p with
    | true => simp [hlost] at hentry
    | false =>
      rw [hlost] at hentry
      exact ⟨rfl, Int.ofNat.inj (Word.int.inj hentry)⟩
  · intro p n hp hn
    obtain ⟨e, he, hsize⟩ := hkeeps.fixed p n hp hn
    have hpos := (s.filesystem p n hp (.inr hn)).1
    rw [hline p n hp, Option.some.injEq] at he
    have hentry := entry_listed (s.cursor (n - 1)) hp hn
    rw [he, hsize] at hentry
    split at hentry
    · rw [Word.int.injEq] at hentry
      omega
    · split at hentry
      · exact ⟨‹_›, ‹_›, (Int.ofNat.inj (Word.int.inj hentry)).symm⟩
      · cases hentry
  · intro p n hp hmenu hlast
    obtain ⟨e, he, hsize⟩ := hkeeps.swap p n hp hmenu
    rw [hline p n hp, Option.some.injEq] at he
    have hentry := entry_menu (s.cursor (n - 1)) hmenu
    rw [he, hsize, if_neg (by simpa using hlast)] at hentry
    cases hentry

theorem keeps_of_fits {script : List Entry} (h : s.resizePartitionLayout = some script)
    (hfits : Fits s) : Keeps s script := by
  have hline := fun p n (hp : (p, n) ∈ s.numbered) => s.script_getElem? h hp
  refine ⟨?_, ?_, ?_⟩
  · intro p n q hp hq
    refine ⟨_, hline p n hp, ?_, (entry_kept _ hq).2⟩
    rw [(entry_kept _ hq).1]
    split
    · rfl
    · have hn : n = 2 := by
        have hle := (Setup.asked_of_kept hq).1.1
        have hge := (Setup.mem_numbered.1 hp).1
        omega
      subst hn
      obtain ⟨p₁, hp₁⟩ := s.exists_first
      obtain ⟨hwhole, hstart⟩ := hfits.second p₁ p q hp₁ hp hq
      rw [nextSector_one hp₁, hwhole, hstart]
      rfl
  · intro p n hp hn
    obtain ⟨hlast, hid, hsize⟩ := hfits.listed p n hp hn
    refine ⟨_, hline p n hp, ?_⟩
    rw [entry_listed _ hp hn, if_neg hid, if_pos hlast, hsize]
  · intro p n hp hmenu
    refine ⟨_, hline p n hp, ?_⟩
    rw [entry_menu _ hmenu, if_pos (hfits.swap p n hp hmenu)]

/-- What the user and the configuration fix stays as it is exactly if `Fits` holds. -/
theorem keeps_iff {script : List Entry} (h : s.resizePartitionLayout = some script) :
    Keeps s script ↔ Fits s :=
  ⟨fits_of_keeps h, keeps_of_fits h⟩

/-- A disk with three Linux partitions, the second of them not saved. -/
def threePartitions : Table where
  sectors := 10000
  parts := [⟨63, 937, 0x83, true⟩, ⟨1000, 1000, 0x83, false⟩, ⟨2000, 8000, 0x83, false⟩,
    ⟨0, 0, 0, false⟩]
  four := by decide
  empty := by decide
  inside := by decide
  primary := by decide
  logical := by decide
  plain := by decide
  nested := by decide
  single := by decide

/-- The second partition of the target disk, of type NTFS, is kept. -/
def ntfsKept : Setup where
  table := threePartitions
  onBackup n := n = 1 || n = 3
  fixed := []
  usedKb _ := 100
  mdSwapIpart := 0
  target n := if n = 2 then some ⟨3000, 500, 0x7, false⟩ else none
  targetDiskSectorsSize := 10000
  firstPartChoice _ := .keep
  swapChoice _ := ⟨3, swapChoice_three⟩
  filesystem := by
    intro p n hp _
    simp only [threePartitions, List.zipIdx_cons, List.zipIdx_nil, List.mem_cons, Prod.mk.injEq,
      List.not_mem_nil, or_false] at hp
    rcases hp with ⟨rfl, rfl⟩ | ⟨rfl, rfl⟩ | ⟨rfl, rfl⟩ | ⟨rfl, rfl⟩ <;> simp_all [isExtended]
  member := by simp [List.mem_zipIdx_iff_le_and_getElem?_sub]

theorem resize_ntfsKept : ntfsKept.resizePartitionLayout = some
    [⟨.int 63, .int 989, .id 0x83, true⟩, ⟨.int 1052, .int 500, .id 0x7, false⟩,
      ⟨.int 1552, .int 8447, .id 0x83, false⟩, ⟨.int 0, .int 0, .id 0, false⟩] := by
  decide +kernel

theorem keeps_iff_ntfsKept : ∃ script, ntfsKept.resizePartitionLayout = some script ∧
    (Keeps ntfsKept script ↔ Fits ntfsKept) :=
  ⟨_, resize_ntfsKept, keeps_iff resize_ntfsKept⟩

/-- The partition that was to be kept begins at another sector. -/
theorem kept_partition_moved : ¬ ∀ (s : Setup) (script : List Entry),
    s.resizePartitionLayout = some script → Keeps s script := by
  intro h
  have hkeeps := h ntfsKept _ resize_ntfsKept
  obtain ⟨e, he, hstart, -⟩ := hkeeps.kept ⟨1000, 1000, 0x83, false⟩ 2 ⟨3000, 500, 0x7, false⟩
    (by decide +kernel) (by decide +kernel)
  simp only [Nat.add_one_sub_one, List.getElem?_cons_succ, List.getElem?_cons_zero,
    Option.some.injEq] at he
  subst he
  cases hstart

end FixedSizes
