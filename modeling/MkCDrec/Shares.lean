import Mathlib.Tactic.Linarith
import MkCDrec.Sectors

/-!
# What the layout has for each partition

The sums of the first round and the sizes of the second one as they follow from the source
table, the answers and the files. What the target disk has left, or what it lacks, goes to
the sectors that may be scaled.
-/

namespace Shares

open ShellNumber Layout

section Sums

variable (s : Setup)

/-- The partition as the answers leave it. -/
def startOf (n : Nat) (p : Partition) : Nat :=
  if s.zeroed n p then 0 else ((s.kept n p).map Partition.start).getD p.start

def sizeOf (n : Nat) (p : Partition) : Nat :=
  if s.zeroed n p then 0
  else if s.menu n p then s.swapSize n p
  else ((s.kept n p).map Partition.size).getD p.size

def typeOf (n : Nat) (p : Partition) : Nat :=
  if s.zeroed n p then 0
  else if s.menu n p then 0x82
  else ((s.kept n p).map Partition.id).getD (Setup.plainId p.id)

def usedOf (n : Nat) (p : Partition) : Nat :=
  if s.menu n p then s.swapSize n p else s.usedKb n * 2

def isScaled (n : Nat) (p : Partition) : Bool :=
  s.scalable n && p.id ≠ 0 && !isExtended p.id && !s.menu n p

def isCounted (n : Nat) (p : Partition) : Bool :=
  s.menu n p || !(isExtended p.id || s.scalable n || p.id = 0 && (2 < n || s.onBackup n))

def scalableSectors : Nat := (s.numbered.map fun q => if isScaled s q.2 q.1 then q.1.size else 0).sum

def logicalScalable : Nat :=
  (s.numbered.map fun q => if 4 < q.2 ∧ s.scalable q.2 then sizeOf s q.2 q.1 else 0).sum

def logicalFixed : Nat :=
  (s.numbered.map fun q => if 4 < q.2 ∧ !s.scalable q.2 then sizeOf s q.2 q.1 else 0).sum

def logicalUsed : Nat := (s.numbered.map fun q => if 4 < q.2 then usedOf s q.2 q.1 else 0).sum

/-- The sizes that stay, the start of the first partition, and a sector for every logical
partition without one. -/
def fixedSectors : Nat :=
  (s.numbered.map fun q => (if isCounted s q.2 q.1 then sizeOf s q.2 q.1 else 0) +
    (if q.2 = 1 then startOf s q.2 q.1 else 0) +
    (if 4 < q.2 ∧ sizeOf s q.2 q.1 = 0 then 1 else 0)).sum

/-- The digits of the ratio without the sign: what the target disk has left, or what it
lacks, for a sector that may be scaled. -/
def ratioDigits : Nat :=
  ((s.targetDiskSectorsSize : Int) - fixedSectors s).natAbs * 10 ^ 20 / scalableSectors s

/-- So many sectors come to a part of a sector. -/
def Broken (n : Nat) : Prop := 0 < n * ratioDigits s ∧ n * ratioDigits s < 10 ^ 20

instance (n : Nat) : Decidable (Broken s n) := by unfold Broken; infer_instance

/-- Of the size of partition `n` nothing is left but digits behind the point. -/
def isLost (n : Nat) (p : Partition) : Bool := isScaled s n p && Broken s p.size

/-- The whole sectors that are left of so many. A disk that lacks sectors leaves none. -/
def share (n : Nat) : Nat :=
  if fixedSectors s ≤ s.targetDiskSectorsSize then n * ratioDigits s / 10 ^ 20 else 0

/-- The sectors for partition `n`. -/
def given (n : Nat) (p : Partition) : Nat :=
  if typeOf s n p = 0 ∨ isExtended (typeOf s n p) then 0
  else if typeOf s n p = 0x82 then sizeOf s n p
  else
    let size :=
      if s.scalable n then
        if share s (sizeOf s n p) < usedOf s n p then usedOf s n p * 111 / 100
        else share s (sizeOf s n p)
      else sizeOf s n p
    if 4 ≤ n ∧ size = 0 then 1 else size

/-- The first sector that the layout uses. -/
def firstSector : Nat := (s.table.parts.head?.map (startOf s 1)).getD 0

/-- The sector behind the partitions with smaller numbers. -/
def sectorFor (n : Nat) : Nat :=
  firstSector s + ((s.numbered.take (n - 1)).map fun q => given s q.2 q.1).sum

/-- The start of a partition: behind an extended one the sectors before the first partition
are counted once more. -/
def startFor (n : Nat) : Nat :=
  sectorFor s n +
    if s.numbered.any fun q => q.2 < n && isExtended q.1.id then firstSector s else 0

/-- The sectors for the extended partition. -/
def extendedSize : Nat :=
  max (if fixedSectors s ≤ s.targetDiskSectorsSize then
      logicalScalable s * ratioDigits s / 10 ^ 20 + logicalFixed s
    else logicalFixed s - logicalScalable s * ratioDigits s / 10 ^ 20) (logicalUsed s)

end Sums

section Figures

variable {s : Setup} {n : Nat} {p : Partition}

theorem asked_of_menu (h : s.menu n p) : s.asked n p = none := by
  simp only [Setup.menu, Bool.and_eq_true, Bool.or_eq_true, decide_eq_true_eq] at h
  obtain ⟨hn | hb, _⟩ := h
  · simp [Setup.asked, Nat.not_le.mpr hn]
  · simp [Setup.asked, hb]

theorem unasked_of_menu (h : s.menu n p) : s.zeroed n p = false ∧ s.kept n p = none := by
  have hasked := asked_of_menu h
  constructor
  · simp [Setup.zeroed, hasked]
  · simp [Setup.kept, hasked]

theorem others_of_zeroed (h : s.zeroed n p) : s.kept n p = none ∧ s.menu n p = false := by
  constructor
  · simp only [Setup.zeroed, Bool.and_eq_true, decide_eq_true_eq] at h
    simp [Setup.kept, h.2]
  · by_contra hmenu
    rw [Bool.not_eq_false] at hmenu
    rw [(unasked_of_menu hmenu).1] at h
    cases h

theorem others_of_kept {q : Partition} (h : s.kept n p = some q) :
    s.zeroed n p = false ∧ s.menu n p = false := by
  constructor
  · by_contra hzeroed
    rw [Bool.not_eq_false] at hzeroed
    rw [(others_of_zeroed hzeroed).1] at h
    cases h
  · by_contra hmenu
    rw [Bool.not_eq_false] at hmenu
    rw [(unasked_of_menu hmenu).2] at h
    cases h

/-- Partitions that the user is asked about are not on the backup. -/
theorem fixed_of_asked {q : Partition} (h : s.asked n p = some q) :
    s.scalable n = false ∧ isExtended p.id = false ∧ (2 < n || s.onBackup n) = false := by
  obtain ⟨⟨hn, hb⟩, hext, _⟩ := Setup.asked_eq_some h
  refine ⟨by simp [Setup.scalable, hb], hext, ?_⟩
  simp [hb, hn]

theorem row_start (s : Setup) (n : Nat) (p : Partition) :
    (s.figures n p).row.start = startOf s n p := by
  rcases s.figures_cases n p with hz | ⟨q, hk⟩ | hm | hl
  · simp [Setup.figures_zeroed hz, startOf, hz]
  · simp [Setup.figures_kept hk, startOf, others_of_kept hk, hk]
  · simp [Setup.figures_menu hm, startOf, unasked_of_menu hm]
  · simp [hl.figures_row, startOf, hl.zeroed, hl.kept]

theorem row_size (s : Setup) (n : Nat) (p : Partition) :
    (s.figures n p).row.size = sizeOf s n p := by
  rcases s.figures_cases n p with hz | ⟨q, hk⟩ | hm | hl
  · simp [Setup.figures_zeroed hz, sizeOf, hz]
  · simp [Setup.figures_kept hk, sizeOf, others_of_kept hk, hk]
  · simp [Setup.figures_menu hm, sizeOf, hm, unasked_of_menu hm]
  · simp [hl.figures_row, sizeOf, hl.zeroed, hl.kept, hl.menu]

theorem row_id (s : Setup) (n : Nat) (p : Partition) :
    (s.figures n p).row.id = typeOf s n p := by
  rcases s.figures_cases n p with hz | ⟨q, hk⟩ | hm | hl
  · simp [Setup.figures_zeroed hz, typeOf, hz]
  · simp [Setup.figures_kept hk, typeOf, others_of_kept hk, hk]
  · simp [Setup.figures_menu hm, typeOf, hm, unasked_of_menu hm]
  · simp [hl.figures_row, typeOf, hl.zeroed, hl.kept, hl.menu]

theorem row_used (s : Setup) (n : Nat) (p : Partition) :
    (s.figures n p).row.used = usedOf s n p := by
  rcases s.figures_cases n p with hz | ⟨q, hk⟩ | hm | hl
  · simp [Setup.figures_zeroed hz, usedOf, others_of_zeroed hz]
  · simp [Setup.figures_kept hk, usedOf, others_of_kept hk]
  · simp [Setup.figures_menu hm, usedOf, hm]
  · simp [hl.figures_row, usedOf, hl.menu]

theorem row_extended (hp : (p, n) ∈ s.numbered) :
    isExtended (s.figures n p).row.id = isExtended p.id :=
  Bool.eq_iff_iff.2 ⟨Setup.extended_of_row, Setup.extended_row hp⟩

/-- A later partition that is no swap area is as it was. -/
theorem left_of_typeOf (hn : 2 < n) (h : typeOf s n p ≠ 0x82) : s.Left n p := by
  have hnot : ∀ q, s.asked n p ≠ some q := fun q hq => by
    have := (Setup.asked_eq_some hq).1.1
    omega
  rcases s.figures_cases n p with hz | ⟨q, hk⟩ | hm | hl
  · simp only [Setup.zeroed, Bool.and_eq_true, Option.isSome_iff_exists] at hz
    obtain ⟨⟨q, hq⟩, -⟩ := hz
    exact absurd hq (hnot q)
  · simp only [Setup.kept] at hk
    split at hk
    · exact absurd hk (hnot q)
    · cases hk
  · simp [typeOf, hm, unasked_of_menu hm] at h
  · exact hl

theorem row_scalable (s : Setup) (n : Nat) (p : Partition) :
    (s.figures n p).row.scalable = s.scalable n := by
  rcases s.figures_cases n p with hz | ⟨q, hk⟩ | hm | hl
  · simp only [Setup.zeroed, Bool.and_eq_true, Option.isSome_iff_exists] at hz
    obtain ⟨⟨q, hq⟩, hchoice⟩ := hz
    rw [(fixed_of_asked hq).1, Setup.figures_zeroed]
    simp [Setup.zeroed, hq, hchoice]
  · have hasked : s.asked n p = some q := by
      simp only [Setup.kept] at hk
      split at hk
      · exact hk
      · cases hk
    rw [(fixed_of_asked hasked).1, Setup.figures_kept hk]
  · rw [Setup.figures_menu hm]
  · rw [hl.figures_row]

theorem figures_fixed (s : Setup) (n : Nat) (p : Partition) :
    (s.figures n p).fixed = if isCounted s n p then sizeOf s n p else 0 := by
  rcases s.figures_cases n p with hz | ⟨q, hk⟩ | hm | hl
  · simp [Setup.figures_zeroed hz, sizeOf, hz]
  · have hasked : s.asked n p = some q := by
      simp only [Setup.kept] at hk
      split at hk
      · exact hk
      · cases hk
    obtain ⟨hscal, hext, hside⟩ := fixed_of_asked hasked
    rw [Setup.figures_kept hk]
    simp [isCounted, hscal, hext, hside, sizeOf, others_of_kept hk, hk]
  · simp [Setup.figures_menu hm, isCounted, sizeOf, hm, unasked_of_menu hm]
  · rw [hl.figures_eq]
    simp only [isCounted, sizeOf, hl.zeroed, hl.kept, hl.menu]
    by_cases hout : isExtended p.id ∨ s.scalable n ∨ p.id = 0 ∧ (2 < n ∨ s.onBackup n)
    · rw [if_pos hout]
      rcases hout with h | h | ⟨h, h'⟩
      · simp [h]
      · simp [h]
      · rcases h' with h' | h'
        · simp [h, h']
        · simp [h, h']
    · rw [if_neg hout]
      simp only [not_or, Bool.not_eq_true] at hout
      obtain ⟨hext, hscal, hside⟩ := hout
      simp only [hext, hscal, Bool.false_or]
      have hno : (decide (p.id = 0) && (decide (2 < n) || s.onBackup n)) = false := by
        simpa using hside
      simp [hno]

theorem figures_scalable (s : Setup) (n : Nat) (p : Partition) :
    (s.figures n p).scalable = if isScaled s n p then p.size else 0 := by
  rcases s.figures_cases n p with hz | ⟨q, hk⟩ | hm | hl
  · have hrow := row_scalable s n p
    rw [Setup.figures_zeroed hz] at hrow ⊢
    simp [isScaled, ← hrow]
  · have hrow := row_scalable s n p
    rw [Setup.figures_kept hk] at hrow ⊢
    simp [isScaled, ← hrow]
  · simp [Setup.figures_menu hm, isScaled, hm]
  · rw [hl.figures_eq]
    simp only [isScaled, hl.menu]
    by_cases hout : isExtended p.id ∨ p.id = 0 ∨ s.scalable n = false
    · rw [if_pos hout]
      rcases hout with h | h | h
      · simp [h]
      · simp [h]
      · simp [h]
    · rw [if_neg hout]
      simp only [not_or, Bool.not_eq_true, Bool.not_eq_false] at hout
      simp [hout]

/-- A partition on the backup has no menu and is no swap area, unless it is in the menu. -/
theorem row_scaled (s : Setup) (n : Nat) (p : Partition) :
    (s.figures n p).row.scaled = isScaled s n p := by
  have hrow := row_scalable s n p
  cases hscal : s.scalable n with
  | false => simp [Row.scaled, hrow, isScaled, hscal]
  | true =>
    have hb : s.onBackup n = true := by
      simp only [Setup.scalable, Bool.and_eq_true] at hscal
      exact hscal.1
    by_cases hm : s.menu n p
    · simp [Setup.figures_menu hm, Row.scaled, isScaled, hm]
    · have hid : p.id ≠ 0x82 := by
        intro h82
        exact hm (by simp [Setup.menu, hb, h82])
      rcases s.figures_cases n p with hz | ⟨q, hk⟩ | hm' | hl
      · rw [Setup.figures_zeroed hz, hscal] at hrow
        cases hrow
      · rw [Setup.figures_kept hk, hscal] at hrow
        cases hrow
      · exact absurd hm' hm
      · rw [hl.figures_row]
        by_cases hfd : p.id = 0xfd
        · simp [Row.scaled, isScaled, hl.menu, hfd, Setup.plainId, isExtended]
        · simp [Row.scaled, isScaled, hl.menu, hfd, Setup.plainId, hid]

theorem sizeOf_of_scaled (h : isScaled s n p) : sizeOf s n p = p.size := by
  have hrow := row_scaled s n p
  rw [h] at hrow
  rcases s.figures_cases n p with hz | ⟨q, hk⟩ | hm | hl
  · rw [Setup.figures_zeroed hz] at hrow
    cases hrow
  · rw [Setup.figures_kept hk] at hrow
    cases hrow
  · simp [isScaled, hm] at h
  · simp [sizeOf, hl.zeroed, hl.kept, hl.menu]

theorem scalable_eq (s : Setup) : s.totals.scalable = scalableSectors s := by
  rw [Setup.totals, Setup.foldl_add]
  simp only [Nat.zero_add, Setup.firstRound, List.map_map, scalableSectors]
  refine congrArg List.sum (List.map_congr_left ?_)
  rintro ⟨p, n⟩ _
  exact figures_scalable s n p

theorem extendedScalable_eq (s : Setup) : s.totals.extendedScalable = logicalScalable s := by
  rw [Setup.totals, Setup.foldl_add]
  simp only [Nat.zero_add, Setup.firstRound, List.map_map, logicalScalable]
  refine congrArg List.sum (List.map_congr_left ?_)
  rintro ⟨p, n⟩ _
  simp only [Function.comp_apply, row_size, row_scalable, Setup.figures_ipart]

theorem extendedFixed_eq (s : Setup) : s.totals.extendedFixed = logicalFixed s := by
  rw [Setup.totals, Setup.foldl_add]
  simp only [Nat.zero_add, Setup.firstRound, List.map_map, logicalFixed]
  refine congrArg List.sum (List.map_congr_left ?_)
  rintro ⟨p, n⟩ _
  simp only [Function.comp_apply, row_size, row_scalable, Setup.figures_ipart]

theorem minExtendedSize_eq (s : Setup) : s.totals.minExtendedSize = logicalUsed s := by
  rw [Setup.totals, Setup.foldl_add]
  simp only [Nat.zero_add, Setup.firstRound, List.map_map, logicalUsed]
  refine congrArg List.sum (List.map_congr_left ?_)
  rintro ⟨p, n⟩ _
  simp only [Function.comp_apply, row_used, Setup.figures_ipart]

theorem fixed_eq (s : Setup) : s.totals.fixed = fixedSectors s := by
  rw [Setup.totals, Setup.foldl_add]
  simp only [Nat.zero_add, Setup.firstRound, List.map_map, fixedSectors]
  refine congrArg List.sum (List.map_congr_left ?_)
  rintro ⟨p, n⟩ _
  simp only [Function.comp_apply, figures_fixed, row_size, row_start, Setup.figures_ipart]

end Figures

section Ratio

variable {s : Setup}

theorem natAbs_ratio (s : Setup) : s.targetvsSourceRatio.natAbs = ratioDigits s := by
  rw [Setup.targetvsSourceRatio, Setup.availableSectors, scalable_eq, fixed_eq, ratioDigits]
  split
  · rename_i hnone
    have hzero : scalableSectors s = 0 := by omega
    rw [hzero, Nat.div_zero]
    rfl
  · rw [divide, Int.natAbs_tdiv, Int.natAbs_mul]
    rfl

theorem legible_iff {n : Nat} :
    s.Legible n ↔ n * ratioDigits s = 0 ∨ 10 ^ 20 ≤ n * ratioDigits s := by
  have habs : ((n : Int) * s.targetvsSourceRatio).natAbs = n * ratioDigits s := by
    rw [Int.natAbs_mul, natAbs_ratio]
    rfl
  have hunit : unit = ((10 ^ 20 : Nat) : Int) := rfl
  rw [Setup.Legible, ← habs, hunit]
  generalize (n : Int) * s.targetvsSourceRatio = d
  generalize (10 ^ 20 : Nat) = u
  omega

/-- `sed` leaves a number unless the product is a part of a sector. -/
theorem not_legible_iff {n : Nat} : ¬ s.Legible n ↔ Broken s n := by
  rw [legible_iff, Broken]
  omega

theorem sized_iff {n : Nat} {p : Partition} :
    s.Sized (s.figures n p).row ↔ isLost s n p = false := by
  rw [Setup.sized_iff, Setup.Lost, row_scaled, not_legible_iff, isLost, row_size,
    ← Bool.not_eq_true, Bool.and_eq_true, decide_eq_true_eq, not_iff_not]
  refine and_congr_right fun hscaled => ?_
  rw [sizeOf_of_scaled hscaled]

theorem mem_take_numbered {i n : Nat} {p : Partition} :
    (p, n) ∈ s.numbered.take i ↔ (p, n) ∈ s.numbered ∧ n ≤ i := by
  simp only [List.mem_iff_getElem?, List.getElem?_take, Setup.numbered, List.getElem?_zipIdx,
    Option.ite_none_right_eq_some, Option.map_eq_some_iff, Prod.mk.injEq]
  constructor
  · rintro ⟨k, hk, p', hp', rfl, rfl⟩
    exact ⟨⟨k, p', hp', rfl, rfl⟩, by omega⟩
  · rintro ⟨⟨k, p', hp', rfl, rfl⟩, hn⟩
    exact ⟨k, by omega, p', hp', rfl, rfl⟩

theorem countedTo_iff {i : Nat} :
    s.CountedTo i ↔ ∀ p n, (p, n) ∈ s.numbered → n ≤ i → isLost s n p = false := by
  have hrows : s.rows.take i = (s.numbered.take i).map fun q => (s.figures q.2 q.1).row := by
    rw [Setup.rows, Setup.firstRound, List.map_map, ← List.map_take]
    rfl
  simp only [Setup.CountedTo, hrows, List.mem_map, Prod.exists, mem_take_numbered]
  constructor
  · intro h p n hp hn
    exact sized_iff.1 (h _ ⟨p, n, ⟨hp, hn⟩, rfl⟩)
  · rintro h _ ⟨p, n, ⟨hp, hn⟩, rfl⟩
    exact sized_iff.2 (h p n hp hn)

theorem ratio_eq (s : Setup) : s.targetvsSourceRatio =
    if fixedSectors s ≤ s.targetDiskSectorsSize then (ratioDigits s : Int) else -ratioDigits s := by
  have habs := natAbs_ratio s
  have hsign : if fixedSectors s ≤ s.targetDiskSectorsSize then 0 ≤ s.targetvsSourceRatio
      else s.targetvsSourceRatio ≤ 0 := by
    rw [Setup.targetvsSourceRatio, Setup.availableSectors, scalable_eq, fixed_eq]
    split
    · split
      · rfl
      · exact divide_nonneg (by omega) (by omega)
    · split
      · rfl
      · exact divide_nonpos (by omega) (by omega)
  split at hsign
  · rw [if_pos ‹_›]
    omega
  · rw [if_neg ‹_›]
    omega

theorem partSize_of_lost {n : Nat} {p : Partition} (h : isLost s n p) :
    s.partSize (s.figures n p).row =
      if fixedSectors s ≤ s.targetDiskSectorsSize then .empty else .sign := by
  have hlost : s.Lost (s.figures n p).row := by
    rw [← not_not (a := s.Lost _), ← Setup.sized_iff, sized_iff, h]
    simp
  have hpos : 0 < ratioDigits s := by
    simp only [isLost, Bool.and_eq_true, decide_eq_true_eq] at h
    exact Nat.pos_of_mul_pos_left h.2.1
  rw [hlost.partSize_eq, ratio_eq]
  split
  · rw [if_pos (by omega)]
  · rw [if_neg (by omega)]

theorem share_eq (s : Setup) (n : Nat) : s.share n = share s n := by
  have hunit : unit = ((10 ^ 20 : Nat) : Int) := rfl
  rw [Setup.share, share, ratio_eq]
  split
  · rw [hunit, ← Nat.cast_mul, ← Int.natCast_ediv, Int.toNat_natCast]
  · have hneg : (n : Int) * -(ratioDigits s : Int) / unit ≤ 0 :=
      Int.ediv_nonpos_of_nonpos_of_neg
        (Int.mul_nonpos_of_nonneg_of_nonpos (by omega) (by omega)) unit_pos
    omega

theorem sectors_eq (s : Setup) (n : Nat) (p : Partition) :
    s.sectors (s.figures n p).row = given s n p := by
  simp only [Setup.sectors, given, row_id, row_size, row_used, row_scalable, Setup.figures_ipart,
    share_eq]

theorem start1_eq (s : Setup) : s.start1 = firstSector s := by
  have hrow := s.rows_getElem? 0
  rw [Setup.start1, firstSector, List.head?_eq_getElem?, List.head?_eq_getElem?, hrow]
  cases s.table.parts[0]? with
  | none => rfl
  | some p => simp [row_start]

theorem before_eq (s : Setup) (n : Nat) : s.before (n - 1) = sectorFor s n := by
  rw [Setup.before, sectorFor, start1_eq, Setup.rows, Setup.firstRound, List.map_map,
    ← List.map_take, List.map_map]
  congr 2
  exact List.map_congr_left fun q _ => sectors_eq s q.2 q.1

theorem extendedSectors_eq (s : Setup) : s.extendedSectors = extendedSize s := by
  have hunit : unit = ((10 ^ 20 : Nat) : Int) := rfl
  rw [Setup.extendedSectors, extendedSize, extendedScalable_eq, extendedFixed_eq,
    minExtendedSize_eq, ratio_eq, hunit]
  congr 1
  split
  · rw [← Nat.cast_mul, Int.tdiv_eq_ediv_of_nonneg (by omega), ← Int.natCast_ediv]
    omega
  · rw [Int.mul_neg, Int.neg_tdiv, ← Nat.cast_mul, Int.tdiv_eq_ediv_of_nonneg (by omega),
      ← Int.natCast_ediv]
    omega

end Ratio

section Lines

variable {s : Setup} {p p' : Partition} {n m : Nat}

theorem typeOf_ne_zero_of_lost (h : isLost s n p) : typeOf s n p ≠ 0 := by
  simp only [isLost, Bool.and_eq_true] at h
  have hscaled := row_scaled s n p
  rw [h.1] at hscaled
  simp only [Row.scaled, Bool.and_eq_true, decide_eq_true_eq] at hscaled
  rw [← row_id]
  exact hscaled.1.1.2

theorem not_extended_of_lost (h : isLost s n p) : isExtended p.id = false := by
  simp only [isLost, isScaled, Bool.and_eq_true, Bool.not_eq_true'] at h
  exact h.1.1.2

theorem typeOf_ne_zero_of_extended (hp : (p, n) ∈ s.numbered) (hext : isExtended p.id) :
    typeOf s n p ≠ 0 := by
  rw [← row_id]
  exact Setup.ne_zero_of_extended (by rwa [row_extended hp])

theorem given_of_extended (hp : (p, n) ∈ s.numbered) (hext : isExtended p.id) :
    given s n p = 0 := by
  rw [given, if_pos (.inr (by rwa [← row_id, row_extended hp]))]

theorem typeOf_ne_zero_of_given (h : given s n p ≠ 0) : typeOf s n p ≠ 0 := by
  intro h0
  simp [given, h0] at h

theorem le_four_of_extended (hp : (p, n) ∈ s.numbered) (hext : isExtended p.id) : n ≤ 4 := by
  by_contra hlogical
  obtain ⟨-, hpart⟩ := Setup.mem_numbered.1 hp
  have hmem : p ∈ s.table.parts.drop 4 := by
    rw [List.mem_iff_getElem?]
    exact ⟨n - 1 - 4, by rw [List.getElem?_drop, Nat.add_sub_cancel' (by omega), hpart]⟩
  rw [s.table.plain p hmem] at hext
  cases hext

/-- Among the first four partitions there is no other extended one. -/
theorem extended_unique (hp : (p, n) ∈ s.numbered) (hp' : (p', m) ∈ s.numbered) (hnm : n < m)
    (hm : m ≤ 4) (hext : isExtended p.id) : isExtended p'.id = false := by
  have hn := (Setup.mem_numbered.1 hp).1
  have hplain := Setup.extended_unique (s := s) (show n - 1 < m - 1 by omega) (by omega)
    (Setup.row_of_numbered hp) (Setup.row_of_numbered hp') (by rwa [row_extended hp])
  rwa [row_extended hp'] at hplain

theorem sectorFor_succ (hp : (p, n) ∈ s.numbered) :
    sectorFor s (n + 1) = sectorFor s n + given s n p := by
  have hn := (Setup.mem_numbered.1 hp).1
  have hbefore := Setup.before_succ (Setup.row_of_numbered hp)
  rw [Nat.sub_add_cancel hn, sectors_eq, before_eq] at hbefore
  rw [← hbefore, ← before_eq, Nat.add_sub_cancel]

theorem sectorFor_mono (h : n ≤ m) : sectorFor s n ≤ sectorFor s m := by
  rw [← before_eq, ← before_eq]
  exact Setup.before_mono (by omega)

theorem firstSector_le (n : Nat) : firstSector s ≤ sectorFor s n := Nat.le_add_right _ _

theorem exists_numbered (hn : 1 ≤ n) (hlast : n ≤ s.lastPartNr) : ∃ p, (p, n) ∈ s.numbered := by
  have hlt : n - 1 < s.table.parts.length := by
    simp only [Setup.lastPartNr] at hlast
    omega
  exact ⟨s.table.parts[n - 1], Setup.mem_numbered.2 ⟨hn, List.getElem?_eq_getElem hlt⟩⟩

theorem any_extended_iff : (s.numbered.any fun q => q.2 < n && isExtended q.1.id) = true ↔
    ∃ p k, (p, k) ∈ s.numbered ∧ k < n ∧ isExtended p.id := by
  simp [List.any_eq_true, Prod.exists]

theorem extendedBefore_eq (hn : n ≤ 4) :
    s.extendedBefore (n - 1) =
      if s.numbered.any fun q => q.2 < n && isExtended q.1.id then 1 else 0 := by
  split
  · rename_i hany
    obtain ⟨p, k, hp, hk, hext⟩ := any_extended_iff.1 hany
    have hpos := (Setup.mem_numbered.1 hp).1
    exact Setup.extendedBefore_eq_one (by omega) (by omega) (Setup.row_of_numbered hp)
      (by rwa [row_extended hp])
  · rename_i hany
    refine Setup.extendedBefore_eq_zero fun k r hk hr => ?_
    obtain ⟨p, j, hp, rfl⟩ := Setup.exists_numbered (List.mem_of_getElem? hr)
    have hj := Setup.row_ipart hr
    rw [Setup.figures_ipart] at hj
    rw [row_extended hp, ← Bool.not_eq_true]
    exact fun hext => hany (any_extended_iff.2 ⟨p, j, hp, by omega, hext⟩)

theorem start_eq (hn : n ≤ 4) :
    s.before (n - 1) + s.start1 * s.extendedBefore (n - 1) = startFor s n := by
  rw [before_eq, start1_eq, extendedBefore_eq hn, startFor]
  split <;> simp

theorem startFor_of_extended (hp : (p, n) ∈ s.numbered) (hn : n ≤ 4) (hext : isExtended p.id) :
    startFor s n = sectorFor s n := by
  rw [startFor, if_neg, Nat.add_zero]
  intro hany
  obtain ⟨p', k, hp', hk, hext'⟩ := any_extended_iff.1 hany
  simp [extended_unique hp' hp hk hn hext'] at hext

theorem startFor_behind_extended (hp : (p, n) ∈ s.numbered) (hext : isExtended p.id)
    (hnm : n < m) : startFor s m = sectorFor s m + firstSector s := by
  rw [startFor, if_pos (any_extended_iff.2 ⟨p, n, hp, hnm, hext⟩)]

theorem sectorFor_le_startFor (n : Nat) : sectorFor s n ≤ startFor s n := Nat.le_add_right _ _

/-- The line of a partition. -/
def line (s : Setup) (n : Nat) (p : Partition) : Entry :=
  (s.secondRound (s.cursor (n - 1)) (s.figures n p).row).1

/-- As long as no size was lost, a line begins behind the partitions before it. -/
theorem line_start (hp : (p, n) ∈ s.numbered) (hn : n ≤ 4) (h0 : typeOf s n p ≠ 0)
    (hcount : s.CountedTo (n - 1)) : (line s n p).start = .int (startFor s n) := by
  have hpos := (Setup.mem_numbered.1 hp).1
  rw [line, hcount.entry_start (Setup.row_of_numbered hp) (by omega) (by rwa [row_id]),
    start_eq hn]

theorem line_start_lost (hp : (p, n) ∈ s.numbered) (hn : n ≤ 4) (h0 : typeOf s n p ≠ 0)
    (hcount : ¬ s.CountedTo (n - 1)) : (line s n p).start = .empty := by
  have hpos : n ≠ 1 := by
    rintro rfl
    exact hcount fun r hr => by simp at hr
  rw [line, Setup.secondRound_start _ (by rwa [row_id]), Setup.figures_ipart, if_neg hpos,
    if_pos hn]
  exact (Setup.lost_of_not_countedTo hcount).1 (Setup.lt_of_row (Setup.row_of_numbered hp))

theorem line_size (hp : (p, n) ∈ s.numbered) (h0 : typeOf s n p ≠ 0)
    (hext : isExtended p.id = false) :
    (line s n p).size =
      if n = s.lastPartNr then .empty
      else if isLost s n p then
        if fixedSectors s ≤ s.targetDiskSectorsSize then .empty else .sign
      else .int (given s n p) := by
  have hid : (s.figures n p).row.id ≠ 0 := by rwa [row_id]
  have hplain : isExtended (s.figures n p).row.id = false := by rwa [row_extended hp]
  cases hlost : isLost s n p with
  | false =>
    rw [line, (sized_iff.2 hlost).entry_size _ hid hplain, Setup.figures_ipart, sectors_eq]
    simp
  | true =>
    have h82 : (s.figures n p).row.id ≠ 0x82 := by
      simp only [isLost, Bool.and_eq_true] at hlost
      have hscaled := row_scaled s n p
      rw [hlost.1] at hscaled
      simp only [Row.scaled, Bool.and_eq_true, decide_eq_true_eq] at hscaled
      exact hscaled.1.2
    rw [line, Setup.secondRound_size _ hid hplain, Setup.figures_ipart, if_neg h82,
      partSize_of_lost hlost]
    simp

theorem line_extended (hp : (p, n) ∈ s.numbered) (hn : n ≤ 4) (hext : isExtended p.id)
    (hcount : s.CountedTo (n - 1)) :
    (line s n p).size = if Broken s (logicalScalable s) then .empty
      else .int (min (extendedSize s : Int) (s.targetDiskSectorsSize - (sectorFor s n : Nat))) := by
  have hpos := (Setup.mem_numbered.1 hp).1
  have hrow := Setup.row_of_numbered hp
  have hplain : isExtended (s.figures n p).row.id := by rwa [row_extended hp]
  by_cases hbroken : Broken s (logicalScalable s)
  · have hempty := Setup.scaledExtendedSize_of_lost (s := s)
      (by rwa [extendedScalable_eq, not_legible_iff])
    rw [line, Setup.entry_extended_uncut hrow (by omega) hplain (.inl hempty), hempty,
      if_pos hbroken]
  · have hlegible : s.Legible s.totals.extendedScalable := by
      rwa [extendedScalable_eq, ← not_not (a := s.Legible _), not_legible_iff]
    rw [line, (hcount.entry_of_extended hlegible hrow (by omega) hplain).2, before_eq,
      extendedSectors_eq, if_neg hbroken]

theorem line_extended_lost (hp : (p, n) ∈ s.numbered) (hn : n ≤ 4) (hext : isExtended p.id)
    (hcount : ¬ s.CountedTo (n - 1)) :
    (line s n p).size = if Broken s (logicalScalable s) then .empty
      else .int (extendedSize s) := by
  have hpos := (Setup.mem_numbered.1 hp).1
  have hstart := line_start_lost hp hn (typeOf_ne_zero_of_extended hp hext) hcount
  rw [line, Setup.entry_extended_uncut (Setup.row_of_numbered hp) (by omega)
    (by rwa [row_extended hp]) (.inr hstart)]
  by_cases hbroken : Broken s (logicalScalable s)
  · rw [if_pos hbroken]
    exact Setup.scaledExtendedSize_of_lost (by rwa [extendedScalable_eq, not_legible_iff])
  · rw [if_neg hbroken, ← extendedSectors_eq]
    refine Setup.scaledExtendedSize_eq ?_
    rwa [extendedScalable_eq, ← not_not (a := s.Legible _), not_legible_iff]

end Lines

end Shares
