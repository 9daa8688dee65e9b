import Mathlib.Algebra.Order.BigOperators.Group.List
import MkCDrec.Layout

/-!
# The second round in sectors

As long as the scaled sizes are whole numbers of sectors, the variables of the second round
are sums: `new_total` of the start of the first partition and the sizes before a line,
`next_sector` of the same, with the start of the first partition once more for an extended
partition.
-/

namespace Layout

open ShellNumber

/-- The three sums of the second round. -/
def Cursor.Sums (c : Cursor) (next total start1 : Nat) : Prop :=
  c.nextSector = .int next ∧ c.newTotal = .int total ∧ c.start1 = .int start1

/-- The size of the row is multiplied by the ratio. -/
def Row.scaled (r : Row) : Bool :=
  r.scalable && r.id ≠ 0 && r.id ≠ 0x82 && !isExtended r.id

namespace Setup

variable (s : Setup)

/-- A product with the ratio that `sed` leaves a number of. -/
def Legible (n : Nat) : Prop :=
  n * s.targetvsSourceRatio = 0 ∨ unit ≤ n * s.targetvsSourceRatio ∨
    n * s.targetvsSourceRatio ≤ -unit

/-- So many sectors after the scaling. -/
def share (n : Nat) : Nat := (n * s.targetvsSourceRatio / unit).toNat

/-- The sectors that are counted for a row. -/
def sectors (r : Row) : Nat :=
  if r.id = 0 ∨ isExtended r.id then 0
  else if r.id = 0x82 then r.size
  else
    let size :=
      if r.scalable then if s.share r.size < r.used then r.used * 111 / 100 else s.share r.size
      else r.size
    if 4 ≤ r.ipart ∧ size = 0 then 1 else size

/-- The size of the second round is that number. -/
def Sized (r : Row) : Prop := r.id ≠ 0 → isExtended r.id = false → r.id ≠ 0x82 →
  s.partSize r = .int (s.sectors r)

/-- The sizes of the first rows are those numbers. -/
def CountedTo (i : Nat) : Prop := ∀ r ∈ s.rows.take i, s.Sized r

def Counted : Prop := ∀ r ∈ s.rows, s.Sized r

/-- Of the size of the row `sed` leaves no number. -/
def Lost (r : Row) : Prop := r.scaled ∧ ¬ s.Legible r.size

/-- `start1`. -/
def start1 : Nat := (s.rows.head?.map Row.start).getD 0

/-- The start of the first partition and the sectors of the rows before a row. -/
def before (i : Nat) : Nat := s.start1 + ((s.rows.take i).map s.sectors).sum

variable {s}

theorem scaled_eq {n : Nat} (h : n = 0 ∨ unit ≤ n * s.targetvsSourceRatio) :
    s.scaled n = .int (s.share n) := by
  rcases h with rfl | h
  · simp [scaled, share]
  · have hpos := unit_pos
    have hnonneg : 0 ≤ (n * s.targetvsSourceRatio) / unit := Int.ediv_nonneg (by omega) hpos.le
    rw [scaled, wholePart_of_unit_le h, share, Int.toNat_of_nonneg hnonneg]

theorem share_add_le (m n : Nat) : s.share m + s.share n ≤ s.share (m + n) := by
  have hpos := unit_pos
  by_cases hratio : 0 ≤ s.targetvsSourceRatio
  · have hm : 0 ≤ (m : Int) * s.targetvsSourceRatio / unit :=
      Int.ediv_nonneg (Int.mul_nonneg (by omega) hratio) hpos.le
    have hn : 0 ≤ (n : Int) * s.targetvsSourceRatio / unit :=
      Int.ediv_nonneg (Int.mul_nonneg (by omega) hratio) hpos.le
    have hadd := ediv_add_le (m * s.targetvsSourceRatio) (n * s.targetvsSourceRatio) hpos
    rw [← add_mul, ← Nat.cast_add] at hadd
    simp only [share]
    omega
  · have hzero : ∀ k : Nat, s.share k = 0 := by
      intro k
      have hneg : (k : Int) * s.targetvsSourceRatio / unit ≤ 0 :=
        Int.ediv_nonpos_of_nonpos_of_neg
          (Int.mul_nonpos_of_nonneg_of_nonpos (by omega) (by omega)) hpos
      rw [share]
      omega
    simp [hzero]

/-- Scaled one by one, sizes are no larger than scaled together. -/
theorem sum_share_le (l : List Nat) : (l.map s.share).sum ≤ s.share l.sum := by
  induction l with
  | nil => simp
  | cons n l ih =>
    have := share_add_le (s := s) n l.sum
    simp only [List.map_cons, List.sum_cons]
    omega

/-- A negative size is replaced by a multiple of the used sectors. -/
theorem scaledSize_of_neg {n : Nat} (used : Nat) (h : n * s.targetvsSourceRatio ≤ -unit) :
    (s.scaled n).lt (.int used) = true ∧ s.share n = 0 := by
  have hneg := tdiv_unit_neg h
  have hpos := unit_pos
  have hshare : (n : Int) * s.targetvsSourceRatio / unit ≤ 0 :=
    Int.ediv_nonpos_of_nonpos_of_neg (by omega) hpos
  refine ⟨?_, ?_⟩
  · rw [scaled, wholePart_eq_int_iff.mpr (Or.inr (Or.inr h)), lt_int, decide_eq_true_eq]
    omega
  · rw [share]
    omega

theorem partSize_eq {r : Row} (h0 : r.id ≠ 0) (hext : isExtended r.id = false)
    (h82 : r.id ≠ 0x82) (h : r.scaled → s.Legible r.size) :
    s.partSize r = .int (s.sectors r) := by
  have hplain : ¬ (r.id = 0 ∨ isExtended r.id = true) := by simp [h0, hext]
  simp only [partSize, sectors, if_neg hplain, if_neg h82]
  cases hscal : r.scalable with
  | false =>
    simp only [Bool.false_eq_true, if_false, Word.int.injEq, Int.natCast_eq_zero]
    split <;> rfl
  | true =>
    have hscaled : r.scaled = true := by simp [Row.scaled, hscal, h0, hext, h82]
    have hsize : (if (s.scaled r.size).lt (.int r.used) then
          Word.int ((r.used * 111 / 100 : Nat) : Int) else s.scaled r.size) =
        .int (if s.share r.size < r.used then r.used * 111 / 100 else s.share r.size : Nat) := by
      rcases h hscaled with hzero | hpos | hneg
      · simp only [scaled, share, hzero, wholePart_zero, lt_int, Int.zero_ediv, Int.toNat_zero]
        by_cases hused : 0 < r.used
        · simp [hused]
        · simp [hused]
      · rw [scaled_eq (Or.inr hpos), lt_int]
        by_cases hused : s.share r.size < r.used
        · simp [hused]
        · simp [hused]
      · obtain ⟨hlt, hshare⟩ := scaledSize_of_neg r.used hneg
        rw [hlt, hshare, if_pos rfl]
        by_cases hused : 0 < r.used
        · rw [if_pos hused]
        · rw [if_neg hused, Nat.le_zero.mp (Nat.not_lt.mp hused)]
    simp only [if_true, hsize, Word.int.injEq, Int.natCast_eq_zero]
    generalize (if s.share r.size < r.used then r.used * 111 / 100 else s.share r.size) = size
    split <;> rfl

theorem sized_of_legible {r : Row} (h : r.scaled → s.Legible r.size) : s.Sized r :=
  fun h0 hext h82 => partSize_eq h0 hext h82 h

/-- A part of a sector loses its digits, and a negative one leaves its sign. -/
theorem Lost.partSize_eq {r : Row} (h : s.Lost r) :
    s.partSize r = if 0 < s.targetvsSourceRatio then .empty else .sign := by
  obtain ⟨hscaled, hlegible⟩ := h
  simp only [Legible, not_or, not_le] at hlegible
  obtain ⟨hne, hlt, hgt⟩ := hlegible
  have hpos : 0 < r.size * s.targetvsSourceRatio ↔ 0 < s.targetvsSourceRatio := by
    have hsize : (0 : Int) < r.size := by
      have := left_ne_zero_of_mul hne
      omega
    constructor
    · intro hprod
      by_contra hcon
      have := Int.mul_nonpos_of_nonneg_of_nonpos hsize.le (not_lt.1 hcon)
      omega
    · exact Int.mul_pos hsize
  have hword : s.scaled r.size = if 0 < s.targetvsSourceRatio then .empty else .sign := by
    rw [scaled, wholePart_of_lt hne hlt hgt]
    simp only [hpos]
  have hscal : r.scalable = true := by
    simp only [Row.scaled, Bool.and_eq_true] at hscaled
    exact hscaled.1.1.1
  simp only [partSize, hscal, if_true, hword]
  split <;> simp

theorem lost_of_not_sized {r : Row} (h : ¬ s.Sized r) : s.Lost r := by
  by_contra hlost
  refine h (sized_of_legible fun hscaled => ?_)
  by_contra hlegible
  exact hlost ⟨hscaled, hlegible⟩

theorem Lost.not_sized {r : Row} (h : s.Lost r) : ¬ s.Sized r := by
  intro hsized
  have hscaled := h.1
  simp only [Row.scaled, Bool.and_eq_true, decide_eq_true_eq, Bool.not_eq_true'] at hscaled
  have hsize := hsized hscaled.1.1.2 hscaled.2 hscaled.1.2
  rw [h.partSize_eq] at hsize
  split at hsize <;> cases hsize

theorem sized_iff {r : Row} : s.Sized r ↔ ¬ s.Lost r :=
  ⟨fun hsized hlost => hlost.not_sized hsized, fun hlost => not_not.1 (mt lost_of_not_sized hlost)⟩

theorem Counted.to (hn : s.Counted) (i : Nat) : s.CountedTo i :=
  fun r hr => hn r (List.mem_of_mem_take hr)

theorem countedTo_succ {i : Nat} {r : Row} (hr : s.rows[i]? = some r) :
    s.CountedTo (i + 1) ↔ s.CountedTo i ∧ s.Sized r := by
  simp only [CountedTo, List.take_add_one, hr, Option.toList_some, List.mem_append,
    List.mem_singleton]
  constructor
  · intro h
    exact ⟨fun r' hr' => h r' (.inl hr'), h r (.inr rfl)⟩
  · rintro ⟨h, hsized⟩ r' (hr' | rfl)
    · exact h r' hr'
    · exact hsized

/-- The line of a row that is neither empty nor extended. -/
theorem Sized.entry_size {r : Row} (hn : s.Sized r) (c : Cursor) (h0 : r.id ≠ 0)
    (hext : isExtended r.id = false) :
    (s.secondRound c r).1.size =
      if r.ipart ≠ s.lastPartNr then .int (s.sectors r) else .empty := by
  rw [secondRound_size c h0 hext]
  by_cases h82 : r.id = 0x82
  · simp [h82, sectors, isExtended]
  · rw [if_neg h82, hn h0 hext h82]

/-- What a row adds to the sums. -/
theorem Sized.sums_next {r : Row} (hn : s.Sized r) {c : Cursor} {next total start1 : Nat}
    (hc : (c.enter r).Sums next total start1) :
    (s.secondRound c r).2.Sums
      (next + (if r.ipart ≠ s.lastPartNr then s.sectors r else 0) +
        (if isExtended r.id then start1 else 0))
      (total + s.sectors r) start1 := by
  obtain ⟨hnext, htotal, hstart⟩ := hc
  simp only [secondRound]
  by_cases h0 : r.id = 0
  · have hext : isExtended r.id = false := by simp [h0, isExtended]
    have hsect : s.sectors r = 0 := by simp [sectors, h0]
    simpa [Cursor.Sums, h0, hext, hsect] using ⟨hnext, htotal, hstart⟩
  · rw [if_neg h0]
    cases hext : isExtended r.id with
    | true =>
      have hsect : s.sectors r = 0 := by simp [sectors, hext]
      simp [Cursor.Sums, hnext, htotal, hstart, hsect]
    | false =>
      have hsize : (if r.id = 0x82 then .int (r.size : Int) else s.partSize r) =
          .int (s.sectors r) := by
        by_cases h82 : r.id = 0x82
        · simp [h82, sectors, isExtended]
        · rw [if_neg h82, hn h0 hext h82]
      simp only [Bool.false_eq_true, if_false, Nat.add_zero, hsize, Cursor.Sums, hnext, htotal,
        hstart, add_int, Nat.cast_add, and_true]
      split <;> simp

theorem exists_numbered {r : Row} (hr : r ∈ s.rows) :
    ∃ p n, (p, n) ∈ s.numbered ∧ r = (s.figures n p).row := by
  simp only [rows, firstRound, List.map_map, List.mem_map, Function.comp_apply] at hr
  obtain ⟨⟨p, n⟩, hp, rfl⟩ := hr
  exact ⟨p, n, hp, rfl⟩

theorem row_ipart {i : Nat} {r : Row} (h : s.rows[i]? = some r) : r.ipart = i + 1 := by
  rw [rows_getElem?, Option.map_eq_some_iff] at h
  obtain ⟨p, -, rfl⟩ := h
  exact s.figures_ipart (i + 1) p

theorem lt_of_row {i : Nat} {r : Row} (h : s.rows[i]? = some r) : i < s.lastPartNr := by
  rw [← length_rows]
  exact (List.getElem?_eq_some_iff.1 h).1

theorem exists_row {i : Nat} (h : i < s.lastPartNr) : ∃ r, s.rows[i]? = some r :=
  ⟨_, List.getElem?_eq_getElem (by simpa using h)⟩

theorem cursor_succ {i : Nat} {r : Row} (h : s.rows[i]? = some r) :
    s.cursor (i + 1) = (s.secondRound (s.cursor i) r).2 := by
  simp only [cursor, advance, List.take_add_one, h, Option.toList_some, List.foldl_append,
    List.foldl_cons, List.foldl_nil]

theorem before_succ {i : Nat} {r : Row} (h : s.rows[i]? = some r) :
    s.before (i + 1) = s.before i + s.sectors r := by
  simp only [before, List.take_add_one, h, Option.toList_some, List.map_append, List.map_cons,
    List.map_nil, List.sum_append, List.sum_cons, List.sum_nil, Nat.add_zero, Nat.add_assoc]

theorem before_mono {i j : Nat} (h : i ≤ j) : s.before i ≤ s.before j := by
  have hsub : (s.rows.take i).Sublist (s.rows.take j) := by
    have := List.take_sublist i (s.rows.take j)
    rwa [List.take_take, Nat.min_eq_left h] at this
  have := (hsub.map s.sectors).sum_le_sum (fun _ _ => Nat.zero_le _)
  simp only [before]
  omega

/-- The extended partitions among the first rows. -/
def extendedBefore (s : Setup) (i : Nat) : Nat := (s.rows.take i).countP fun r => isExtended r.id

theorem extendedBefore_succ {i : Nat} {r : Row} (h : s.rows[i]? = some r) :
    s.extendedBefore (i + 1) = s.extendedBefore i + if isExtended r.id then 1 else 0 := by
  simp only [extendedBefore, List.take_add_one, h, Option.toList_some, List.countP_append,
    List.countP_singleton]

theorem start1_eq {r : Row} (h : s.rows[0]? = some r) : s.start1 = r.start := by
  simp only [start1, List.head?_eq_getElem?, h, Option.map_some, Option.getD_some]

/-- The sums of the second round, behind `i` rows. -/
theorem CountedTo.sums {i : Nat} (hn : s.CountedTo i) (hpos : 1 ≤ i) (hlast : i < s.lastPartNr) :
    (s.cursor i).Sums (s.before i + s.start1 * s.extendedBefore i) (s.before i) s.start1 := by
  induction i with
  | zero => cases hpos
  | succ i ih =>
    obtain ⟨r, hr⟩ := exists_row (s := s) (i := i) (by omega)
    obtain ⟨hbefore, hsized⟩ := (countedTo_succ hr).1 hn
    have hipart := row_ipart hr
    have henter : ((s.cursor i).enter r).Sums (s.before i + s.start1 * s.extendedBefore i)
        (s.before i) s.start1 := by
      cases i with
      | zero =>
        simp [Cursor.enter, Cursor.Sums, hipart, before, extendedBefore, start1_eq hr]
      | succ i =>
        rw [Cursor.enter, if_neg (by omega)]
        exact ih hbefore (by omega) (by omega)
    have hnext := hsized.sums_next henter
    rw [cursor_succ hr, before_succ hr, extendedBefore_succ hr]
    rw [if_pos (by omega)] at hnext
    convert hnext using 1
    split <;> simp [Nat.mul_add] <;> omega

/-- The sums that a line is written with. -/
theorem CountedTo.entered {i : Nat} (hn : s.CountedTo i) {r : Row} (hr : s.rows[i]? = some r) :
    ((s.cursor i).enter r).Sums (s.before i + s.start1 * s.extendedBefore i) (s.before i)
      s.start1 := by
  have hipart := row_ipart hr
  cases i with
  | zero => simp [Cursor.enter, Cursor.Sums, hipart, before, extendedBefore, start1_eq hr]
  | succ i =>
    rw [Cursor.enter, if_neg (by omega)]
    exact hn.sums (by omega) (lt_of_row hr)

/-- Where the line of a primary or extended partition begins. -/
theorem CountedTo.entry_start {i : Nat} (hn : s.CountedTo i) {r : Row} (hr : s.rows[i]? = some r)
    (hi : i < 4) (h0 : r.id ≠ 0) :
    (s.secondRound (s.cursor i) r).1.start =
      .int (s.before i + s.start1 * s.extendedBefore i : Nat) := by
  have hipart := row_ipart hr
  rw [secondRound_start _ h0]
  cases i with
  | zero =>
    rw [if_pos hipart]
    simp [before, extendedBefore, start1_eq hr]
  | succ i =>
    rw [if_neg (by omega), if_pos (by omega), (hn.sums (by omega) (lt_of_row hr)).1]

/-- Behind a lost size there is no next sector any more, and no total. -/
theorem lost_of_not_countedTo {i : Nat} (hn : ¬ s.CountedTo i) :
    (i < s.lastPartNr → (s.cursor i).nextSector = .empty) ∧ (s.cursor i).newTotal = .empty := by
  induction i with
  | zero => exact absurd (fun r hr => by simp at hr) hn
  | succ i ih =>
    cases hr : s.rows[i]? with
    | none =>
      have hlen := List.getElem?_eq_none_iff.1 hr
      have hall : s.rows.take (i + 1) = s.rows.take i := by
        rw [List.take_of_length_le (by omega), List.take_of_length_le hlen]
      rw [length_rows] at hlen
      rw [CountedTo, hall] at hn
      rw [cursor, hall]
      exact ⟨fun hlast => by omega, (ih hn).2⟩
    | some r =>
      have hipart := row_ipart hr
      have hlast := lt_of_row hr
      rw [cursor_succ hr]
      by_cases hbefore : s.CountedTo i
      · -- the size of this row is the first that is lost
        have hlost := lost_of_not_sized fun hsized => hn ((countedTo_succ hr).2 ⟨hbefore, hsized⟩)
        have hscaled := hlost.1
        simp only [Row.scaled, Bool.and_eq_true, decide_eq_true_eq, Bool.not_eq_true'] at hscaled
        obtain ⟨⟨⟨-, h0⟩, h82⟩, hext⟩ := hscaled
        simp only [secondRound, if_neg h0, hext, Bool.false_eq_true, if_false, if_neg h82,
          hlost.partSize_eq]
        constructor
        · intro hmore
          rw [if_pos (by omega)]
          split <;> simp
        · split <;> simp
      · obtain ⟨hnext, htotal⟩ := ih hbefore
        have hpos : i ≠ 0 := by
          rintro rfl
          exact hbefore fun r hr => by simp at hr
        have henter : (s.cursor i).enter r = s.cursor i := by
          rw [Cursor.enter, if_neg (by omega)]
        simp only [secondRound, henter, hnext hlast]
        split
        · exact ⟨fun _ => hnext hlast, htotal⟩
        · split
          · exact ⟨fun _ => by simp, htotal⟩
          · refine ⟨fun _ => ?_, by simp [htotal]⟩
            split <;> simp

/-- The line of the extended partition is cut off at the end of the disk. -/
theorem entry_extended (c : Cursor) {r : Row} {start : Int} {size : Int}
    (hext : isExtended r.id) (hstart : (s.secondRound c r).1.start = .int start)
    (hsize : c.scaledExtendedSize = .int size) :
    (s.secondRound c r).1.size = .int (min size (s.targetDiskSectorsSize - start)) := by
  have h0 : r.id ≠ 0 := by
    rintro h
    simp [h, isExtended] at hext
  have henter : (c.enter r).scaledExtendedSize = c.scaledExtendedSize := by
    rw [Cursor.enter]
    split <;> rfl
  simp only [secondRound, if_neg h0, if_pos hext] at hstart ⊢
  rw [hstart, henter, hsize, sub_int, lt_int]
  by_cases h : (s.targetDiskSectorsSize : Int) - start < size
  · rw [if_pos (by simpa using h), min_eq_right h.le]
  · rw [if_neg (by simpa using h), min_eq_left (by omega)]

theorem scaledExtendedSize_secondRound (c : Cursor) {r : Row} (hext : isExtended r.id = false) :
    (s.secondRound c r).2.scaledExtendedSize = c.scaledExtendedSize := by
  have henter : (c.enter r).scaledExtendedSize = c.scaledExtendedSize := by
    rw [Cursor.enter]
    split <;> rfl
  simp only [secondRound, hext, Bool.false_eq_true, if_false]
  split <;> exact henter

/-- Up to the extended partition its size is the one of the first round. -/
theorem scaledExtendedSize_cursor {i : Nat}
    (h : ∀ k r, k < i → s.rows[k]? = some r → isExtended r.id = false) :
    (s.cursor i).scaledExtendedSize = s.scaledExtendedSize := by
  induction i with
  | zero => rfl
  | succ i ih =>
    cases hr : s.rows[i]? with
    | none =>
      have hlen := List.getElem?_eq_none_iff.1 hr
      have hall : s.rows.take (i + 1) = s.rows.take i := by
        rw [List.take_of_length_le (by omega), List.take_of_length_le hlen]
      rw [cursor, hall]
      exact ih fun k r hk => h k r (by omega)
    | some r =>
      rw [cursor_succ hr, scaledExtendedSize_secondRound _ (h i r (by omega) hr)]
      exact ih fun k r hk => h k r (by omega)

/-- The size that the first round finds for the extended partition. -/
def extendedSectors (s : Setup) : Nat :=
  max ((s.totals.extendedScalable * s.targetvsSourceRatio).tdiv unit + s.totals.extendedFixed).toNat
    s.totals.minExtendedSize

theorem scaledExtendedSize_eq (h : s.Legible s.totals.extendedScalable) :
    s.scaledExtendedSize = .int s.extendedSectors := by
  simp only [scaledExtendedSize, scaled, wholePart_eq_int_iff.2 h, add_int, lt_int, extendedSectors,
    decide_eq_true_eq]
  split <;>
  · simp only [Word.int.injEq]
    omega

theorem scaledExtendedSize_of_lost (h : ¬ s.Legible s.totals.extendedScalable) :
    s.scaledExtendedSize = .empty := by
  simp only [Legible, not_or, not_le] at h
  have hword : (s.scaled s.totals.extendedScalable).add (.int s.totals.extendedFixed) = .empty := by
    rw [scaled, wholePart_of_lt h.1 h.2.1 h.2.2]
    split <;> rfl
  simp only [scaledExtendedSize, hword, empty_lt, Bool.false_eq_true, if_false]

/-- The total that is compared with the size of the target disk. -/
theorem Counted.newTotal (hn : s.Counted) :
    (s.cursor s.lastPartNr).newTotal = .int (s.before s.lastPartNr) := by
  have hfour : 4 ≤ s.lastPartNr := s.table.four
  obtain ⟨n, hlast⟩ : ∃ n, s.lastPartNr = n + 1 := ⟨s.lastPartNr - 1, by omega⟩
  obtain ⟨r, hr⟩ := exists_row (s := s) (i := n) (by omega)
  have hsums := (hn.to n).sums (by omega) (by omega)
  have henter : (s.cursor n).enter r = s.cursor n := by
    rw [Cursor.enter, if_neg (by rw [row_ipart hr]; omega)]
  have hnext := (hn r (List.mem_of_getElem? hr)).sums_next (c := s.cursor n) (by rwa [henter])
  rw [hlast, cursor_succ hr, before_succ hr]
  exact hnext.2.1

/-- Without an error the partitions fit on the target disk one behind the other. -/
theorem Counted.resize_eq_some_iff (hn : s.Counted) {script : List Entry} :
    s.resizePartitionLayout = some script ↔
      script = (s.emit s.initialCursor s.rows).1 ∧
        s.before s.lastPartNr ≤ s.targetDiskSectorsSize := by
  rw [Setup.resize_eq_some_iff, hn.newTotal, lt_int, decide_eq_false_iff_not, not_lt, Nat.cast_le]

theorem extended_of_row {n : Nat} {p : Partition} (h : isExtended (s.figures n p).row.id) :
    isExtended p.id := by
  obtain hz | ⟨q, hk⟩ | hm | hl := s.figures_cases n p
  · rw [figures_zeroed hz] at h
    cases h
  · have hplain := (dosType_plain (asked_of_kept hk).2.2.2).2.1
    rw [figures_kept hk, hplain] at h
    cases h
  · rw [figures_menu hm] at h
    cases h
  · rw [hl.figures_row] at h
    by_cases hfd : p.id = 0xfd
    · simp [plainId, hfd, isExtended] at h
    · simpa [plainId, hfd] using h

theorem logical_plain {r : Row} (hr : r ∈ s.rows.drop 4) : isExtended r.id = false := by
  obtain ⟨k, hk⟩ := List.mem_iff_getElem?.1 hr
  rw [List.getElem?_drop, rows_getElem?, Option.map_eq_some_iff] at hk
  obtain ⟨p, hp, rfl⟩ := hk
  have hmem : p ∈ s.table.parts.drop 4 := by
    rw [List.mem_iff_getElem?]
    exact ⟨k, by rw [List.getElem?_drop, hp]⟩
  by_contra hcon
  rw [Bool.not_eq_false] at hcon
  have hext := extended_of_row hcon
  rw [s.table.plain p hmem] at hext
  cases hext

/-- An extended partition stays one. -/
theorem extended_row {n : Nat} {p : Partition} (hp : (p, n) ∈ s.numbered)
    (hext : isExtended p.id) : isExtended (s.figures n p).row.id := by
  have hasked : s.asked n p = none := by simp [asked, hext]
  obtain hz | ⟨q, hk⟩ | hm | hl := s.figures_cases n p
  · simp [zeroed, hasked] at hz
  · simp [kept, hasked] at hk
  · simp only [menu, Bool.and_eq_true, Bool.or_eq_true, decide_eq_true_eq] at hm
    rcases hm.2 with rfl | h82
    · rw [s.member p hp] at hext
      cases hext
    · simp [h82, isExtended] at hext
  · have hfd : p.id ≠ 0xfd := by
      rintro hfd
      simp [hfd, isExtended] at hext
    rw [hl.figures_row]
    simpa [plainId, hfd] using hext

/-- There is no more than one extended partition. -/
theorem extended_unique {i j : Nat} {r r' : Row} (hij : i < j) (hj : j < 4)
    (hr : s.rows[i]? = some r) (hr' : s.rows[j]? = some r') (hext : isExtended r.id) :
    isExtended r'.id = false := by
  rw [rows_getElem?, Option.map_eq_some_iff] at hr hr'
  obtain ⟨p, hp, rfl⟩ := hr
  obtain ⟨p', hp', rfl⟩ := hr'
  have hall := List.pairwise_iff_getElem.1 s.table.single i j
  obtain ⟨hi, hpi⟩ := List.getElem?_eq_some_iff.1 hp
  obtain ⟨hj', hpj⟩ := List.getElem?_eq_some_iff.1 hp'
  have hor := hall (by rw [List.length_take]; omega) (by rw [List.length_take]; omega) hij
  rw [List.getElem_take, List.getElem_take, hpi, hpj, extended_of_row hext] at hor
  by_contra hcon
  rw [Bool.not_eq_false] at hcon
  simp [extended_of_row hcon] at hor

theorem extendedBefore_eq_zero {i : Nat}
    (h : ∀ k r, k < i → s.rows[k]? = some r → isExtended r.id = false) :
    s.extendedBefore i = 0 := by
  rw [extendedBefore, List.countP_eq_zero]
  intro r hr
  obtain ⟨k, hk⟩ := List.mem_iff_getElem?.1 hr
  rw [List.getElem?_take] at hk
  split at hk
  · simp [h k r ‹_› hk]
  · cases hk

/-- Before the extended partition there is no other one. -/
theorem plain_before_extended {i : Nat} {r : Row} (hr : s.rows[i]? = some r) (hi : i < 4)
    (hext : isExtended r.id) {k : Nat} {r' : Row} (hk : k < i) (hr' : s.rows[k]? = some r') :
    isExtended r'.id = false := by
  by_contra hcon
  rw [Bool.not_eq_false] at hcon
  simp [extended_unique hk hi hr' hr hcon] at hext

theorem extendedBefore_of_extended {i : Nat} {r : Row} (hr : s.rows[i]? = some r) (hi : i < 4)
    (hext : isExtended r.id) : s.extendedBefore i = 0 :=
  extendedBefore_eq_zero fun _ _ hk hr' => plain_before_extended hr hi hext hk hr'

theorem scaledExtendedSize_of_extended {i : Nat} {r : Row} (hr : s.rows[i]? = some r) (hi : i < 4)
    (hext : isExtended r.id) : (s.cursor i).scaledExtendedSize = s.scaledExtendedSize :=
  scaledExtendedSize_cursor fun _ _ hk hr' => plain_before_extended hr hi hext hk hr'

theorem ne_zero_of_extended {id : Nat} (hext : isExtended id) : id ≠ 0 := by
  rintro rfl
  simp [isExtended] at hext

theorem extendedBefore_eq_one {i j : Nat} {r : Row} (hij : i < j) (hj : j < 4)
    (hr : s.rows[i]? = some r) (hext : isExtended r.id) : s.extendedBefore j = 1 := by
  have hnone := extendedBefore_of_extended hr (by omega) hext
  induction j, hij using Nat.le_induction with
  | base => rw [extendedBefore_succ hr, hnone, if_pos hext]
  | succ j hij ih =>
    have hlast : j < s.lastPartNr := by
      have := s.table.four
      simp only [lastPartNr]
      omega
    obtain ⟨r', hr'⟩ := exists_row hlast
    rw [extendedBefore_succ hr', ih (by omega), extended_unique hij (by omega) hr hr' hext]
    simp

/-- The line of the extended partition. -/
theorem CountedTo.entry_of_extended {i : Nat} (hn : s.CountedTo i)
    (hlegible : s.Legible s.totals.extendedScalable) {r : Row} (hr : s.rows[i]? = some r)
    (hi : i < 4) (hext : isExtended r.id) :
    (s.secondRound (s.cursor i) r).1.start = .int (s.before i : Nat) ∧
      (s.secondRound (s.cursor i) r).1.size =
        .int (min (s.extendedSectors : Int) (s.targetDiskSectorsSize - (s.before i : Nat))) := by
  have hstart := hn.entry_start hr hi (ne_zero_of_extended hext)
  rw [extendedBefore_of_extended hr hi hext, Nat.mul_zero, Nat.add_zero] at hstart
  refine ⟨hstart, entry_extended _ hext hstart ?_⟩
  rw [scaledExtendedSize_of_extended hr hi hext, scaledExtendedSize_eq hlegible]

/-- Without its size, or without the start, nothing is cut off. -/
theorem entry_extended_uncut {i : Nat} {r : Row} (hr : s.rows[i]? = some r) (hi : i < 4)
    (hext : isExtended r.id)
    (h : s.scaledExtendedSize = .empty ∨ (s.secondRound (s.cursor i) r).1.start = .empty) :
    (s.secondRound (s.cursor i) r).1.size = s.scaledExtendedSize := by
  have h0 := ne_zero_of_extended hext
  have henter : ((s.cursor i).enter r).scaledExtendedSize = s.scaledExtendedSize := by
    rw [← scaledExtendedSize_of_extended hr hi hext, Cursor.enter]
    split <;> rfl
  simp only [secondRound, if_neg h0, if_pos hext] at h ⊢
  rw [henter]
  rcases h with h | h
  · simp [h]
  · simp [h]

/-- The sums of the first round. -/
theorem foldl_add (t : Totals) (fs : List Figures) :
    fs.foldl Totals.add t =
      { scalable := t.scalable + (fs.map Figures.scalable).sum
        fixed := t.fixed + (fs.map fun f => f.fixed +
          (if f.row.ipart = 1 then f.row.start else 0) +
          (if 4 < f.row.ipart ∧ f.row.size = 0 then 1 else 0)).sum
        extendedScalable := t.extendedScalable +
          (fs.map fun f => if 4 < f.row.ipart ∧ f.row.scalable then f.row.size else 0).sum
        extendedFixed := t.extendedFixed +
          (fs.map fun f => if 4 < f.row.ipart ∧ !f.row.scalable then f.row.size else 0).sum
        minExtendedSize := t.minExtendedSize +
          (fs.map fun f => if 4 < f.row.ipart then f.row.used else 0).sum } := by
  induction fs generalizing t with
  | nil => rfl
  | cons f fs ih =>
    rw [List.foldl_cons, ih]
    simp only [Totals.add, List.map_cons, List.sum_cons, Nat.add_assoc]

end Setup

end Layout
