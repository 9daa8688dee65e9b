import MkCDrec.Shares

/-!
# The numbers that `Resize_partition_layout` calculates with

What `bc` writes goes through `sed`, which takes the point and the digits behind it away, and
on to `expr` and `[`. A product below one has no digits before the point.
-/

namespace Arithmetic

open ShellNumber Layout Shares

section Operands

variable (s : Setup)

/-- The decimals that `sed` gets from `bc`, in units: the products with the ratio, and `1.11`
times the used sectors where the product is smaller than these. -/
def products : List Int :=
  (s.totals.extendedScalable * s.targetvsSourceRatio) ::
    (s.rows.filter Row.scaled).flatMap fun r =>
      (r.size * s.targetvsSourceRatio) ::
        if (s.scaled r.size).lt (.int r.used) then [(r.used * (111 * 10 ^ 18) : Int)] else []

/-- What `expr` and `[` get for the size of the extended partition after the first round. -/
def extendedOperands : List Word :=
  let size := s.scaled s.totals.extendedScalable
  [size, size.add (.int s.totals.extendedFixed)]

/-- What they get for a line of the second round. -/
def rowOperands (c : Cursor) (r : Row) : List Word :=
  let start : Word :=
    if r.ipart = 1 then .int r.start else if r.ipart ≤ 4 then c.nextSector else .empty
  let c := c.enter r
  if r.id = 0 then []
  else if isExtended r.id then
    [start, (Word.int s.targetDiskSectorsSize).sub start, c.scaledExtendedSize, c.nextSector,
      c.start1]
  else
    let next := if r.ipart ≠ s.lastPartNr then [c.nextSector] else []
    if r.id = 0x82 then c.newTotal :: next
    else (if r.scalable then [s.scaled r.size] else []) ++ s.partSize r :: c.newTotal :: next

/-- The operands in the order of the script, with that of the test at the end. -/
def operands : List Word :=
  extendedOperands s ++
    (s.rows.zipIdx.flatMap fun r => rowOperands s (s.cursor r.2) r.1) ++
      [(s.cursor s.lastPartNr).newTotal]

def IsInt (w : Word) : Prop := ∃ n, w = .int n

/-- The arithmetic goes through, and the test at the end looks at the sum of the sizes. -/
structure Regular : Prop where
  numerals : ∀ d ∈ products s, wholePart d = .int (d.tdiv unit)
  integers : ∀ w ∈ operands s, IsInt w
  guard : s.targetDiskSectorsSize < s.before s.lastPartNr → s.resizePartitionLayout = none

end Operands

section Sums

variable (s : Setup)

/-- Neither a partition that is scaled nor the logical ones together come to a part of a
sector. -/
structure Clear : Prop where
  logical : logicalScalable s * ratioDigits s = 0 ∨ 10 ^ 20 ≤ logicalScalable s * ratioDigits s
  sized : ∀ p n, (p, n) ∈ s.numbered → isScaled s n p →
    p.size * ratioDigits s = 0 ∨ 10 ^ 20 ≤ p.size * ratioDigits s

end Sums

section Guard

variable {s : Setup}

theorem wholePart_used (n : Nat) :
    wholePart (n * (111 * 10 ^ 18)) = .int (((n : Int) * (111 * 10 ^ 18)).tdiv unit) := by
  refine wholePart_eq_int_iff.mpr ?_
  have hunit : unit = 100 * 10 ^ 18 := rfl
  have hpos : (0 : Int) < 10 ^ 18 := by decide
  rw [hunit]
  generalize (10 : Int) ^ 18 = u at hpos ⊢
  rcases Nat.eq_zero_or_pos n with rfl | hn
  · simp
  · right; left
    have hone : (1 : Int) ≤ n := by omega
    nlinarith

/-- The sums of the input are those of the first round. -/
theorem clear_iff (s : Setup) :
    Clear s ↔ s.Legible s.totals.extendedScalable ∧ ∀ r ∈ s.rows, r.scaled → s.Legible r.size := by
  constructor
  · rintro ⟨hlogical, hsized⟩
    refine ⟨?_, ?_⟩
    · rw [extendedScalable_eq]
      exact legible_iff.mpr hlogical
    · intro r hr hscaled
      obtain ⟨p, n, hp, rfl⟩ := Setup.exists_numbered hr
      rw [row_scaled] at hscaled
      rw [row_size, sizeOf_of_scaled hscaled]
      exact legible_iff.mpr (hsized p n hp hscaled)
  · rintro ⟨hext, hrows⟩
    refine ⟨?_, ?_⟩
    · rw [extendedScalable_eq] at hext
      exact legible_iff.mp hext
    · intro p n hp hscaled
      have hmem := List.mem_of_getElem? (Setup.row_of_numbered hp)
      have hlegible := hrows _ hmem (by rw [row_scaled]; exact hscaled)
      rw [row_size, sizeOf_of_scaled hscaled] at hlegible
      exact legible_iff.mp hlegible

theorem numerals_iff (s : Setup) :
    (∀ d ∈ products s, wholePart d = .int (d.tdiv unit)) ↔ Clear s := by
  rw [clear_iff]
  constructor
  · intro h
    refine ⟨wholePart_eq_int_iff.mp (h _ List.mem_cons_self), ?_⟩
    intro r hr hscaled
    refine wholePart_eq_int_iff.mp (h _ (List.mem_cons_of_mem _ ?_))
    exact List.mem_flatMap.mpr ⟨r, List.mem_filter.mpr ⟨hr, hscaled⟩, List.mem_cons_self⟩
  · rintro ⟨hext, hrows⟩ d hd
    rcases List.mem_cons.mp hd with rfl | hd
    · exact wholePart_eq_int_iff.mpr hext
    · obtain ⟨r, hr, hd⟩ := List.mem_flatMap.mp hd
      obtain ⟨hr, hscaled⟩ := List.mem_filter.mp hr
      rcases List.mem_cons.mp hd with rfl | hd
      · exact wholePart_eq_int_iff.mpr (hrows r hr hscaled)
      · split at hd
        · obtain rfl := List.mem_singleton.mp hd
          exact wholePart_used r.used
        · cases hd

theorem Clear.counted (h : Clear s) : s.Counted :=
  fun r hr => Setup.sized_of_legible (((clear_iff s).mp h).2 r hr)

theorem isInt_scaled {n : Nat} (h : s.Legible n) : IsInt (s.scaled n) :=
  ⟨_, wholePart_eq_int_iff.mpr h⟩

theorem isInt_of_lt {v w : Word} (hv : IsInt v) (hw : IsInt w) : IsInt (if v.lt w then v else w) := by
  split
  · exact hv
  · exact hw

theorem Clear.isInt_scaledExtendedSize (h : Clear s) : IsInt s.scaledExtendedSize := by
  obtain ⟨m, hm⟩ := isInt_scaled ((clear_iff s).mp h).1
  simp only [Setup.scaledExtendedSize, hm, add_int]
  split
  · exact ⟨_, rfl⟩
  · exact ⟨_, rfl⟩

/-- Extended partitions are among the first four. -/
theorem Clear.isInt_start (h : Clear s) {i : Nat} {r : Row} (hr : s.rows[i]? = some r)
    (hext : isExtended r.id) :
    IsInt (if r.ipart = 1 then .int r.start
      else if r.ipart ≤ 4 then (s.cursor i).nextSector else .empty) := by
  have hi : i < 4 := by
    by_contra hlogical
    have hmem : r ∈ s.rows.drop 4 := by
      rw [List.mem_iff_getElem?]
      refine ⟨i - 4, ?_⟩
      rw [List.getElem?_drop, Nat.add_sub_cancel' (Nat.not_lt.mp hlogical)]
      exact hr
    rw [Setup.logical_plain hmem] at hext
    cases hext
  have h0 : r.id ≠ 0 := by
    intro h0
    simp [h0, isExtended] at hext
  have hstart := (h.counted.to i).entry_start hr hi h0
  simp only [Setup.secondRound, if_neg h0, hext, if_true] at hstart
  exact ⟨_, hstart⟩

/-- Each line leaves a number for the size of the extended partition. -/
theorem Clear.isInt_extendedSize (h : Clear s) {i : Nat} (hi : i ≤ s.lastPartNr) :
    IsInt (s.cursor i).scaledExtendedSize := by
  induction i with
  | zero => exact h.isInt_scaledExtendedSize
  | succ i ih =>
    obtain ⟨r, hr⟩ := Setup.exists_row hi
    have hprevious := ih (Nat.le_of_succ_le hi)
    rw [Setup.cursor_succ hr]
    cases hext : isExtended r.id with
    | false =>
      rw [Setup.scaledExtendedSize_secondRound _ hext]
      exact hprevious
    | true =>
      have h0 : r.id ≠ 0 := by
        intro h0
        simp [h0, isExtended] at hext
      obtain ⟨start, hstart⟩ := h.isInt_start hr hext
      have henter : ((s.cursor i).enter r).scaledExtendedSize =
          (s.cursor i).scaledExtendedSize := by
        rw [Cursor.enter]
        split <;> rfl
      simp only [Setup.secondRound, if_neg h0, hext, if_true, hstart, sub_int, henter]
      exact isInt_of_lt ⟨_, rfl⟩ hprevious

theorem Clear.isInt_rowOperands (h : Clear s) {i : Nat} {r : Row} (hr : s.rows[i]? = some r)
    {w : Word} (hw : w ∈ rowOperands s (s.cursor i) r) : IsInt w := by
  obtain ⟨hnext, htotal, hstart1⟩ := (h.counted.to i).entered hr
  have hmem := List.mem_of_getElem? hr
  have hlast : i < s.lastPartNr := by
    rw [← Setup.length_rows]
    exact (List.getElem?_eq_some_iff.1 hr).1
  have henter : ((s.cursor i).enter r).scaledExtendedSize =
      (s.cursor i).scaledExtendedSize := by
    rw [Cursor.enter]
    split <;> rfl
  simp only [rowOperands] at hw
  by_cases h0 : r.id = 0
  · simp [h0] at hw
  · rw [if_neg h0] at hw
    cases hext : isExtended r.id with
    | true =>
      obtain ⟨start, hstart⟩ := h.isInt_start hr hext
      rw [hext, if_pos rfl, hstart, sub_int, henter, hnext, hstart1] at hw
      simp only [List.mem_cons, List.not_mem_nil, or_false] at hw
      rcases hw with rfl | rfl | rfl | rfl | rfl
      · exact ⟨_, rfl⟩
      · exact ⟨_, rfl⟩
      · exact h.isInt_extendedSize (Nat.le_of_lt hlast)
      · exact ⟨_, rfl⟩
      · exact ⟨_, rfl⟩
    | false =>
      rw [hext, if_neg Bool.false_ne_true, hnext, htotal] at hw
      have hlater : ∀ w ∈ (if r.ipart ≠ s.lastPartNr then
          [Word.int (s.before i + s.start1 * s.extendedBefore i : Nat)] else []), IsInt w := by
        intro w hw
        split at hw
        · exact ⟨_, List.mem_singleton.mp hw⟩
        · cases hw
      by_cases h82 : r.id = 0x82
      · rw [if_pos h82] at hw
        rcases List.mem_cons.mp hw with rfl | hw
        · exact ⟨_, rfl⟩
        · exact hlater w hw
      · rw [if_neg h82, h.counted r hmem h0 hext h82] at hw
        rcases List.mem_append.mp hw with hw | hw
        · split at hw
          · rename_i hscal
            obtain rfl := List.mem_singleton.mp hw
            have hscaled : r.scaled := by simp [Row.scaled, hscal, h0, h82, hext]
            exact isInt_scaled (((clear_iff s).mp h).2 r hmem hscaled)
          · cases hw
        · rcases List.mem_cons.mp hw with rfl | hw
          · exact ⟨_, rfl⟩
          · rcases List.mem_cons.mp hw with rfl | hw
            · exact ⟨_, rfl⟩
            · exact hlater w hw

theorem Clear.integers (h : Clear s) {w : Word} (hw : w ∈ operands s) : IsInt w := by
  rcases List.mem_append.mp hw with hw | hw
  · rcases List.mem_append.mp hw with hw | hw
    · obtain ⟨m, hm⟩ := isInt_scaled ((clear_iff s).mp h).1
      simp only [extendedOperands, hm, add_int, List.mem_cons, List.not_mem_nil, or_false] at hw
      rcases hw with rfl | rfl
      · exact ⟨_, rfl⟩
      · exact ⟨_, rfl⟩
    · obtain ⟨⟨r, i⟩, hr, hw⟩ := List.mem_flatMap.mp hw
      exact h.isInt_rowOperands (List.mem_zipIdx_iff_getElem?.mp hr) hw
  · obtain rfl := List.mem_singleton.mp hw
    exact ⟨_, h.counted.newTotal⟩

/-- The arithmetic goes through exactly when no product is a part of a sector. -/
theorem regular_iff (s : Setup) : Regular s ↔ Clear s := by
  constructor
  · intro h
    exact (numerals_iff s).mp h.numerals
  · intro h
    refine ⟨(numerals_iff s).mpr h, fun w hw => h.integers hw, ?_⟩
    intro hlarge
    cases hscript : s.resizePartitionLayout with
    | none => rfl
    | some script =>
      have hfit := (h.counted.resize_eq_some_iff.mp hscript).2
      omega

end Guard

/-- A file system that takes all of a large partition, and a partition of one sector. -/
def oneSector : Setup where
  table :=
    { sectors := 10000
      parts := [⟨63, 9000, 0x83, false⟩, ⟨9063, 1, 0x83, false⟩, ⟨0, 0, 0, false⟩,
        ⟨0, 0, 0, false⟩]
      four := by simp
      empty := by decide
      inside := by decide
      primary := by decide
      logical := by decide
      plain := by decide
      nested := by decide
      single := by decide }
  onBackup n := n = 1 || n = 2
  fixed := []
  usedKb n := if n = 1 then 4500 else 0
  mdSwapIpart := 0
  target _ := none
  targetDiskSectorsSize := 5000
  firstPartChoice _ := .keep
  swapChoice _ := ⟨3, swapChoice_three⟩
  filesystem := by
    intro p n hp hb
    simp only [List.zipIdx_cons, List.zipIdx_nil, List.mem_cons, Prod.mk.injEq, List.not_mem_nil,
      or_false] at hp
    rcases hp with ⟨rfl, rfl⟩ | ⟨rfl, rfl⟩ | ⟨rfl, rfl⟩ | ⟨rfl, rfl⟩ <;> simp_all [isExtended]
  member := by simp

/-- The total is lost at the partition of one sector, and the layout is accepted. -/
theorem total_lost : oneSector.targetDiskSectorsSize < oneSector.before oneSector.lastPartNr ∧
    oneSector.resizePartitionLayout ≠ none ∧ ¬ Regular oneSector := by
  have hlarge : oneSector.targetDiskSectorsSize < oneSector.before oneSector.lastPartNr := by
    decide +kernel
  have hscript : oneSector.resizePartitionLayout ≠ none := by decide +kernel
  refine ⟨hlarge, hscript, ?_⟩
  intro h
  exact hscript (h.guard hlarge)

end Arithmetic
