import MkCDrec.Lib.Stretches
import MkCDrec.Shares

/-!
# A target disk that is not smaller

If the target disk has at least the sectors of the source disk, the ratio is expected to
be one or more. It compares the target disk with the start of the first partition and the
sizes of all partitions, as if nothing stood before the first one, and with one sector for
every empty logical partition.
-/

namespace Enlarging

open ShellNumber Layout Shares

/-- Nothing is used up to the last sector of a partition and more, no DOS partition of the
target disk is kept or zeroed, and no swap area is enlarged. -/
structure Undisturbed (s : Setup) : Prop where
  used : ∀ p n, (p, n) ∈ s.numbered → s.usedKb n * 2 ≤ p.size
  sized : ∀ p n, (p, n) ∈ s.numbered → isExtended p.id = false → p.id ≠ 0 → p.size ≠ 0
  unasked : ∀ p n, (p, n) ∈ s.numbered → s.asked n p = none
  swap : ∀ n, (s.swapChoice n : Nat) ≤ 3

/-- The script shrinks no partition that may be scaled, the last one apart. -/
def Enlarges (s : Setup) (script : List Entry) : Prop :=
  ∀ p n, (p, n) ∈ s.numbered → n ≠ s.lastPartNr → (s.figures n p).row.scaled →
    ∃ e size, script[n - 1]? = some e ∧ e.size = .int size ∧ p.size ≤ size

/-- The target disk has room for what the first round counts: the start of the first partition,
the sizes, and a sector for every logical partition without one. -/
def Room (s : Setup) : Prop := fixedSectors s + scalableSectors s ≤ s.targetDiskSectorsSize

/-- The first partition stands before all others, and the logical ones are not empty. -/
structure InFront (s : Setup) : Prop where
  first : ∀ p p' n, (p, 1) ∈ s.numbered → (p', n) ∈ s.numbered → isExtended p'.id = false →
    p'.size ≠ 0 → p.start ≤ p'.start
  logical : ∀ p n, (p, n) ∈ s.numbered → 4 < n → p.size ≠ 0

variable {s : Setup}

instance : Std.Symm Apart where
  symm p q h := by
    simp only [Apart] at h ⊢
    omega

/-- Partitions that are not extended have no common sectors. -/
theorem pairwise_plain (t : Table) :
    (t.parts.filter fun p => !isExtended p.id).Pairwise Apart := by
  have hsplit := t.parts.take_append_drop 4
  rw [← hsplit, List.filter_append, List.pairwise_append]
  refine ⟨t.primary.sublist List.filter_sublist, t.logical.sublist List.filter_sublist, ?_⟩
  intro p hp q hq
  obtain ⟨hp, hplain⟩ := List.mem_filter.1 hp
  have hq := List.mem_of_mem_filter hq
  by_cases hsize : q.size = 0
  · exact .inr (.inl hsize)
  obtain ⟨e, he, hext, hstart, hend⟩ := t.nested q hq hsize
  have hne : p ≠ e := by
    rintro rfl
    simp [hext] at hplain
  have hapart := t.primary.forall hp he hne
  simp only [Apart] at hapart ⊢
  omega

theorem sum_filter {α : Type} (c : α → Bool) (g : α → Nat) (l : List α) :
    (l.map fun x => if c x then 0 else g x).sum = ((l.filter fun x => !c x).map g).sum := by
  induction l with
  | nil => rfl
  | cons x l ih =>
    cases hc : c x with
    | true => simp [hc, ih]
    | false => simp [hc, ih]

theorem swapSize_le (h : Undisturbed s) (n : Nat) (p : Partition) : s.swapSize n p ≤ p.size := by
  have hmul : p.size * ((s.swapChoice n : Nat) + 1) ≤ p.size * 4 :=
    Nat.mul_le_mul_left _ (by have := h.swap n; omega)
  simp only [Setup.swapSize]
  omega

theorem Undisturbed.cases (h : Undisturbed s) {p : Partition} {n : Nat}
    (hp : (p, n) ∈ s.numbered) : s.menu n p ∨ s.Left n p := by
  have hasked := h.unasked p n hp
  obtain hz | ⟨q, hk⟩ | hm | hl := s.figures_cases n p
  · simp [Setup.zeroed, hasked] at hz
  · simp [Setup.kept, hasked] at hk
  · exact .inl hm
  · exact .inr hl

/-- What the first round counts for a partition is no more than its size. -/
theorem counted_le (h : Undisturbed s) (hf : InFront s) {p : Partition} {n : Nat}
    (hp : (p, n) ∈ s.numbered) :
    (s.figures n p).fixed + (s.figures n p).scalable +
        (if 4 < (s.figures n p).row.ipart ∧ (s.figures n p).row.size = 0 then 1 else 0) ≤
      if isExtended p.id then 0 else p.size := by
  have hsize := hf.logical p n hp
  obtain hm | hl := h.cases hp
  · have hext : isExtended p.id = false := by
      simp only [Setup.menu, Bool.and_eq_true, Bool.or_eq_true, decide_eq_true_eq] at hm
      rcases hm.2 with rfl | h82
      · exact s.member p hp
      · simp [h82, isExtended]
    have hle := swapSize_le h n p
    simp only [Setup.figures_menu hm, hext, Bool.false_eq_true, if_false]
    split <;> omega
  · simp only [hl.figures_eq]
    split_ifs <;> simp_all

theorem sum_start (s : Setup) :
    (s.firstRound.map fun f => if f.row.ipart = 1 then f.row.start else 0).sum = s.start1 := by
  have hrows : (s.firstRound.map fun f => if f.row.ipart = 1 then f.row.start else 0) =
      s.rows.map fun r => if r.ipart = 1 then r.start else 0 := by
    simp [Setup.rows]
  have hone : 0 < s.lastPartNr := by
    have := s.table.four
    simp only [Setup.lastPartNr]
    omega
  obtain ⟨r, hr⟩ := Setup.exists_row hone
  obtain ⟨rest, hrest⟩ : ∃ rest, s.rows = r :: rest := by
    cases hcons : s.rows with
    | nil => simp [hcons] at hr
    | cons r' rest =>
      rw [hcons] at hr
      exact ⟨rest, by simpa using hr⟩
  have hzero : (rest.map fun r => if r.ipart = 1 then r.start else 0).sum = 0 := by
    rw [List.sum_eq_zero_iff]
    intro x hx
    obtain ⟨r', hr', rfl⟩ := List.mem_map.1 hx
    obtain ⟨k, hk⟩ := List.mem_iff_getElem?.1 hr'
    have hipart := Setup.row_ipart (s := s) (i := k + 1) (r := r') (by rw [hrest]; simpa using hk)
    rw [if_neg (by omega)]
  rw [hrows, Setup.start1_eq hr, hrest, List.map_cons, List.sum_cons, hzero,
    if_pos (Setup.row_ipart hr), Nat.add_zero]

theorem start1_of_undisturbed (h : Undisturbed s) {p : Partition} (hp : (p, 1) ∈ s.numbered) :
    s.start1 = p.start := by
  rw [Setup.start1_eq (Setup.row_of_numbered hp)]
  obtain hm | hl := h.cases hp
  · rw [Setup.figures_menu hm]
  · rw [hl.figures_row]

/-- What the first round counts is no more than the source disk. -/
theorem counted_total (h : Undisturbed s) (hf : InFront s) :
    s.totals.fixed + s.totals.scalable ≤ s.table.sectors := by
  obtain ⟨p₁, hp₁⟩ := s.exists_first
  have hstart := start1_of_undisturbed h hp₁
  have hmem₁ : p₁ ∈ s.table.parts := List.mem_of_getElem? (Setup.mem_numbered.1 hp₁).2
  have hfirst : s.start1 ≤ s.table.sectors := by
    rw [hstart]
    by_cases hsize : p₁.size = 0
    · simp [s.table.empty p₁ hmem₁ hsize]
    · have := s.table.inside p₁ hmem₁ hsize
      omega
  have hsum : s.totals.fixed + s.totals.scalable = s.start1 +
      (s.firstRound.map fun f => f.fixed + f.scalable +
        if 4 < f.row.ipart ∧ f.row.size = 0 then 1 else 0).sum := by
    rw [Setup.totals, Setup.foldl_add]
    simp only [List.sum_map_add, sum_start]
    omega
  have hle : (s.firstRound.map fun f => f.fixed + f.scalable +
        if 4 < f.row.ipart ∧ f.row.size = 0 then 1 else 0).sum ≤
      (s.numbered.map fun x => if isExtended x.1.id then 0 else x.1.size).sum := by
    rw [Setup.firstRound, List.map_map]
    exact List.sum_le_sum fun x hx => counted_le h hf hx
  have hparts : (s.numbered.map fun x => if isExtended x.1.id then 0 else x.1.size) =
      s.table.parts.map fun p => if isExtended p.id then 0 else p.size := by
    have hfst : s.numbered.map Prod.fst = s.table.parts := List.zipIdx_map_fst ..
    rw [← hfst, List.map_map]
    rfl
  have hpack := Stretches.sum_length_le Partition.start Partition.size (pairwise_plain s.table)
    s.start1 s.table.sectors fun p hp hsize => by
      obtain ⟨hp, hplain⟩ := List.mem_filter.1 hp
      obtain ⟨i, hi⟩ := List.mem_iff_getElem?.1 hp
      have hnum : (p, i + 1) ∈ s.numbered := Setup.mem_numbered.2 ⟨by omega, by simpa using hi⟩
      have hext : isExtended p.id = false := by simpa using hplain
      rw [hstart]
      exact ⟨hf.first p₁ p (i + 1) hp₁ hnum hext hsize, (s.table.inside p hp hsize).2⟩
  rw [hparts, sum_filter] at hle
  omega

theorem room_of_inFront (h : Undisturbed s) (hf : InFront s)
    (hlarger : s.table.sectors ≤ s.targetDiskSectorsSize) : Room s := by
  have hcount := counted_total h hf
  rw [fixed_eq, scalable_eq] at hcount
  exact hcount.trans hlarger

/-- The ratio is at least one, unless there is nothing to scale. -/
theorem unit_le_ratio (hroom : Room s) (hpos : 1 ≤ s.totals.scalable) :
    0 ≤ s.availableSectors ∧ unit ≤ s.targetvsSourceRatio := by
  have havail : (s.totals.scalable : Int) ≤ s.availableSectors := by
    rw [Room, ← fixed_eq, ← scalable_eq] at hroom
    simp only [Setup.availableSectors]
    omega
  refine ⟨by omega, ?_⟩
  rw [Setup.targetvsSourceRatio, if_neg (by omega)]
  exact (unit_le_divide_iff (by omega) (by omega)).2 havail

/-- A row that is scaled is counted as scalable, as large as it is on the source disk. -/
theorem scalable_of_scaled (h : Undisturbed s) {p : Partition} {n : Nat}
    (hp : (p, n) ∈ s.numbered) (hscaled : (s.figures n p).row.scaled) :
    (s.figures n p).scalable = p.size ∧ (s.figures n p).row.size = p.size ∧
      (s.figures n p).row.used ≤ p.size ∧ p.size ≠ 0 := by
  obtain hm | hl := h.cases hp
  · rw [Setup.figures_menu hm] at hscaled
    simp [Row.scaled] at hscaled
  · have hrow := hl.figures_row
    rw [hrow] at hscaled
    simp only [Row.scaled, Bool.and_eq_true, decide_eq_true_eq, Bool.not_eq_true'] at hscaled
    obtain ⟨⟨⟨hscal, h0⟩, -⟩, hext⟩ := hscaled
    have hid : p.id ≠ 0 := by
      rintro hid
      simp [hid, Setup.plainId] at h0
    have hplain : isExtended p.id = false := by
      have hb : s.onBackup n := by
        simp only [Setup.scalable, Bool.and_eq_true] at hscal
        exact hscal.1
      exact (s.filesystem p n hp (.inl hb)).2
    rw [hl.figures_eq]
    simp [hplain, hid, hscal, h.used p n hp, h.sized p n hp hplain hid]

theorem scalable_le_total {f : Figures} (hf : f ∈ s.firstRound) :
    f.scalable ≤ s.totals.scalable := by
  rw [Setup.totals, Setup.foldl_add]
  simp only [Nat.zero_add]
  exact List.single_le_sum (fun _ _ => Nat.zero_le _) _ (List.mem_map_of_mem hf)

theorem unit_le_scaled (h : Undisturbed s) (hroom : Room s) {p : Partition} {n : Nat}
    (hp : (p, n) ∈ s.numbered) (hscaled : (s.figures n p).row.scaled) :
    unit ≤ s.targetvsSourceRatio := by
  obtain ⟨hscal, -, -, hsize⟩ := scalable_of_scaled h hp hscaled
  have hmem : s.figures n p ∈ s.firstRound := List.mem_map_of_mem hp
  have := scalable_le_total hmem
  exact (unit_le_ratio hroom (by omega)).2

/-- No partition comes to less than a sector. -/
theorem counted (h : Undisturbed s) (hroom : Room s) : s.Counted := by
  intro r hr
  refine Setup.sized_of_legible fun hscaled => ?_
  obtain ⟨p, n, hp, rfl⟩ := Setup.exists_numbered hr
  obtain ⟨-, hrow, -, hsize⟩ := scalable_of_scaled h hp hscaled
  have hratio := unit_le_scaled h hroom hp hscaled
  have hpos := unit_pos
  right; left
  calc unit ≤ s.targetvsSourceRatio := hratio
    _ = 1 * s.targetvsSourceRatio := (one_mul _).symm
    _ ≤ (s.figures n p).row.size * s.targetvsSourceRatio :=
      Int.mul_le_mul_of_nonneg_right (by omega) (by omega)

theorem le_share {n : Nat} (h : unit ≤ s.targetvsSourceRatio) : n ≤ s.share n := by
  have hle : (n : Int) ≤ n * s.targetvsSourceRatio / unit := by
    rw [Int.le_ediv_iff_mul_le unit_pos]
    exact Int.mul_le_mul_of_nonneg_left h (by omega)
  rw [Setup.share]
  omega

/-- A partition that is scaled gets its share. -/
theorem sectors_scaled (h : Undisturbed s) (hroom : Room s) {p : Partition} {n : Nat}
    (hp : (p, n) ∈ s.numbered) (hscaled : (s.figures n p).row.scaled) :
    s.sectors (s.figures n p).row = s.share p.size := by
  obtain ⟨-, hrow, hused, hsize⟩ := scalable_of_scaled h hp hscaled
  have hle := le_share (n := p.size) (unit_le_scaled h hroom hp hscaled)
  simp only [Row.scaled, Bool.and_eq_true, decide_eq_true_eq, Bool.not_eq_true'] at hscaled
  obtain ⟨⟨⟨hscal, h0⟩, h82⟩, hext⟩ := hscaled
  simp only [Setup.sectors, h0, hext, Bool.false_eq_true, or_self, if_false, if_neg h82, hscal,
    if_true, hrow, if_neg (show ¬ s.share p.size < (s.figures n p).row.used by omega)]
  rw [if_neg (by omega)]

/-- What the second round counts for a row is what the first one did, scaled. -/
theorem sectors_le (h : Undisturbed s) (hroom : Room s) {p : Partition} {n : Nat}
    (hp : (p, n) ∈ s.numbered) :
    s.sectors (s.figures n p).row ≤ (s.figures n p).fixed + s.share (s.figures n p).scalable := by
  by_cases hscaled : (s.figures n p).row.scaled
  · rw [sectors_scaled h hroom hp hscaled, (scalable_of_scaled h hp hscaled).1]
    omega
  obtain hm | hl := h.cases hp
  · simp [Setup.figures_menu hm, Setup.sectors, isExtended]
  · rw [hl.figures_row] at hscaled
    have hsized := h.sized p n hp
    rw [hl.figures_eq]
    simp only [Setup.sectors]
    by_cases hplain : p.id = 0 ∨ isExtended p.id
    · have hid : Setup.plainId p.id = p.id := by
        rcases hplain with hid | hext
        · simp [Setup.plainId, hid]
        · rw [Setup.plainId, if_neg]
          rintro hid
          simp [hid, isExtended] at hext
      simp only [hid, if_pos hplain]
      exact Nat.zero_le _
    · rw [not_or, Bool.not_eq_true] at hplain
      obtain ⟨h0, hext⟩ := hplain
      have hid := Setup.plainId_plain h0 hext
      have hscal : s.scalable n = false := by
        by_contra hcon
        rw [Bool.not_eq_false] at hcon
        have hb : s.onBackup n := by
          simp only [Setup.scalable, Bool.and_eq_true] at hcon
          exact hcon.1
        have hmenu := hl.menu
        simp only [Setup.menu, hb, Bool.or_true, Bool.true_and, Bool.or_eq_false_iff,
          decide_eq_false_iff_not] at hmenu
        have h82 := Setup.plainId_ne_swap hmenu.2
        simp [Row.scaled, hcon, hid.1, hid.2, h82] at hscaled
      have hsize := hsized hext h0
      simp only [hid.1, hid.2, hext, hscal, h0, Bool.false_eq_true, or_self, if_false, false_and]
      split_ifs <;> omega

/-- The shares are together no more than what is available. -/
theorem sum_share_le (hroom : Room s) (hpos : 1 ≤ s.totals.scalable) :
    ((s.firstRound.map fun f => s.share f.scalable).sum : Int) ≤ s.availableSectors := by
  obtain ⟨havail, hratio⟩ := unit_le_ratio hroom hpos
  have hdiv := divide_mul_le havail (b := s.totals.scalable) (by omega)
  have hdef : s.targetvsSourceRatio = divide s.availableSectors s.totals.scalable := by
    rw [Setup.targetvsSourceRatio, if_neg (by omega)]
  rw [← hdef, mul_comm] at hdiv
  have htotal : (s.firstRound.map Figures.scalable).sum = s.totals.scalable := by
    rw [Setup.totals, Setup.foldl_add]
    exact (Nat.zero_add _).symm
  have hsum := Setup.sum_share_le (s := s) (s.firstRound.map Figures.scalable)
  rw [htotal, List.map_map] at hsum
  have hshare : (s.totals.scalable : Int) * s.targetvsSourceRatio / unit ≤ s.availableSectors :=
    Int.ediv_le_of_le_mul unit_pos hdiv
  simp only [Setup.share, Function.comp_def] at hsum ⊢
  omega

theorem before_le (h : Undisturbed s) (hroom : Room s) :
    s.before s.lastPartNr ≤ s.targetDiskSectorsSize := by
  have hcount := hroom
  rw [Room, ← fixed_eq] at hcount
  have hall : s.rows.take s.lastPartNr = s.rows := List.take_of_length_le (by simp)
  have hsectors : (s.rows.map s.sectors).sum ≤
      (s.firstRound.map Figures.fixed).sum +
        (s.firstRound.map fun f => s.share f.scalable).sum := by
    rw [← List.sum_map_add, Setup.rows, List.map_map]
    refine List.sum_le_sum fun f hmem => ?_
    simp only [Setup.firstRound, List.mem_map] at hmem
    obtain ⟨⟨p, n⟩, hp, rfl⟩ := hmem
    exact sectors_le h hroom hp
  have hfixed : s.start1 + (s.firstRound.map Figures.fixed).sum ≤ s.totals.fixed := by
    rw [Setup.totals, Setup.foldl_add]
    simp only [List.sum_map_add, sum_start]
    omega
  have hshare : (s.firstRound.map fun f => s.share f.scalable).sum + s.totals.fixed ≤
      s.targetDiskSectorsSize := by
    by_cases hpos : 1 ≤ s.totals.scalable
    · have hsum := sum_share_le hroom hpos
      simp only [Setup.availableSectors] at hsum
      omega
    · have hzero : (s.firstRound.map fun f => s.share f.scalable).sum = 0 := by
        rw [List.sum_eq_zero_iff]
        intro x hx
        obtain ⟨f, hmem, rfl⟩ := List.mem_map.1 hx
        have hle := scalable_le_total hmem
        have hf0 : f.scalable = 0 := by omega
        simp [hf0, Setup.share]
      omega
  rw [Setup.before, hall]
  omega

/-- With room for all that is counted the resizing does not fail and shrinks nothing. -/
theorem enlarges (h : Undisturbed s) (hroom : Room s) :
    ∃ script, s.resizePartitionLayout = some script ∧ Enlarges s script := by
  have hcounted := counted h hroom
  have hscript := hcounted.resize_eq_some_iff.2 ⟨rfl, before_le h hroom⟩
  refine ⟨_, hscript, ?_⟩
  intro p n hp hlast hscaled
  have hline := Setup.script_getElem? hscript hp
  have hrow := Setup.row_of_numbered hp
  have hplain := hscaled
  simp only [Row.scaled, Bool.and_eq_true, decide_eq_true_eq, Bool.not_eq_true'] at hplain
  have hsize := (hcounted _ (List.mem_of_getElem? hrow)).entry_size (s.cursor (n - 1))
    hplain.1.1.2 hplain.2
  rw [Setup.figures_ipart, if_pos hlast, sectors_scaled h hroom hp hscaled] at hsize
  refine ⟨_, _, hline, hsize, ?_⟩
  have := le_share (n := p.size) (unit_le_scaled h hroom hp hscaled)
  omega

/-- Two partitions, the first one in front of the second one on the disk or behind it. -/
def twoPartitions (inFront : Bool) : Setup where
  table :=
    { sectors := 2000
      parts :=
        let low : Partition := ⟨63, 937, 0x83, false⟩
        let high : Partition := ⟨1000, 1000, 0x83, false⟩
        [if inFront then low else high, if inFront then high else low, ⟨0, 0, 0, false⟩,
          ⟨0, 0, 0, false⟩]
      four := by simp
      empty := by cases inFront <;> decide
      inside := by cases inFront <;> decide
      primary := by cases inFront <;> decide
      logical := by cases inFront <;> decide
      plain := by cases inFront <;> decide
      nested := by cases inFront <;> decide
      single := by cases inFront <;> decide }
  onBackup n := n = 1 || n = 2
  fixed := []
  usedKb n := if n ≤ 2 then 100 else 0
  mdSwapIpart := 0
  target _ := none
  targetDiskSectorsSize := 2000
  firstPartChoice _ := .keep
  swapChoice _ := ⟨3, swapChoice_three⟩
  filesystem := by
    intro p n hp hb
    simp only [List.zipIdx_cons, List.zipIdx_nil, List.mem_cons, Prod.mk.injEq, List.not_mem_nil,
      or_false] at hp
    rcases hp with ⟨rfl, rfl⟩ | ⟨rfl, rfl⟩ | ⟨rfl, rfl⟩ | ⟨rfl, rfl⟩ <;> cases inFront <;>
      simp_all [isExtended]
  member := by simp

theorem mem_twoPartitions {inFront : Bool} {p : Partition} {n : Nat}
    (h : (p, n) ∈ (twoPartitions inFront).numbered) :
    p = (if (n = 1) = inFront then ⟨63, 937, 0x83, false⟩ else ⟨1000, 1000, 0x83, false⟩) ∧
        (n = 1 ∨ n = 2) ∨
      p = ⟨0, 0, 0, false⟩ ∧ (n = 3 ∨ n = 4) := by
  simp only [Setup.numbered, twoPartitions, List.zipIdx_cons, List.zipIdx_nil, List.mem_cons,
    Prod.mk.injEq, List.not_mem_nil, or_false] at h
  rcases h with ⟨rfl, rfl⟩ | ⟨rfl, rfl⟩ | ⟨rfl, rfl⟩ | ⟨rfl, rfl⟩ <;> cases inFront <;> simp

theorem undisturbed_twoPartitions (inFront : Bool) : Undisturbed (twoPartitions inFront) where
  used p n hp := by
    obtain ⟨rfl, rfl | rfl⟩ | ⟨rfl, rfl | rfl⟩ := mem_twoPartitions hp <;> cases inFront <;> decide
  sized p n hp _ _ := by
    obtain ⟨rfl, rfl | rfl⟩ | ⟨rfl, rfl | rfl⟩ := mem_twoPartitions hp <;> cases inFront <;>
      simp_all
  unasked p n _ := by simp [Setup.asked, Setup.dosPartition, twoPartitions]
  swap _ := le_rfl

theorem inFront_twoPartitions : InFront (twoPartitions true) where
  first p p' n hp hp' _ _ := by
    obtain ⟨rfl, -⟩ | ⟨-, h | h⟩ := mem_twoPartitions hp
    · obtain ⟨rfl, rfl | rfl⟩ | ⟨rfl, -⟩ := mem_twoPartitions hp' <;> simp_all
    · cases h
    · cases h
  logical p n hp hn := by
    obtain ⟨-, rfl | rfl⟩ | ⟨-, rfl | rfl⟩ := mem_twoPartitions hp <;> omega

theorem enlarges_twoPartitions :
    ∃ script, (twoPartitions true).resizePartitionLayout = some script ∧
      Enlarges (twoPartitions true) script :=
  enlarges (undisturbed_twoPartitions true)
    (room_of_inFront (undisturbed_twoPartitions true) inFront_twoPartitions le_rfl)

/-- With the first partition behind the second one, the same disk is too small. -/
theorem first_partition_shrunk : ¬ ∀ s : Setup, Undisturbed s →
    s.table.sectors ≤ s.targetDiskSectorsSize →
    ∃ script, s.resizePartitionLayout = some script ∧ Enlarges s script := by
  intro h
  obtain ⟨script, hscript, henlarges⟩ := h _ (undisturbed_twoPartitions false) le_rfl
  have hrun : (twoPartitions false).resizePartitionLayout = some
      [⟨.int 1000, .int 516, .id 0x83, false⟩, ⟨.int 1516, .int 483, .id 0x83, false⟩,
        ⟨.int 0, .int 0, .id 0, false⟩, ⟨.int 0, .int 0, .id 0, false⟩] := by
    decide +kernel
  rw [hscript] at hrun
  cases hrun
  obtain ⟨e, size, he, hsize, hle⟩ := henlarges ⟨1000, 1000, 0x83, false⟩ 1 (by decide +kernel)
    (by decide) (by decide +kernel)
  simp only [Nat.sub_self, List.getElem?_cons_zero, Option.some.injEq] at he
  subst he
  cases hsize
  exact absurd hle (by decide)

end Enlarging
