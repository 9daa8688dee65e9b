import MkCDrec.Shares

/-!
# Overlapping partitions

The lines for the first four partitions have to describe disjoint parts of the target
disk. The script leaves room for them one behind the other, from the start of the first
partition on. Behind an extended partition it leaves as many sectors as there are before
the first partition, and behind a size that was lost it has no start any more.
-/

namespace Geometry

open ShellNumber Layout Shares

/-- The line takes up the sectors from `lo` on and before `hi`. Without a size it goes up to
the end of the disk. -/
def Region (disk : Nat) (e : Entry) (lo hi : Int) : Prop :=
  e.start = .int lo ∧ (e.size = .int (hi - lo) ∨ e.size = .empty ∧ hi = disk)

def Vacant (e : Entry) : Prop := e.size = .int 0

/-- The primary and extended partitions of a script are disjoint parts of the disk. -/
structure Sound (disk : Nat) (script : List Entry) : Prop where
  inside : ∀ e ∈ script.take 4, Vacant e ∨
    ∃ lo hi, Region disk e lo hi ∧ 1 ≤ lo ∧ lo < hi ∧ hi ≤ disk
  disjoint : (script.take 4).Pairwise fun e f => Vacant e ∨ Vacant f ∨
    ∀ lo hi lo' hi', Region disk e lo hi → Region disk f lo' hi' → hi ≤ lo' ∨ hi' ≤ lo

section Condition

variable (s : Setup)

/-- The partition takes what is left of the disk: it is the last one, or its size, or that of
the logical partitions together, comes to a part of a sector. -/
def Open (n : Nat) (p : Partition) : Prop :=
  if isExtended p.id then Broken s (logicalScalable s)
  else typeOf s n p ≠ 0 ∧ (n = s.lastPartNr ∨ isLost s n p)

/-- The partition has sectors. -/
def Filled (n : Nat) (p : Partition) : Prop :=
  Open s n p ∨
    if isExtended p.id then extendedSize s ≠ 0 ∧ s.targetDiskSectorsSize ≠ 0 else given s n p ≠ 0

instance (n : Nat) (p : Partition) : Decidable (Open s n p) := by unfold Open; infer_instance
instance (n : Nat) (p : Partition) : Decidable (Filled s n p) := by unfold Filled; infer_instance

end Condition

variable {s : Setup} {p p' : Partition} {n m : Nat}

theorem open_of_lost (h : isLost s n p) : Open s n p := by
  rw [Open, not_extended_of_lost h]
  exact ⟨typeOf_ne_zero_of_lost h, .inr h⟩

theorem typeOf_ne_zero_of_filled (hp : (p, n) ∈ s.numbered) (h : Filled s n p) :
    typeOf s n p ≠ 0 := by
  cases hext : isExtended p.id with
  | true => exact typeOf_ne_zero_of_extended hp hext
  | false =>
    simp only [Filled, Open, hext, Bool.false_eq_true, if_false] at h
    rcases h with h | h
    · exact h.1
    · exact typeOf_ne_zero_of_given h

theorem filled_of_given (hp : (p, n) ∈ s.numbered) (h : given s n p ≠ 0) : Filled s n p := by
  cases hext : isExtended p.id with
  | true => exact absurd (given_of_extended hp hext) h
  | false => exact .inr (by simpa [hext] using h)

/-- The sum grows first at a partition with sectors, -/
theorem exists_first_given (hn : 1 ≤ n) (hnm : n ≤ m) (hm : m ≤ 4)
    (hne : sectorFor s n ≠ sectorFor s m) :
    ∃ p k, (p, k) ∈ s.numbered ∧ n ≤ k ∧ k < m ∧ given s k p ≠ 0 ∧
      sectorFor s k = sectorFor s n := by
  have hfour : 4 ≤ s.lastPartNr := s.table.four
  induction m, hnm using Nat.le_induction with
  | base => exact absurd rfl hne
  | succ m hnm ih =>
    by_cases heq : sectorFor s n = sectorFor s m
    · obtain ⟨p, hp⟩ := exists_numbered (s := s) (show 1 ≤ m by omega) (by omega)
      rw [sectorFor_succ hp] at hne
      exact ⟨p, m, hp, hnm, by omega, by omega, heq.symm⟩
    · obtain ⟨p, k, hp, hk, hkm, hgiven, hsum⟩ := ih (by omega) heq
      exact ⟨p, k, hp, hk, by omega, hgiven, hsum⟩

section Sufficient

end Sufficient

theorem Region.unique {disk : Nat} {e : Entry} {lo hi lo' hi' : Int} (h : Region disk e lo hi)
    (h' : Region disk e lo' hi') : lo = lo' ∧ hi = hi' := by
  obtain ⟨hlo, hsize⟩ := h
  obtain ⟨hlo', hsize'⟩ := h'
  have hstart : lo = lo' := by
    rw [hlo] at hlo'
    exact Word.int.inj hlo'
  refine ⟨hstart, ?_⟩
  rcases hsize with hsize | ⟨hblank, rfl⟩ <;> rcases hsize' with hsize' | ⟨hblank', rfl⟩
  · rw [hsize] at hsize'
    have := Word.int.inj hsize'
    omega
  · rw [hsize] at hblank'
    cases hblank'
  · rw [hblank] at hsize'
    cases hsize'
  · rfl

theorem line_mem {script : List Entry} (hscript : s.resizePartitionLayout = some script)
    (hp : (p, n) ∈ s.numbered) (hn : n ≤ 4) : (script.take 4)[n - 1]? = some (line s n p) := by
  have hpos := (Setup.mem_numbered.1 hp).1
  rw [List.getElem?_take, if_pos (by omega)]
  exact Setup.script_getElem? hscript hp

section Necessary

variable {script : List Entry}

theorem not_vacant_of_lost (hp : (p, n) ∈ s.numbered) (hn : n ≤ 4) (hfilled : Filled s n p)
    (hcount : ¬ s.CountedTo (n - 1) ∨ isExtended p.id = false) : ¬ Vacant (line s n p) := by
  have h0 := typeOf_ne_zero_of_filled hp hfilled
  simp only [Filled, Open] at hfilled
  cases hext : isExtended p.id with
  | true =>
    simp only [hext, if_true] at hfilled
    rw [Vacant, line_extended_lost hp hn hext (hcount.resolve_right (by simp [hext]))]
    split
    · simp
    · simp only [Word.int.injEq, Int.natCast_eq_zero]
      exact (hfilled.resolve_left ‹_›).1
  | false =>
    simp only [hext, Bool.false_eq_true, if_false] at hfilled
    rw [Vacant, line_size hp h0 hext]
    split
    · simp
    · split
      · split <;> simp
      · rename_i hlast hlost
        simp only [Word.int.injEq, Int.natCast_eq_zero]
        exact hfilled.resolve_left fun hopen => (hopen.2.resolve_left hlast |> hlost)

/-- In a sound script nothing with sectors comes behind a lost size. -/
theorem Sound.counted (hsound : Sound s.targetDiskSectorsSize script)
    (hscript : s.resizePartitionLayout = some script) (hp : (p, n) ∈ s.numbered) (hn : n ≤ 4)
    (hfilled : Filled s n p) : s.CountedTo (n - 1) := by
  by_contra hcount
  have hvac := not_vacant_of_lost hp hn hfilled (.inl hcount)
  have hmem := List.mem_of_getElem? (line_mem hscript hp hn)
  obtain ⟨lo, hi, hreg, -⟩ := (hsound.inside _ hmem).resolve_left hvac
  have hstart := line_start_lost hp hn (typeOf_ne_zero_of_filled hp hfilled) hcount
  rw [hreg.1] at hstart
  cases hstart

theorem Sound.region (hsound : Sound s.targetDiskSectorsSize script)
    (hscript : s.resizePartitionLayout = some script) (hp : (p, n) ∈ s.numbered) (hn : n ≤ 4)
    (hfilled : Filled s n p) (hvac : ¬ Vacant (line s n p)) :
    ∃ hi : Int, Region s.targetDiskSectorsSize (line s n p) (startFor s n) hi ∧
      1 ≤ startFor s n ∧ (startFor s n : Int) < hi ∧ hi ≤ s.targetDiskSectorsSize := by
  have hmem := List.mem_of_getElem? (line_mem hscript hp hn)
  obtain ⟨lo, hi, hreg, hone, hlt, hle⟩ := (hsound.inside _ hmem).resolve_left hvac
  have hstart := line_start hp hn (typeOf_ne_zero_of_filled hp hfilled)
    (hsound.counted hscript hp hn hfilled)
  rw [hreg.1] at hstart
  obtain rfl := Word.int.inj hstart
  exact ⟨hi, hreg, by omega, hlt, hle⟩

theorem Sound.apart (hsound : Sound s.targetDiskSectorsSize script)
    (hscript : s.resizePartitionLayout = some script) (hp : (p, n) ∈ s.numbered)
    (hp' : (p', m) ∈ s.numbered) (hnm : n < m) (hm : m ≤ 4) (hvac : ¬ Vacant (line s n p))
    (hvac' : ¬ Vacant (line s m p')) {lo hi lo' hi' : Int}
    (hreg : Region s.targetDiskSectorsSize (line s n p) lo hi)
    (hreg' : Region s.targetDiskSectorsSize (line s m p') lo' hi') : hi ≤ lo' ∨ hi' ≤ lo := by
  have hpos := (Setup.mem_numbered.1 hp).1
  obtain ⟨hi₁, he⟩ := List.getElem?_eq_some_iff.1 (line_mem hscript hp (by omega))
  obtain ⟨hi₂, he'⟩ := List.getElem?_eq_some_iff.1 (line_mem hscript hp' hm)
  have hpair := List.pairwise_iff_getElem.1 hsound.disjoint (n - 1) (m - 1) hi₁ hi₂ (by omega)
  rw [he, he'] at hpair
  exact (hpair.resolve_left hvac).resolve_left hvac' _ _ _ _ hreg hreg'

theorem not_vacant_of_open (hcount : s.CountedTo (n - 1)) (hp : (p, n) ∈ s.numbered) (hn : n ≤ 4)
    (hopen : Open s n p) : ¬ Vacant (line s n p) := by
  cases hext : isExtended p.id with
  | true =>
    simp only [Open, hext, if_true] at hopen
    rw [Vacant, line_extended hp hn hext hcount, if_pos hopen]
    simp
  | false => exact not_vacant_of_lost hp hn (.inl hopen) (.inr hext)

/-- The extended partition is not given a negative size. -/
theorem Sound.sectorFor_le (hsound : Sound s.targetDiskSectorsSize script)
    (hscript : s.resizePartitionLayout = some script) (hp : (p, n) ∈ s.numbered) (hn : n ≤ 4)
    (hext : isExtended p.id) (hcount : s.CountedTo (n - 1))
    (hbroken : ¬ Broken s (logicalScalable s)) : sectorFor s n ≤ s.targetDiskSectorsSize := by
  by_contra hlong
  have hsize := line_extended hp hn hext hcount
  rw [if_neg hbroken] at hsize
  have hvac : ¬ Vacant (line s n p) := by
    rw [Vacant, hsize, Word.int.injEq]
    omega
  have hmem := List.mem_of_getElem? (line_mem hscript hp hn)
  obtain ⟨lo, hi, ⟨-, hreg⟩, -, hlt, -⟩ := (hsound.inside _ hmem).resolve_left hvac
  rw [hsize] at hreg
  rcases hreg with hreg | ⟨hreg, -⟩
  · have := Word.int.inj hreg
    omega
  · cases hreg

/-- A partition that takes the rest of the disk is the last one with sectors. -/
theorem Sound.rest (hsound : Sound s.targetDiskSectorsSize script)
    (hscript : s.resizePartitionLayout = some script) (hp : (p, n) ∈ s.numbered)
    (hp' : (p', m) ∈ s.numbered) (hnm : n < m) (hm : m ≤ 4) (hopen : Open s n p) :
    ¬ Filled s m p' := by
  intro hfilled
  have hcount := hsound.counted hscript hp' hm hfilled
  have hcount' := hsound.counted hscript hp (by omega) (.inl hopen)
  have hvac := not_vacant_of_open hcount' hp (by omega) hopen
  cases hext : isExtended p.id with
  | false =>
    simp only [Open, hext, Bool.false_eq_true, if_false] at hopen
    rcases hopen.2 with hlast | hlost
    · have hfour : 4 ≤ s.lastPartNr := s.table.four
      omega
    · rw [countedTo_iff.1 hcount p n hp (by omega)] at hlost
      cases hlost
  | true =>
    simp only [Open, hext, if_true] at hopen
    have hvac' := not_vacant_of_lost hp' hm hfilled (.inr (extended_unique hp hp' hnm hm hext))
    obtain ⟨hi, hreg, -, hlt, hle⟩ := hsound.region hscript hp (by omega)
      (.inl (by rwa [Open, if_pos hext])) hvac
    obtain ⟨hi', hreg', -, hlt', hle'⟩ := hsound.region hscript hp' hm hfilled hvac'
    have hend : hi = s.targetDiskSectorsSize := by
      have hsize := line_extended hp (by omega) hext hcount'
      rw [if_pos hopen] at hsize
      rcases hreg.2 with hreg | ⟨-, hreg⟩
      · rw [hsize] at hreg
        cases hreg
      · exact hreg
    have hapart := hsound.apart hscript hp hp' hnm hm hvac hvac' hreg hreg'
    have hmono := sectorFor_mono (s := s) hnm.le
    have hstart := sectorFor_le_startFor (s := s) m
    rw [startFor_of_extended hp (by omega) hext] at hapart
    omega

/-- An extended partition of more sectors than there are before the first partition reaches
into the one behind it. -/
theorem Sound.extended (hsound : Sound s.targetDiskSectorsSize script)
    (hscript : s.resizePartitionLayout = some script) (hp : (p, n) ∈ s.numbered)
    (hp' : (p', m) ∈ s.numbered) (hnm : n < m) (hm : m ≤ 4) (hext : isExtended p.id)
    (hfilled : Filled s m p') : extendedSize s ≤ firstSector s := by
  by_contra hlong
  have hpos := (Setup.mem_numbered.1 hp).1
  have hsucc := sectorFor_succ hp
  rw [given_of_extended hp hext, Nat.add_zero] at hsucc
  -- the first of the partitions with sectors begins inside
  obtain ⟨p₁, k, hp₁, hnk, hk, hfilled₁, hsum⟩ : ∃ p₁ k, (p₁, k) ∈ s.numbered ∧ n < k ∧ k ≤ 4 ∧
      Filled s k p₁ ∧ sectorFor s k = sectorFor s n := by
    by_cases heq : sectorFor s (n + 1) = sectorFor s m
    · exact ⟨p', m, hp', hnm, hm, hfilled, heq.symm.trans hsucc⟩
    · obtain ⟨p₁, k, hp₁, hnk, hkm, hgiven, hsum⟩ := exists_first_given (by omega) hnm hm heq
      exact ⟨p₁, k, hp₁, hnk, by omega, filled_of_given hp₁ hgiven, hsum.trans hsucc⟩
  have hcount : s.CountedTo (n - 1) := by
    rw [countedTo_iff]
    have hall := countedTo_iff.1 (hsound.counted hscript hp₁ hk hfilled₁)
    exact fun p' j hp' hj => hall p' j hp' (by omega)
  have hbroken : ¬ Broken s (logicalScalable s) := by
    intro hbroken
    exact hsound.rest hscript hp hp₁ hnk hk (by rwa [Open, if_pos hext]) hfilled₁
  have hvac₁ := not_vacant_of_lost hp₁ hk hfilled₁ (.inr (extended_unique hp hp₁ hnk hk hext))
  obtain ⟨hi₁, hreg₁, -, hlt₁, hle₁⟩ := hsound.region hscript hp₁ hk hfilled₁ hvac₁
  have hstart₁ := startFor_behind_extended hp hext hnk
  have hsize := line_extended hp (by omega) hext hcount
  rw [if_neg hbroken] at hsize
  have hvac : ¬ Vacant (line s n p) := by
    rw [Vacant, hsize, Word.int.injEq]
    omega
  have hfilled₀ : Filled s n p := by
    refine .inr ?_
    rw [if_pos hext]
    omega
  obtain ⟨hi, hreg, -⟩ := hsound.region hscript hp (by omega) hfilled₀ hvac
  have hapart := hsound.apart hscript hp hp₁ hnk hk hvac hvac₁ hreg hreg₁
  have hend := hreg.2
  rw [hsize, startFor_of_extended hp (by omega) hext] at hend
  rw [startFor_of_extended hp (by omega) hext] at hapart
  rcases hend with hend | ⟨hend, -⟩
  · have := Word.int.inj hend
    omega
  · cases hend

/-- The first partition with sectors does not begin with the disk. -/
theorem Sound.first (hsound : Sound s.targetDiskSectorsSize script)
    (hscript : s.resizePartitionLayout = some script) (hp : (p, n) ∈ s.numbered) (hn : n ≤ 4)
    (hfilled : Filled s n p) : 1 ≤ firstSector s := by
  by_contra hzero
  have hpos := (Setup.mem_numbered.1 hp).1
  have hone : sectorFor s 1 = firstSector s := by simp [sectorFor]
  obtain ⟨p₁, k, hp₁, hk, hfilled₁, hsum⟩ : ∃ p₁ k, (p₁, k) ∈ s.numbered ∧ k ≤ 4 ∧
      Filled s k p₁ ∧ sectorFor s k = firstSector s := by
    by_cases heq : sectorFor s 1 = sectorFor s n
    · exact ⟨p, n, hp, hn, hfilled, heq.symm.trans hone⟩
    · obtain ⟨p₁, k, hp₁, -, hkn, hgiven, hsum⟩ := exists_first_given le_rfl hpos hn heq
      exact ⟨p₁, k, hp₁, by omega, filled_of_given hp₁ hgiven, hsum.trans hone⟩
  have hcount := hsound.counted hscript hp₁ hk hfilled₁
  have hvac : ¬ Vacant (line s k p₁) := by
    by_cases hopen : Open s k p₁
    · exact not_vacant_of_open hcount hp₁ hk hopen
    cases hext : isExtended p₁.id with
    | false => exact not_vacant_of_lost hp₁ hk hfilled₁ (.inr hext)
    | true =>
      have hsize := hfilled₁.resolve_left hopen
      simp only [Open, hext, if_true] at hopen hsize
      rw [Vacant, line_extended hp₁ hk hext hcount, if_neg hopen, Word.int.injEq]
      omega
  obtain ⟨-, -, hstart, -⟩ := hsound.region hscript hp₁ hk hfilled₁ hvac
  rw [startFor] at hstart
  split at hstart <;> omega

/-- The extended partition does not begin beyond the disk. -/
theorem Sound.front (hsound : Sound s.targetDiskSectorsSize script)
    (hscript : s.resizePartitionLayout = some script) (hp : (p, n) ∈ s.numbered)
    (hext : isExtended p.id) : firstSector s ≤ s.targetDiskSectorsSize := by
  have hn := le_four_of_extended hp hext
  by_contra hbeyond
  have hopened : ∀ p k, (p, k) ∈ s.numbered → k ≤ 4 → s.CountedTo (k - 1) → ¬ Open s k p := by
    intro p k hp hk hcount hopen
    obtain ⟨hi, -, -, hlt, hle⟩ := hsound.region hscript hp hk (.inl hopen)
      (not_vacant_of_open hcount hp hk hopen)
    have hfirst := firstSector_le (s := s) k
    have hstart := sectorFor_le_startFor (s := s) k
    omega
  have hcount : s.CountedTo (n - 1) := by
    rw [countedTo_iff]
    intro p' k hp' hk
    by_contra hlost
    rw [Bool.not_eq_false] at hlost
    exact hopened p' k hp' (by omega)
      (hsound.counted hscript hp' (by omega) (.inl (open_of_lost hlost))) (open_of_lost hlost)
  have hbroken : ¬ Broken s (logicalScalable s) := fun hbroken =>
    hopened p n hp hn hcount (by rwa [Open, if_pos hext])
  have hle := hsound.sectorFor_le hscript hp hn hext hcount hbroken
  have hfirst := firstSector_le (s := s) n
  omega

end Necessary

/-- A table with an extended partition behind the primary ones, or in front of the last of
them. -/
def table (ext : Nat) (h : ext = 2 ∨ ext = 3) : Table where
  sectors := 10000
  parts :=
    let primary : Partition := ⟨5000, 5000, 0x83, false⟩
    let extended : Partition := ⟨1000, 4000, 0x5, false⟩
    [⟨63, 937, 0x83, true⟩, if ext = 2 then extended else primary,
      if ext = 2 then primary else extended, ⟨0, 0, 0, false⟩, ⟨1063, 3937, 0x83, false⟩]
  four := by simp
  empty := by rcases h with rfl | rfl <;> decide
  inside := by rcases h with rfl | rfl <;> decide
  primary := by rcases h with rfl | rfl <;> decide
  logical := by rcases h with rfl | rfl <;> decide
  plain := by rcases h with rfl | rfl <;> decide
  nested := by rcases h with rfl | rfl <;> decide
  single := by rcases h with rfl | rfl <;> decide

end Geometry
