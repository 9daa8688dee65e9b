import MkCDrec.Lib.ShellNumber

/-!
# Partition layout of the target disk

`Resize_partition_layout` reads the partitions of the source disk in two rounds. The first
one asks what becomes of swap areas and of foreign partitions on the target disk, and sums
up what is fixed and what may be scaled. The second one writes the input of `sfdisk`: it
puts the partitions behind one another and scales them by the ratio of the sums.
-/

namespace Layout

open ShellNumber

/-- A line of `sfdisk -d`. -/
structure Partition where
  start : Nat
  size : Nat
  id : Nat
  bootable : Bool
deriving DecidableEq

def isExtended (id : Nat) : Bool := id = 0x5 || id = 0x85 || id = 0xf

/-- Partitions without common sectors. -/
def Apart (p q : Partition) : Prop :=
  p.size = 0 ∨ q.size = 0 ∨ p.start + p.size ≤ q.start ∨ q.start + q.size ≤ p.start

def Within (p e : Partition) : Prop :=
  e.start ≤ p.start ∧ p.start + p.size ≤ e.start + e.size

instance (p q : Partition) : Decidable (Apart p q) := by unfold Apart; infer_instance
instance (p q : Partition) : Decidable (Within p q) := by unfold Within; infer_instance

/-- The table of a disk of so many sectors, in the order of the numbers: the four primary
entries, empty ones included, and behind them the logical partitions. -/
structure Table where
  sectors : Nat
  parts : List Partition
  four : 4 ≤ parts.length
  empty : ∀ p ∈ parts, p.size = 0 → p.start = 0
  inside : ∀ p ∈ parts, p.size ≠ 0 → 1 ≤ p.start ∧ p.start + p.size ≤ sectors
  primary : (parts.take 4).Pairwise Apart
  logical : (parts.drop 4).Pairwise Apart
  plain : ∀ p ∈ parts.drop 4, isExtended p.id = false
  nested : ∀ p ∈ parts.drop 4, p.size ≠ 0 → ∃ e ∈ parts.take 4, isExtended e.id ∧ Within p e
  single : (parts.take 4).Pairwise fun p q => isExtended p.id = false ∨ isExtended q.id = false

inductive FirstPartChoice
  | empty
  | keep
deriving DecidableEq

/-- An answer in the menu for a swap area. -/
abbrev SwapChoice := { c : Nat // 1 ≤ c ∧ c ≤ 5 }

/-- The answer that keeps the size. -/
theorem swapChoice_three : 1 ≤ 3 ∧ 3 ≤ 5 := by decide

/-- What `Resize_partition_layout` reads. Partitions go by their numbers. `fixed` holds the
lines of `fixed.${_source_dev}`, also those of file systems that are not on the backup. The
lines of both files are those of mounted file systems, and a file system is in a partition
with sectors of its own. So is the member of an array with the swap area. -/
structure Setup where
  table : Table
  onBackup : Nat → Bool
  fixed : List Nat
  usedKb : Nat → Nat
  mdSwapIpart : Nat
  target : Nat → Option Partition
  targetDiskSectorsSize : Nat
  firstPartChoice : Nat → FirstPartChoice
  swapChoice : Nat → SwapChoice
  filesystem : ∀ p n, (p, n) ∈ table.parts.zipIdx 1 → onBackup n ∨ n ∈ fixed →
    p.size ≠ 0 ∧ isExtended p.id = false
  member : ∀ p, (p, mdSwapIpart) ∈ table.parts.zipIdx 1 → isExtended p.id = false

namespace Setup

variable (s : Setup)

/-- Without a file `fixed.${_source_dev}` nothing is fixed. -/
def scalable (n : Nat) : Bool := s.onBackup n && !(n ∈ s.fixed)

def lastPartNr : Nat := s.table.parts.length

def dosTypes : List Nat :=
  [0x1, 0x4, 0x6, 0x7, 0xb, 0xc, 0xe, 0x11, 0x12, 0x14, 0x16, 0x17, 0x1b, 0x1c, 0x1e, 0x84, 0x86,
    0x87, 0xde]

/-- The partition on the target disk that the user is asked about. -/
def dosPartition (n : Nat) : Option Partition := (s.target n).filter fun q => q.id ∈ dosTypes

def numbered : List (Partition × Nat) := s.table.parts.zipIdx 1

/-- The partition of the target disk in the place of number `n`, if the user is asked. -/
def asked (n : Nat) (p : Partition) : Option Partition :=
  if n ≤ 2 && !s.onBackup n && !isExtended p.id then s.dosPartition n else none

def zeroed (n : Nat) (p : Partition) : Bool :=
  (s.asked n p).isSome && s.firstPartChoice n = .empty

def kept (n : Nat) (p : Partition) : Option Partition :=
  if s.firstPartChoice n = .keep then s.asked n p else none

/-- The menu for the size of a swap area is shown. -/
def menu (n : Nat) (p : Partition) : Bool :=
  (2 < n || s.onBackup n) && (n = s.mdSwapIpart || p.id = 0x82)

def swapSize (n : Nat) (p : Partition) : Nat := p.size * ((s.swapChoice n : Nat) + 1) / 4

end Setup

/-- A line of `/tmp/sfdisk.tmp`. -/
structure Row where
  ipart : Nat
  start : Nat
  size : Nat
  id : Nat
  bootable : Bool
  scalable : Bool
  used : Nat
deriving DecidableEq

/-- A row, with the sectors that go to `total_fixed` and to `total_scalable`. -/
structure Figures where
  row : Row
  fixed : Nat
  scalable : Nat

/-- The first round, for partition number `n`. -/
def Setup.figures (s : Setup) (n : Nat) (p : Partition) : Figures :=
  let row : Row := ⟨n, p.start, p.size, p.id, p.bootable, s.scalable n, s.usedKb n * 2⟩
  let f : Figures :=
    if n ≤ 2 ∧ s.onBackup n = false then
      if isExtended p.id then ⟨row, 0, 0⟩
      else
        match s.dosPartition n with
        | some q =>
          match s.firstPartChoice n with
          | .empty => ⟨{ row with size := 0, start := 0, id := 0 }, 0, 0⟩
          | .keep => ⟨{ row with size := q.size, start := q.start, id := q.id }, q.size, 0⟩
        | none => ⟨row, p.size, 0⟩
    else
      let id := if n = s.mdSwapIpart then 0x82 else p.id
      if id = 0 ∨ isExtended id then ⟨{ row with id := id }, 0, 0⟩
      else if id = 0x82 then
        let size := p.size * ((s.swapChoice n : Nat) + 1) / 4
        ⟨{ row with size := size, id := id, used := size }, size, 0⟩
      else if s.scalable n then ⟨{ row with id := id }, 0, p.size⟩
      else ⟨{ row with id := id }, p.size, 0⟩
  -- a member of an array becomes a plain partition
  { f with row := if f.row.id = 0xfd then { f.row with id := 0x83 } else f.row }

structure Totals where
  scalable : Nat
  fixed : Nat
  extendedScalable : Nat
  extendedFixed : Nat
  minExtendedSize : Nat

def Totals.add (t : Totals) (f : Figures) : Totals :=
  let r := f.row
  { scalable := t.scalable + f.scalable
    fixed := t.fixed + f.fixed + (if r.ipart = 1 then r.start else 0) +
      (if 4 < r.ipart ∧ r.size = 0 then 1 else 0)
    extendedScalable := t.extendedScalable + (if 4 < r.ipart ∧ r.scalable then r.size else 0)
    extendedFixed := t.extendedFixed + (if 4 < r.ipart ∧ !r.scalable then r.size else 0)
    minExtendedSize := t.minExtendedSize + (if 4 < r.ipart then r.used else 0) }

inductive PartType
  | id (n : Nat)
  | E
  | X
  | S
deriving DecidableEq

/-- A line of the input of `sfdisk`. -/
structure Entry where
  start : Word
  size : Word
  type : PartType
  bootable : Bool
deriving DecidableEq

structure Cursor where
  nextSector : Word
  newTotal : Word
  start1 : Word
  scaledExtendedSize : Word

/-- The first row sets the sums to the start of its partition. -/
def Cursor.enter (c : Cursor) (r : Row) : Cursor :=
  if r.ipart = 1 then
    { c with nextSector := .int r.start, newTotal := .int r.start, start1 := .int r.start }
  else c

namespace Setup

variable (s : Setup)

def firstRound : List Figures := s.numbered.map fun p => s.figures p.2 p.1

def rows : List Row := s.firstRound.map Figures.row

def totals : Totals := s.firstRound.foldl Totals.add ⟨0, 0, 0, 0, 0⟩

def availableSectors : Int := s.targetDiskSectorsSize - s.totals.fixed

def targetvsSourceRatio : Int :=
  if s.totals.scalable < 1 then 0 else divide s.availableSectors s.totals.scalable

/-- `Multiply ${n} ${TargetvsSourceRatio} | sed 's/\..*$//'`. -/
def scaled (n : Nat) : Word := wholePart (n * s.targetvsSourceRatio)

def scaledExtendedSize : Word :=
  let size := (s.scaled s.totals.extendedScalable).add (.int s.totals.extendedFixed)
  if size.lt (.int s.totals.minExtendedSize) then .int s.totals.minExtendedSize else size

/-- `part_size` in the second round, for DOS, Linux and others; `1.11` times the used sectors
is calculated by `bc` as well. -/
def partSize (r : Row) : Word :=
  let size :=
    if r.scalable then
      if (s.scaled r.size).lt (.int r.used) then .int ((r.used * 111 / 100 : Nat) : Int)
      else s.scaled r.size
    else .int r.size
  if 4 ≤ r.ipart ∧ size = .int 0 then .int 1 else size

/-- One line of `/tmp/sfdisk.tmp` in the second round. -/
def secondRound (c : Cursor) (r : Row) : Entry × Cursor :=
  let start : Word :=
    if r.ipart = 1 then .int r.start else if r.ipart ≤ 4 then c.nextSector else .empty
  let c := c.enter r
  if r.id = 0 then (⟨.int 0, .int 0, .id 0, r.bootable⟩, c)
  else if isExtended r.id then
    let check := (Word.int s.targetDiskSectorsSize).sub start
    let size := if check.lt c.scaledExtendedSize then check else c.scaledExtendedSize
    (⟨start, size, if r.id = 0x5 then .E else .X, r.bootable⟩,
      { c with nextSector := c.nextSector.add c.start1, scaledExtendedSize := size })
  else
    let size := if r.id = 0x82 then .int r.size else s.partSize r
    let entry : Entry :=
      ⟨start, if r.ipart ≠ s.lastPartNr then size else .empty,
        if r.id = 0x82 then .S else .id r.id, r.id ≠ 0x82 && r.bootable⟩
    (entry,
      { c with
        newTotal := c.newTotal.add size
        nextSector := if r.ipart ≠ s.lastPartNr then c.nextSector.add size else c.nextSector })

/-- The loop of the second round. -/
def emit : Cursor → List Row → List Entry × Cursor
  | c, [] => ([], c)
  | c, r :: rs =>
    let (e, c) := s.secondRound c r
    let (es, c) := emit c rs
    (e :: es, c)

def initialCursor : Cursor := ⟨.int 0, .int 0, .empty, s.scaledExtendedSize⟩

def resizePartitionLayout : Option (List Entry) :=
  let (script, c) := s.emit s.initialCursor s.rows
  if (Word.int s.targetDiskSectorsSize).lt c.newTotal then none else some script

/-- The variables of the second round behind some lines. -/
def advance (c : Cursor) (rs : List Row) : Cursor :=
  rs.foldl (fun c r => (s.secondRound c r).2) c

def cursor (i : Nat) : Cursor := s.advance s.initialCursor (s.rows.take i)

variable {s}

@[simp] theorem advance_nil (c : Cursor) : s.advance c [] = c := rfl

@[simp] theorem advance_cons (c : Cursor) (r : Row) (rs : List Row) :
    s.advance c (r :: rs) = s.advance (s.secondRound c r).2 rs := rfl

@[simp] theorem emit_cons (c : Cursor) (r : Row) (rs : List Row) :
    s.emit c (r :: rs) =
      ((s.secondRound c r).1 :: (s.emit (s.secondRound c r).2 rs).1,
        (s.emit (s.secondRound c r).2 rs).2) := rfl

theorem emit_snd (c : Cursor) (rs : List Row) : (s.emit c rs).2 = s.advance c rs := by
  induction rs generalizing c with
  | nil => rfl
  | cons r rs ih =>
    simp only [emit_cons, advance_cons]
    exact ih _

theorem emit_getElem? (c : Cursor) (rs : List Row) (i : Nat) :
    (s.emit c rs).1[i]? = rs[i]?.map fun r => (s.secondRound (s.advance c (rs.take i)) r).1 := by
  induction rs generalizing c i with
  | nil => simp [emit]
  | cons r rs ih =>
    cases i with
    | zero => simp
    | succ i => simpa using ih (s.secondRound c r).2 i

theorem rows_getElem? (i : Nat) :
    s.rows[i]? = s.table.parts[i]?.map fun p => (s.figures (i + 1) p).row := by
  simp only [rows, firstRound, numbered, List.getElem?_map, List.getElem?_zipIdx, Option.map_map]
  cases s.table.parts[i]? with
  | none => rfl
  | some p => simp [Nat.add_comm]

@[simp] theorem length_rows : s.rows.length = s.lastPartNr := by
  simp [rows, firstRound, numbered, lastPartNr]

theorem resize_eq_some_iff {script : List Entry} :
    s.resizePartitionLayout = some script ↔
      script = (s.emit s.initialCursor s.rows).1 ∧
        (Word.int s.targetDiskSectorsSize).lt (s.cursor s.lastPartNr).newTotal = false := by
  have hall : s.rows.take s.lastPartNr = s.rows := List.take_of_length_le (by simp)
  simp only [resizePartitionLayout, cursor, hall, ← emit_snd]
  split
  · rename_i h
    simp [h]
  · rename_i h
    simp only [Bool.not_eq_true] at h
    simp [h, eq_comm]

theorem asked_eq_some {n : Nat} {p q : Partition} (h : s.asked n p = some q) :
    (n ≤ 2 ∧ s.onBackup n = false) ∧ isExtended p.id = false ∧ s.dosPartition n = some q ∧
      q.id ∈ dosTypes := by
  simp only [asked] at h
  split at h
  · rename_i hturn
    simp only [Bool.and_eq_true, decide_eq_true_eq, Bool.not_eq_true'] at hturn
    have hid := (Option.filter_eq_some_iff.1 h).2
    exact ⟨hturn.1, hturn.2, h, by simpa using hid⟩
  · cases h

theorem dosType_plain {id : Nat} (h : id ∈ dosTypes) :
    id ≠ 0 ∧ isExtended id = false ∧ id ≠ 0x82 ∧ id ≠ 0xfd := by
  have hall : ∀ id ∈ dosTypes, id ≠ 0 ∧ isExtended id = false ∧ id ≠ 0x82 ∧ id ≠ 0xfd := by decide
  exact hall id h

theorem figures_zeroed {n : Nat} {p : Partition} (h : s.zeroed n p) :
    s.figures n p = ⟨⟨n, 0, 0, 0, p.bootable, false, s.usedKb n * 2⟩, 0, 0⟩ := by
  simp only [zeroed, Bool.and_eq_true, Option.isSome_iff_exists, decide_eq_true_eq] at h
  obtain ⟨⟨q, hq⟩, hchoice⟩ := h
  obtain ⟨hturn, hext, hdos, -⟩ := asked_eq_some hq
  simp [figures, hturn, hext, hdos, hchoice, scalable]

theorem asked_of_kept {n : Nat} {p q : Partition} (h : s.kept n p = some q) :
    (n ≤ 2 ∧ s.onBackup n = false) ∧ isExtended p.id = false ∧ s.dosPartition n = some q ∧
      q.id ∈ dosTypes := by
  simp only [kept] at h
  split at h
  · exact asked_eq_some h
  · cases h

theorem figures_kept {n : Nat} {p q : Partition} (h : s.kept n p = some q) :
    s.figures n p =
      ⟨⟨n, q.start, q.size, q.id, p.bootable, false, s.usedKb n * 2⟩, q.size, 0⟩ := by
  obtain ⟨hturn, hext, hdos, hid⟩ := asked_of_kept h
  have hfd := (dosType_plain hid).2.2.2
  have hchoice : s.firstPartChoice n = .keep := by
    simp only [kept] at h
    split at h
    · assumption
    · cases h
  simp [figures, hturn, hext, hdos, hchoice, hfd, scalable]

theorem figures_menu {n : Nat} {p : Partition} (h : s.menu n p) :
    s.figures n p = ⟨⟨n, p.start, s.swapSize n p, 0x82, p.bootable, s.scalable n, s.swapSize n p⟩,
      s.swapSize n p, 0⟩ := by
  simp only [menu, Bool.and_eq_true, Bool.or_eq_true, decide_eq_true_eq] at h
  obtain ⟨hturn, hid⟩ := h
  have hask : ¬ (n ≤ 2 ∧ s.onBackup n = false) := by
    rintro ⟨hn, hb⟩
    simp only [hb, Bool.false_eq_true, or_false] at hturn
    omega
  have hswap : (if n = s.mdSwapIpart then 0x82 else p.id) = 0x82 := by
    split
    · rfl
    · exact hid.resolve_left ‹_›
  simp [figures, hask, hswap, swapSize, isExtended]

/-- A member of an array becomes a plain partition. -/
def plainId (id : Nat) : Nat := if id = 0xfd then 0x83 else id

theorem plainId_plain {id : Nat} (h0 : id ≠ 0) (hext : isExtended id = false) :
    plainId id ≠ 0 ∧ isExtended (plainId id) = false := by
  simp only [plainId]
  split
  · decide
  · exact ⟨h0, hext⟩

theorem plainId_ne_swap {id : Nat} (h : id ≠ 0x82) : plainId id ≠ 0x82 := by
  simp only [plainId]
  split
  · decide
  · exact h

/-- A partition that is neither changed by an answer nor a swap area of the menu. -/
structure Left (s : Setup) (n : Nat) (p : Partition) : Prop where
  zeroed : s.zeroed n p = false
  kept : s.kept n p = none
  menu : s.menu n p = false

theorem Left.figures_eq {n : Nat} {p : Partition} (h : s.Left n p) :
    s.figures n p =
      ⟨⟨n, p.start, p.size, plainId p.id, p.bootable, s.scalable n, s.usedKb n * 2⟩,
        if isExtended p.id ∨ s.scalable n ∨ p.id = 0 ∧ (2 < n ∨ s.onBackup n) then 0 else p.size,
        if isExtended p.id ∨ p.id = 0 ∨ s.scalable n = false then 0 else p.size⟩ := by
  obtain ⟨hzeroed, hkept, hmenu⟩ := h
  by_cases hturn : n ≤ 2 ∧ s.onBackup n = false
  · have hscal : s.scalable n = false := by simp [scalable, hturn]
    have hside : ¬ (2 < n ∨ s.onBackup n = true) := by
      rintro (hn | hb)
      · omega
      · simp [hturn.2] at hb
    cases hext : isExtended p.id with
    | true =>
      have hfd : p.id ≠ 0xfd := by
        intro hid
        simp [hid, isExtended] at hext
      simp [figures, hturn, hext, hfd, plainId, hscal]
    | false =>
      have hdos : s.dosPartition n = none := by
        cases hd : s.dosPartition n with
        | none => rfl
        | some q =>
          cases hc : s.firstPartChoice n <;>
            simp [Setup.zeroed, Setup.kept, asked, *] at hzeroed hkept
      simp only [figures, if_pos hturn, hext, hdos, plainId, hscal, hside, and_false, or_false]
      split_ifs <;> simp_all
  · have hside : (2 < n || s.onBackup n) = true := by
      simp only [Bool.or_eq_true, decide_eq_true_eq]
      by_contra hcon
      exact hturn ⟨by omega, by simpa using fun h => hcon (.inr h)⟩
    simp only [Setup.menu, hside, Bool.true_and, Bool.or_eq_false_iff, decide_eq_false_iff_not]
      at hmenu
    simp only [figures, if_neg hturn, if_neg hmenu.1, if_neg hmenu.2, plainId]
    split_ifs <;> simp_all

theorem Left.figures_row {n : Nat} {p : Partition} (h : s.Left n p) :
    (s.figures n p).row =
      ⟨n, p.start, p.size, plainId p.id, p.bootable, s.scalable n, s.usedKb n * 2⟩ := by
  rw [h.figures_eq]

theorem figures_cases (s : Setup) (n : Nat) (p : Partition) :
    s.zeroed n p ∨ (∃ q, s.kept n p = some q) ∨ s.menu n p ∨ s.Left n p := by
  by_cases hz : s.zeroed n p
  · exact .inl hz
  · cases hk : s.kept n p with
    | some q => exact .inr (.inl ⟨q, rfl⟩)
    | none =>
      by_cases hm : s.menu n p
      · exact .inr (.inr (.inl hm))
      · exact .inr (.inr (.inr ⟨by simpa using hz, hk, by simpa using hm⟩))

theorem figures_ipart (n : Nat) (p : Partition) : (s.figures n p).row.ipart = n := by
  obtain h | ⟨q, h⟩ | h | h := s.figures_cases n p
  · rw [figures_zeroed h]
  · rw [figures_kept h]
  · rw [figures_menu h]
  · rw [h.figures_row]

theorem mem_numbered {p : Partition} {n : Nat} :
    (p, n) ∈ s.numbered ↔ 1 ≤ n ∧ s.table.parts[n - 1]? = some p := by
  rw [numbered, List.mem_zipIdx_iff_le_and_getElem?_sub]

theorem exists_first (s : Setup) : ∃ p, (p, 1) ∈ s.numbered := by
  have hpos : 0 < s.table.parts.length := by
    have := s.table.four
    omega
  exact ⟨s.table.parts[0], mem_numbered.2 ⟨le_rfl, List.getElem?_eq_getElem hpos⟩⟩

theorem row_of_numbered {p : Partition} {n : Nat} (hp : (p, n) ∈ s.numbered) :
    s.rows[n - 1]? = some (s.figures n p).row := by
  obtain ⟨hn, hp⟩ := mem_numbered.1 hp
  rw [rows_getElem?, hp, Nat.sub_add_cancel hn]
  rfl

/-- Each line of the script comes from the partition of its number. -/
theorem script_getElem? {script : List Entry} (h : s.resizePartitionLayout = some script)
    {p : Partition} {n : Nat} (hp : (p, n) ∈ s.numbered) :
    script[n - 1]? = some (s.secondRound (s.cursor (n - 1)) (s.figures n p).row).1 := by
  obtain ⟨rfl, -⟩ := resize_eq_some_iff.1 h
  rw [emit_getElem?, row_of_numbered hp]
  rfl

/-- A line that is neither empty nor extended: the last one has no size. -/
theorem secondRound_size (c : Cursor) {r : Row} (hid : r.id ≠ 0) (hext : isExtended r.id = false) :
    (s.secondRound c r).1.size =
      if r.ipart ≠ s.lastPartNr then if r.id = 0x82 then .int r.size else s.partSize r
      else .empty := by
  simp only [secondRound, if_neg hid, hext, Bool.false_eq_true, if_false]

theorem secondRound_start (c : Cursor) {r : Row} (hid : r.id ≠ 0) :
    (s.secondRound c r).1.start =
      if r.ipart = 1 then .int r.start else if r.ipart ≤ 4 then c.nextSector else .empty := by
  simp only [secondRound, if_neg hid]
  split <;> rfl

theorem secondRound_empty (c : Cursor) {r : Row} (hid : r.id = 0) :
    (s.secondRound c r).1 = ⟨.int 0, .int 0, .id 0, r.bootable⟩ := by
  simp only [secondRound, if_pos hid]

theorem partSize_of_fixed {r : Row} (h : r.scalable = false) (hsize : r.size ≠ 0 ∨ r.ipart < 4) :
    s.partSize r = .int r.size := by
  have hne : ¬ (4 ≤ r.ipart ∧ Word.int (r.size : Int) = .int 0) := by
    rintro ⟨h4, hw⟩
    simp only [Word.int.injEq] at hw
    omega
  simp only [partSize, h, Bool.false_eq_true, if_false, if_neg hne]

end Setup

end Layout
