import MkCDrec.Lib.ShellText

/-!
# Names of disks

The disks that can be cloned, under their names below `/dev`, and the names of their
partitions. The names of disks on controllers end in a number, and the number of a
partition is set off by a `p`.
-/

namespace DeviceNames

open ShellText

abbrev Letter := { c : Char // c.isLower = true }

inductive Driver
  | cciss
  | ida
  | rd
deriving DecidableEq

def Driver.name : Driver → Text
  | cciss => "cciss".toList
  | ida => "ida".toList
  | rd => "rd".toList

inductive Disk
  | ide (unit : Letter)
  | scsi (unit : Letter) (units : List Letter)
  | md
  | controller (driver : Driver) (card disk : Nat)
  | ataraid (disk : Nat)
deriving DecidableEq

namespace Disk

def name : Disk → Text
  | ide unit => ['h', 'd', unit]
  | scsi unit units => 's' :: 'd' :: (unit :: units).map Subtype.val
  | md => ['m', 'd']
  | controller driver card disk => driver.name ++ '/' :: 'c' :: (numeral card ++ 'd' :: numeral disk)
  | ataraid disk => ['a', 't', 'a', 'r', 'a', 'i', 'd', '/', 'd'] ++ numeral disk

def sep : Disk → Text
  | ide _ => []
  | scsi _ _ => []
  | md => []
  | controller _ _ _ => ['p']
  | ataraid _ => ['p']

def partition (d : Disk) (n : Nat) : Text := d.name ++ (d.sep ++ numeral n)

/-- The number of a partition of the disk, as digits. -/
def number (d : Disk) (dev : Text) : Option Text :=
  if d.name ++ d.sep <+: dev then
    let n := dev.drop (d.name ++ d.sep).length
    if n ≠ [] ∧ n.all Char.isDigit = true then some n else none
  else none

variable {d : Disk} {c : Char} {n : Nat}

theorem d_mem_name (d : Disk) : 'd' ∈ d.name := by
  cases d with
  | ide unit => simp [name]
  | scsi unit units => simp [name]
  | md => simp [name]
  | controller driver card disk =>
    exact List.mem_append_right _ (List.mem_cons_of_mem _ (List.mem_cons_of_mem _
      (List.mem_append_right _ List.mem_cons_self)))
  | ataraid disk => exact List.mem_append_left _ (by decide)

theorem name_ne_nil (d : Disk) : d.name ≠ [] :=
  List.ne_nil_of_mem d.d_mem_name

theorem head_name (d : Disk) :
    ∃ c ∈ ['h', 's', 'm', 'c', 'i', 'r', 'a'], d.name.head? = some c := by
  cases d with
  | ide unit => exact ⟨'h', by decide, rfl⟩
  | scsi unit units => exact ⟨'s', by decide, rfl⟩
  | md => exact ⟨'m', by decide, rfl⟩
  | controller driver card disk =>
    cases driver with
    | cciss => exact ⟨'c', by decide, rfl⟩
    | ida => exact ⟨'i', by decide, rfl⟩
    | rd => exact ⟨'r', by decide, rfl⟩
  | ataraid disk => exact ⟨'a', by decide, rfl⟩

/-- Only the name of a meta device begins with an `m`. -/
theorem head_ne_m (h : d ≠ md) : d.name.head? ≠ some 'm' := by
  cases d with
  | ide unit => exact fun h => absurd (Option.some.inj h) (by decide)
  | scsi unit units => exact fun h => absurd (Option.some.inj h) (by decide)
  | md => exact absurd rfl h
  | controller driver card disk =>
    cases driver <;> exact fun h => absurd (Option.some.inj h) (by decide)
  | ataraid disk => exact fun h => absurd (Option.some.inj h) (by decide)

def nameChar (c : Char) : Bool := c.isLower || c.isDigit || c = '/'

theorem nameChar_of_mem_numeral (h : c ∈ numeral n) : nameChar c = true := by
  simp [nameChar, isDigit_of_mem_numeral h]

theorem nameChar_of_mem_name (h : c ∈ d.name) : nameChar c = true := by
  cases d with
  | ide unit =>
    simp only [name, List.mem_cons, List.not_mem_nil, or_false] at h
    rcases h with rfl | rfl | rfl
    · rfl
    · rfl
    · simp [nameChar, unit.2]
  | scsi unit units =>
    simp only [name, List.mem_cons, List.mem_map] at h
    rcases h with rfl | rfl | ⟨u, _, rfl⟩
    · rfl
    · rfl
    · simp [nameChar, u.2]
  | md =>
    have hall : md.name.all nameChar = true := by decide
    exact List.all_eq_true.mp hall c h
  | controller driver card disk =>
    have hdriver : driver.name.all nameChar = true := by cases driver <;> decide
    simp only [name, List.mem_append, List.mem_cons] at h
    rcases h with h | rfl | rfl | h | rfl | h
    · exact List.all_eq_true.mp hdriver c h
    · rfl
    · rfl
    · exact nameChar_of_mem_numeral h
    · rfl
    · exact nameChar_of_mem_numeral h
  | ataraid disk =>
    have hdriver : ['a', 't', 'a', 'r', 'a', 'i', 'd', '/', 'd'].all nameChar = true := by decide
    rw [name, List.mem_append] at h
    rcases h with h | h
    · exact List.all_eq_true.mp hdriver c h
    · exact nameChar_of_mem_numeral h

theorem mem_sep (h : c ∈ d.sep) : c = 'p' := by
  cases d <;> simp only [sep, List.not_mem_nil, List.mem_singleton] at h <;> exact h

theorem sep_cases (d : Disk) : d.sep = [] ∨ d.sep = ['p'] := by
  cases d with
  | ide unit => exact Or.inl rfl
  | scsi unit units => exact Or.inl rfl
  | md => exact Or.inl rfl
  | controller driver card disk => exact Or.inr rfl
  | ataraid disk => exact Or.inr rfl

/-- The first letter of a name tells whether the name ends in a number. -/
theorem sep_eq_ite (d : Disk) :
    d.sep = if d.name.head?.any ['c', 'i', 'r', 'a'].contains then ['p'] else [] := by
  cases d with
  | ide unit => rfl
  | scsi unit units => rfl
  | md => rfl
  | controller driver card disk => cases driver <;> rfl
  | ataraid disk => rfl

theorem sep_eq_of_head {d e : Disk} (h : d.name.head? = e.name.head?) : d.sep = e.sep := by
  rw [sep_eq_ite, sep_eq_ite, h]

theorem name_eq_of_append_sep {d e : Disk} (h : d.name ++ d.sep = e.name ++ e.sep) :
    d.name = e.name := by
  have hhead := congrArg List.head? h
  rw [List.head?_append_of_ne_nil _ d.name_ne_nil, List.head?_append_of_ne_nil _ e.name_ne_nil]
    at hhead
  rw [sep_eq_of_head hhead] at h
  exact List.append_cancel_right h

theorem slash_mem_name_iff (d : Disk) : '/' ∈ d.name ↔ d.sep = ['p'] := by
  have hletter : ∀ u : Letter, '/' ≠ u.1 := by
    rintro u h
    have hlower := u.2
    rw [← h] at hlower
    exact absurd hlower (by decide)
  cases d with
  | ide unit =>
    refine iff_of_false ?_ (by simp [sep])
    simp [name, hletter]
  | scsi unit units =>
    refine iff_of_false ?_ (by simp [sep])
    rw [name, List.mem_cons, List.mem_cons, List.mem_map]
    rintro (h | h | ⟨u, _, hu⟩)
    · exact absurd h (by decide)
    · exact absurd h (by decide)
    · exact hletter u hu.symm
  | md => exact iff_of_false (by decide) (by simp [sep])
  | controller driver card disk =>
    exact iff_of_true (List.mem_append_right _ List.mem_cons_self) rfl
  | ataraid disk => exact iff_of_true (List.mem_append_left _ (by decide)) rfl
theorem number_eq_some_iff {dev k : Text} :
    d.number dev = some k ↔
      dev = d.name ++ (d.sep ++ k) ∧ k ≠ [] ∧ ∀ c ∈ k, c.isDigit = true := by
  rw [number]
  constructor
  · intro h
    split at h
    · rename_i hpre
      obtain ⟨t, rfl⟩ := hpre
      simp only [List.drop_left] at h
      split at h
      · rename_i hn
        obtain rfl := Option.some.inj h
        exact ⟨List.append_assoc .., hn.1, List.all_eq_true.mp hn.2⟩
      · cases h
    · cases h
  · rintro ⟨rfl, hk⟩
    rw [← List.append_assoc, if_pos (List.prefix_append ..)]
    simp only [List.drop_left]
    rw [if_pos ⟨hk.1, List.all_eq_true.mpr hk.2⟩]

/-- The name stands at the beginning of the name of a partition and nowhere else. -/
theorem eq_nil_of_number {dev k u v : Text} (h : d.number dev = some k)
    (heq : dev = u ++ (d.name ++ v)) : u = [] := by
  obtain ⟨hdev, _, hdigits⟩ := number_eq_some_iff.mp h
  refine eq_nil_of_append (heq.symm.trans hdev) d.d_mem_name ?_
  intro hd
  rcases List.mem_append.mp hd with hd | hd
  · exact absurd (mem_sep hd) (by decide)
  · exact absurd (hdigits _ hd) (by decide)

end Disk

end DeviceNames
