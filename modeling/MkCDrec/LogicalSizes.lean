import Mathlib.Algebra.BigOperators.Ring.Finset
import MkCDrec.Shares

/-!
# Logical partitions and the extended one

The size of the extended partition is the sum of the logical ones, scaled at once, and at
least the sum of their used sectors. The logical partitions are scaled one by one, one that
gets less than its used sectors is given `1.11` times as many, and an empty one a sector.
-/

namespace LogicalSizes

open ShellNumber Layout Shares

/-- The sectors that a line asks for; the last one has no size and needs what is used. -/
def asked (s : Setup) (r : Row) (e : Entry) : Word :=
  if r.ipart = s.lastPartNr ∧ e.size = .empty then .int r.used else e.size

/-- The logical partitions are together no larger than the extended one. -/
def Fits (s : Setup) (script : List Entry) : Prop :=
  ∀ p n, (p, n) ∈ s.numbered → isExtended p.id →
    ∃ (e : Entry) (size : Int) (sizes : List Nat), script[n - 1]? = some e ∧ e.size = .int size ∧
      List.zipWith (asked s) (s.rows.drop 4) (script.drop 4) =
        sizes.map (fun k : Nat => Word.int k) ∧
      (sizes.sum : Int) ≤ size

section Condition

variable (s : Setup)

/-- What the size of the extended partition has in it for a logical one. -/
def part (n : Nat) (p : Partition) : Nat :=
  if s.scalable n then share s (sizeOf s n p) else sizeOf s n p

/-- What is cut off from the scaled parts, and not from their sum. -/
def spare : Int :=
  (if fixedSectors s ≤ s.targetDiskSectorsSize then
      ((logicalScalable s * ratioDigits s / 10 ^ 20 : Nat) : Int)
    else -(logicalScalable s * ratioDigits s / 10 ^ 20 : Nat)) -
    (s.numbered.map fun q =>
      if 4 < q.2 then if s.scalable q.2 then share s (sizeOf s q.2 q.1) else 0 else 0 : List Nat).sum

end Condition

variable {s : Setup} {p : Partition} {n : Nat}

end LogicalSizes
