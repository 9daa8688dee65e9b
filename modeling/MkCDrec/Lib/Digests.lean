import MkCDrec.Lib.Blocks
import MkCDrec.Lib.Sines

/-!
# The MD5 algorithm

The message is padded to whole blocks of 64 bytes, and four words take them in one by one.
The constants of the 64 steps come from the sine. How words are laid out in bytes is a
parameter; MD5 proper has the low-order byte first.
-/

namespace Digests

open Blocks

structure ByteOrder where
  word : UInt8 → UInt8 → UInt8 → UInt8 → UInt32
  bytes : UInt32 → List UInt8

def ByteOrder.wordAt (order : ByteOrder) (block : List UInt8) (i : Nat) : UInt32 :=
  order.word (block.getD (4 * i) 0) (block.getD (4 * i + 1) 0) (block.getD (4 * i + 2) 0)
    (block.getD (4 * i + 3) 0)

structure Words where
  a : UInt32
  b : UInt32
  c : UInt32
  d : UInt32

def Words.init : Words := ⟨0x67452301, 0xefcdab89, 0x98badcfe, 0x10325476⟩

def rotateLeft (w : UInt32) (n : Nat) : UInt32 := ⟨w.toBitVec.rotateLeft n⟩

/-- The function of a round: a choice by the bits of `x`, one by those of `z`, the parity, and
the last one. -/
def auxiliary : Nat → UInt32 → UInt32 → UInt32 → UInt32
  | 0, x, y, z => (x &&& y) ||| (~~~x &&& z)
  | 1, x, y, z => (x &&& z) ||| (y &&& ~~~z)
  | 2, x, y, z => x ^^^ y ^^^ z
  | _, x, y, z => y ^^^ (x ||| ~~~z)

/-- The word of the block that step `i` adds. -/
def wordIndex (i : Nat) : Nat :=
  match i / 16 with
  | 0 => i % 16
  | 1 => (5 * i + 1) % 16
  | 2 => (3 * i + 5) % 16
  | _ => 7 * i % 16

def amount (i : Nat) : Nat :=
  match i / 16, i % 4 with
  | 0, 0 => 7 | 0, 1 => 12 | 0, 2 => 17 | 0, _ => 22
  | 1, 0 => 5 | 1, 1 => 9 | 1, 2 => 14 | 1, _ => 20
  | 2, 0 => 4 | 2, 1 => 11 | 2, 2 => 16 | 2, _ => 23
  | _, 0 => 6 | _, 1 => 10 | _, 2 => 15 | _, _ => 21

noncomputable section

def sineConstant (i : Nat) : UInt32 := UInt32.ofNat ⌊2 ^ 32 * |Real.sin (i + 1 : ℕ)|⌋₊

def roundStep (m : Nat → UInt32) (q : Words) (i : Nat) : Words :=
  ⟨q.d, q.b + rotateLeft (q.a + auxiliary (i / 16) q.b q.c q.d + m (wordIndex i) + sineConstant i)
    (amount i), q.b, q.c⟩

def compress (order : ByteOrder) (q : Words) (block : List UInt8) : Words :=
  let r := (List.range 64).foldl (roundStep (order.wordAt block)) q
  ⟨q.a + r.a, q.b + r.b, q.c + r.c, q.d + r.d⟩

/-- The number of bits, in two words. -/
def lengthField (order : ByteOrder) (n : Nat) : List UInt8 :=
  order.bytes (UInt32.ofNat (8 * n)) ++ order.bytes (UInt32.ofNat (8 * n / 2 ^ 32))

def zeros (n : Nat) : Nat := (119 - n % 64) % 64

def padding (order : ByteOrder) (n : Nat) : List UInt8 :=
  0x80 :: (List.replicate (zeros n) 0 ++ lengthField order n)

def Words.digest (order : ByteOrder) (q : Words) : List UInt8 :=
  order.bytes q.a ++ order.bytes q.b ++ order.bytes q.c ++ order.bytes q.d

def md5 (order : ByteOrder) (m : List UInt8) : List UInt8 :=
  (absorb 64 (compress order) Words.init (m ++ padding order m.length)).1.digest order

end

end Digests
