import MkCDrec.Lib.Blocks
import MkCDrec.Lib.Digests
import MkCDrec.Mediacheck

/-!
# MD5

`md5.c` keeps four words, the number of bits so far in two words, and a block that is not yet
full. Words are read from the block and written to it as the machine has them: the
Makefile does not set `HIGHFIRST`, so that `byteReverse` is nothing.
-/

namespace MessageDigest

open ShellText Overwrite Blocks Digests Mediacheck

/-- The order of the bytes of a word, and the size of a pointer in words. -/
structure Host where
  bigEndian : Bool
  pointer : Nat

def Host.word (host : Host) (b₀ b₁ b₂ b₃ : UInt8) : UInt32 :=
  if host.bigEndian then
    b₀.toUInt32 <<< 24 ||| b₁.toUInt32 <<< 16 ||| b₂.toUInt32 <<< 8 ||| b₃.toUInt32
  else b₀.toUInt32 ||| b₁.toUInt32 <<< 8 ||| b₂.toUInt32 <<< 16 ||| b₃.toUInt32 <<< 24

def Host.bytes (host : Host) (w : UInt32) : Bytes :=
  if host.bigEndian then
    [(w >>> 24).toUInt8, (w >>> 16).toUInt8, (w >>> 8).toUInt8, w.toUInt8]
  else [w.toUInt8, (w >>> 8).toUInt8, (w >>> 16).toUInt8, (w >>> 24).toUInt8]

/-- `((uint32 *) block)[i]`. -/
def Host.wordAt (host : Host) (block : Bytes) (i : Nat) : UInt32 :=
  host.word (block.getD (4 * i) 0) (block.getD (4 * i + 1) 0) (block.getD (4 * i + 2) 0)
    (block.getD (4 * i + 3) 0)

theorem Host.length_bytes (host : Host) (w : UInt32) : (host.bytes w).length = 4 := by
  rw [Host.bytes]
  split <;> rfl

/-- The words of `buf`, and the registers they are loaded into. -/
inductive Reg
  | a | b | c | d
  deriving DecidableEq, Repr

structure Regs where
  a : UInt32
  b : UInt32
  c : UInt32
  d : UInt32

def Regs.get (r : Regs) : Reg → UInt32
  | .a => r.a
  | .b => r.b
  | .c => r.c
  | .d => r.d

def Regs.set (r : Regs) (v : UInt32) : Reg → Regs
  | .a => { r with a := v }
  | .b => { r with b := v }
  | .c => { r with c := v }
  | .d => { r with d := v }

def f1 (x y z : UInt32) : UInt32 := z ^^^ (x &&& (y ^^^ z))

def f2 (x y z : UInt32) : UInt32 := f1 z x y

def f3 (x y z : UInt32) : UInt32 := x ^^^ y ^^^ z

def f4 (x y z : UInt32) : UInt32 := y ^^^ (x ||| ~~~z)

/-- The arguments of an `MD5STEP`; `data` is the word of that number with a constant added. -/
structure Step where
  f : UInt32 → UInt32 → UInt32 → UInt32
  w : Reg
  x : Reg
  y : Reg
  z : Reg
  data : Nat
  const : UInt32
  s : UInt32

/-- `MD5STEP`. -/
def md5Step (word : Nat → UInt32) (r : Regs) (st : Step) : Regs :=
  let w := r.get st.w + (st.f (r.get st.x) (r.get st.y) (r.get st.z) + word st.data + st.const)
  let w := (w <<< st.s) ||| (w >>> (32 - st.s))
  r.set (w + r.get st.x) st.w

def md5Steps : List Step :=
  [⟨f1, .a, .b, .c, .d, 0, 0xd76aa478, 7⟩, ⟨f1, .d, .a, .b, .c, 1, 0xe8c7b756, 12⟩,
   ⟨f1, .c, .d, .a, .b, 2, 0x242070db, 17⟩, ⟨f1, .b, .c, .d, .a, 3, 0xc1bdceee, 22⟩,
   ⟨f1, .a, .b, .c, .d, 4, 0xf57c0faf, 7⟩, ⟨f1, .d, .a, .b, .c, 5, 0x4787c62a, 12⟩,
   ⟨f1, .c, .d, .a, .b, 6, 0xa8304613, 17⟩, ⟨f1, .b, .c, .d, .a, 7, 0xfd469501, 22⟩,
   ⟨f1, .a, .b, .c, .d, 8, 0x698098d8, 7⟩, ⟨f1, .d, .a, .b, .c, 9, 0x8b44f7af, 12⟩,
   ⟨f1, .c, .d, .a, .b, 10, 0xffff5bb1, 17⟩, ⟨f1, .b, .c, .d, .a, 11, 0x895cd7be, 22⟩,
   ⟨f1, .a, .b, .c, .d, 12, 0x6b901122, 7⟩, ⟨f1, .d, .a, .b, .c, 13, 0xfd987193, 12⟩,
   ⟨f1, .c, .d, .a, .b, 14, 0xa679438e, 17⟩, ⟨f1, .b, .c, .d, .a, 15, 0x49b40821, 22⟩,
   ⟨f2, .a, .b, .c, .d, 1, 0xf61e2562, 5⟩, ⟨f2, .d, .a, .b, .c, 6, 0xc040b340, 9⟩,
   ⟨f2, .c, .d, .a, .b, 11, 0x265e5a51, 14⟩, ⟨f2, .b, .c, .d, .a, 0, 0xe9b6c7aa, 20⟩,
   ⟨f2, .a, .b, .c, .d, 5, 0xd62f105d, 5⟩, ⟨f2, .d, .a, .b, .c, 10, 0x02441453, 9⟩,
   ⟨f2, .c, .d, .a, .b, 15, 0xd8a1e681, 14⟩, ⟨f2, .b, .c, .d, .a, 4, 0xe7d3fbc8, 20⟩,
   ⟨f2, .a, .b, .c, .d, 9, 0x21e1cde6, 5⟩, ⟨f2, .d, .a, .b, .c, 14, 0xc33707d6, 9⟩,
   ⟨f2, .c, .d, .a, .b, 3, 0xf4d50d87, 14⟩, ⟨f2, .b, .c, .d, .a, 8, 0x455a14ed, 20⟩,
   ⟨f2, .a, .b, .c, .d, 13, 0xa9e3e905, 5⟩, ⟨f2, .d, .a, .b, .c, 2, 0xfcefa3f8, 9⟩,
   ⟨f2, .c, .d, .a, .b, 7, 0x676f02d9, 14⟩, ⟨f2, .b, .c, .d, .a, 12, 0x8d2a4c8a, 20⟩,
   ⟨f3, .a, .b, .c, .d, 5, 0xfffa3942, 4⟩, ⟨f3, .d, .a, .b, .c, 8, 0x8771f681, 11⟩,
   ⟨f3, .c, .d, .a, .b, 11, 0x6d9d6122, 16⟩, ⟨f3, .b, .c, .d, .a, 14, 0xfde5380c, 23⟩,
   ⟨f3, .a, .b, .c, .d, 1, 0xa4beea44, 4⟩, ⟨f3, .d, .a, .b, .c, 4, 0x4bdecfa9, 11⟩,
   ⟨f3, .c, .d, .a, .b, 7, 0xf6bb4b60, 16⟩, ⟨f3, .b, .c, .d, .a, 10, 0xbebfbc70, 23⟩,
   ⟨f3, .a, .b, .c, .d, 13, 0x289b7ec6, 4⟩, ⟨f3, .d, .a, .b, .c, 0, 0xeaa127fa, 11⟩,
   ⟨f3, .c, .d, .a, .b, 3, 0xd4ef3085, 16⟩, ⟨f3, .b, .c, .d, .a, 6, 0x04881d05, 23⟩,
   ⟨f3, .a, .b, .c, .d, 9, 0xd9d4d039, 4⟩, ⟨f3, .d, .a, .b, .c, 12, 0xe6db99e5, 11⟩,
   ⟨f3, .c, .d, .a, .b, 15, 0x1fa27cf8, 16⟩, ⟨f3, .b, .c, .d, .a, 2, 0xc4ac5665, 23⟩,
   ⟨f4, .a, .b, .c, .d, 0, 0xf4292244, 6⟩, ⟨f4, .d, .a, .b, .c, 7, 0x432aff97, 10⟩,
   ⟨f4, .c, .d, .a, .b, 14, 0xab9423a7, 15⟩, ⟨f4, .b, .c, .d, .a, 5, 0xfc93a039, 21⟩,
   ⟨f4, .a, .b, .c, .d, 12, 0x655b59c3, 6⟩, ⟨f4, .d, .a, .b, .c, 3, 0x8f0ccc92, 10⟩,
   ⟨f4, .c, .d, .a, .b, 10, 0xffeff47d, 15⟩, ⟨f4, .b, .c, .d, .a, 1, 0x85845dd1, 21⟩,
   ⟨f4, .a, .b, .c, .d, 8, 0x6fa87e4f, 6⟩, ⟨f4, .d, .a, .b, .c, 15, 0xfe2ce6e0, 10⟩,
   ⟨f4, .c, .d, .a, .b, 6, 0xa3014314, 15⟩, ⟨f4, .b, .c, .d, .a, 13, 0x4e0811a1, 21⟩,
   ⟨f4, .a, .b, .c, .d, 4, 0xf7537e82, 6⟩, ⟨f4, .d, .a, .b, .c, 11, 0xbd3af235, 10⟩,
   ⟨f4, .c, .d, .a, .b, 2, 0x2ad7d2bb, 15⟩, ⟨f4, .b, .c, .d, .a, 9, 0xeb86d391, 21⟩]

/-- `MD5_Transform`. -/
def md5Transform (host : Host) (buf : Regs) (block : Bytes) : Regs :=
  let r := md5Steps.foldl (md5Step (host.wordAt block)) buf
  ⟨buf.a + r.a, buf.b + r.b, buf.c + r.c, buf.d + r.d⟩

/-- `struct MD5Context`. -/
structure Context where
  buf : Regs
  /-- `bits[0]` -/
  lo : UInt32
  /-- `bits[1]` -/
  hi : UInt32
  /-- `in` -/
  block : Bytes
  length_block : block.length = 64

namespace Context

/-- `memcpy` or `memset` inside the block. -/
def store (ctx : Context) (pos : Nat) (c : Bytes) (h : pos + c.length ≤ 64) : Context :=
  { ctx with
    block := overwrite pos c ctx.block
    length_block := by rw [length_overwrite (by rw [ctx.length_block]; exact h), ctx.length_block] }

def transform (host : Host) (ctx : Context) : Context :=
  { ctx with buf := md5Transform host ctx.buf ctx.block }

theorem transform_bits (host : Host) (ctx : Context) :
    (ctx.transform host).lo = ctx.lo ∧ (ctx.transform host).hi = ctx.hi := by
  rw [transform]
  exact ⟨rfl, rfl⟩

/-- Bytes already in the block. -/
def count (ctx : Context) : Nat := ((ctx.lo >>> 3) &&& 0x3f).toNat

theorem count_eq (ctx : Context) : ctx.count = ctx.lo.toNat / 8 % 64 := by
  have hmask : (0x3f : Nat) = 2 ^ 6 - 1 := rfl
  rw [count, UInt32.toNat_and, UInt32.toNat_shiftRight]
  change (ctx.lo.toNat >>> 3) &&& 63 = _
  rw [hmask, Nat.and_two_pow_sub_one_eq_mod, Nat.shiftRight_eq_div_pow]

theorem count_lt (ctx : Context) : ctx.count < 64 := by
  rw [count_eq]
  exact Nat.mod_lt _ (by decide)

/-- The bit count of `MD5_Update`, with the carry from low to high. -/
def addBits (ctx : Context) (len : UInt32) : Context :=
  let lo := ctx.lo + (len <<< 3)
  { ctx with lo, hi := (if lo < ctx.lo then ctx.hi + 1 else ctx.hi) + (len >>> 29) }

/-- The loop of `MD5_Update` over whole blocks, and the bytes that remain. -/
def blocks (host : Host) (ctx : Context) (buf : Bytes) : Context :=
  if h : 64 ≤ buf.length then
    blocks host ((ctx.store 0 (buf.take 64) (by rw [List.length_take]; omega)).transform host)
      (buf.drop 64)
  else ctx.store 0 buf (by omega)
termination_by buf.length
decreasing_by
  rw [List.length_drop]
  omega

end Context

/-- `MD5_Init` of a context that holds anything. -/
def md5Init (ctx : Context) : Context :=
  { ctx with
    buf := ⟨0x67452301, 0xefcdab89, 0x98badcfe, 0x10325476⟩
    lo := 0
    hi := 0 }

/-- `MD5_Update`; `len` is an `unsigned`. -/
def md5Update (host : Host) (ctx : Context) (buf : Bytes) : Context :=
  let t := ctx.count
  let counted := ctx.addBits buf.length.toUInt32
  if t = 0 then counted.blocks host buf
  else if h : buf.length < 64 - t then counted.store t buf (by omega)
  else
    ((counted.store t (buf.take (64 - t)) (by
      have := ctx.count_lt
      rw [List.length_take]
      omega)).transform host).blocks host (buf.drop (64 - t))

def digestOf (host : Host) (buf : Regs) : Digest := fun i =>
  (host.bytes buf.a ++ host.bytes buf.b ++ host.bytes buf.c ++ host.bytes buf.d).getD i 0

/-- `memset` of as many bytes as a pointer has. -/
def wipe (host : Host) (ctx : Context) : Context :=
  { ctx with
    buf := { ctx.buf with
      a := if 0 < host.pointer then 0 else ctx.buf.a
      b := if 1 < host.pointer then 0 else ctx.buf.b } }

theorem length_padding (n m : Nat) (h : n + m ≤ 64) :
    n + (List.replicate m (0 : UInt8)).length ≤ 64 := by
  rwa [List.length_replicate]

/-- `MD5_Final`. -/
def md5Final (host : Host) (ctx : Context) : Digest × Context :=
  let count := ctx.count
  let p := ctx.store count [0x80] ctx.count_lt
  let padded :=
    if h : 64 - 1 - count < 8 then
      ((p.store (count + 1) (List.replicate (64 - 1 - count) 0)
        (length_padding _ _ (by have := ctx.count_lt; omega))).transform host).store 0
        (List.replicate 56 0) (length_padding _ _ (by omega))
    else
      p.store (count + 1) (List.replicate (64 - 1 - count - 8) 0) (length_padding _ _ (by omega))
  let last := ((padded.store 56 (host.bytes ctx.lo) (by rw [host.length_bytes]; omega)).store 60
    (host.bytes ctx.hi) (by rw [host.length_bytes])).transform host
  (digestOf host last.buf, wipe host last)

section Steps

theorem f1_eq (x y z : UInt32) : f1 x y z = auxiliary 0 x y z := by
  apply UInt32.toBitVec_inj.mp
  simp only [f1, auxiliary, UInt32.toBitVec_xor, UInt32.toBitVec_and, UInt32.toBitVec_or,
    UInt32.toBitVec_not]
  ext i hi
  simp only [BitVec.getElem_xor, BitVec.getElem_and, BitVec.getElem_or, BitVec.getElem_not]
  cases x.toBitVec[i] <;> cases y.toBitVec[i] <;> cases z.toBitVec[i] <;> rfl

theorem f2_eq (x y z : UInt32) : f2 x y z = auxiliary 1 x y z := by
  rw [f2, f1_eq, auxiliary, auxiliary, UInt32.and_comm z x, UInt32.and_comm y]

theorem rotate_eq (w s : UInt32) (h : 0 < s.toNat ∧ s.toNat < 32) :
    (w <<< s) ||| (w >>> (32 - s)) = rotateLeft w s.toNat := by
  have hle : s ≤ 32 := UInt32.le_iff_toNat_le.mpr h.2.le
  have hsub : (32 - s).toNat = 32 - s.toNat := UInt32.toNat_sub_of_le _ _ hle
  have hl : (s.toBitVec % 32).toNat = s.toNat := Nat.mod_eq_of_lt h.2
  have hr : ((32 - s).toBitVec % 32).toNat = 32 - s.toNat := by
    change (32 - s).toNat % 32 = 32 - s.toNat
    rw [hsub]
    exact Nat.mod_eq_of_lt (by omega)
  apply UInt32.toBitVec_inj.mp
  rw [rotateLeft, UInt32.toBitVec_or, UInt32.toBitVec_shiftLeft, UInt32.toBitVec_shiftRight,
    BitVec.rotateLeft_def, Nat.mod_eq_of_lt h.2, BitVec.shiftLeft_eq', BitVec.ushiftRight_eq', hl,
    hr]

/-- The registers in the order in which step `i` names them. -/
def order (i : Nat) : Reg × Reg × Reg × Reg :=
  match i % 4 with
  | 0 => (.a, .b, .c, .d)
  | 1 => (.d, .a, .b, .c)
  | 2 => (.c, .d, .a, .b)
  | _ => (.b, .c, .d, .a)

def core : Nat → UInt32 → UInt32 → UInt32 → UInt32
  | 0 => f1
  | 1 => f2
  | 2 => f3
  | _ => f4

def constant (i : Nat) : UInt32 := (md5Steps.map Step.const).getD i 0

def stepAt (i : Nat) : Step :=
  ⟨core (i / 16), (order i).1, (order i).2.1, (order i).2.2.1, (order i).2.2.2, wordIndex i, constant i,
    UInt32.ofNat (amount i)⟩

set_option maxRecDepth 2000 in
theorem md5Steps_eq : md5Steps = (List.range 64).map stepAt := rfl

theorem constant_eq {i : Nat} (hi : i < 64) : constant i = sineConstant i := by
  have hall : ∀ i < 64, Sines.wholePart (i + 1) (constant i).toNat = true := by decide +kernel
  rw [sineConstant, Sines.floor_abs_sin hi (hall i hi), UInt32.ofNat_toNat]

theorem core_eq (n : Nat) (x y z : UInt32) : core n x y z = auxiliary n x y z := by
  rcases n with _ | _ | _ | n
  · exact f1_eq x y z
  · exact f2_eq x y z
  · rfl
  · rfl

theorem amount_lt {i : Nat} (hi : i < 64) :
    0 < (UInt32.ofNat (amount i)).toNat ∧ (UInt32.ofNat (amount i)).toNat < 32 ∧
      (UInt32.ofNat (amount i)).toNat = amount i := by
  have hall : ∀ i < 64, 0 < (UInt32.ofNat (amount i)).toNat ∧
      (UInt32.ofNat (amount i)).toNat < 32 ∧ (UInt32.ofNat (amount i)).toNat = amount i := by decide
  exact hall i hi

/-- The registers, as step `i` finds them. -/
def view (i : Nat) (r : Regs) : Words :=
  ⟨r.get (order i).1, r.get (order i).2.1, r.get (order i).2.2.1, r.get (order i).2.2.2⟩

theorem view_set (i : Nat) (r : Regs) (v : UInt32) :
    view (i + 1) (r.set v (order i).1) =
      ⟨r.get (order i).2.2.2, v, r.get (order i).2.1, r.get (order i).2.2.1⟩ := by
  have hmod := Nat.mod_lt i (show 4 > 0 by decide)
  rcases (by omega : i % 4 = 0 ∨ i % 4 = 1 ∨ i % 4 = 2 ∨ i % 4 = 3) with h | h | h | h
  · have hsucc : (i + 1) % 4 = 1 := by omega
    simp [view, order, h, hsucc, Regs.get, Regs.set]
  · have hsucc : (i + 1) % 4 = 2 := by omega
    simp [view, order, h, hsucc, Regs.get, Regs.set]
  · have hsucc : (i + 1) % 4 = 3 := by omega
    simp [view, order, h, hsucc, Regs.get, Regs.set]
  · have hsucc : (i + 1) % 4 = 0 := by omega
    simp [view, order, h, hsucc, Regs.get, Regs.set]

/-- One step of the code turns the registers where the algorithm turns the words. -/
theorem view_md5Step (word : Nat → UInt32) (r : Regs) {i : Nat} (hi : i < 64) :
    view (i + 1) (md5Step word r (stepAt i)) = roundStep word (view i r) i := by
  obtain ⟨hpos, hlt, hamount⟩ := amount_lt hi
  have hrot := rotate_eq (r.get (order i).1 + (core (i / 16) (r.get (order i).2.1) (r.get (order i).2.2.1)
    (r.get (order i).2.2.2) + word (wordIndex i) + constant i)) (UInt32.ofNat (amount i)) ⟨hpos, hlt⟩
  rw [hamount, core_eq, constant_eq hi] at hrot
  rw [md5Step, stepAt]
  dsimp only
  rw [core_eq, constant_eq hi, hrot, view_set, roundStep, view, UInt32.add_comm (r.get (order i).2.1)]
  simp only [UInt32.add_assoc]

theorem view_foldl (word : Nat → UInt32) (r : Regs) {n : Nat} (hn : n ≤ 64) :
    view n (((List.range n).map stepAt).foldl (md5Step word) r) =
      (List.range n).foldl (roundStep word) (view 0 r) := by
  induction n with
  | zero => rfl
  | succ n ih =>
    rw [List.range_succ, List.map_append, List.foldl_append, List.foldl_append, ← ih (by omega)]
    exact view_md5Step word _ (by omega)

end Steps

def Host.order (host : Host) : ByteOrder := ⟨host.word, host.bytes⟩

theorem view_md5Transform (host : Host) (buf : Regs) (block : Bytes) :
    view 0 (md5Transform host buf block) = compress host.order (view 0 buf) block := by
  have hrun := view_foldl (host.wordAt block) buf (Nat.le_refl 64)
  have hturn : ∀ r, view 64 r = view 0 r := fun _ => rfl
  rw [← md5Steps_eq, hturn] at hrun
  have hword : host.order.wordAt block = host.wordAt block := rfl
  rw [compress, hword, ← hrun, md5Transform]
  generalize md5Steps.foldl (md5Step (host.wordAt block)) buf = r
  rfl

theorem overwrite_overwrite_append {pos : Nat} {c c' l : Bytes}
    (h : pos + c.length + c'.length ≤ l.length) :
    overwrite (pos + c.length) c' (overwrite pos c l) = overwrite pos (c ++ c') l := by
  apply List.ext_getElem?
  intro i
  rw [getElem?_overwrite (by rw [length_overwrite (by omega)]; omega), getElem?_overwrite (by omega),
    getElem?_overwrite (by rw [List.length_append]; omega), List.getElem?_append,
    List.length_append]
  by_cases hlow : i < pos + c.length
  · rw [if_neg (by omega)]
    by_cases hin : pos ≤ i
    · rw [if_pos ⟨hin, hlow⟩, if_pos (by omega), if_pos (by omega)]
    · rw [if_neg (by omega), if_neg (by omega)]
  · by_cases hhigh : i < pos + c.length + c'.length
    · rw [if_pos (by omega), if_pos (by omega), if_neg (by omega), Nat.sub_sub]
    · rw [if_neg (by omega), if_neg (by omega), if_neg (by omega)]

/-- The words and the block of a context that was given the bytes `m`. -/
def Context.Holds (host : Host) (m : Bytes) (ctx : Context) : Prop :=
  Blocks.Holds 64 (compress host.order) Words.init m (view 0 ctx.buf) ctx.block

/-- The context after the bytes `m` were given to it. -/
structure Represents (host : Host) (m : Bytes) (ctx : Context) : Prop where
  holds : ctx.Holds host m
  lo : ctx.lo.toNat = 8 * m.length % 2 ^ 32
  hi : ctx.hi.toNat = 8 * m.length / 2 ^ 32 % 2 ^ 32

section Updates

variable {host : Host} {ctx : Context} {m c : Bytes} {pos : Nat}

theorem Context.Holds.store (h : ctx.Holds host m) (hpos : m.length % 64 = pos)
    (hc : pos + c.length < 64) : (ctx.store pos c hc.le).Holds host (m ++ c) :=
  Blocks.Holds.store (by decide) h hpos hc

theorem Context.Holds.fill (h : ctx.Holds host m) (hpos : m.length % 64 = pos)
    (hc : pos + c.length = 64) :
    ((ctx.store pos c hc.le).transform host).Holds host (m ++ c) := by
  have hfill := Blocks.Holds.fill (by decide) h hpos hc (ctx.store pos c hc.le).length_block
  rwa [← view_md5Transform] at hfill

theorem md5Init_represents (host : Host) (ctx : Context) : Represents host [] (md5Init ctx) where
  holds := Blocks.Holds.nil (by decide) ctx.length_block
  lo := rfl
  hi := rfl

theorem Represents.count_eq (h : Represents host m ctx) : ctx.count = m.length % 64 := by
  rw [Context.count_eq, h.lo]
  omega

/-- The carry is taken where the low word wraps around. -/
theorem addBits_eq {n : Nat} (hc : c.length < 2 ^ 32) (hlo : ctx.lo.toNat = 8 * n % 2 ^ 32)
    (hhi : ctx.hi.toNat = 8 * n / 2 ^ 32 % 2 ^ 32) :
    (ctx.addBits c.length.toUInt32).lo.toNat = 8 * (n + c.length) % 2 ^ 32 ∧
      (ctx.addBits c.length.toUInt32).hi.toNat = 8 * (n + c.length) / 2 ^ 32 % 2 ^ 32 := by
  have hlen : c.length.toUInt32.toNat = c.length := Nat.mod_eq_of_lt hc
  have hshift : (c.length.toUInt32 <<< 3).toNat = 8 * c.length % 2 ^ 32 := by
    rw [UInt32.toNat_shiftLeft, hlen]
    change c.length <<< 3 % 2 ^ 32 = _
    rw [Nat.shiftLeft_eq, Nat.mul_comm]
  have hhigh : (c.length.toUInt32 >>> 29).toNat = 8 * c.length / 2 ^ 32 := by
    rw [UInt32.toNat_shiftRight, hlen]
    change c.length >>> 29 = _
    rw [Nat.shiftRight_eq_div_pow]
    omega
  have hsum : (ctx.addBits c.length.toUInt32).lo.toNat = 8 * (n + c.length) % 2 ^ 32 := by
    change (ctx.lo + (c.length.toUInt32 <<< 3)).toNat = _
    rw [UInt32.toNat_add, hlo, hshift]
    omega
  refine ⟨hsum, ?_⟩
  change ((if ctx.lo + (c.length.toUInt32 <<< 3) < ctx.lo then ctx.hi + 1 else ctx.hi) +
    (c.length.toUInt32 >>> 29)).toNat = _
  have hcarry : ctx.lo + (c.length.toUInt32 <<< 3) < ctx.lo ↔
      8 * (n + c.length) % 2 ^ 32 < 8 * n % 2 ^ 32 := by
    rw [UInt32.lt_iff_toNat_lt, hlo]
    exact iff_of_eq (congrArg (· < 8 * n % 2 ^ 32) hsum)
  by_cases hwrap : 8 * (n + c.length) % 2 ^ 32 < 8 * n % 2 ^ 32
  · rw [if_pos (hcarry.mpr hwrap), UInt32.toNat_add, UInt32.toNat_add, hhi, hhigh]
    change ((8 * n / 2 ^ 32 % 2 ^ 32 + 1) % 2 ^ 32 + 8 * c.length / 2 ^ 32) % 2 ^ 32 = _
    omega
  · rw [if_neg (fun h => hwrap (hcarry.mp h)), UInt32.toNat_add, hhi, hhigh]
    omega

theorem Represents.addBits (h : Represents host m ctx) (hc : c.length < 2 ^ 32) :
    (ctx.addBits c.length.toUInt32).lo.toNat = 8 * (m ++ c).length % 2 ^ 32 ∧
      (ctx.addBits c.length.toUInt32).hi.toNat = 8 * (m ++ c).length / 2 ^ 32 % 2 ^ 32 := by
  rw [List.length_append]
  exact addBits_eq hc h.lo h.hi

/-- The loop takes in whole blocks when nothing waits. -/
theorem blocks_holds (h : ctx.Holds host m) (hm : m.length % 64 = 0) (c : Bytes) :
    (ctx.blocks host c).Holds host (m ++ c) ∧
      (ctx.blocks host c).lo = ctx.lo ∧ (ctx.blocks host c).hi = ctx.hi := by
  fun_induction Context.blocks host ctx c generalizing m with
  | case1 ctx c hle ih =>
    have hlen : (c.take 64).length = 64 := List.length_take_of_le hle
    have hwhole : (m ++ c.take 64).length % 64 = 0 := by
      rw [List.length_append, hlen]
      omega
    obtain ⟨hholds, hl, hh⟩ := ih (h.fill hm (by omega)) hwhole
    rw [List.append_assoc, List.take_append_drop] at hholds
    exact ⟨hholds, hl.trans (Context.transform_bits host _).1, hh.trans (Context.transform_bits host _).2⟩
  | case2 ctx c hlt => exact ⟨h.store hm (by omega), rfl, rfl⟩

/-- `MD5_Update` appends, wherever the last one stopped. -/
theorem md5Update_represents (h : Represents host m ctx) (hc : c.length < 2 ^ 32) :
    Represents host (m ++ c) (md5Update host ctx c) := by
  obtain ⟨hlo, hhi⟩ := h.addBits hc
  have hcount := h.count_eq
  have hcounted : (ctx.addBits c.length.toUInt32).Holds host m := h.holds
  rw [md5Update]
  by_cases hzero : ctx.count = 0
  · rw [if_pos hzero]
    obtain ⟨hholds, hl, hh⟩ := blocks_holds hcounted (by omega) c
    exact ⟨hholds, by rw [hl, hlo], by rw [hh, hhi]⟩
  · rw [if_neg hzero]
    by_cases hshort : c.length < 64 - ctx.count
    · rw [dif_pos hshort]
      exact ⟨hcounted.store hcount.symm (by omega), hlo, hhi⟩
    · rw [dif_neg hshort]
      have hlt := ctx.count_lt
      have hlen : (c.take (64 - ctx.count)).length = 64 - ctx.count :=
        List.length_take_of_le (by omega)
      have hwhole : (m ++ c.take (64 - ctx.count)).length % 64 = 0 := by
        rw [List.length_append, hlen]
        omega
      obtain ⟨hholds, hl, hh⟩ := blocks_holds (hcounted.fill hcount.symm (by omega)) hwhole
        (c.drop (64 - ctx.count))
      rw [List.append_assoc, List.take_append_drop] at hholds
      exact ⟨hholds, by rw [hl]; exact hlo, by rw [hh]; exact hhi⟩

theorem foldl_represents {chunks : List Bytes} (hchunks : ∀ c ∈ chunks, c.length < 2 ^ 32)
    (h : Represents host m ctx) :
    Represents host (m ++ chunks.flatten) (chunks.foldl (md5Update host) ctx) := by
  induction chunks generalizing m ctx with
  | nil => rwa [List.flatten_nil, List.append_nil]
  | cons c chunks ih =>
    rw [List.flatten_cons, ← List.append_assoc, List.foldl_cons]
    exact ih (fun c' hc' => hchunks c' (List.mem_cons_of_mem _ hc'))
      (md5Update_represents h (hchunks c List.mem_cons_self))

/-- The last block, when 56 bytes of it are there. -/
theorem lengthField_digest (h : Represents host m ctx) {ctx' : Context} {p : Bytes}
    (h' : ctx'.Holds host (m ++ p)) (hp : (m ++ p).length % 64 = 56) :
    (((ctx'.store 56 (host.bytes ctx.lo) (by rw [host.length_bytes]; omega)).store 60
      (host.bytes ctx.hi) (by rw [host.length_bytes])).transform host).Holds host
      (m ++ (p ++ lengthField host.order m.length)) := by
  have hlo : ctx.lo = UInt32.ofNat (8 * m.length) := by
    rw [← UInt32.toNat_inj, h.lo, UInt32.toNat_ofNat']
  have hhi : ctx.hi = UInt32.ofNat (8 * m.length / 2 ^ 32) := by
    rw [← UInt32.toNat_inj, h.hi, UInt32.toNat_ofNat']
  have hfield : lengthField host.order m.length = host.bytes ctx.lo ++ host.bytes ctx.hi := by
    rw [lengthField, ← hlo, ← hhi]
    rfl
  have hl := host.length_bytes ctx.lo
  have hh := host.length_bytes ctx.hi
  have hfirst := h'.store hp (c := host.bytes ctx.lo) (by omega)
  have hlen : (m ++ p ++ host.bytes ctx.lo).length % 64 = 60 := by
    rw [List.length_append, ← Nat.mod_add_mod, hp, hl]
  have hlast := hfirst.fill hlen (c := host.bytes ctx.hi) (by omega)
  rwa [List.append_assoc, List.append_assoc, ← hfield] at hlast

theorem digestOf_eq (host : Host) (buf : Regs) :
    List.ofFn (digestOf host buf) = (view 0 buf).digest host.order := by
  have hlen : (host.bytes buf.a ++ host.bytes buf.b ++ host.bytes buf.c ++
      host.bytes buf.d).length = 16 := by
    simp only [List.length_append, host.length_bytes]
  apply List.ext_getElem?
  intro i
  rw [List.getElem?_ofFn]
  split
  · rename_i hi
    have hget : i < (host.bytes buf.a ++ host.bytes buf.b ++ host.bytes buf.c ++
      host.bytes buf.d).length := by rw [hlen]; exact hi
    change some ((host.bytes buf.a ++ host.bytes buf.b ++ host.bytes buf.c ++
      host.bytes buf.d).getD i 0) = (host.bytes buf.a ++ host.bytes buf.b ++
      host.bytes buf.c ++ host.bytes buf.d)[i]?
    rw [List.getD_eq_getElem?_getD, List.getElem?_eq_getElem hget, Option.getD_some]
  · rename_i hi
    change none = (host.bytes buf.a ++ host.bytes buf.b ++ host.bytes buf.c ++
      host.bytes buf.d)[i]?
    rw [List.getElem?_eq_none (by omega)]

/-- The padding that begins a second block. -/
theorem Context.Holds.fill_two (h : ctx.Holds host m) (hpos : m.length % 64 = pos) {c' : Bytes}
    (hc : pos + c.length ≤ 64) (hc' : pos + c.length + c'.length = 64) :
    (((ctx.store pos c hc).store (pos + c.length) c' hc'.le).transform host).Holds host
      (m ++ (c ++ c')) := by
  have hroom : pos + c.length + c'.length ≤ ctx.block.length := by
    rw [ctx.length_block]
    omega
  have hboth : overwrite (pos + c.length) c' (overwrite pos c ctx.block) =
      overwrite pos (c ++ c') ctx.block := overwrite_overwrite_append hroom
  have hfill := Blocks.Holds.fill (by decide) h hpos (c := c ++ c')
    (by rw [List.length_append]; omega)
    ((ctx.store pos c hc).store (pos + c.length) c' hc'.le).length_block
  rw [← hboth, ← view_md5Transform] at hfill
  exact hfill

/-- The padding ends the block, or a second one. -/
theorem md5Final_digest (h : Represents host m ctx) :
    List.ofFn (md5Final host ctx).1 = md5 host.order m := by
  have hlt := ctx.count_lt
  have hcount := h.count_eq
  have hmd5 : ∀ {ctx' : Context}, ctx'.Holds host (m ++ padding host.order m.length) →
      (view 0 ctx'.buf).digest host.order = md5 host.order m := by
    intro ctx' h'
    rw [md5, h'.state]
  have hpadding : padding host.order m.length =
      [0x80] ++ List.replicate (zeros m.length) 0 ++ lengthField host.order m.length := rfl
  rw [md5Final]
  dsimp only
  rw [digestOf_eq]
  apply hmd5
  rw [hpadding]
  by_cases hroom : 64 - 1 - ctx.count < 8
  · have hzeros : zeros m.length = 64 - 1 - ctx.count + 56 := by
      rw [zeros]
      omega
    rw [dif_pos hroom, hzeros, List.replicate_add]
    have hzero : ctx.count + [(0x80 : UInt8)].length +
        (List.replicate (64 - 1 - ctx.count) (0 : UInt8)).length = 64 := by
      rw [List.length_replicate, List.length_singleton]
      omega
    have hfill := h.holds.fill_two hcount.symm (c := [0x80]) hlt hzero
    have hfull : (m ++ ([0x80] ++ List.replicate (64 - 1 - ctx.count) 0)).length % 64 = 0 := by
      rw [List.length_append, List.length_append, List.length_replicate, List.length_singleton]
      omega
    have hstore := hfill.store hfull (c := List.replicate 56 0)
      (by rw [List.length_replicate]; decide)
    rw [List.append_assoc, List.append_assoc [0x80]] at hstore
    exact lengthField_digest h hstore (by
      rw [← List.append_assoc [0x80], ← List.append_assoc, List.length_append, ← Nat.mod_add_mod,
        hfull, List.length_replicate])
  · have hzeros : zeros m.length = 64 - 1 - ctx.count - 8 := by
      rw [zeros]
      omega
    rw [dif_neg hroom, hzeros]
    have hone := h.holds.store hcount.symm (c := [0x80]) (by rw [List.length_singleton]; omega)
    have hnext : (m ++ [0x80]).length % 64 = ctx.count + 1 := by
      rw [List.length_append, List.length_singleton]
      omega
    have hstore := hone.store hnext (c := List.replicate (64 - 1 - ctx.count - 8) 0)
      (by rw [List.length_replicate]; omega)
    rw [List.append_assoc] at hstore
    exact lengthField_digest h hstore (by
      rw [← List.append_assoc, List.length_append, ← Nat.mod_add_mod, hnext,
        List.length_replicate]
      omega)

/-- However a stream is cut, and whatever the context held before, the digest is that of the
whole stream. -/
theorem md5_of_chunks (host : Host) (ctx : Context) (chunks : List Bytes)
    (hchunks : ∀ c ∈ chunks, c.length < 2 ^ 32) :
    List.ofFn (md5Final host (chunks.foldl (md5Update host) (md5Init ctx))).1 =
      md5 host.order chunks.flatten := by
  have h := foldl_represents hchunks (md5Init_represents host ctx)
  rw [List.nil_append] at h
  exact md5Final_digest h

/-- A context on the stack. -/
def stale : Context := ⟨⟨1, 2, 3, 4⟩, 5, 6, List.replicate 64 0x5a, List.length_replicate⟩

theorem md5_of_abc :
    List.ofFn (md5Final ⟨false, 2⟩
      ([ascii "a", ascii "bc"].foldl (md5Update ⟨false, 2⟩) (md5Init stale))).1 =
        md5 (Host.order ⟨false, 2⟩) (ascii "abc") ∧
      hex (md5Final ⟨false, 2⟩
        ([ascii "a", ascii "bc"].foldl (md5Update ⟨false, 2⟩) (md5Init stale))).1 =
        ascii "900150983cd24fb0d6963f7d28e17f72" :=
  ⟨md5_of_chunks ⟨false, 2⟩ stale [ascii "a", ascii "bc"] (by decide), by decide +kernel⟩

end Updates

section Linked

variable (host : Host) (old : Context)

/-- The parts that `implantisomd5` reads. -/
def implantReads (limit : Int) (img : Bytes) (pos total : Nat) : List Bytes :=
  if (total : Int) < limit then
    if _ : img.length ≤ pos then []
    else
      readAt img pos 2048 :: implantReads limit img (pos + (readAt img pos 2048).length)
        ((total + (readAt img pos 2048).length) % 2 ^ 32)
  else []
termination_by img.length - pos
decreasing_by
  rw [length_readAt]
  omega

/-- The parts that `checkmd5sum` reads, with the blanks that are put into them. -/
def checkReads (limit : Int) (apoff : Nat) (img : Bytes) (offset : Nat) : Option (List Bytes) :=
  if (offset : Int) < limit then
    let nattempt := (min (limit - offset) bufsize).toNat
    if _ : img.length ≤ offset then some []
    else
      match restoreAppdata apoff offset (readAt img offset nattempt) with
      | none => none
      | some buf =>
        (checkReads limit apoff img (offset + (readAt img offset nattempt).length)).map (buf :: ·)
  else some []
termination_by img.length - offset
decreasing_by
  rw [length_readAt, bufsize]
  omega

/-- `MD5_Init` of a context on the stack, an `MD5_Update` for each part, and `MD5_Final`. -/
def sumOf (reads : List Bytes) : Digest :=
  (md5Final host (reads.foldl (md5Update host) (md5Init old))).1

/-- `implantisomd5` with `md5.o`. -/
def implantisomd5 (forceit : Bool) (img : Bytes) : Option Bytes :=
  match parsepvd img with
  | none => none
  | some pvd =>
    let dirty := (readAt img (pvd.offset + appdataOffset) 512).any fun c => c ≠ blank
    if !forceit && dirty then none
    else
      let md5sum := sumOf host old (implantReads (limit pvd.isosize) img 0 0)
      some (overwrite (pvd.offset + appdataOffset) (newAppdata md5sum) img)

/-- `checkisomd5` with `md5.o`. -/
def checkmd5sum (img : Bytes) : Option Int :=
  match parsepvd img with
  | none => some (-1)
  | some pvd =>
    if pvd.mediasum.all fun c => c = blank then some (-1)
    else
      match checkReads (limit pvd.isosize) (pvd.offset + appdataOffset) img 0 with
      | none => none
      | some reads => if pvd.mediasum = hex (sumOf host old reads) then some 1 else some 0

end Linked

/-- MD5 of a stream, as the programs know it. -/
noncomputable def md5Of (host : Host) : Md5 :=
  .of fun m i => (md5 host.order m).getD i 0

section Programs

variable {host : Host} {old : Context} {h : Md5} {img : Bytes} {reads : List Bytes} {limit : Int}

theorem sumOf_eq (hreads : ∀ c ∈ reads, c.length < 2 ^ 32) :
    sumOf host old reads = (md5Of host).sum reads.flatten := by
  have hdigest := md5Final_digest (foldl_represents hreads (md5Init_represents host old))
  rw [List.nil_append] at hdigest
  rw [md5Of, Md5.sum_of, ← hdigest]
  funext i
  rw [List.getD_eq_getElem?_getD, List.getElem?_ofFn, dif_pos i.isLt, Option.getD_some]
  rfl

theorem foldl_update (h : Md5) (ctx : h.Ctx) (reads : List Bytes) :
    reads.foldl h.update ctx = h.update ctx reads.flatten := by
  induction reads generalizing ctx with
  | nil => rw [List.flatten_nil, h.update_nil]; rfl
  | cons c reads ih => rw [List.foldl_cons, ih, h.update_append, List.flatten_cons]

theorem implantLoop_eq_foldl (h : Md5) (limit : Int) (img : Bytes) (pos total : Nat) (ctx : h.Ctx) :
    implantLoop h limit img pos total ctx =
      (implantReads limit img pos total).foldl h.update ctx := by
  fun_induction implantLoop h limit img pos total ctx with
  | case1 pos total ctx hlt hend => rw [implantReads, if_pos hlt, dif_pos hend]; rfl
  | case2 pos total ctx hlt hend ih =>
    have hreads := implantReads.eq_1 limit img pos total
    rw [if_pos hlt, dif_neg hend] at hreads
    rw [ih, hreads, List.foldl_cons]
  | case3 pos total ctx hlt => rw [implantReads, if_neg hlt]; rfl

theorem length_of_mem_implantReads {c : Bytes} {pos total : Nat}
    (hc : c ∈ implantReads limit img pos total) : c.length < 2 ^ 32 := by
  fun_induction implantReads limit img pos total with
  | case1 pos total hlt hend => cases hc
  | case2 pos total hlt hend ih =>
    rcases List.mem_cons.mp hc with rfl | hc
    · rw [length_readAt]
      omega
    · exact ih hc
  | case3 pos total hlt => cases hc

theorem length_memset {start : Nat} {stop : Int} {buf buf' : Bytes}
    (hset : memset start stop buf = some buf') (hbuf : buf.length ≤ bufsize) :
    buf'.length ≤ bufsize := by
  rw [memset] at hset
  split at hset
  · cases hset
    simp only [overwrite, List.length_append, List.length_take, List.length_drop,
      List.length_replicate]
    omega
  · cases hset

theorem length_restoreAppdata {apoff offset : Nat} {buf buf' : Bytes}
    (hset : restoreAppdata apoff offset buf = some buf') (hbuf : buf.length ≤ bufsize) :
    buf'.length ≤ bufsize := by
  rw [restoreAppdata] at hset
  split at hset
  · exact length_memset hset hbuf
  · split at hset
    · exact length_memset hset hbuf
    · split at hset
      · exact length_memset hset hbuf
      · cases hset
        exact hbuf

theorem checkLoop_eq_map (h : Md5) (limit : Int) (apoff : Nat) (img : Bytes) (offset : Nat)
    (ctx : h.Ctx) :
    checkLoop h limit apoff img offset ctx =
      (checkReads limit apoff img offset).map fun reads => reads.foldl h.update ctx := by
  fun_induction checkLoop h limit apoff img offset ctx with
  | case1 offset ctx hlt hend =>
    rw [checkReads, if_pos hlt]
    dsimp only
    rw [dif_pos hend]
    rfl
  | case2 offset ctx hlt nattempt hend hnone =>
    rw [checkReads, if_pos hlt]
    dsimp only
    rw [dif_neg hend, hnone]
    rfl
  | case3 offset ctx hlt nattempt hend buf hsome ih =>
    have hreads := checkReads.eq_1 limit apoff img offset
    rw [if_pos hlt] at hreads
    dsimp only at hreads
    rw [dif_neg hend, hsome] at hreads
    rw [ih, hreads, Option.map_map]
    rfl
  | case4 offset ctx hlt => rw [checkReads, if_neg hlt]; rfl

theorem length_of_mem_checkReads {apoff offset : Nat}
    (hreads : checkReads limit apoff img offset = some reads) :
    ∀ c ∈ reads, c.length < 2 ^ 32 := by
  fun_induction checkReads limit apoff img offset generalizing reads with
  | case1 offset hlt hend => cases hreads; simp
  | case2 offset hlt hend hnone => cases hreads
  | case3 offset hlt nattempt hend buf hsome =>
    rename_i ih
    obtain ⟨rest, hrest, rfl⟩ := Option.map_eq_some_iff.mp hreads
    have hlen := length_restoreAppdata hsome (by
      have hb : nattempt ≤ bufsize := by omega
      rw [length_readAt]
      omega)
    intro c hc
    rcases List.mem_cons.mp hc with rfl | hc
    · exact Nat.lt_of_le_of_lt hlen (by decide)
    · exact ih hrest c hc
  | case4 offset hlt => cases hreads; simp

/-- Linked with `md5.o`, both programs do what they do with the MD5 sum of the stream they read. -/
theorem linked_eq (host : Host) (old : Context) (forceit : Bool) (img : Bytes) :
    implantisomd5 host old forceit img = Mediacheck.implantisomd5 (md5Of host) forceit img ∧
      checkmd5sum host old img = Mediacheck.checkmd5sum (md5Of host) img := by
  constructor
  · rw [implantisomd5, Mediacheck.implantisomd5]
    cases parsepvd img with
    | none => rfl
    | some pvd =>
      dsimp only
      rw [implantLoop_eq_foldl, foldl_update,
        sumOf_eq fun c hc => length_of_mem_implantReads hc]
      rfl
  · rw [checkmd5sum, Mediacheck.checkmd5sum]
    cases parsepvd img with
    | none => rfl
    | some pvd =>
      dsimp only
      rw [checkLoop_eq_map]
      cases hreads : checkReads (Mediacheck.limit pvd.isosize) (pvd.offset + appdataOffset) img 0 with
      | none => rfl
      | some reads =>
        rw [Option.map_some]
        dsimp only
        rw [sumOf_eq (length_of_mem_checkReads hreads), foldl_update]
        rfl

end Programs

end MessageDigest
