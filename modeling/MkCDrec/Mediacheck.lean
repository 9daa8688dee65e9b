import Mathlib.Algebra.Group.Int.Defs
import Mathlib.Algebra.Group.Nat.Defs
import Mathlib.Data.List.OfFn
import MkCDrec.Lib.Overwrite
import MkCDrec.Lib.ShellText

/-!
# The checksum in an image

`implantisomd5` writes an MD5 sum into the application data of the primary volume
descriptor, and `checkisomd5` computes the sum again with blanks in its place. MD5 is any
function of a stream, `read` returns what is asked for except at the end of the image, and
a file has any length. An `int` that overflows wraps around.
-/

namespace Mediacheck

open ShellText Overwrite

def blank : UInt8 := 32

abbrev Digest := Fin 16 → UInt8

/-- `MD5_Init`, `MD5_Update` and `MD5_Final`. -/
structure Md5 where
  Ctx : Type
  init : Ctx
  update : Ctx → Bytes → Ctx
  final : Ctx → Digest
  update_nil : ∀ ctx, update ctx [] = ctx
  update_append : ∀ ctx a b, update (update ctx a) b = update ctx (a ++ b)

def Md5.sum (h : Md5) (b : Bytes) : Digest := h.final (h.update h.init b)

/-- A function of the whole stream. -/
def Md5.of (f : Bytes → Digest) : Md5 where
  Ctx := Bytes
  init := []
  update := fun ctx b => ctx ++ b
  final := f
  update_nil := List.append_nil
  update_append := fun ctx a b => List.append_assoc ctx a b

theorem Md5.sum_of (f : Bytes → Digest) (b : Bytes) : (Md5.of f).sum b = f b :=
  congrArg f (List.nil_append b)

def hexDigit (n : Nat) : UInt8 := if n < 10 then (48 + n).toUInt8 else (87 + n).toUInt8

/-- `%02x` of all bytes. -/
def hex (d : Digest) : Bytes :=
  (List.ofFn d).flatMap fun b => [hexDigit (b.toNat / 16), hexDigit (b.toNat % 16)]

def ascii (s : String) : Bytes := s.toList.map fun c => c.toNat.toUInt8

/-- A string in an array, up to its end. -/
def cstring (b : Bytes) : Bytes := b.takeWhile fun c => c ≠ 0

def appdataOffset : Nat := 883

def sizeOffset : Nat := 84

def skipSectors : Nat := 150

/-- The loop of `parsepvd` over the descriptors. -/
def findPvd (img : Bytes) (offset : Nat) : Option Nat :=
  if h : offset < img.length then
    if img[offset] = 1 then some offset
    else if img[offset] = 255 then none
    else findPvd img (offset + 2048)
  else none
termination_by img.length - offset
decreasing_by omega

def byteAt (img : Bytes) (n : Nat) : Int := ((img.getD n 0).toNat : Int)

def isosize (img : Bytes) (offset : Nat) : Int :=
  Int.bmod (byteAt img (offset + sizeOffset) * 0x1000000 +
    byteAt img (offset + (sizeOffset + 1)) * 0x10000 +
    byteAt img (offset + (sizeOffset + 2)) * 0x100 + byteAt img (offset + (sizeOffset + 3)))
    (2 ^ 32) * 2048

structure Pvd where
  offset : Nat
  mediasum : Bytes
  isosize : Int

/-- `parsepvd`; the offset is returned as an `int`, and none is left if it is negative. -/
def parsepvd (img : Bytes) : Option Pvd :=
  match findPvd img (16 * 2048) with
  | none => none
  | some offset =>
    if Int.bmod offset (2 ^ 32) < 0 then none
    else
      some ⟨(Int.bmod offset (2 ^ 32)).toNat,
        cstring (readAt img (offset + appdataOffset + 13) 32), isosize img offset⟩

def limit (isosize : Int) : Int := isosize - (skipSectors * 2048 : Nat)

section Implant

variable (h : Md5)

/-- The loop of `implantisomd5`; `total` is an `unsigned int`. -/
def implantLoop (limit : Int) (img : Bytes) (pos total : Nat) (ctx : h.Ctx) : h.Ctx :=
  if (total : Int) < limit then
    if _ : img.length ≤ pos then ctx
    else
      implantLoop limit img (pos + (readAt img pos 2048).length)
        ((total + (readAt img pos 2048).length) % 2 ^ 32) (h.update ctx (readAt img pos 2048))
  else ctx
termination_by img.length - pos
decreasing_by
  rw [length_readAt]
  omega

/-- `new_appdata`. -/
def newAppdata (d : Digest) : Bytes :=
  overwrite 47 ((ascii "THIS IS NOT THE SAME AS RUNNING MD5SUM ON THIS ISO!!").take 51)
    (overwrite 13 (hex d ++ [0]) (overwrite 0 (ascii "ISO MD5SUM = ") (List.replicate 512 blank)))

/-- `implantisomd5`, which leaves the image alone unless it writes. -/
def implantisomd5 (forceit : Bool) (img : Bytes) : Option Bytes :=
  match parsepvd img with
  | none => none
  | some pvd =>
    let dirty := (readAt img (pvd.offset + appdataOffset) 512).any fun c => c ≠ blank
    if !forceit && dirty then none
    else
      let md5sum := h.final (implantLoop h (limit pvd.isosize) img 0 0 h.init)
      some (overwrite (pvd.offset + appdataOffset) (newAppdata md5sum) img)

end Implant

def bufsize : Nat := 32768

/-- `memset` of `buf` from one place to another, with the difference of the two as an
`unsigned int`; none if it goes beyond the buffer. -/
def memset (start : Nat) (stop : Int) (buf : Bytes) : Option Bytes :=
  let len := ((stop - start) % 2 ^ 32).toNat
  if start + len ≤ bufsize then some (overwrite start (List.replicate len blank) buf) else none

/-- The blanks that are put over the implanted sum. -/
def restoreAppdata (apoff offset : Nat) (buf : Bytes) : Option Bytes :=
  let nread := buf.length
  if offset < apoff ∧ apoff ≤ offset + nread then
    let start := apoff - offset
    memset start (min (start + min nread 512) (offset + nread - apoff) : Nat) buf
  else if apoff ≤ offset ∧ offset + nread < apoff + 512 then memset 0 nread buf
  else if offset < apoff + 512 ∧ apoff + 512 ≤ offset + nread then
    memset 0 (apoff + 512 - offset : Nat) buf
  else some buf

section Check

variable (h : Md5)

/-- The loop of `checkmd5sum`. -/
def checkLoop (limit : Int) (apoff : Nat) (img : Bytes) (offset : Nat) (ctx : h.Ctx) :
    Option h.Ctx :=
  if (offset : Int) < limit then
    let nattempt := (min (limit - offset) bufsize).toNat
    if _ : img.length ≤ offset then some ctx
    else
      match restoreAppdata apoff offset (readAt img offset nattempt) with
      | none => none
      | some buf =>
        checkLoop limit apoff img (offset + (readAt img offset nattempt).length) (h.update ctx buf)
  else some ctx
termination_by img.length - offset
decreasing_by
  rw [length_readAt, bufsize]
  omega

/-- `checkmd5sum`: -1 without a sum, 0 if it differs, 1 if it matches. -/
def checkmd5sum (img : Bytes) : Option Int :=
  match parsepvd img with
  | none => some (-1)
  | some pvd =>
    if pvd.mediasum.all fun c => c = blank then some (-1)
    else
      match checkLoop h (limit pvd.isosize) (pvd.offset + appdataOffset) img 0 h.init with
      | none => none
      | some ctx => if pvd.mediasum = hex (h.final ctx) then some 1 else some 0

end Check

/-- An image with blank application data. -/
structure Iso where
  bytes : Bytes
  pvd : Nat
  found : findPvd bytes (16 * 2048) = some pvd
  appdata : readAt bytes (pvd + appdataOffset) 512 = List.replicate 512 blank

namespace Iso

variable (iso : Iso)

/-- The image with a sum that is implanted, and implanted again `n` times. -/
def implanted (h : Md5) : Nat → Option Bytes
  | 0 => implantisomd5 h false iso.bytes
  | n + 1 => (implanted h n).bind (implantisomd5 h true)

/-- The sums match, whatever the sum of a stream is. -/
def Verifies (n : Nat) : Prop := ∀ h, (iso.implanted h n).bind (checkmd5sum h) = some 1

/-- The end of what the checker reads. -/
def stop : Int := limit (isosize iso.bytes iso.pvd)

/-- Where the part begins in which the checker reads the descriptor. -/
def chunk : Nat := iso.pvd / bufsize * bufsize

def chunkLength : Nat :=
  (readAt iso.bytes iso.chunk (min (iso.stop - iso.chunk) bufsize).toNat).length

/-- The application data lie outside of the sum. -/
structure Outside : Prop where
  offset : iso.pvd < 2 ^ 31
  stop : iso.stop ≤ iso.pvd

/-- The sum is taken over one stream, and the checker finds room for enough blanks. -/
structure Inside : Prop where
  offset : iso.pvd < 2 ^ 31
  stop : iso.stop < 2 ^ 32 ∨ (iso.bytes.length : Int) ≤ iso.stop
  room : 2 * (iso.pvd + appdataOffset - iso.chunk) + 98 ≤ iso.chunkLength

end Iso

section Descriptors

variable {img img' : Bytes} {offset pvd : Nat}

theorem findPvd_congr (hlen : img'.length = img.length) (h : ∀ i, 2048 ∣ i → img'[i]? = img[i]?)
    (hoffset : 2048 ∣ offset) : findPvd img' offset = findPvd img offset := by
  fun_induction findPvd img offset with
  | case1 offset hlt htype =>
    have hbyte := h offset hoffset
    rw [List.getElem?_eq_getElem hlt, List.getElem?_eq_getElem (by omega),
      Option.some.injEq] at hbyte
    rw [findPvd, dif_pos (by omega), if_pos (hbyte.trans htype)]
  | case2 offset hlt htype hend =>
    have hbyte := h offset hoffset
    rw [List.getElem?_eq_getElem hlt, List.getElem?_eq_getElem (by omega),
      Option.some.injEq] at hbyte
    rw [findPvd, dif_pos (by omega), hbyte, if_neg htype, if_pos hend]
  | case3 offset hlt htype hend ih =>
    have hbyte := h offset hoffset
    rw [List.getElem?_eq_getElem hlt, List.getElem?_eq_getElem (by omega),
      Option.some.injEq] at hbyte
    rw [findPvd, dif_pos (by omega), hbyte, if_neg htype, if_neg hend]
    exact ih (Nat.dvd_add hoffset (Nat.dvd_refl 2048))
  | case4 offset hlt => rw [findPvd, dif_neg (by omega)]

theorem dvd_of_findPvd (h : findPvd img offset = some pvd) (hoffset : 2048 ∣ offset) :
    2048 ∣ pvd := by
  fun_induction findPvd img offset with
  | case1 offset hlt htype => exact Option.some.inj h ▸ hoffset
  | case2 offset hlt htype hend => cases h
  | case3 offset hlt htype hend ih => exact ih h (Nat.dvd_add hoffset (Nat.dvd_refl 2048))
  | case4 offset hlt => cases h

/-- The bytes that tell where the descriptor is, and how long the image. -/
theorem isosize_congr (h : ∀ i < appdataOffset, img'[offset + i]? = img[offset + i]?) :
    isosize img' offset = isosize img offset := by
  have hbyte : ∀ i < appdataOffset, byteAt img' (offset + i) = byteAt img (offset + i) := by
    intro i hi
    rw [byteAt, byteAt, List.getD_eq_getElem?_getD, List.getD_eq_getElem?_getD, h i hi]
  rw [isosize, isosize, hbyte _ (by decide), hbyte _ (by decide), hbyte _ (by decide),
    hbyte _ (by decide)]

end Descriptors

section Digests

variable {d : Digest}

theorem hexDigit_ne (n : Nat) (hn : n < 16) : hexDigit n ≠ 0 ∧ hexDigit n ≠ blank := by
  have hall : ∀ n : Fin 16, hexDigit n ≠ 0 ∧ hexDigit n ≠ blank := by decide
  exact hall ⟨n, hn⟩

theorem ne_of_mem_hex {c : UInt8} (h : c ∈ hex d) : c ≠ 0 ∧ c ≠ blank := by
  obtain ⟨b, _, hc⟩ := List.mem_flatMap.mp h
  have hb := UInt8.toNat_lt b
  simp only [List.mem_cons, List.not_mem_nil, or_false] at hc
  rcases hc with rfl | rfl
  · exact hexDigit_ne _ (by omega)
  · exact hexDigit_ne _ (Nat.mod_lt _ (by decide))

theorem length_hex (d : Digest) : (hex d).length = 32 := by
  simp [hex]

theorem cstring_hex (d : Digest) : cstring (hex d) = hex d :=
  List.takeWhile_eq_self_iff.mpr fun c hc => by simpa using (ne_of_mem_hex hc).1

theorem length_texts :
    (ascii "ISO MD5SUM = ").length = 13 ∧
      ((ascii "THIS IS NOT THE SAME AS RUNNING MD5SUM ON THIS ISO!!").take 51).length = 51 := by
  decide

theorem length_layers (d : Digest) :
    (overwrite 0 (ascii "ISO MD5SUM = ") (List.replicate 512 blank)).length = 512 ∧
      (overwrite 13 (hex d ++ [0])
        (overwrite 0 (ascii "ISO MD5SUM = ") (List.replicate 512 blank))).length = 512 ∧
      (newAppdata d).length = 512 := by
  obtain ⟨hiso, hnot⟩ := length_texts
  have hsum : (hex d ++ [0]).length = 33 := by rw [List.length_append, length_hex]; rfl
  have hbase : (List.replicate 512 blank).length = 512 := List.length_replicate
  have hfirst : (overwrite 0 (ascii "ISO MD5SUM = ") (List.replicate 512 blank)).length = 512 := by
    rw [length_overwrite (by omega), hbase]
  have hsecond : (overwrite 13 (hex d ++ [0])
      (overwrite 0 (ascii "ISO MD5SUM = ") (List.replicate 512 blank))).length = 512 := by
    rw [length_overwrite (by omega), hfirst]
  refine ⟨hfirst, hsecond, ?_⟩
  rw [newAppdata, length_overwrite (by omega), hsecond]

theorem length_newAppdata (d : Digest) : (newAppdata d).length = 512 := (length_layers d).2.2

/-- What stands where in the new application data. -/
theorem getElem?_newAppdata (d : Digest) (i : Nat) :
    (newAppdata d)[i]? =
      if 47 ≤ i ∧ i < 98 then
        ((ascii "THIS IS NOT THE SAME AS RUNNING MD5SUM ON THIS ISO!!").take 51)[i - 47]?
      else if 13 ≤ i ∧ i < 46 then (hex d ++ [0])[i - 13]?
      else if i < 13 then (ascii "ISO MD5SUM = ")[i]?
      else (List.replicate 512 blank)[i]? := by
  obtain ⟨hiso, hnot⟩ := length_texts
  obtain ⟨hfirst, hsecond, _⟩ := length_layers d
  have hsum : (hex d ++ [0]).length = 33 := by rw [List.length_append, length_hex]; rfl
  have hbase : (List.replicate 512 blank).length = 512 := List.length_replicate
  rw [newAppdata, getElem?_overwrite (by omega), getElem?_overwrite (by omega),
    getElem?_overwrite (by omega), hiso, hnot, hsum]
  simp only [Nat.zero_add, Nat.sub_zero, Nat.zero_le, true_and]

theorem readAt_newAppdata (d : Digest) : readAt (newAppdata d) 13 32 = hex d := by
  apply List.ext_getElem?
  intro i
  rw [getElem?_readAt, getElem?_newAppdata]
  by_cases hi : i < 32
  · rw [if_pos hi, if_neg (by omega), if_pos (by omega), Nat.add_sub_cancel_left,
      List.getElem?_append_left (by rw [length_hex]; exact hi)]
  · rw [if_neg hi, List.getElem?_eq_none (by rw [length_hex]; omega)]

/-- The first and the last letter. -/
theorem letters_newAppdata (d : Digest) :
    (newAppdata d)[0]? = some 73 ∧ (newAppdata d)[97]? = some 33 := by
  constructor
  · rw [getElem?_newAppdata, if_neg (by omega), if_neg (by omega), if_pos (by omega)]
    decide
  · rw [getElem?_newAppdata, if_pos (by omega)]
    decide

theorem getElem?_newAppdata_of_le (d : Digest) {i : Nat} (hi : 98 ≤ i) :
    (newAppdata d)[i]? = (List.replicate 512 blank)[i]? := by
  rw [getElem?_newAppdata, if_neg (by omega), if_neg (by omega), if_neg (by omega)]

end Digests

namespace Iso

variable (iso : Iso)

/-- The image with other application data. -/
def withAppdata (data : Bytes) : Bytes := overwrite (iso.pvd + appdataOffset) data iso.bytes

/-- What the loop of `implantisomd5` reads. -/
def stream (data : Bytes) : Bytes :=
  if iso.stop < 2 ^ 32 then (iso.withAppdata data).take iso.stop.toNat else iso.withAppdata data

theorem length_le : iso.pvd + appdataOffset + 512 ≤ iso.bytes.length := by
  have hlen := congrArg List.length iso.appdata
  rw [length_readAt, List.length_replicate] at hlen
  omega

theorem dvd_pvd : 2048 ∣ iso.pvd := dvd_of_findPvd iso.found (by decide)

variable {iso} {data : Bytes}

theorem withAppdata_blank : iso.withAppdata (List.replicate 512 blank) = iso.bytes := by
  rw [withAppdata, ← iso.appdata]
  exact overwrite_readAt iso.length_le

theorem length_withAppdata (hdata : data.length = 512) :
    (iso.withAppdata data).length = iso.bytes.length := by
  have hle := iso.length_le
  exact length_overwrite (by omega)

theorem getElem?_withAppdata (hdata : data.length = 512) (i : Nat) :
    (iso.withAppdata data)[i]? =
      if iso.pvd + appdataOffset ≤ i ∧ i < iso.pvd + appdataOffset + 512 then
        data[i - (iso.pvd + appdataOffset)]?
      else iso.bytes[i]? := by
  have hle := iso.length_le
  rw [withAppdata, getElem?_overwrite (by omega), hdata]

theorem findPvd_withAppdata (hdata : data.length = 512) :
    findPvd (iso.withAppdata data) (16 * 2048) = some iso.pvd := by
  have hpvd := iso.dvd_pvd
  rw [findPvd_congr (length_withAppdata hdata) ?_ (by decide), iso.found]
  intro i hi
  rw [getElem?_withAppdata hdata, if_neg]
  simp only [appdataOffset]
  omega

theorem isosize_withAppdata (hdata : data.length = 512) :
    isosize (iso.withAppdata data) iso.pvd = isosize iso.bytes iso.pvd := by
  refine isosize_congr fun i hi => ?_
  rw [getElem?_withAppdata hdata, if_neg (by omega)]

theorem readAt_withAppdata (hdata : data.length = 512) {n k : Nat} (h : n + k ≤ 512) :
    readAt (iso.withAppdata data) (iso.pvd + appdataOffset + n) k = readAt data n k := by
  apply List.ext_getElem?
  intro i
  rw [getElem?_readAt, getElem?_readAt, getElem?_withAppdata hdata]
  by_cases hi : i < k
  · rw [if_pos hi, if_pos hi, if_pos (by omega), Nat.add_assoc, Nat.add_sub_cancel_left]
  · rw [if_neg hi, if_neg hi]

theorem parsepvd_withAppdata (hdata : data.length = 512) (hpvd : iso.pvd < 2 ^ 31) :
    parsepvd (iso.withAppdata data) =
      some ⟨iso.pvd, cstring (readAt data 13 32), isosize iso.bytes iso.pvd⟩ := by
  have hint : Int.bmod iso.pvd (2 ^ 32) = iso.pvd := by
    rw [Int.bmod_def, Int.emod_eq_of_lt (by omega) (by omega), if_pos (by omega)]
  rw [parsepvd, findPvd_withAppdata hdata]
  dsimp only
  rw [hint, if_neg (by omega), Int.toNat_natCast, readAt_withAppdata hdata (by omega),
    isosize_withAppdata hdata]

end Iso

section Loops

variable {h : Md5} {limit : Int} {img : Bytes} {pos total : Nat} {ctx : h.Ctx}

/-- Below 4 GiB the sum is taken up to the limit. -/
theorem implantLoop_eq_take (hlimit : limit < 2 ^ 32) (hdvd : 2048 ∣ limit) (htotal : total = pos)
    (hpos : 2048 ∣ pos ∨ img.length ≤ pos) :
    implantLoop h limit img pos total ctx =
      h.update ctx ((img.take limit.toNat).drop pos) := by
  have hnil : ∀ {pos}, img.length ≤ pos → (img.take limit.toNat).drop pos = [] := fun hend =>
    List.drop_eq_nil_of_le ((List.length_take_le' _ _).trans hend)
  fun_induction implantLoop h limit img pos total ctx with
  | case1 pos total ctx hlt hend => rw [hnil hend, h.update_nil]
  | case2 pos total ctx hlt hend ih =>
    have hdvdpos := hpos.resolve_right hend
    have hle : pos + 2048 ≤ limit.toNat := by omega
    have hlen := length_readAt img pos 2048
    rw [ih (by omega) (by omega), h.update_append, ← drop_take_eq_append hle]
  | case3 pos total ctx hlt =>
    have hstop : (img.take limit.toNat).drop pos = [] :=
      List.drop_eq_nil_of_le ((List.length_take_le _ _).trans (by omega))
    rw [hstop, h.update_nil]

/-- From 4 GiB on the sum is that of the whole image. -/
theorem implantLoop_eq_drop (hlimit : 2 ^ 32 ≤ limit) (htotal : total < 2 ^ 32) :
    implantLoop h limit img pos total ctx = h.update ctx (img.drop pos) := by
  fun_induction implantLoop h limit img pos total ctx with
  | case1 pos total ctx hlt hend => rw [List.drop_eq_nil_of_le hend, h.update_nil]
  | case2 pos total ctx hlt hend ih =>
    rw [ih (Nat.mod_lt _ (by decide)), h.update_append, ← drop_eq_append]
  | case3 pos total ctx hlt => omega

/-- Chunks that come out as those of another image. -/
theorem checkLoop_eq_some {apoff offset : Nat} {img' : Bytes} (hlen : img'.length = img.length)
    (hchunk : ∀ offset : Nat, 32768 ∣ offset → (offset : Int) < limit → offset < img.length →
      restoreAppdata apoff offset (readAt img offset (min (limit - offset) bufsize).toNat) =
        some (readAt img' offset (min (limit - offset) bufsize).toNat))
    (hoffset : 32768 ∣ offset ∨ limit ≤ offset ∨ img.length ≤ offset) :
    checkLoop h limit apoff img offset ctx =
      some (h.update ctx ((img'.take limit.toNat).drop offset)) := by
  fun_induction checkLoop h limit apoff img offset ctx with
  | case1 offset ctx hlt hend =>
    have hnil : (img'.take limit.toNat).drop offset = [] :=
      List.drop_eq_nil_of_le ((List.length_take_le' _ _).trans (by omega))
    rw [hnil, h.update_nil]
  | case2 offset ctx hlt n hend hnone =>
    rw [hchunk offset (by omega) hlt (by omega)] at hnone
    cases hnone
  | case3 offset ctx hlt n hend buf hbuf ih =>
    rw [hchunk offset (by omega) hlt (by omega)] at hbuf
    obtain rfl := Option.some.inj hbuf
    have hread := length_readAt img offset n
    have hread' := length_readAt img' offset n
    have hn : n = (min (limit - offset) bufsize).toNat := rfl
    have hsize : bufsize = 32768 := rfl
    have hle : offset + n ≤ limit.toNat := by omega
    rw [ih (by omega), h.update_append]
    rw [drop_take_eq_append hle, hread, hread', hlen]
  | case4 offset ctx hlt =>
    have hnil : (img'.take limit.toNat).drop offset = [] :=
      List.drop_eq_nil_of_le ((List.length_take_le _ _).trans (by omega))
    rw [hnil, h.update_nil]

/-- A chunk with which `memset` leaves the buffer. -/
theorem checkLoop_eq_none {apoff offset chunk : Nat} (hchunk : 32768 ∣ chunk)
    (hlimit : (chunk : Int) < limit) (hlen : chunk < img.length)
    (hnone :
      restoreAppdata apoff chunk (readAt img chunk (min (limit - chunk) bufsize).toNat) = none)
    (hoffset : 32768 ∣ offset) (hle : offset ≤ chunk) :
    checkLoop h limit apoff img offset ctx = none := by
  fun_induction checkLoop h limit apoff img offset ctx with
  | case1 offset ctx hlt hend => omega
  | case2 offset ctx hlt n hend hnone => rfl
  | case3 offset ctx hlt n hend buf hbuf ih =>
    have hne : offset ≠ chunk := by
      rintro rfl
      rw [hnone] at hbuf
      cases hbuf
    have hn : n = (min (limit - offset) bufsize).toNat := rfl
    have hsize : bufsize = 32768 := rfl
    have hread := length_readAt img offset n
    exact ih (by omega) (by omega)
  | case4 offset ctx hlt => omega

end Loops

section Blanks

variable {apoff offset : Nat} {buf : Bytes}

theorem restoreAppdata_of_disjoint (h : offset + buf.length < apoff ∨ apoff + 512 ≤ offset) :
    restoreAppdata apoff offset buf = some buf := by
  simp only [restoreAppdata]
  rw [if_neg (by omega), if_neg (by omega), if_neg (by omega)]

/-- The end of the blanks is counted from the wrong side: as many bytes as stand before
them in the buffer are left out. -/
theorem restoreAppdata_of_lt (hlt : offset < apoff) (hle : apoff ≤ offset + buf.length)
    (hsize : buf.length ≤ bufsize) :
    restoreAppdata apoff offset buf =
      if 2 * (apoff - offset) ≤ buf.length then
        some (overwrite (apoff - offset)
          (List.replicate (min 512 (buf.length - 2 * (apoff - offset))) blank) buf)
      else none := by
  have hbuf : bufsize = 32768 := rfl
  simp only [restoreAppdata]
  rw [if_pos (by omega), memset]
  by_cases hroom : 2 * (apoff - offset) ≤ buf.length
  · have hlen : (((min (apoff - offset + min buf.length 512) (offset + buf.length - apoff) : Nat) -
        (apoff - offset : Nat) : Int) % 2 ^ 32).toNat =
        min 512 (buf.length - 2 * (apoff - offset)) := by
      omega
    simp only [hlen]
    rw [if_pos hroom, if_pos (by omega)]
  · have hlen : bufsize < apoff - offset +
        (((min (apoff - offset + min buf.length 512) (offset + buf.length - apoff) : Nat) -
          (apoff - offset : Nat) : Int) % 2 ^ 32).toNat := by
      omega
    rw [if_neg hroom]
    exact if_neg (Nat.not_le.mpr hlen)

end Blanks

namespace Iso

variable (iso : Iso)

theorem dvd_stop : 2048 ∣ iso.stop := by
  rw [stop, limit, isosize, skipSectors]
  omega

/-- The part with the descriptor. -/
theorem chunk_bounds :
    32768 ∣ iso.chunk ∧ iso.chunk ≤ iso.pvd ∧ iso.pvd + 2048 ≤ iso.chunk + 32768 := by
  have hpvd := iso.dvd_pvd
  rw [chunk, bufsize]
  omega

/-- How many blanks are put there. -/
def room : Nat := min 512 (iso.chunkLength - 2 * (iso.pvd + appdataOffset - iso.chunk))

def blanked (data : Bytes) : Bytes := overwrite 0 (List.replicate iso.room blank) data

variable {iso} {data : Bytes} {h : Md5} {ctx : h.Ctx}

theorem length_blanked (hdata : data.length = 512) : (iso.blanked data).length = 512 := by
  have hroom : iso.room ≤ 512 := Nat.min_le_left ..
  rw [blanked, length_overwrite (by rw [List.length_replicate]; omega), hdata]

theorem checkLoop_outside (hstop : iso.stop ≤ iso.pvd) (hdata : data.length = 512) :
    checkLoop h iso.stop (iso.pvd + appdataOffset) (iso.withAppdata data) 0 ctx =
      some (h.update ctx ((iso.withAppdata data).take iso.stop.toNat)) := by
  have happ : appdataOffset = 883 := rfl
  have hchunk : ∀ offset : Nat, 32768 ∣ offset → (offset : Int) < iso.stop →
      offset < (iso.withAppdata data).length →
      restoreAppdata (iso.pvd + appdataOffset) offset
          (readAt (iso.withAppdata data) offset (min (iso.stop - offset) bufsize).toNat) =
        some (readAt (iso.withAppdata data) offset (min (iso.stop - offset) bufsize).toNat) := by
    intro offset _ hlt _
    refine restoreAppdata_of_disjoint (Or.inl ?_)
    rw [length_readAt, length_withAppdata hdata]
    generalize iso.stop = stop at *
    omega
  have hloop : checkLoop h iso.stop (iso.pvd + appdataOffset) (iso.withAppdata data) 0 ctx =
      some (h.update ctx (((iso.withAppdata data).take iso.stop.toNat).drop 0)) :=
    checkLoop_eq_some rfl hchunk (Or.inl (Nat.dvd_zero 32768))
  rwa [List.drop_zero] at hloop

theorem length_chunk (hdata : data.length = 512) :
    (readAt (iso.withAppdata data) iso.chunk (min (iso.stop - iso.chunk) bufsize).toNat).length =
      iso.chunkLength := by
  rw [chunkLength, length_readAt, length_readAt, length_withAppdata hdata]

theorem chunkLength_bounds (hstop : iso.pvd < iso.stop) :
    iso.pvd + appdataOffset + 512 ≤ iso.chunk + iso.chunkLength ∧ iso.chunkLength ≤ bufsize := by
  have hbounds := iso.chunk_bounds
  have hle := iso.length_le
  have hpvd := iso.dvd_pvd
  have hdvd := iso.dvd_stop
  have happ : appdataOffset = 883 := rfl
  have hsize : bufsize = 32768 := rfl
  rw [chunkLength, length_readAt]
  generalize iso.stop = stop at *
  generalize iso.chunk = chunk at *
  omega

theorem room_le : iso.room ≤ 512 := Nat.min_le_left ..

theorem withAppdata_blanked (hdata : data.length = 512) :
    overwrite (iso.pvd + appdataOffset) (List.replicate iso.room blank) (iso.withAppdata data) =
      iso.withAppdata (iso.blanked data) := by
  have hroom : (List.replicate iso.room blank).length ≤ data.length := by
    rw [List.length_replicate, hdata]
    exact room_le
  refine overwrite_overwrite hroom ?_
  rw [hdata]
  exact iso.length_le

theorem restoreAppdata_chunk (hstop : iso.pvd < iso.stop) (hdata : data.length = 512) :
    restoreAppdata (iso.pvd + appdataOffset) iso.chunk
        (readAt (iso.withAppdata data) iso.chunk (min (iso.stop - iso.chunk) bufsize).toNat) =
      if 2 * (iso.pvd + appdataOffset - iso.chunk) ≤ iso.chunkLength then
        some (readAt (iso.withAppdata (iso.blanked data)) iso.chunk
          (min (iso.stop - iso.chunk) bufsize).toNat)
      else none := by
  obtain ⟨_, hbefore, _⟩ := iso.chunk_bounds
  obtain ⟨hafter, hsize⟩ := chunkLength_bounds hstop
  have hlength : (readAt (iso.withAppdata data) iso.chunk
      (min (iso.stop - iso.chunk) bufsize).toNat).length = iso.chunkLength := length_chunk hdata
  have hlt : iso.chunk < iso.pvd + appdataOffset :=
    Nat.lt_of_le_of_lt hbefore (Nat.lt_add_of_pos_right (by decide))
  have hreached : iso.pvd + appdataOffset ≤ iso.chunk + iso.chunkLength :=
    (Nat.le_add_right _ 512).trans hafter
  rw [restoreAppdata_of_lt hlt (by rw [hlength]; exact hreached) (by rw [hlength]; exact hsize),
    hlength, ← room]
  have hblanks : (List.replicate iso.room blank).length = iso.room := List.length_replicate
  have hfile : iso.pvd + appdataOffset + iso.room ≤ iso.bytes.length :=
    (Nat.add_le_add_left room_le _).trans iso.length_le
  have hread : iso.pvd + appdataOffset + iso.room ≤
      iso.chunk + (min (iso.stop - iso.chunk) bufsize).toNat := by
    have hmin : iso.chunkLength ≤ (min (iso.stop - iso.chunk) bufsize).toNat := by
      rw [chunkLength, length_readAt]
      exact Nat.min_le_left ..
    have hroom : iso.room ≤ 512 := room_le
    exact (Nat.add_le_add_left hroom _).trans (hafter.trans (Nat.add_le_add_left hmin _))
  rw [overwrite_readAt_eq (by rw [hblanks, length_withAppdata hdata]; exact hfile)
    (Nat.le_of_lt hlt) (by rw [hblanks]; exact hread), withAppdata_blanked hdata]

/-- Chunks without the descriptor come out as they are. -/
theorem restoreAppdata_other (hdata : data.length = 512) {offset : Nat} (hoffset : 32768 ∣ offset)
    (hlt : (offset : Int) < iso.stop) (hne : offset ≠ iso.chunk) :
    restoreAppdata (iso.pvd + appdataOffset) offset
        (readAt (iso.withAppdata data) offset (min (iso.stop - offset) bufsize).toNat) =
      some (readAt (iso.withAppdata (iso.blanked data)) offset
        (min (iso.stop - offset) bufsize).toNat) := by
  obtain ⟨hdvd, hbefore, hafter⟩ := iso.chunk_bounds
  have happ : appdataOffset = 883 := rfl
  have hsize : bufsize = 32768 := rfl
  have hpart : offset + 32768 ≤ iso.pvd ∨ iso.pvd + appdataOffset + 512 ≤ offset := by
    generalize iso.chunk = chunk at *
    omega
  have hroom : iso.pvd + appdataOffset + (List.replicate iso.room blank).length ≤
      (iso.withAppdata data).length := by
    rw [List.length_replicate, length_withAppdata hdata]
    exact (Nat.add_le_add_left room_le _).trans iso.length_le
  rw [← withAppdata_blanked hdata, readAt_overwrite_of_disjoint hroom]
  · refine restoreAppdata_of_disjoint ?_
    rw [length_readAt, length_withAppdata hdata]
    generalize iso.stop = stop at *
    omega
  · intro i hi _
    have hle : iso.room ≤ 512 := room_le
    rw [List.length_replicate]
    generalize iso.stop = stop at *
    generalize iso.room = room at *
    omega

theorem checkLoop_inside (hstop : iso.pvd < iso.stop) (hdata : data.length = 512)
    (hroom : 2 * (iso.pvd + appdataOffset - iso.chunk) ≤ iso.chunkLength) :
    checkLoop h iso.stop (iso.pvd + appdataOffset) (iso.withAppdata data) 0 ctx =
      some (h.update ctx ((iso.withAppdata (iso.blanked data)).take iso.stop.toNat)) := by
  have hlen : (iso.withAppdata (iso.blanked data)).length = (iso.withAppdata data).length := by
    rw [length_withAppdata hdata, length_withAppdata (length_blanked hdata)]
  have hchunk : ∀ offset : Nat, 32768 ∣ offset → (offset : Int) < iso.stop →
      offset < (iso.withAppdata data).length →
      restoreAppdata (iso.pvd + appdataOffset) offset
          (readAt (iso.withAppdata data) offset (min (iso.stop - offset) bufsize).toNat) =
        some (readAt (iso.withAppdata (iso.blanked data)) offset
          (min (iso.stop - offset) bufsize).toNat) := by
    intro offset hoffset hlt _
    by_cases heq : offset = iso.chunk
    · rw [heq, restoreAppdata_chunk hstop hdata, if_pos hroom]
    · exact restoreAppdata_other hdata hoffset hlt heq
  have hloop : checkLoop h iso.stop (iso.pvd + appdataOffset) (iso.withAppdata data) 0 ctx =
      some (h.update ctx
        (((iso.withAppdata (iso.blanked data)).take iso.stop.toNat).drop 0)) :=
    checkLoop_eq_some hlen hchunk (Or.inl (Nat.dvd_zero 32768))
  rwa [List.drop_zero] at hloop

theorem checkLoop_crash (hstop : iso.pvd < iso.stop) (hdata : data.length = 512)
    (hroom : iso.chunkLength < 2 * (iso.pvd + appdataOffset - iso.chunk)) :
    checkLoop h iso.stop (iso.pvd + appdataOffset) (iso.withAppdata data) 0 ctx = none := by
  obtain ⟨hdvd, hbefore, _⟩ := iso.chunk_bounds
  have hfile : iso.pvd < (iso.withAppdata data).length := by
    have hpos : iso.pvd + appdataOffset < iso.pvd + appdataOffset + 512 :=
      Nat.lt_add_of_pos_right (by decide)
    rw [length_withAppdata hdata]
    exact Nat.lt_of_le_of_lt (Nat.le_add_right _ _) (Nat.lt_of_lt_of_le hpos iso.length_le)
  have hnone := restoreAppdata_chunk hstop hdata
  rw [if_neg (Nat.not_le.mpr hroom)] at hnone
  refine checkLoop_eq_none hdvd ?_ (Nat.lt_of_le_of_lt hbefore hfile) hnone
    (Nat.dvd_zero 32768) (Nat.zero_le _)
  exact Int.lt_of_le_of_lt (Int.ofNat_le.mpr hbefore) hstop

/-- The sum that is in the image after `n` more runs. -/
def digest (iso : Iso) (h : Md5) : Nat → Digest
  | 0 => h.sum (iso.stream (List.replicate 512 blank))
  | n + 1 => h.sum (iso.stream (newAppdata (digest iso h n)))

theorem implantLoop_eq (iso : Iso) (h : Md5) (data : Bytes) :
    h.final (implantLoop h iso.stop (iso.withAppdata data) 0 0 h.init) =
      h.sum (iso.stream data) := by
  rw [Md5.sum, stream]
  by_cases hstop : iso.stop < 2 ^ 32
  · rw [if_pos hstop, implantLoop_eq_take hstop iso.dvd_stop rfl (Or.inl (Nat.dvd_zero 2048)),
      List.drop_zero]
  · rw [if_neg hstop, implantLoop_eq_drop (Int.not_lt.mp hstop) (by decide), List.drop_zero]

theorem implantisomd5_eq (h : Md5) (hpvd : iso.pvd < 2 ^ 31) (hdata : data.length = 512)
    {forceit : Bool} (hforce : forceit = true ∨ data = List.replicate 512 blank) :
    implantisomd5 h forceit (iso.withAppdata data) =
      some (iso.withAppdata (newAppdata (h.sum (iso.stream data)))) := by
  have hsum := implantLoop_eq iso h data
  rw [stop] at hsum
  have hclean : (!forceit && (readAt (iso.withAppdata data) (iso.pvd + appdataOffset) 512).any
      fun c => c ≠ blank) = false := by
    rcases hforce with rfl | rfl
    · rfl
    · rw [withAppdata_blank, iso.appdata, Bool.and_eq_false_iff, List.any_eq_false]
      refine Or.inr fun c hc => ?_
      rw [List.eq_of_mem_replicate hc]
      decide
  have hput : overwrite (iso.pvd + appdataOffset) (newAppdata (h.sum (iso.stream data)))
      (iso.withAppdata data) = iso.withAppdata (newAppdata (h.sum (iso.stream data))) := by
    have hnew := length_newAppdata (h.sum (iso.stream data))
    rw [withAppdata, overwrite_overwrite (by rw [hnew, hdata]) (by rw [hdata]; exact iso.length_le),
      overwrite_zero (by rw [hnew, hdata])]
    rfl
  rw [implantisomd5, parsepvd_withAppdata hdata hpvd]
  dsimp only
  rw [hclean, if_neg Bool.false_ne_true, hsum, hput]

theorem implanted_eq (hpvd : iso.pvd < 2 ^ 31) (n : Nat) :
    iso.implanted h n = some (iso.withAppdata (newAppdata (iso.digest h n))) := by
  induction n with
  | zero =>
    have hfirst := implantisomd5_eq h hpvd List.length_replicate
      (Or.inr rfl : false = true ∨ _)
    rwa [withAppdata_blank] at hfirst
  | succ n ih =>
    rw [implanted, ih, Option.bind_some,
      implantisomd5_eq h hpvd (length_newAppdata _) (Or.inl rfl), digest]

theorem checkmd5sum_eq (hpvd : iso.pvd < 2 ^ 31) (d : Digest) :
    checkmd5sum h (iso.withAppdata (newAppdata d)) =
      match checkLoop h iso.stop (iso.pvd + appdataOffset) (iso.withAppdata (newAppdata d)) 0
        h.init with
      | none => none
      | some ctx => if hex d = hex (h.final ctx) then some 1 else some 0 := by
  have hsome : (hex d).all (fun c => c = blank) = false := by
    have hne : hex d ≠ [] := List.ne_nil_of_length_pos (by rw [length_hex]; decide)
    rw [List.all_eq_false]
    exact ⟨(hex d).head hne, List.head_mem hne, by simp [(ne_of_mem_hex (List.head_mem hne)).2]⟩
  rw [checkmd5sum, parsepvd_withAppdata (length_newAppdata d) hpvd, readAt_newAppdata, cstring_hex]
  dsimp only
  rw [hsome, if_neg Bool.false_ne_true]
  rfl

/-- What the checker takes the sum of. -/
def checked (iso : Iso) (d : Digest) : Bytes :=
  (iso.withAppdata (iso.blanked (newAppdata d))).take iso.stop.toNat

theorem getElem?_blanked (hdata : data.length = 512) (i : Nat) :
    (iso.blanked data)[i]? = if i < iso.room then some blank else data[i]? := by
  have hblanks : (List.replicate iso.room blank).length = iso.room := List.length_replicate
  rw [blanked, getElem?_overwrite (by rw [hblanks, hdata, Nat.zero_add]; exact room_le), hblanks,
    Nat.zero_add, Nat.sub_zero]
  by_cases hi : i < iso.room
  · rw [if_pos hi, if_pos ⟨Nat.zero_le i, hi⟩, List.getElem?_replicate_of_lt hi]
  · rw [if_neg hi, if_neg fun h => hi h.2]

theorem blanked_newAppdata (hroom : 98 ≤ iso.room) (d : Digest) :
    iso.blanked (newAppdata d) = List.replicate 512 blank := by
  have hle : iso.room ≤ 512 := room_le
  apply List.ext_getElem?
  intro i
  rw [getElem?_blanked (length_newAppdata d)]
  by_cases hi : i < iso.room
  · rw [if_pos hi, List.getElem?_replicate_of_lt (Nat.lt_of_lt_of_le hi hle)]
  · rw [if_neg hi, getElem?_newAppdata_of_le d (hroom.trans (Nat.not_lt.mp hi))]

theorem take_withAppdata (hdata : data.length = 512) {k : Nat} (hk : k ≤ iso.pvd) :
    (iso.withAppdata data).take k = iso.bytes.take k := by
  apply List.ext_getElem?
  intro i
  rw [List.getElem?_take, List.getElem?_take]
  by_cases hi : i < k
  · rw [if_pos hi, if_pos hi, getElem?_withAppdata hdata, if_neg]
    exact fun h => Nat.not_le.mpr (Nat.lt_of_lt_of_le hi hk) ((Nat.le_add_right _ _).trans h.1)
  · rw [if_neg hi, if_neg hi]

theorem verifies_outside (hout : iso.Outside) (n : Nat) : iso.Verifies n := by
  intro h
  obtain ⟨hpvd, hstop⟩ := hout
  have hsmall : iso.stop < 2 ^ 32 := by
    generalize iso.stop = stop at *
    omega
  have hsum : ∀ data : Bytes, data.length = 512 →
      h.sum (iso.stream data) = h.sum (iso.bytes.take iso.stop.toNat) := by
    intro data hdata
    rw [stream, if_pos hsmall, take_withAppdata hdata (Int.toNat_le.mpr hstop)]
  have hdigest : iso.digest h n = h.sum (iso.bytes.take iso.stop.toNat) := by
    cases n with
    | zero => exact hsum _ List.length_replicate
    | succ n => exact hsum _ (length_newAppdata _)
  have hnew := length_newAppdata (iso.digest h n)
  rw [implanted_eq hpvd, Option.bind_some, checkmd5sum_eq hpvd, checkLoop_outside hstop hnew]
  dsimp only
  rw [take_withAppdata hnew (Int.toNat_le.mpr hstop), hdigest]
  exact if_pos rfl

theorem checkmd5sum_inside (hpvd : iso.pvd < 2 ^ 31) (hstop : iso.pvd < iso.stop)
    (hroom : 2 * (iso.pvd + appdataOffset - iso.chunk) ≤ iso.chunkLength) (d : Digest) :
    checkmd5sum h (iso.withAppdata (newAppdata d)) =
      if hex d = hex (h.sum (iso.checked d)) then some 1 else some 0 := by
  rw [checkmd5sum_eq hpvd, checkLoop_inside hstop (length_newAppdata d) hroom]
  rfl

theorem verifies_inside (hin : iso.Inside) (hstop : iso.pvd < iso.stop) : iso.Verifies 0 := by
  intro h
  obtain ⟨hpvd, hlimit, hroom⟩ := hin
  have hblanks : 98 ≤ iso.room := by
    rw [room]
    generalize iso.chunk = chunk at *
    generalize iso.chunkLength = len at *
    omega
  have hsum : iso.stream (List.replicate 512 blank) = iso.checked (iso.digest h 0) := by
    rw [stream, checked, blanked_newAppdata hblanks]
    by_cases hsmall : iso.stop < 2 ^ 32
    · exact if_pos hsmall
    · have hlen : (iso.withAppdata (List.replicate 512 blank)).length = iso.bytes.length :=
        length_withAppdata List.length_replicate
      rw [if_neg hsmall, List.take_of_length_le]
      rw [hlen]
      exact Int.ofNat_le.mp ((hlimit.resolve_left hsmall).trans (Int.self_le_toNat _))
  rw [implanted_eq hpvd, Option.bind_some,
    checkmd5sum_inside hpvd hstop ((Nat.le_add_right _ _).trans hroom), ← hsum]
  exact if_pos rfl

theorem not_verifies {n : Nat} (hpvd : iso.pvd < 2 ^ 31) (hstop : iso.pvd < iso.stop)
    (hne : hex (iso.digest h n) ≠ hex (h.sum (iso.checked (iso.digest h n)))) :
    ¬ iso.Verifies n := by
  intro hverifies
  have hrun := hverifies h
  rw [implanted_eq hpvd, Option.bind_some] at hrun
  by_cases hroom : 2 * (iso.pvd + appdataOffset - iso.chunk) ≤ iso.chunkLength
  · rw [checkmd5sum_inside hpvd hstop hroom, if_neg hne] at hrun
    exact absurd hrun (by decide)
  · rw [checkmd5sum_eq hpvd, checkLoop_crash hstop (length_newAppdata _) (Nat.not_le.mp hroom)]
      at hrun
    cases hrun

def zeros : Digest := fun _ => 0

def ones : Digest := fun _ => 255

theorem hex_zeros_ones : (hex zeros)[0]? = some 48 ∧ (hex ones)[0]? = some 102 := by decide

theorem hex_zeros_ne_ones : hex zeros ≠ hex ones := by
  intro h
  have hbyte := congrArg (fun b : Bytes => b[0]?) h
  simp only [hex_zeros_ones.1, hex_zeros_ones.2] at hbyte
  exact absurd hbyte (by decide)

/-- The bytes of the application data in the two streams. -/
theorem getElem?_stream (hstop : iso.pvd < iso.stop) (hdata : data.length = 512) {i : Nat}
    (hi : i < 512) : (iso.stream data)[iso.pvd + appdataOffset + i]? = data[i]? := by
  have hbyte : (iso.withAppdata data)[iso.pvd + appdataOffset + i]? = data[i]? := by
    rw [getElem?_withAppdata hdata, if_pos ⟨Nat.le_add_right _ _, Nat.add_lt_add_left hi _⟩,
      Nat.add_sub_cancel_left]
  rw [stream]
  split
  · rw [List.getElem?_take, if_pos, hbyte]
    have hpvd := iso.dvd_pvd
    have hdvd := iso.dvd_stop
    have happ : appdataOffset = 883 := rfl
    generalize iso.stop = stop at *
    omega
  · exact hbyte

theorem getElem?_checked (hstop : iso.pvd < iso.stop) (d : Digest) {i : Nat} (hi : i < 512) :
    (iso.checked d)[iso.pvd + appdataOffset + i]? =
      if i < iso.room then some blank else (newAppdata d)[i]? := by
  have hnew := length_newAppdata d
  have hpvd := iso.dvd_pvd
  have hdvd := iso.dvd_stop
  have happ : appdataOffset = 883 := rfl
  have hlt : iso.pvd + appdataOffset + i < iso.stop.toNat := by
    generalize iso.stop = stop at *
    omega
  rw [checked, List.getElem?_take, if_pos hlt, getElem?_withAppdata (length_blanked hnew),
    if_pos ⟨Nat.le_add_right _ _, Nat.add_lt_add_left hi _⟩, Nat.add_sub_cancel_left,
    getElem?_blanked hnew]

/-- A sum that tells a blank at one place. -/
def mark (k : Nat) (b : Bytes) : Digest := if b[k]? = some blank then zeros else ones

theorem not_verifies_of_room (hpvd : iso.pvd < 2 ^ 31) (hstop : iso.pvd < iso.stop)
    (hroom : iso.room < 98) : ¬ iso.Verifies 0 := by
  have hi : 97 < 512 := by decide
  have hsum : ∀ b, (Md5.of (mark (iso.pvd + appdataOffset + 97))).sum b =
      mark (iso.pvd + appdataOffset + 97) b := Md5.sum_of _
  refine not_verifies (h := Md5.of (mark (iso.pvd + appdataOffset + 97))) hpvd hstop ?_
  rw [digest, hsum, hsum, mark, mark, getElem?_stream hstop List.length_replicate hi,
    getElem?_checked hstop _ hi, if_pos (List.getElem?_replicate_of_lt hi),
    if_neg (Nat.not_lt.mpr (Nat.le_of_lt_succ hroom)), (letters_newAppdata _).2, if_neg (by decide)]
  exact hex_zeros_ne_ones

theorem not_verifies_of_size (hpvd : iso.pvd < 2 ^ 31) (hstop : iso.pvd < iso.stop)
    (hlarge : 2 ^ 32 ≤ iso.stop) (hsize : iso.stop < iso.bytes.length) : ¬ iso.Verifies 0 := by
  have hsum : ∀ b, (Md5.of fun b => if b.length = iso.bytes.length then zeros else ones).sum b =
      if b.length = iso.bytes.length then zeros else ones := Md5.sum_of _
  have hstream : (iso.stream (List.replicate 512 blank)).length = iso.bytes.length := by
    rw [stream, if_neg (Int.not_lt.mpr hlarge), length_withAppdata List.length_replicate]
  have hchecked : ∀ d, (iso.checked d).length ≠ iso.bytes.length := by
    intro d
    rw [checked, List.length_take, length_withAppdata (length_blanked (length_newAppdata d))]
    generalize iso.stop = stop at *
    omega
  refine not_verifies (h := Md5.of fun b => if b.length = iso.bytes.length then zeros else ones)
    hpvd hstop ?_
  rw [digest, hsum, hsum, if_pos hstream, if_neg (hchecked _)]
  exact hex_zeros_ne_ones

/-- A second run takes the sum of the first one along. -/
theorem not_verifies_again (hpvd : iso.pvd < 2 ^ 31) (hstop : iso.pvd < iso.stop) (n : Nat) :
    ¬ iso.Verifies (n + 1) := by
  by_cases hroom : 0 < iso.room
  · have hi : 0 < 512 := by decide
    have hsum : ∀ b, (Md5.of (mark (iso.pvd + appdataOffset + 0))).sum b =
        mark (iso.pvd + appdataOffset + 0) b := Md5.sum_of _
    refine not_verifies (h := Md5.of (mark (iso.pvd + appdataOffset + 0))) hpvd hstop ?_
    rw [digest, hsum, hsum, mark, mark, getElem?_stream hstop (length_newAppdata _) hi,
      getElem?_checked hstop _ hi, (letters_newAppdata _).1, if_pos hroom, if_neg (by decide),
      if_pos rfl]
    exact hex_zeros_ne_ones.symm
  · -- no blanks at all: the sum of an image that has its own sum in it
    have hi : 13 < 512 := by decide
    let flip : Bytes → Digest := fun b =>
      if b[iso.pvd + appdataOffset + 13]? = some 48 then ones else zeros
    have hsum : ∀ b, (Md5.of flip).sum b = flip b := Md5.sum_of _
    refine not_verifies (h := Md5.of flip) hpvd hstop ?_
    generalize iso.digest (Md5.of flip) (n + 1) = d
    have hbyte : (iso.checked d)[iso.pvd + appdataOffset + 13]? = (hex d)[0]? := by
      have hread := congrArg (fun b : Bytes => b[0]?) (readAt_newAppdata d)
      simp only [getElem?_readAt] at hread
      rw [getElem?_checked hstop _ hi, if_neg (fun h => hroom (Nat.zero_lt_of_lt h)), ← hread]
      rfl
    intro heq
    have hfirst := congrArg (fun b : Bytes => b[0]?) heq
    simp only [hsum, flip, hbyte] at hfirst
    by_cases hd : (hex d)[0]? = some 48
    · rw [if_pos hd, hd, hex_zeros_ones.2] at hfirst
      exact absurd hfirst (by decide)
    · rw [if_neg hd, hex_zeros_ones.1] at hfirst
      exact hd hfirst

/-- An image of which only bytes before the descriptor were changed, and not the types of
descriptors. -/
structure Far (iso : Iso) (img : Bytes) : Prop where
  length : img.length = iso.bytes.length
  same : ∀ i, 2048 ∣ i ∨ iso.pvd ≤ i → img[i]? = iso.bytes[i]?

theorem parsepvd_far {img : Bytes} (hpvd : 2 ^ 31 ≤ iso.pvd) (hfar : iso.Far img) {pvd : Pvd}
    (hsome : parsepvd img = some pvd) :
    2048 ∣ pvd.offset ∧ pvd.offset + 2048 ≤ iso.pvd ∧
      (pvd.mediasum.all fun c => c = blank) = true := by
  have hfound : findPvd img (16 * 2048) = some iso.pvd := by
    rw [findPvd_congr hfar.length (fun i hi => hfar.same i (Or.inl hi)) (by decide), iso.found]
  rw [parsepvd, hfound] at hsome
  dsimp only at hsome
  split at hsome
  · cases hsome
  · rename_i hint
    obtain rfl := Option.some.inj hsome
    dsimp only
    have hdvd := iso.dvd_pvd
    have hmod := Int.bmod_def iso.pvd (2 ^ 32)
    have hoffset : 2048 ∣ (Int.bmod iso.pvd (2 ^ 32)).toNat ∧
        (Int.bmod iso.pvd (2 ^ 32)).toNat + 2048 ≤ iso.pvd := by
      split at hmod <;> omega
    refine ⟨hoffset.1, hoffset.2, ?_⟩
    have hread : readAt img (iso.pvd + appdataOffset + 13) 32 = List.replicate 32 blank := by
      apply List.ext_getElem?
      intro i
      rw [getElem?_readAt, List.getElem?_replicate]
      by_cases hi : i < 32
      · have hbyte := congrArg (fun b : Bytes => b[13 + i]?) iso.appdata
        simp only [getElem?_readAt, List.getElem?_replicate] at hbyte
        rw [if_pos (by omega), if_pos (by omega)] at hbyte
        rw [if_pos hi, if_pos hi, ← hbyte, Nat.add_assoc, hfar.same _ (Or.inr (by omega))]
      · rw [if_neg hi, if_neg hi]
    rw [hread, List.all_eq_true]
    intro c hc
    rw [List.eq_of_mem_replicate ((List.takeWhile_subset _) hc)]
    decide

theorem far_of_implantisomd5 {img img' : Bytes} {forceit : Bool} (hpvd : 2 ^ 31 ≤ iso.pvd)
    (hfar : iso.Far img) (hsome : implantisomd5 h forceit img = some img') : iso.Far img' := by
  rw [implantisomd5] at hsome
  cases hparse : parsepvd img with
  | none =>
    rw [hparse] at hsome
    cases hsome
  | some pvd =>
    obtain ⟨hdvd, hbefore, _⟩ := parsepvd_far hpvd hfar hparse
    rw [hparse] at hsome
    dsimp only at hsome
    split at hsome
    · cases hsome
    · obtain rfl := Option.some.inj hsome
      have hle := iso.length_le
      have hlen := hfar.length
      have happ : appdataOffset = 883 := rfl
      have hnew := length_newAppdata (h.final (implantLoop h (limit pvd.isosize) img 0 0 h.init))
      have hfits : pvd.offset + appdataOffset +
          (newAppdata (h.final (implantLoop h (limit pvd.isosize) img 0 0 h.init))).length ≤
            img.length := by
        rw [hnew, hlen]
        omega
      refine ⟨(length_overwrite hfits).trans hlen, fun i hi => ?_⟩
      have hout : ¬ (pvd.offset + appdataOffset ≤ i ∧ i < pvd.offset + appdataOffset + 512) := by
        omega
      rw [getElem?_overwrite hfits, hnew, if_neg hout]
      exact hfar.same i hi

/-- The offset of a descriptor from 2 GiB on is not an `int`. -/
theorem not_verifies_of_offset (hpvd : 2 ^ 31 ≤ iso.pvd) (n : Nat) : ¬ iso.Verifies n := by
  intro hverifies
  have hrun := hverifies (Md5.of fun _ => zeros)
  have hfar : ∀ n img, iso.implanted (Md5.of fun _ => zeros) n = some img → iso.Far img := by
    intro n
    induction n with
    | zero =>
      exact fun img himg => far_of_implantisomd5 hpvd ⟨rfl, fun _ _ => rfl⟩ himg
    | succ n ih =>
      intro img himg
      obtain ⟨img', himg', hagain⟩ := Option.bind_eq_some_iff.mp himg
      exact far_of_implantisomd5 hpvd (ih img' himg') hagain
  obtain ⟨img, himg, hcheck⟩ := Option.bind_eq_some_iff.mp hrun
  rw [checkmd5sum] at hcheck
  cases hparse : parsepvd img with
  | none =>
    rw [hparse] at hcheck
    cases hcheck
  | some pvd =>
    obtain ⟨_, _, hblank⟩ := parsepvd_far hpvd (hfar n img himg) hparse
    rw [hparse] at hcheck
    dsimp only at hcheck
    rw [hblank, if_pos rfl] at hcheck
    exact absurd hcheck (by decide)

/-- A sum is verified just if it is taken of the blanks, and of one part of the image. -/
theorem verifies_iff (iso : Iso) :
    (iso.Verifies 0 ↔ iso.Outside ∨ iso.Inside) ∧ ∀ n, iso.Verifies (n + 1) ↔ iso.Outside := by
  have hoffset : ∀ {n}, iso.Verifies n → iso.pvd < 2 ^ 31 := fun hverifies =>
    Nat.lt_of_not_le fun hpvd => not_verifies_of_offset hpvd _ hverifies
  constructor
  · constructor
    · intro hverifies
      have hpvd := hoffset hverifies
      by_cases hstop : iso.stop ≤ iso.pvd
      · exact Or.inl ⟨hpvd, hstop⟩
      · have hinside := Int.not_le.mp hstop
        refine Or.inr ⟨hpvd, ?_, ?_⟩
        · by_contra hlimit
          obtain ⟨hlarge, hsize⟩ := not_or.mp hlimit
          exact not_verifies_of_size hpvd hinside (Int.not_lt.mp hlarge) (Int.not_le.mp hsize)
            hverifies
        · by_contra hroom
          refine not_verifies_of_room hpvd hinside ?_ hverifies
          rw [room]
          generalize iso.chunk = chunk at *
          generalize iso.chunkLength = len at *
          omega
    · rintro (hout | hin)
      · exact verifies_outside hout 0
      · by_cases hstop : iso.stop ≤ iso.pvd
        · exact verifies_outside ⟨hin.offset, hstop⟩ 0
        · exact verifies_inside hin (Int.not_le.mp hstop)
  · intro n
    constructor
    · intro hverifies
      have hpvd := hoffset hverifies
      refine ⟨hpvd, ?_⟩
      by_contra hstop
      exact not_verifies_again hpvd (Int.not_le.mp hstop) n hverifies
    · exact fun hout => verifies_outside hout (n + 1)

end Iso

/-- A file of zeros with a descriptor of a volume of 256 sectors. -/
def volume (n : Nat) : Bytes :=
  overwrite 33651 (List.replicate 512 blank)
    (overwrite 32852 [0, 0, 1, 0] (overwrite 32768 [1] (List.replicate n 0)))

section Volume

variable {n : Nat}

theorem length_volume (hn : 34163 ≤ n) :
    (overwrite 32768 [1] (List.replicate n (0 : UInt8))).length = n ∧
      (overwrite 32852 [0, 0, 1, 0]
        (overwrite 32768 [1] (List.replicate n (0 : UInt8)))).length = n ∧
      (volume n).length = n := by
  have hzero : (List.replicate n (0 : UInt8)).length = n := List.length_replicate
  have hblank : (List.replicate 512 blank).length = 512 := List.length_replicate
  have htype : (overwrite 32768 [1] (List.replicate n (0 : UInt8))).length = n := by
    rw [length_overwrite, hzero]
    rw [hzero]
    exact (by decide : 32768 + 1 ≤ 34163).trans hn
  have hsize : (overwrite 32852 [0, 0, 1, 0]
      (overwrite 32768 [1] (List.replicate n (0 : UInt8)))).length = n := by
    rw [length_overwrite, htype]
    rw [htype]
    exact (by decide : 32852 + 4 ≤ 34163).trans hn
  refine ⟨htype, hsize, ?_⟩
  rw [volume, length_overwrite, hsize]
  rw [hblank, hsize]
  exact hn

theorem getElem?_volume (hn : 34163 ≤ n) (i : Nat) :
    (volume n)[i]? =
      if 33651 ≤ i ∧ i < 34163 then (List.replicate 512 blank)[i - 33651]?
      else if 32852 ≤ i ∧ i < 32856 then [0, 0, 1, 0][i - 32852]?
      else if 32768 ≤ i ∧ i < 32769 then [1][i - 32768]?
      else (List.replicate n (0 : UInt8))[i]? := by
  obtain ⟨htype, hsize, _⟩ := length_volume hn
  have hzero : (List.replicate n (0 : UInt8)).length = n := List.length_replicate
  have hblank : (List.replicate 512 blank).length = 512 := List.length_replicate
  rw [volume, getElem?_overwrite (by rw [hblank, hsize]; exact hn), hblank,
    getElem?_overwrite (by rw [htype]; exact (by decide : 32852 + 4 ≤ 34163).trans hn),
    getElem?_overwrite (by rw [hzero]; exact (by decide : 32768 + 1 ≤ 34163).trans hn)]
  rfl

theorem findPvd_volume (hn : 34163 ≤ n) : findPvd (volume n) (16 * 2048) = some 32768 := by
  have hbyte := getElem?_volume hn 32768
  rw [if_neg (by decide), if_neg (by decide), if_pos (by decide)] at hbyte
  obtain ⟨hlt, htype⟩ := List.getElem?_eq_some_iff.mp hbyte
  rw [findPvd, dif_pos hlt, if_pos htype]

theorem appdata_volume (hn : 34163 ≤ n) :
    readAt (volume n) (32768 + appdataOffset) 512 = List.replicate 512 blank := by
  have happ : appdataOffset = 883 := rfl
  apply List.ext_getElem?
  intro i
  rw [getElem?_readAt, happ, getElem?_volume hn]
  by_cases hi : i < 512
  · rw [if_pos hi, if_pos (by omega), show 32768 + 883 + i - 33651 = i by omega]
  · rw [if_neg hi, List.getElem?_eq_none (by rw [List.length_replicate]; omega)]

theorem isosize_volume (hn : 34163 ≤ n) : isosize (volume n) 32768 = 524288 := by
  have hbyte : ∀ i < 4, (volume n).getD (32768 + (sizeOffset + i)) 0 = [0, 0, 1, 0].getD i 0 := by
    intro i hi
    have hsize : sizeOffset = 84 := rfl
    rw [List.getD_eq_getElem?_getD, List.getD_eq_getElem?_getD, getElem?_volume hn, hsize,
      if_neg (by omega), if_pos (by omega), show 32768 + (84 + i) - 32852 = i by omega]
  rw [isosize, byteAt, byteAt, byteAt, byteAt, hbyte 1 (by decide), hbyte 2 (by decide),
    hbyte 3 (by decide)]
  have hzero := hbyte 0 (by decide)
  rw [Nat.add_zero] at hzero
  rw [hzero]
  decide

end Volume

/-- Implanted again, the sum does not match. -/
theorem Iso.differs_again :
    ∃ iso : Iso, iso.bytes = volume 524288 ∧ iso.Verifies 0 ∧ ¬ iso.Verifies 1 := by
  have hn : 34163 ≤ 524288 := by decide
  let iso : Iso := ⟨volume 524288, 32768, findPvd_volume hn, appdata_volume hn⟩
  have hstop : iso.stop = 217088 := congrArg limit (isosize_volume hn)
  have hpvd : iso.pvd < 2 ^ 31 := (by decide : 32768 < 2 ^ 31)
  have hlt : (iso.pvd : Int) < iso.stop := by
    rw [hstop]
    exact (by decide : ((32768 : Nat) : Int) < 217088)
  have hchunk : iso.chunk = 32768 := (by decide : 32768 / bufsize * bufsize = 32768)
  have hlength : iso.chunkLength = 32768 := by
    rw [chunkLength, length_readAt, hstop, hchunk, (length_volume hn).2.2]
    decide
  refine ⟨iso, rfl, verifies_inside ⟨hpvd, Or.inl ?_, ?_⟩ hlt, not_verifies_again hpvd hlt 0⟩
  · rw [hstop]
    decide
  · rw [hchunk, hlength]
    exact (by decide : 2 * (32768 + appdataOffset - 32768) + 98 ≤ 32768)

end Mediacheck
