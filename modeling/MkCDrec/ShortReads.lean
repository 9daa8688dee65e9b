import MkCDrec.Mediacheck

/-!
# The media check with short reads

`read` may return fewer bytes than it is asked for. The loop of `checkmd5sum`, the same in
`checkisomd5` and in `mediacheck`, then puts its blanks over parts of the application data
that begin and end anywhere.
-/

namespace ShortReads

open ShellText Overwrite Mediacheck

/-- What each call of `read` gets at most. -/
structure Reads where
  count : Nat → Nat
  pos : ∀ k, 0 < count k

def Reads.full : Reads := ⟨fun _ => bufsize, fun _ => by decide⟩

/-- The first and the last place of the blanks in the buffer. -/
def appdataRange (apoff offset nread : Nat) : Option (Nat × Int) :=
  if offset < apoff ∧ apoff ≤ offset + nread then
    let start := apoff - offset
    some (start, (min (start + min nread 512) (offset + nread - apoff) : Nat))
  else if apoff ≤ offset ∧ offset + nread < apoff + 512 then some (0, nread)
  else if offset < apoff + 512 ∧ apoff + 512 ≤ offset + nread then
    some (0, (apoff + 512 - offset : Nat))
  else none

/-- The blanks stay within what was read, their length being an `unsigned int`. -/
def Inside (apoff offset nread : Nat) : Prop :=
  ∀ start stop, appdataRange apoff offset nread = some (start, stop) →
    start + ((stop - start) % 2 ^ 32).toNat ≤ nread

/-- The image with 512 blanks from `apoff` on. -/
def blankOut (apoff : Nat) (img : Bytes) : Bytes :=
  img.mapIdx fun i b => if apoff ≤ i ∧ i < apoff + 512 then blank else b

section Loop

variable (r : Reads) (limit : Int) (apoff : Nat) (img : Bytes)

/-- What call number `k` gets. -/
def got (k offset : Nat) : Bytes :=
  readAt img offset (min (r.count k) (min (limit - offset) bufsize).toNat)

/-- Where call number `k` begins. -/
def position : Nat → Nat
  | 0 => 0
  | k + 1 => position k + (got r limit img k (position k)).length

/-- The loop of `checkmd5sum`. -/
def checkLoop (h : Md5) (k offset : Nat) (ctx : h.Ctx) : Option h.Ctx :=
  if (offset : Int) < limit then
    if _ : got r limit img k offset = [] then some ctx
    else
      match restoreAppdata apoff offset (got r limit img k offset) with
      | none => none
      | some buf =>
        checkLoop h (k + 1) (offset + (got r limit img k offset).length) (h.update ctx buf)
  else some ctx
termination_by img.length - offset
decreasing_by
  have hlen := List.length_pos_iff.mpr ‹got r limit img k offset ≠ []›
  rw [got, length_readAt] at hlen ⊢
  omega

/-- `checkmd5sum`. -/
def checkmd5sum (h : Md5) : Option Int :=
  match parsepvd img with
  | none => some (-1)
  | some pvd =>
    if pvd.mediasum.all fun c => c = blank then some (-1)
    else
      match checkLoop r (Mediacheck.limit pvd.isosize) (pvd.offset + appdataOffset) img h 0 0
          h.init with
      | none => none
      | some ctx => if pvd.mediasum = hex (h.final ctx) then some 1 else some 0

end Loop

/-- The sum is taken of the image up to the limit, with blanks for the application data of
the descriptor at `pvd`, and the buffer is never left. -/
structure Right (r : Reads) (pvd : Nat) (isosize : Int) (img : Bytes) : Prop where
  inside : ∀ k, Inside (pvd + appdataOffset) (position r (limit isosize) img k)
    (got r (limit isosize) img k (position r (limit isosize) img k)).length
  sum : ∀ h : Md5, checkLoop r (limit isosize) (pvd + appdataOffset) img h 0 0 h.init =
    some (h.update h.init ((blankOut (pvd + appdataOffset) img).take (limit isosize).toNat))

/-- A read that comes to the beginning of the application data gets at least as many bytes
after it as before it, and where there are not 512 more the rest is blank anyway. -/
def Enough (apoff offset nread : Nat) (img : Bytes) : Prop :=
  offset < apoff → apoff ≤ offset + nread → 2 * (apoff - offset) ≤ nread ∧
    ∀ i < 512, nread - 2 * (apoff - offset) ≤ i → apoff + i < offset + nread →
      img[apoff + i]? = some blank

section Blanks

variable {apoff offset start len n : Nat} {img : Bytes}

theorem length_blankOut (apoff : Nat) (img : Bytes) : (blankOut apoff img).length = img.length :=
  List.length_mapIdx

theorem getElem?_blankOut (apoff : Nat) (img : Bytes) (i : Nat) :
    (blankOut apoff img)[i]? =
      if apoff ≤ i ∧ i < apoff + 512 then img[i]?.map fun _ => blank else img[i]? := by
  rw [blankOut, List.getElem?_mapIdx]
  by_cases hi : apoff ≤ i ∧ i < apoff + 512
  · simp only [if_pos hi]
  · simp only [if_neg hi, Option.map_id']

/-- A part comes out right if what is left of the application data in it is blank anyway. -/
theorem overwrite_eq_iff (hroom : start + len ≤ (readAt img offset n).length)
    (hdata : ∀ i, start ≤ i → i < start + len → apoff ≤ offset + i ∧ offset + i < apoff + 512) :
    overwrite start (List.replicate len blank) (readAt img offset n) =
        readAt (blankOut apoff img) offset n ↔
      ∀ i < (readAt img offset n).length, apoff ≤ offset + i → offset + i < apoff + 512 →
        start ≤ i ∧ i < start + len ∨ img[offset + i]? = some blank := by
  have hlen : (List.replicate len blank).length = len := List.length_replicate
  have hread := length_readAt img offset n
  have hput : ∀ i, (overwrite start (List.replicate len blank) (readAt img offset n))[i]? =
      if start ≤ i ∧ i < start + len then some blank else (readAt img offset n)[i]? := by
    intro i
    rw [getElem?_overwrite (by rw [hlen]; exact hroom), hlen]
    split
    · rw [List.getElem?_replicate_of_lt (by omega)]
    · rfl
  constructor
  · intro heq i hi hle hlt
    by_cases hin : start ≤ i ∧ i < start + len
    · exact Or.inl hin
    · right
      have hbyte := congrArg (fun b : Bytes => b[i]?) heq
      simp only [hput, getElem?_readAt, getElem?_blankOut] at hbyte
      rw [if_neg hin, if_pos (by omega), if_pos (by omega), if_pos ⟨hle, hlt⟩] at hbyte
      rw [hbyte, List.getElem?_eq_getElem (by omega)]
      rfl
  · intro hall
    apply List.ext_getElem?
    intro i
    have hbyte := getElem?_readAt img offset n i
    rw [hput, getElem?_readAt (blankOut apoff img), getElem?_blankOut]
    by_cases hi : i < (readAt img offset n).length
    · have hin : i < n := by omega
      rw [if_pos hin] at hbyte ⊢
      rw [List.getElem?_eq_getElem (show offset + i < img.length by omega)] at hbyte ⊢
      by_cases happ : apoff ≤ offset + i ∧ offset + i < apoff + 512
      · rw [if_pos happ]
        rcases hall i hi happ.1 happ.2 with hput' | hblank
        · rw [if_pos hput']
          rfl
        · rw [List.getElem?_eq_getElem (show offset + i < img.length by omega)] at hblank
          rw [hbyte, hblank, ite_self]
          rfl
      · rw [if_neg happ, if_neg fun hin => happ (hdata i hin.1 hin.2), hbyte]
    · have hnone : (readAt img offset n)[i]? = none := List.getElem?_eq_none (Nat.not_lt.mp hi)
      rw [if_neg (by omega), hnone]
      rw [hnone] at hbyte
      by_cases hin : i < n
      · rw [if_pos hin] at hbyte ⊢
        rw [← hbyte, Option.map_none, ite_self]
      · rw [if_neg hin]

/-- `memset` within the buffer. -/
theorem memset_of_le {buf : Bytes} (hle : len ≤ buf.length) (hsize : buf.length ≤ bufsize) :
    memset 0 len buf = some (overwrite 0 (List.replicate len blank) buf) := by
  have hbuf : bufsize = 32768 := rfl
  have hlen : (((len : Int) - (0 : Nat)) % 2 ^ 32).toNat = len := by omega
  simp only [memset, hlen]
  rw [if_pos (by omega)]

/-- Everything that can happen to a part: the blanks leave it, or they are put over all
application data in it, but not over as many bytes at its end as stand before them. -/
theorem restoreAppdata_cases (apoff offset : Nat) {buf : Bytes} (hsize : buf.length ≤ bufsize) :
    (offset < apoff ∧ apoff ≤ offset + buf.length ∧ buf.length < 2 * (apoff - offset) ∧
        restoreAppdata apoff offset buf = none) ∨
      ∃ start len, start + len ≤ buf.length ∧
        (offset < apoff → apoff ≤ offset + buf.length → 2 * (apoff - offset) ≤ buf.length) ∧
        (∀ i < buf.length, start ≤ i ∧ i < start + len ↔
          (apoff ≤ offset + i ∧ offset + i < apoff + 512) ∧
            (offset < apoff → offset + i < apoff + (buf.length - 2 * (apoff - offset)))) ∧
        restoreAppdata apoff offset buf =
          some (overwrite start (List.replicate len blank) buf) := by
  have hbuf : bufsize = 32768 := rfl
  by_cases hreach : offset < apoff ∧ apoff ≤ offset + buf.length
  · obtain ⟨hlt, hle⟩ := hreach
    rw [restoreAppdata_of_lt hlt hle hsize]
    by_cases hroom : 2 * (apoff - offset) ≤ buf.length
    · right
      refine ⟨apoff - offset, min 512 (buf.length - 2 * (apoff - offset)), by omega,
        fun _ _ => hroom, ?_, if_pos hroom⟩
      intro i hi
      omega
    · exact Or.inl ⟨hlt, hle, Nat.not_le.mp hroom, if_neg hroom⟩
  · -- the application data began in an earlier read, or do not begin yet
    right
    simp only [restoreAppdata]
    rw [if_neg hreach]
    by_cases hwithin : apoff ≤ offset ∧ offset + buf.length < apoff + 512
    · refine ⟨0, buf.length, by omega, by omega, fun i hi => by omega, ?_⟩
      rw [if_pos hwithin, memset_of_le (Nat.le_refl _) hsize]
    · rw [if_neg hwithin]
      by_cases hend : offset < apoff + 512 ∧ apoff + 512 ≤ offset + buf.length
      · refine ⟨0, apoff + 512 - offset, by omega, by omega, fun i hi => by omega, ?_⟩
        rw [if_pos hend, memset_of_le (by omega) hsize]
      · refine ⟨0, 0, by omega, by omega, fun i hi => by omega, ?_⟩
        rw [if_neg hend]
        rfl

theorem length_of_restoreAppdata {buf buf' : Bytes} (hsize : buf.length ≤ bufsize)
    (h : restoreAppdata apoff offset buf = some buf') : buf'.length = buf.length := by
  rcases restoreAppdata_cases apoff offset hsize with
    ⟨_, _, _, hnone⟩ | ⟨start, len, hroom, _, _, hsome⟩
  · rw [hnone] at h
    cases h
  · rw [hsome] at h
    obtain rfl := Option.some.inj h
    rw [length_overwrite]
    rwa [List.length_replicate]

/-- What comes out of one read is right just if it is enough. -/
theorem restoreAppdata_iff (hsize : (readAt img offset n).length ≤ bufsize) :
    restoreAppdata apoff offset (readAt img offset n) =
        some (readAt (blankOut apoff img) offset n) ↔
      Enough apoff offset (readAt img offset n).length img := by
  rcases restoreAppdata_cases apoff offset hsize with
    ⟨hlt, hle, hroom, hnone⟩ | ⟨start, len, hroom, hlong, hplace, hsome⟩
  · rw [hnone]
    constructor
    · intro h
      cases h
    · intro henough
      exact absurd (henough hlt hle).1 (Nat.not_le.mpr hroom)
  · rw [hsome, Option.some.injEq,
      overwrite_eq_iff hroom fun i hfrom hto => ((hplace i (by omega)).mp ⟨hfrom, hto⟩).1]
    constructor
    · intro hall hlt hle
      refine ⟨hlong hlt hle, fun i hi hout hin => ?_⟩
      have hblank := hall (apoff - offset + i) (by omega) (by omega) (by omega)
      rw [hplace _ (by omega), show offset + (apoff - offset + i) = apoff + i by omega] at hblank
      refine hblank.resolve_left fun hput => ?_
      have := hput.2 hlt
      omega
    · intro henough i hi hfrom hto
      rw [hplace i hi]
      by_cases hput : offset < apoff → offset + i <
          apoff + ((readAt img offset n).length - 2 * (apoff - offset))
      · exact Or.inl ⟨⟨hfrom, hto⟩, hput⟩
      · obtain ⟨hlt, hout⟩ := Classical.not_imp.mp hput
        have hblank := (henough hlt (by omega)).2 (offset + i - apoff) (by omega) (by omega)
          (by omega)
        rw [show apoff + (offset + i - apoff) = offset + i by omega] at hblank
        exact Or.inr hblank

theorem inside_of_enough {nread : Nat} (hsize : nread ≤ bufsize)
    (h : Enough apoff offset nread img) : Inside apoff offset nread := by
  have hbuf : bufsize = 32768 := rfl
  intro start stop hrange
  simp only [appdataRange] at hrange
  split at hrange
  · rename_i hreach
    obtain ⟨hroom, _⟩ := h hreach.1 hreach.2
    obtain ⟨rfl, rfl⟩ := Prod.mk.inj (Option.some.inj hrange)
    omega
  · split at hrange
    · obtain ⟨rfl, rfl⟩ := Prod.mk.inj (Option.some.inj hrange)
      omega
    · split at hrange
      · obtain ⟨rfl, rfl⟩ := Prod.mk.inj (Option.some.inj hrange)
        omega
      · cases hrange

end Blanks

section Runs

variable (r : Reads) (limit : Int) (apoff : Nat) (img : Bytes)

/-- The bytes that go into the sum from call number `k` on. -/
def hashed (k offset : Nat) : Option Bytes :=
  if (offset : Int) < limit then
    if _ : got r limit img k offset = [] then some []
    else
      match restoreAppdata apoff offset (got r limit img k offset) with
      | none => none
      | some buf =>
        (hashed (k + 1) (offset + (got r limit img k offset).length)).map fun rest => buf ++ rest
  else some []
termination_by img.length - offset
decreasing_by
  have hlen := List.length_pos_iff.mpr ‹got r limit img k offset ≠ []›
  rw [got, length_readAt] at hlen ⊢
  omega

variable {r limit apoff img} {k j offset : Nat}

theorem checkLoop_eq (h : Md5) (ctx : h.Ctx) :
    checkLoop r limit apoff img h k offset ctx =
      (hashed r limit apoff img k offset).map (h.update ctx) := by
  fun_induction checkLoop r limit apoff img h k offset ctx with
  | case1 k offset ctx hlt hend =>
    rw [hashed, if_pos hlt, dif_pos hend, Option.map_some, h.update_nil]
  | case2 k offset ctx hlt hgot hnone =>
    rw [hashed, if_pos hlt, dif_neg hgot, hnone]
    rfl
  | case3 k offset ctx hlt hgot buf hbuf ih =>
    rw [hashed, if_pos hlt, dif_neg hgot, hbuf, ih, Option.map_map]
    congr 1
    funext rest
    exact h.update_append ctx buf rest
  | case4 k offset ctx hlt => rw [hashed, if_neg hlt, Option.map_some, h.update_nil]

theorem length_got (r : Reads) (limit : Int) (img : Bytes) (k offset : Nat) :
    (got r limit img k offset).length =
      min (min (r.count k) (min (limit - offset) bufsize).toNat) (img.length - offset) :=
  length_readAt ..

theorem length_got_le (r : Reads) (limit : Int) (img : Bytes) (k offset : Nat) :
    (got r limit img k offset).length ≤ bufsize := by
  rw [length_got]
  omega

/-- A call gets something, except at the limit or at the end of the image. -/
theorem got_eq_nil_iff :
    got r limit img k offset = [] ↔ limit ≤ offset ∨ img.length ≤ offset := by
  have hbuf : bufsize = 32768 := rfl
  have hpos := r.pos k
  rw [← List.length_eq_zero_iff, length_got]
  omega

/-- Once a call gets nothing the place does not change. -/
theorem position_of_nil (hnil : got r limit img k (position r limit img k) = []) (hle : k ≤ j) :
    position r limit img j = position r limit img k := by
  induction j, hle using Nat.le_induction with
  | base => rfl
  | succ j _ ih =>
    have hstop : got r limit img j (position r limit img k) = [] :=
      got_eq_nil_iff.mpr (got_eq_nil_iff.mp hnil)
    rw [position, ih, hstop]
    rfl

theorem enough_of_nil (hnil : got r limit img k (position r limit img k) = []) (hle : k ≤ j) :
    Enough apoff (position r limit img j)
      (got r limit img j (position r limit img j)).length img := by
  have hstop : got r limit img j (position r limit img k) = [] :=
    got_eq_nil_iff.mpr (got_eq_nil_iff.mp hnil)
  rw [position_of_nil hnil hle, hstop, List.length_nil]
  intro hlt hreach
  omega

theorem restoreAppdata_got_iff :
    restoreAppdata apoff offset (got r limit img k offset) =
        some (got r limit (blankOut apoff img) k offset) ↔
      Enough apoff offset (got r limit img k offset).length img :=
  restoreAppdata_iff (length_got_le ..)

theorem length_got_blankOut :
    (got r limit (blankOut apoff img) k offset).length = (got r limit img k offset).length := by
  rw [length_got, length_got, length_blankOut]

/-- What remains for the sum is what the next call gets, and the rest. -/
theorem drop_eq_got_append (hlt : (offset : Int) < limit) :
    ((blankOut apoff img).take limit.toNat).drop offset =
      got r limit (blankOut apoff img) k offset ++
        ((blankOut apoff img).take limit.toNat).drop
          (offset + (got r limit img k offset).length) := by
  have hle : offset + min (r.count k) (min (limit - offset) bufsize).toNat ≤ limit.toNat := by
    omega
  have hparts := drop_take_eq_append (l := blankOut apoff img) hle
  rwa [← got, length_got_blankOut] at hparts

theorem got_full (limit : Int) (img : Bytes) (k offset : Nat) :
    got Reads.full limit img k offset = readAt img offset (min (limit - offset) bufsize).toNat := by
  have hle : (min (limit - offset) bufsize).toNat ≤ Reads.full.count k := by
    have hcount : Reads.full.count k = bufsize := rfl
    omega
  rw [got, Nat.min_eq_right hle]

/-- With full reads the loop is the one of `Mediacheck`. -/
theorem checkLoop_full (h : Md5) (ctx : h.Ctx) : ∀ k,
    checkLoop Reads.full limit apoff img h k offset ctx =
      Mediacheck.checkLoop h limit apoff img offset ctx := by
  fun_induction Mediacheck.checkLoop h limit apoff img offset ctx with
  | case1 offset ctx hlt hend =>
    intro k
    rw [checkLoop, if_pos hlt, dif_pos (got_eq_nil_iff.mpr (Or.inr hend))]
  | case2 offset ctx hlt n hend hnone =>
    intro k
    have hgot : got Reads.full limit img k offset ≠ [] :=
      fun hnil => (got_eq_nil_iff.mp hnil).elim (Int.not_le.mpr hlt) hend
    rw [checkLoop, if_pos hlt, dif_neg hgot, got_full, hnone]
  | case3 offset ctx hlt n hend buf hbuf ih =>
    intro k
    have hgot : got Reads.full limit img k offset ≠ [] :=
      fun hnil => (got_eq_nil_iff.mp hnil).elim (Int.not_le.mpr hlt) hend
    rw [checkLoop, if_pos hlt, dif_neg hgot, got_full, hbuf]
    exact ih (k + 1)
  | case4 offset ctx hlt =>
    intro k
    rw [checkLoop, if_neg hlt]

theorem checkmd5sum_full (h : Md5) (img : Bytes) :
    checkmd5sum Reads.full img h = Mediacheck.checkmd5sum h img := by
  rw [checkmd5sum, Mediacheck.checkmd5sum]
  cases parsepvd img with
  | none => rfl
  | some pvd =>
    cases hloop : Mediacheck.checkLoop h (limit pvd.isosize) (pvd.offset + appdataOffset) img 0
      h.init with
    | none => simp only [checkLoop_full, hloop]
    | some ctx => simp only [checkLoop_full, hloop]

/-- The bytes are right from one call on just if every call from there on gets enough. -/
theorem hashed_iff (k offset : Nat) (hoffset : offset = position r limit img k) :
    hashed r limit apoff img k offset =
        some (((blankOut apoff img).take limit.toNat).drop offset) ↔
      ∀ j, k ≤ j → Enough apoff (position r limit img j)
        (got r limit img j (position r limit img j)).length img := by
  fun_induction hashed r limit apoff img k offset with
  | case1 k offset hlt hend =>
    subst hoffset
    have hout := got_eq_nil_iff.mp hend
    have hnil : ((blankOut apoff img).take limit.toNat).drop (position r limit img k) = [] := by
      refine List.drop_eq_nil_of_le ((List.length_take_le' _ _).trans ?_)
      rw [length_blankOut]
      omega
    rw [hnil]
    exact ⟨fun _ j hle => enough_of_nil hend hle, fun _ => rfl⟩
  | case2 k offset hlt hgot hnone =>
    subst hoffset
    constructor
    · intro h
      cases h
    · intro hall
      have hsome := restoreAppdata_got_iff.mpr (hall k (Nat.le_refl k))
      rw [hnone] at hsome
      cases hsome
  | case3 k offset hlt hgot buf hbuf ih =>
    subst hoffset
    have hlen := length_of_restoreAppdata (length_got_le ..) hbuf
    rw [drop_eq_got_append (r := r) (k := k) hlt]
    constructor
    · intro heq
      obtain ⟨rest, hrest, happend⟩ := Option.map_eq_some_iff.mp heq
      obtain ⟨rfl, rfl⟩ := List.append_inj happend (hlen.trans length_got_blankOut.symm)
      intro j hj
      rcases Nat.eq_or_lt_of_le hj with rfl | hlater
      · exact restoreAppdata_got_iff.mp hbuf
      · exact (ih rfl).mp hrest j hlater
    · intro hall
      have hfirst := restoreAppdata_got_iff.mpr (hall k (Nat.le_refl k))
      rw [hbuf] at hfirst
      obtain rfl := Option.some.inj hfirst
      rw [(ih rfl).mpr fun j hj => hall j (Nat.le_of_succ_le hj)]
      rfl
  | case4 k offset hlt =>
    subst hoffset
    have hend : got r limit img k (position r limit img k) = [] :=
      got_eq_nil_iff.mpr (Or.inl (Int.not_lt.mp hlt))
    have hnil : ((blankOut apoff img).take limit.toNat).drop (position r limit img k) = [] :=
      List.drop_eq_nil_of_le ((List.length_take_le _ _).trans (by omega))
    rw [hnil]
    exact ⟨fun _ j hle => enough_of_nil hend hle, fun _ => rfl⟩

end Runs

section Results

/-- With two sequences of reads that are both right the verdict is the same. -/
theorem checkmd5sum_congr {r r' : Reads} {img : Bytes}
    (hright : ∀ pvd, parsepvd img = some pvd → Right r pvd.offset pvd.isosize img)
    (hright' : ∀ pvd, parsepvd img = some pvd → Right r' pvd.offset pvd.isosize img) (h : Md5) :
    checkmd5sum r img h = checkmd5sum r' img h := by
  rw [checkmd5sum, checkmd5sum]
  cases hparse : parsepvd img with
  | none => rfl
  | some pvd =>
    simp only [(hright pvd hparse).sum h, (hright' pvd hparse).sum h]

/-- The media check is right for a sequence of reads just if the one that comes to the
application data gets enough of them. -/
theorem right_reads_iff (r : Reads) (pvd : Nat) (isosize : Int) (img : Bytes) :
    Right r pvd isosize img ↔
      ∀ k, Enough (pvd + appdataOffset) (position r (limit isosize) img k)
        (got r (limit isosize) img k (position r (limit isosize) img k)).length img := by
  constructor
  · intro hright k
    -- a sum that is the stream itself
    have hsum := hright.sum (Md5.of fun _ _ => 0)
    rw [checkLoop_eq] at hsum
    obtain ⟨rest, hrest, hstream⟩ := Option.map_eq_some_iff.mp hsum
    have hbytes : rest = (blankOut (pvd + appdataOffset) img).take (limit isosize).toNat :=
      List.append_cancel_left hstream
    refine (hashed_iff 0 0 rfl).mp ?_ k (Nat.zero_le k)
    rw [hrest, hbytes, List.drop_zero]
  · intro henough
    refine ⟨fun k => inside_of_enough (length_got_le ..) (henough k), fun h => ?_⟩
    rw [checkLoop_eq, (hashed_iff 0 0 rfl).mpr fun j _ => henough j,
      List.drop_zero]
    rfl

/-- The second read gets 1024 bytes only, fewer after the beginning of the application data
than before it. -/
theorem short_read_wrong : ¬ ∀ (r : Reads) (pvd : Nat) (img : Bytes),
    findPvd img (16 * 2048) = some pvd → Right r pvd (isosize img pvd) img := by
  intro hall
  have hright := hall ⟨fun k => if k = 0 then 32768 else 1024, fun k => by split <;> decide⟩ 32768
    (volume 524288) (findPvd_volume (by decide))
  rw [isosize_volume (by decide)] at hright
  have hposition : position ⟨fun k => if k = 0 then 32768 else 1024, fun k => by split <;> decide⟩
      (limit 524288) (volume 524288) 1 = 32768 := by
    rw [position, position, length_got, (length_volume (by decide)).2.2]
    decide
  have hinside := hright.inside 1
  rw [hposition, length_got, (length_volume (by decide)).2.2] at hinside
  have hrange := hinside 883 141 (by decide)
  exact absurd hrange (by decide)

end Results

end ShortReads
