import MkCDrec.Labels

/-!
# The size of a volume

`tar-it.sh` grants a stream the room that `du` leaves on the first volume, and
`cutstream` the whole of `MAXCDSIZE` on every later one. Neither reckons with what
`makeISO9660.sh` adds before it calls `mkisofs`, with what its `rm` leaves behind
for the next volume, nor with the log that follows the last archive.
-/

namespace Capacity

open Directory ShellText SplitFile MakeIso Backup Cutstream Cutting TarIt Labels

/-- What the `rm` at the end of a volume does not remove. -/
def leftover (d : Files) : Nat := sizeOn (fun x => !swept x) d

/-- The `boot.img` of ia64. -/
def bootSize (o : Outcome) : Nat := o.boot.img.elim 0 List.length

/-- What is added to the image of volume `n`: `autorun.inf`, a log and the checksums, and to the
first one what it starts from. -/
def additions (c : Config) (o : Outcome) (n : Nat) (d : Files) : Nat :=
  c.autorun.elim 0 List.length + o.log.elim 0 (fun l => (storedLog c l).length) +
    ((d.lookup checksums).getD []).length +
    if n ≤ 1 then bootSize o + o.boot.catalog.elim 0 (fun x => x.2.length) else 0

/-- The compressed log of a job. -/
def logSize (c : Config) (j : Job) : Nat := j.log.elim 0 fun l => (c.gzip l.2).length

/-- Logs are visible files at the top of `ISOFS_DIR`. -/
structure PlainLogs (c : Config) (outcome : Nat → Outcome) (jobs : List Job) : Prop where
  added : ∀ n, ∀ l ∈ (outcome n).log, swept (logPrefix l.name ++ logSuffix) = true
  stored : ∀ j ∈ jobs, ∀ l ∈ j.log, swept (l.1 ++ gzSuffix) = true

section Sizes

variable {c : Config} {o : Outcome} {volid : Text} {p : Text → Bool}

/-- A part lies where its file lies. -/
theorem swept_partName (g : Text) (n : Nat) : swept (partName g n) = swept g := by
  have hsuffix : '/' ∉ ".part".toList ++ numeral n := by
    simp only [List.mem_append, not_or]
    exact ⟨by decide, notMem_numeral (by decide) n⟩
  have hname : partName g n = g ++ (".part".toList ++ numeral n) := List.append_assoc ..
  rw [hname, swept, swept]
  by_cases hslash : '/' ∈ g
  · have hin : '/' ∈ g ++ (".part".toList ++ numeral n) := List.mem_append_left _ hslash
    have hnot : (g.takeWhile (· ≠ '/')).length ≠ g.length := by
      intro h
      rw [← (List.takeWhile_prefix _).eq_of_length h] at hslash
      have hne := List.all_eq_true.mp List.all_takeWhile '/' hslash
      simp at hne
    rw [if_pos (by simpa using hin), if_pos (by simpa using hslash), List.takeWhile_append,
      if_neg hnot]
  · have hin : '/' ∉ g ++ (".part".toList ++ numeral n) := by
      simp only [List.mem_append (s := g), not_or]
      exact ⟨hslash, hsuffix⟩
    rw [if_neg (by simpa using hin), if_neg (by simpa using hslash)]
    cases g with
    | nil => rfl
    | cons a g => rfl

theorem sizeOn_addFiles_le (d : Files) :
    sizeOn p (addFiles c o volid d) ≤ sizeOn p d +
      ((if p autorunInf then c.autorun.elim 0 List.length else 0) +
      o.log.elim 0 fun l =>
        if p (logPrefix l.name ++ logSuffix) then (storedLog c l).length else 0) := by
  have hempty := (sizeOn_touch_le p c.identity (touch volid [] d)).trans (sizeOn_touch_le p volid d)
  obtain ⟨d', hfiles, hauto⟩ : ∃ d' : Files,
      addFiles c o volid d =
          o.log.elim d' (fun l => d'.insert (logPrefix l.name ++ logSuffix) (storedLog c l)) ∧
        sizeOn p d' ≤ sizeOn p d + if p autorunInf then c.autorun.elim 0 List.length else 0 := by
    cases hc : c.autorun with
    | none =>
      refine ⟨touch c.identity [] (touch volid [] d), ?_, by simpa using hempty⟩
      simp only [addFiles, hc]
      cases o.log <;> rfl
    | some b =>
      refine ⟨(touch c.identity [] (touch volid [] d)).insert autorunInf b, ?_,
        (sizeOn_insert_le _ _ _ _).trans (Nat.add_le_add_right hempty _)⟩
      simp only [addFiles, hc]
      cases o.log <;> rfl
  rw [hfiles]
  cases o.log with
  | none =>
    rw [Option.elim_none, Option.elim_none, Nat.add_zero]
    exact hauto
  | some l =>
    refine (sizeOn_insert_le _ _ _ _).trans ?_
    rw [← Nat.add_assoc]
    exact Nat.add_le_add_right hauto _

theorem sizeOn_addChecksums (d : Files) :
    sizeOn p (addChecksums c d) ≤ sizeOn p d +
      if p checksums then (((addChecksums c d).lookup checksums).getD []).length else 0 := by
  have helim : ∀ x : Option Bytes, x.elim 0 (fun b => if p checksums then b.length else 0) =
      if p checksums then (x.getD []).length else 0 := by
    intro x
    cases x <;> simp
  refine List.foldlRecOn (motive := fun acc => sizeOn p acc ≤ sizeOn p d +
    if p checksums then ((acc.lookup checksums).getD []).length else 0) d.keys _
    (Nat.le_add_right _ _) ?_
  intro acc h fl _
  cases acc.lookup fl with
  | none => exact h
  | some b =>
    have hinsert := total_insert acc (fun x b => if p x then b.length else 0) checksums
      ((acc.lookup checksums).getD [] ++ c.md5sum fl b)
    rw [helim] at hinsert
    simp only [AList.lookup_insert, Option.getD_some]
    simp only [sizeOn] at h ⊢
    omega

theorem sizeOn_addBoot_le (n : Nat) (d : Files) :
    sizeOn p (addBoot o n d) ≤ sizeOn p d + if n ≤ 1 then bootSize o else 0 := by
  rw [addBoot]
  split
  · rename_i hfirst
    have hcopy : sizeOn p (o.boot.img.elim d fun b => d.insert bootImg b) ≤
        sizeOn p d + bootSize o := by
      rw [bootSize]
      cases o.boot.img with
      | none => exact Nat.le_refl _
      | some b =>
        refine (sizeOn_insert_le p bootImg b d).trans (Nat.add_le_add_left ?_ _)
        rw [Option.elim_some]
        split <;> omega
    rw [if_pos hfirst.1]
    refine Nat.le_trans ?_ hcopy
    refine total_modify_le (n := 0) _ fun b => ?_
    rw [length_writeTable, Nat.add_zero]
  · exact Nat.le_add_right _ _

theorem size_addCatalog_le (n : Nat) (d : Files) : size (addCatalog o n d) ≤
    size d + if n ≤ 1 then o.boot.catalog.elim 0 (fun x => x.2.length) else 0 := by
  rw [addCatalog]
  split
  · cases o.boot.catalog with
    | none => exact Nat.le_refl _
    | some x => exact sizeOn_insert_le (fun _ => true) x.1 x.2 d
  · exact Nat.le_refl _

/-- What an image holds beyond what `ISOFS_DIR` held before. -/
theorem size_stage_le (d : Files) : size (stage c o volid d) ≤
    size d + (c.autorun.elim 0 List.length + o.log.elim 0 (fun l => (storedLog c l).length) +
      (((stage c o volid d).lookup checksums).getD []).length) := by
  have hadd := @sizeOn_addFiles_le c o volid (fun _ => true) d
  have hsplit := sizeOn_splitAll_le (p := fun _ => true) (fun _ _ => rfl) (addFiles c o volid d)
  have hsums := sizeOn_addChecksums (c := c) (p := fun _ => true) (splitAll (addFiles c o volid d))
  simp only [if_true] at hadd hsums
  simp only [size, stage]
  omega

/-- What the `rm` will leave behind is not added to. -/
theorem leftover_stage_le (hlog : ∀ l ∈ o.log, swept (logPrefix l.name ++ logSuffix) = true)
    (d : Files) : leftover (stage c o volid d) ≤ leftover d := by
  have hadd := @sizeOn_addFiles_le c o volid (fun x => !swept x) d
  have hsplit := sizeOn_splitAll_le (p := fun x => !swept x)
    (fun g n => by rw [swept_partName]) (addFiles c o volid d)
  have hsums := sizeOn_addChecksums (c := c) (p := fun x => !swept x)
    (splitAll (addFiles c o volid d))
  have hauto : swept autorunInf = true := by decide
  have hchecks : swept checksums = true := by decide
  have hnone : o.log.elim 0 (fun l => if !swept (logPrefix l.name ++ logSuffix) then
      (storedLog c l).length else 0) = 0 := by
    cases ho : o.log with
    | none => rfl
    | some l => simp [hlog l (by simp [ho])]
  simp only [hauto, hchecks, Bool.not_true, Bool.false_eq_true, if_false, Nat.add_zero, hnone]
    at hadd hsums
  exact hsums.trans (hsplit.trans hadd)

end Sizes

/-- The room that is granted for the volume after number `volno`. -/
def budget (maxcdsize spare volno : Nat) : Nat := maxcdsize * 1024 + if volno = 0 then 0 else spare

/-- An image for volume `n` keeps to its budget, but for what the script adds. -/
def Fits (c : Config) (outcome : Nat → Outcome) (maxcdsize spare n extra : Nat) (i : Image) : Prop :=
  i.label = volId c n ∧
    size i.files ≤ budget maxcdsize spare (n - 1) + additions c (outcome n) n i.files + extra

/-- The volumes made so far keep to their budgets, and the `rm` has left no more than
`spare` behind, once `boot.img` has been copied. -/
structure Within (c : Config) (outcome : Nat → Outcome) (maxcdsize spare : Nat) (w : World) :
    Prop where
  images : ∀ i ∈ w.built, ∃ n, n ≤ w.volno ∧ Fits c outcome maxcdsize spare n 0 i
  left : leftover w.isofs + (if w.volno = 0 then bootSize (outcome 1) else 0) ≤ spare

/-- `ISOFS_DIR` with room for `r` more bytes of the archive. -/
structure Filling (c : Config) (outcome : Nat → Outcome) (maxcdsize spare r : Nat) (w : World) :
    Prop where
  within : Within c outcome maxcdsize spare w
  room : size w.isofs + r ≤ budget maxcdsize spare w.volno

section Runs

variable {c : Config} {outcome : Nat → Outcome} {maxcdsize spare r : Nat} {w : World} {x : Text}

theorem Within.insert (h : Within c outcome maxcdsize spare w) (hx : swept x = true) (b : Bytes) :
    Within c outcome maxcdsize spare { w with isofs := w.isofs.insert x b } := by
  refine ⟨h.images, ?_⟩
  have hinsert := sizeOn_insert_le (fun x => !swept x) x b w.isofs
  simp only [hx, Bool.not_true, Bool.false_eq_true, if_false, Nat.add_zero] at hinsert
  exact (Nat.add_le_add_right hinsert _).trans h.left

theorem Filling.insert (h : Filling c outcome maxcdsize spare r w) (hx : swept x = true) :
    Filling c outcome maxcdsize spare r { w with isofs := w.isofs.insert x [] } := by
  refine ⟨h.within.insert hx [], ?_⟩
  have hinsert := sizeOn_insert_le (fun _ => true) x [] w.isofs
  exact (Nat.add_le_add_right hinsert r).trans h.room

theorem Filling.write {destination : Text} {b : Bytes} (hx : swept destination = true)
    (h : Filling c outcome maxcdsize spare (r + b.length) w) :
    Filling c outcome maxcdsize spare r ((host c destination outcome).fwrite b w) := by
  refine ⟨⟨h.within.images, ?_⟩, ?_⟩
  · have happend := sizeOn_append_le (fun x => !swept x) destination b w.isofs
    simp only [hx, Bool.not_true, Bool.false_eq_true, if_false, Nat.add_zero] at happend
    exact (Nat.add_le_add_right happend _).trans h.within.left
  · have happend := sizeOn_append_le (fun _ => true) destination b w.isofs
    have hroom := h.room
    change sizeOn (fun _ => true) (modify destination (· ++ b) w.isofs) + r ≤ _
    simp only [size, if_true] at hroom happend ⊢
    exact Nat.le_trans (by omega) hroom

theorem size_image_le (continued : Bool) (destination : Text) (o : Outcome) (w : World) :
    size (image c continued destination o w).files ≤
      size w.isofs + additions c o w.volno (image c continued destination o w).files := by
  obtain ⟨d, hfill, hmove⟩ : ∃ d : Files, fill c continued destination o w =
      addBoot o w.volno (stage c o (volId c w.volno) d) ∧ size d ≤ size w.isofs := by
    refine ⟨_, rfl, ?_⟩
    split
    · exact sizeOn_move_le (fun _ => rfl) w.isofs
    · exact Nat.le_refl _
  have hchecksums : checksums ∉ bootFiles := by decide
  have hsums : (image c continued destination o w).files.lookup checksums =
      (stage c o (volId c w.volno) d).lookup checksums := by
    rw [image, hfill, lookup_addCatalog hchecksums, lookup_addBoot hchecksums]
  have hcatalog := size_addCatalog_le (o := o) w.volno (fill c continued destination o w)
  have hboot := sizeOn_addBoot_le (o := o) (p := fun _ => true) w.volno
    (stage c o (volId c w.volno) d)
  have hstage := @size_stage_le c o (volId c w.volno) d
  rw [additions, hsums]
  rw [hfill] at hcatalog
  simp only [image, hfill]
  simp only [size] at *
  split at hcatalog <;> simp_all only [if_true, if_false] <;> omega

theorem leftover_fill_le {continued : Bool} {destination : Text} {o : Outcome}
    (hlog : ∀ l ∈ o.log, swept (logPrefix l.name ++ logSuffix) = true)
    (hname : continued = true → ArchiveName c destination) (w : World) :
    leftover (fill c continued destination o w) ≤
      leftover w.isofs + if w.volno ≤ 1 then bootSize o else 0 := by
  rw [fill]
  refine (sizeOn_addBoot_le _ _).trans (Nat.add_le_add_right ?_ _)
  refine (leftover_stage_le hlog _).trans ?_
  split
  · rename_i h
    have hx := (hname h.2.1).swept (Reserved.uncomplete _)
    exact sizeOn_move_le (by simp [hx]) w.isofs
  · exact Nat.le_refl _

theorem budget_pos {n : Nat} (hn : 0 < n) : budget maxcdsize spare n = maxcdsize * 1024 + spare := by
  rw [budget, if_neg (by omega)]

theorem Fits.mono {n extra extra' : Nat} {i : Image}
    (h : Fits c outcome maxcdsize spare n extra i) (hle : extra ≤ extra') :
    Fits c outcome maxcdsize spare n extra' i :=
  ⟨h.1, h.2.trans (Nat.add_le_add_left hle _)⟩

/-- The image of a directory that keeps to its budget keeps to it as well. -/
theorem fits_image {continued : Bool} {destination : Text} {n extra : Nat}
    (h : size w.isofs ≤ budget maxcdsize spare (n - 1) + extra) :
    Fits c outcome maxcdsize spare n extra
      (image c continued destination (outcome n) { w with volno := n }) := by
  refine ⟨rfl, ?_⟩
  have himage := size_image_le (c := c) continued destination (outcome n) { w with volno := n }
  simp only at himage ⊢
  omega

theorem size_sweep (d : Files) : size (sweep d) = leftover d := by
  simp only [size, sweep, sizeOn_restrict, Bool.and_true, leftover]

theorem leftover_sweep_le (d : Files) : leftover (sweep d) ≤ leftover d := by
  rw [leftover, sweep, sizeOn_restrict]
  exact sizeOn_mono (fun x hx => (Bool.and_eq_true_iff.mp hx).1) d

/-- A finished cut makes room for a whole volume beside what is left behind. -/
theorem Filling.makeISO9660 {destination : Text} (hname : ArchiveName c destination)
    (hlog : ∀ l ∈ (outcome (w.volno + 1)).log, swept (logPrefix l.name ++ logSuffix) = true)
    (hfin : Finishes c (outcome (w.volno + 1)) (w.volno + 1))
    (h : Filling c outcome maxcdsize spare 0 w) :
    Filling c outcome maxcdsize spare (maxcdsize * 1024)
      (makeISO9660 c true destination (outcome (w.volno + 1)) { w with volno := w.volno + 1 }).1 := by
  obtain ⟨iso, hmake⟩ := makeISO9660_finishes (w := { w with volno := w.volno + 1 }) hfin
    (Nat.succ_pos _) true destination
  have hleft : leftover (fill c true destination (outcome (w.volno + 1))
      { w with volno := w.volno + 1 }) ≤ spare := by
    refine (leftover_fill_le hlog (fun _ => hname) _).trans (le_of_eq_of_le ?_ h.within.left)
    by_cases hzero : w.volno = 0
    · simp [hzero]
    · have hlater : ¬ w.volno + 1 ≤ 1 := by omega
      rw [if_neg hlater, if_neg hzero]
  rw [hmake]
  refine ⟨⟨?_, ?_⟩, ?_⟩
  · intro i hi
    rcases List.mem_append.mp hi with hi | hi
    · obtain ⟨n, hn, hfits⟩ := h.within.images i hi
      exact ⟨n, by exact Nat.le_succ_of_le hn, hfits⟩
    · obtain rfl := List.mem_singleton.mp hi
      exact ⟨w.volno + 1, Nat.le_refl _, fits_image (by simpa using h.room)⟩
  · rw [if_neg (Nat.succ_ne_zero _), Nat.add_zero]
    exact (leftover_sweep_le _).trans hleft
  · rw [budget_pos (Nat.succ_pos _), size_sweep]
    omega

/-- As far as every cut has been finished. -/
def Inv (c : Config) (outcome : Nat → Outcome) (w : World) (p : World → Prop) : Prop :=
  (0 < w.volno → AllFinish c outcome) → p w

variable {du : Files → Nat}

/-- `du` counts at least the bytes of the files. -/
def Covers (du : Files → Nat) : Prop := ∀ d, size d ≤ du d * 1024

theorem inv_runJob {jobs : List Job} {j : Job} {w' : World} (hm : 0 < maxcdsize) (hdu : Covers du)
    (hj : j.Plain c) (hlogs : PlainLogs c outcome jobs) (hmem : j ∈ jobs)
    (h : Inv c outcome w (Within c outcome maxcdsize spare))
    (hrun : runJob c outcome du maxcdsize j w = .ok w') :
    Inv c outcome w' fun w' => Within c outcome maxcdsize spare w' ∧
      size w'.isofs ≤ budget maxcdsize spare w'.volno + logSize c j := by
  have hswept : swept j.destination = true := hj.archive.swept (Reserved.self _)
  refine runJob_invariant (fun r w => Inv c outcome w (Filling c outcome maxcdsize spare r))
    (fun w' => Inv c outcome w' fun w' => Within c outcome maxcdsize spare w' ∧
      size w'.isofs ≤ budget maxcdsize spare w'.volno + logSize c j) hm ?_ ?_ ?_ ?_ ?_ hrun
  · intro r w h hall
    exact (h hall).insert hswept
  · intro r w b h hall
    exact (h hall).write hswept
  · intro w h hall
    rw [makeISO9660_volno] at hall
    have hfin := hall (Nat.succ_pos _)
    exact (h fun _ => hfin).makeISO9660 hj.archive (hlogs.added _) (hfin _ (Nat.succ_pos _))
  · intro r w h hall
    have hvol : (storeLog c j w).volno = w.volno := by
      rw [storeLog]
      split <;> rfl
    rw [hvol] at hall ⊢
    have hfill := h hall
    have hroom := hfill.room
    rw [storeLog, logSize]
    split
    · rename_i name content hsome
      have hx := hlogs.stored j hmem _ hsome
      have hinsert := sizeOn_insert_le (fun _ => true) (name ++ gzSuffix) (c.gzip content) w.isofs
      refine ⟨hfill.within.insert hx _, ?_⟩
      rw [hsome]
      simp only [size, if_true, Option.elim_some] at hinsert hroom ⊢
      omega
    · exact ⟨hfill.within, by omega⟩
  · intro capacity hcapacity hall
    refine ⟨h hall, ?_⟩
    have hsize := hdu w.isofs
    rw [capacityLeft] at hcapacity
    rw [budget]
    omega

/-- The log that follows the last archive. -/
def lastLog (c : Config) (jobs : List Job) : Nat := jobs.getLast?.elim 0 (logSize c)

/-- After the last archive only its log is beyond what `du` saw. -/
theorem inv_runJobs {jobs : List Job} {w₁ : World} (hm : 0 < maxcdsize) (hdu : Covers du)
    (hjobs : ∀ j ∈ jobs, j.Plain c) (hlogs : PlainLogs c outcome jobs)
    (hsize : size w.isofs ≤ budget maxcdsize spare w.volno)
    (hbegin : Inv c outcome w (Within c outcome maxcdsize spare))
    (hrun : runJobs c outcome du maxcdsize jobs w = .ok w₁) :
    Inv c outcome w₁ fun w₁ => Within c outcome maxcdsize spare w₁ ∧
      size w₁.isofs ≤ budget maxcdsize spare w₁.volno + lastLog c jobs := by
  rcases List.eq_nil_or_concat jobs with rfl | ⟨init, j, rfl⟩
  · obtain rfl := Except.ok.inj hrun
    exact fun hall => ⟨hbegin hall, hsize.trans (Nat.le_add_right _ _)⟩
  · rw [List.concat_eq_append] at *
    obtain ⟨w₂, hinit, hlast⟩ := runJobs_append hrun
    obtain ⟨w₃, hjob, hnil⟩ := runJobs_cons hlast
    obtain rfl := Except.ok.inj hnil
    have hearlier := runJobs_invariant
      (fun w₂ => Inv c outcome w₂ (Within c outcome maxcdsize spare)) hbegin
      (fun k hk _ _ h hrun hall => (inv_runJob hm hdu (hjobs k (List.mem_append_left _ hk)) hlogs
        (List.mem_append_left _ hk) h hrun hall).1) hinit
    have hin : j ∈ init ++ [j] := by simp
    have := inv_runJob hm hdu (hjobs j hin) hlogs hin hearlier hjob
    rwa [lastLog, List.getLast?_concat]

end Runs

/-- `du -sk` on a file system that wastes nothing. -/
def duKb (d : Files) : Nat := (size d + 1023) / 1024

/-- Some image of a run exceeds a medium of one Kb, even without `more` of it. -/
def exceeds (outcome : Nat → Outcome) (jobs : List Job) (d : Files) (more : Files → Nat) : Bool :=
  match tarIt diskConfig outcome duKb 1 jobs { emptyWorld with isofs := d } with
  | .error _ => false
  | .ok w' => w'.built.any fun i => decide (1024 + more i.files < size i.files)

end Capacity
