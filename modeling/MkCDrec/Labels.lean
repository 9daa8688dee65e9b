import MkCDrec.TarIt

/-!
# Labels of volumes

The restore finds its way by the marker files on the volumes: the label of a
volume is the only marker on it, the labels count the volumes, and `LAST_CD` is on
the last. The counter goes through a file from the `cutstream` of one file system
to that of the next, so the statement is about whole runs of `tar-it.sh`.
-/

namespace Labels

open Directory ShellText SplitFile MakeIso Backup Cutstream TarIt

/-- What the restore relies on. -/
structure WellLabelled (c : Config) (w : World) : Prop where
  single : w.volno = 0 → w.built.map Image.label = [volId c 0] ∧ '_' ∉ volId c 0
  several : 0 < w.volno → w.built.map Image.label = (List.range' 1 w.volno).map (volId c)
  own : ∀ i ∈ w.built, markers i.files = [i.label]
  last : ∃ init i, w.built = init ++ [i] ∧ lastCd ∈ i.files ∧ ∀ j ∈ init, lastCd ∉ j.files

/-- Before the last volume: the volumes made so far are numbered from one, and
`ISOFS_DIR` holds no label. -/
structure Labelled (c : Config) (w : World) : Prop where
  labels : w.built.map Image.label = (List.range' 1 w.volno).map (volId c)
  own : ∀ i ∈ w.built, markers i.files = [i.label]
  notLast : ∀ i ∈ w.built, lastCd ∉ i.files
  unmarked : ∀ x ∈ w.isofs, isMarker x = false
  open_ : lastCd ∉ w.isofs

/-- Every run for a volume of a set finishes it. -/
def AllFinish (c : Config) (outcome : Nat → Outcome) : Prop :=
  ∀ n, 0 < n → Finishes c (outcome n) n

variable {c : Config} {destination : Text} {outcome : Nat → Outcome} {o : Outcome} {w : World}

theorem underscore_notMem_volId_zero (c : Config) : '_' ∉ volId c 0 := by
  rw [volId, if_neg (Nat.lt_irrefl 0), List.append_nil]
  simp only [List.mem_append, not_or]
  exact ⟨by decide, c.date_plain.1⟩

theorem Labelled.insert (h : Labelled c w) {x : Text} {b : Bytes} (hm : isMarker x = false)
    (hl : x ≠ lastCd) : Labelled c { w with isofs := w.isofs.insert x b } := by
  refine ⟨h.labels, h.own, h.notLast, ?_, ?_⟩
  · intro y hy
    rcases (AList.mem_insert _).mp hy with rfl | hy
    · exact hm
    · exact h.unmarked y hy
  · intro hy
    rcases (AList.mem_insert _).mp hy with hy | hy
    · exact hl hy.symm
    · exact h.open_ hy

theorem Labelled.fwrite (h : Labelled c w) (b : Bytes) :
    Labelled c ((host c destination outcome).fwrite b w) :=
  ⟨h.labels, h.own, h.notLast, fun x hx => h.unmarked x (mem_modify.mp hx),
    fun hx => h.open_ (mem_modify.mp hx)⟩

/-- One more volume, made at a cut. -/
theorem Labelled.makeISO9660 (h : Labelled c w) (hname : ArchiveName c destination)
    (hfin : Finishes c o (w.volno + 1)) :
    Labelled c (makeISO9660 c true destination o { w with volno := w.volno + 1 }).1 := by
  obtain ⟨iso, hmake⟩ := makeISO9660_finishes (w := { w with volno := w.volno + 1 }) hfin
    (Nat.succ_pos _) true destination
  obtain ⟨d, hstaged, hunmarked, hlast⟩ := staged_unmarked (w := { w with volno := w.volno + 1 })
    o true (fun _ => hname) h.unmarked
  rw [hmake]
  refine ⟨?_, ?_, ?_, ?_, notMem_sweep (by decide)⟩
  · simp only [List.map_append, h.labels, List.map_singleton, image, List.range'_concat,
      Nat.add_comm, Nat.one_mul]
  · intro i hi
    rcases List.mem_append.mp hi with hi | hi
    · exact h.own i hi
    · obtain rfl := List.mem_singleton.mp hi
      exact markers_eq fun x hx => hstaged.marker hunmarked hx
  · intro i hi
    rcases List.mem_append.mp hi with hi | hi
    · exact h.notLast i hi
    · obtain rfl := List.mem_singleton.mp hi
      rw [hstaged.lastCd_iff, hlast]
      exact h.open_
  · intro x hx
    rw [← Bool.not_eq_true]
    exact fun hm => notMem_sweep (swept_of_isMarker hm) hx

/-- Labels are right as far as the volumes counted so far have been finished. The
premise speaks about every volume of a set, so it carries back along a run. -/
def Inv (c : Config) (outcome : Nat → Outcome) (w : World) : Prop :=
  (0 < w.volno → AllFinish c outcome) → Labelled c w

theorem inv_runJob {du : Files → Nat} {maxcdsize : Nat} {j : Job} {w' : World}
    (hm : 0 < maxcdsize) (hj : j.Plain c) (h : Inv c outcome w)
    (hrun : runJob c outcome du maxcdsize j w = .ok w') : Inv c outcome w' := by
  refine runJob_invariant (fun _ => Inv c outcome) (Inv c outcome) hm ?_ ?_ ?_ ?_ (fun _ _ => h) hrun
  · intro _ w h hall
    exact (h hall).insert (hj.archive.notMarker (Reserved.self _))
      (hj.archive.ne_lastCd (Reserved.self _))
  · intro _ w b h hall
    exact (h hall).fwrite b
  · intro w h hall
    rw [makeISO9660_volno] at hall
    have hfin := hall (Nat.succ_pos _)
    exact (h fun _ => hfin).makeISO9660 hj.archive (hfin _ (Nat.succ_pos _))
  · intro _ w h
    refine storeLog_invariant (Inv c outcome) h fun l hl hall => ?_
    obtain ⟨hm, hlast⟩ := hj.log l hl
    exact (h hall).insert hm hlast

/-- Labels stay right through a list of jobs. -/
theorem inv_runJobs {du : Files → Nat} {maxcdsize : Nat} {jobs : List Job} {w' : World}
    (hm : 0 < maxcdsize) (hjobs : ∀ j ∈ jobs, j.Plain c) (h : Inv c outcome w)
    (hrun : runJobs c outcome du maxcdsize jobs w = .ok w') : Inv c outcome w' :=
  runJobs_invariant (Inv c outcome) h (fun j hj _ _ => inv_runJob hm (hjobs j hj)) hrun

theorem labelled_start (hvol : w.volno = 0) (hbuilt : w.built = [])
    (hunmarked : ∀ x ∈ w.isofs, isMarker x = false) (hlast : lastCd ∉ w.isofs) : Labelled c w := by
  refine ⟨?_, ?_, ?_, hunmarked, hlast⟩
  · rw [hbuilt, hvol]; rfl
  · rw [hbuilt]; simp
  · rw [hbuilt]; simp

theorem closeSet_volno (w : World) :
    (closeSet w).volno = if 0 < w.volno then w.volno + 1 else 0 := rfl

theorem lastVolume_volno (c : Config) (outcome : Nat → Outcome) (w : World) :
    (lastVolume c outcome w).volno = (closeSet w).volno := makeISO9660_volno ..

/-- The last image, if it is made, completes the set. -/
theorem Labelled.lastVolume (h : Labelled c w)
    (hmade : (outcome (closeSet w).volno).mkisofs = true)
    (hbootable : (closeSet w).volno ≤ 1 → (outcome (closeSet w).volno).bootable = true) :
    WellLabelled c (lastVolume c outcome w) := by
  have hnew := makeISO9660_built (c := c) hmade hbootable false []
  have hclosedPlain : ∀ x ∈ (closeSet w).isofs, isMarker x = false := by
    intro x hx
    by_cases hx' : x = lastCd
    · subst hx'; decide
    · rw [← AList.lookup_isSome, closeSet, lookup_touch_other hx', AList.lookup_isSome] at hx
      exact h.unmarked x hx
  have hnoName : false = true → ArchiveName c [] := by simp
  obtain ⟨d, hstaged, hplain, hlastIff⟩ :=
    staged_unmarked (outcome (closeSet w).volno) false hnoName hclosedPlain
  have hlabels : (TarIt.lastVolume c outcome w).built.map Image.label =
      (List.range' 1 w.volno).map (volId c) ++ [volId c (closeSet w).volno] := by
    rw [TarIt.lastVolume, hnew, List.map_append]
    exact congrArg (· ++ _) h.labels
  refine ⟨?_, ?_, ?_, ?_⟩
  · intro hzero
    rw [lastVolume_volno, closeSet_volno] at hzero
    have hnone : ¬ 0 < w.volno := by
      intro hpos
      rw [if_pos hpos] at hzero
      omega
    have hv : w.volno = 0 := by omega
    refine ⟨?_, underscore_notMem_volId_zero c⟩
    rw [hlabels, closeSet_volno, if_neg hnone, hv]
    rfl
  · intro hpos
    rw [lastVolume_volno, closeSet_volno] at hpos
    have hcut : 0 < w.volno := by
      by_contra hnone
      rw [if_neg hnone] at hpos
      omega
    rw [hlabels, lastVolume_volno, closeSet_volno, if_pos hcut, List.range'_concat,
      List.map_append, Nat.one_mul, Nat.add_comm 1]
    rfl
  · intro i hi
    rw [TarIt.lastVolume, hnew] at hi
    rcases List.mem_append.mp hi with hi | hi
    · exact h.own i hi
    · obtain rfl := List.mem_singleton.mp hi
      exact markers_eq fun x hx => hstaged.marker hplain hx
  · refine ⟨w.built, _, hnew, ?_, h.notLast⟩
    rw [hstaged.lastCd_iff, hlastIff, ← AList.lookup_isSome, closeSet, lookup_touch, if_pos rfl]
    rfl

def usrJob : Job := { destination := usrArchive, stream := List.replicate 1025 7, log := none }

theorem usrJob_plain : usrJob.Plain diskConfig := ⟨archiveName_usr, fun _ hl => nomatch hl⟩

end Labels
