import Mathlib.Data.List.Chain
import MkCDrec.VolumeSets

/-!
# Recovery from a set of volumes

The restore loops call `Get_backup_back` for one archive after the other. Nothing changes the
volume between two calls, so that each begins with the volume on which the archive before it
ended. If an archive that is split ends there too, its last part is taken for the whole.
-/

namespace CdRecovery

open Directory ShellText SplitFile MakeIso Backup TarIt Labels RestoreSplit GetBackup VolumeSets
open RoundTrip (insertFrom)

/-- The calls of a restore loop, as far as they go on after errors of `tar`. -/
def restoreAll (insert : Text → Option Files) (fuel : Nat) :
    List Text → Session → Except Failure (List Restored)
  | [], _ => .ok []
  | destination :: rest, s =>
    match getBackupBack insert fuel destination s with
    | .error e => .error e
    | .ok r =>
      match restoreAll insert fuel rest r.session with
      | .error e => .error e
      | .ok rs => .ok (r :: rs)

/-- The index of the first volume with a part of an archive, ... -/
def beginning (images : List Image) (destination : Text) : Nat :=
  images.findIdx fun i => destination ∈ i.files ∨ uncomplete destination ∈ i.files

/-- ... and of the volume with its last part. -/
def ending (images : List Image) (destination : Text) : Nat :=
  images.findIdx fun i => destination ∈ i.files

/-- A volume on which an archive is continued. -/
def Continues (images : List Image) (destination : Text) (k : Nat) : Prop :=
  beginning images destination < k ∧ k ≤ ending images destination

/-- The second archive is whole on one volume, or the first one ends on another volume. -/
def Follows (images : List Image) (x y : Job) : Prop :=
  ending images x.destination = ending images y.destination →
    beginning images y.destination = ending images y.destination

section Drive

variable {destination : Text} {insert : Text → Option Files} {s s' : Session} {out : Bytes}

theorem Stored.mem {d : Files} {name : Text} {data : Bytes} (h : Stored d name data) :
    name ∈ d := by
  obtain ⟨b, hb⟩ := h.exists_file
  exact AList.lookup_isSome.mp (by rw [hb]; rfl)

/-- While a split archive is read, either a further part is announced or the volume is the one
with the last part. -/
inductive Reading (destination : Text) (s : Session) : Prop
  | more (announced : 0 < s.moreToCome.getD 0) (restore : s.restore = uncomplete destination)
      (part : uncomplete destination ∈ s.drive)
  | last (announced : s.moreToCome.getD 0 = 0) (none : uncomplete destination ∉ s.drive)

theorem Reading.askForCd (hmore : 0 < s.moreToCome.getD 0)
    (hrestore : s.restore = uncomplete destination) (hpart : uncomplete destination ∈ s.drive)
    (hask : askForCd insert s = .ok s') :
    Reading destination s' ∧ (s'.drive = s.drive ∨ ∃ x, insert x = some s'.drive) := by
  have hsame : Reading destination s := .more hmore hrestore hpart
  rw [RestoreSplit.askForCd] at hask
  split at hask
  · obtain rfl := Except.ok.inj hask
    exact ⟨hsame, .inl rfl⟩
  split at hask
  · obtain rfl := Except.ok.inj hask
    exact ⟨hsame, .inl rfl⟩
  simp only at hask
  split at hask
  · cases hask
  rename_i d hinsert
  split at hask
  · split at hask
    · rename_i hin
      obtain rfl := Except.ok.inj hask
      exact ⟨.more Nat.one_pos hrestore (hrestore ▸ hin), .inr ⟨_, hinsert⟩⟩
    · rename_i hout
      obtain rfl := Except.ok.inj hask
      exact ⟨.last rfl (hrestore ▸ hout), .inr ⟨_, hinsert⟩⟩
  · cases hask

/-- A split archive has been read when the volume with its last part is in the drive. -/
theorem drive_restoreSplitFile {fuel : Nat}
    (hlast : ∀ x d, insert x = some d → lastCd ∈ d → uncomplete destination ∉ d)
    (hdrive : lastCd ∈ s.drive → uncomplete destination ∉ s.drive) (hs : Reading destination s)
    (hrun : restoreSplitFile insert fuel (uncomplete destination) s = .ok (out, s')) :
    destination ∈ s'.drive := by
  induction fuel generalizing s out with
  | zero => cases hrun
  | succ fuel ih =>
    cases hs with
    | more announced restore part =>
      have hopen : lastCd ∉ s.drive := fun h => hdrive h part
      simp only [restoreSplitFile, part, if_true, hopen, if_false, announced] at hrun
      split at hrun
      · cases hrun
      rename_i s'' hask
      split at hrun
      · cases hrun
      rename_i hrest
      obtain ⟨hreading, hnext⟩ := Reading.askForCd announced restore part hask
      obtain ⟨-, rfl⟩ := Prod.mk.inj (Except.ok.inj hrun)
      refine ih ?_ hreading hrest
      rcases hnext with hsame | ⟨x, hinsert⟩
      · rw [hsame]
        exact hdrive
      · exact hlast x _ hinsert
    | last announced none =>
      have hchop : chop '_' (uncomplete destination) = destination := chop_append '_' destination
      simp only [restoreSplitFile, none, if_false, hchop, announced, ite_self,
        Nat.lt_irrefl] at hrun
      split at hrun
      · rename_i hin
        obtain ⟨-, rfl⟩ := Prod.mk.inj (Except.ok.inj hrun)
        exact hin
      · cases hrun

/-- Whatever volume the loop begins with, it ends with the one with the last part. -/
theorem drive_search {cdrecDate volno : Text} {fuel : Nat} {r : Restored}
    (hlast : ∀ x d, insert x = some d → lastCd ∈ d → uncomplete destination ∉ d)
    (hdrive : lastCd ∈ s.drive → uncomplete destination ∉ s.drive)
    (hmore : s.moreToCome.getD 0 = 0)
    (hrun : search insert destination cdrecDate fuel volno s = .ok r) :
    destination ∈ r.session.drive := by
  induction fuel generalizing s volno with
  | zero => cases hrun
  | succ fuel ih =>
    rw [search] at hrun
    split at hrun
    · rename_i hin
      simp only [restoreSplitFile, hin, if_true, hmore, ite_self, Nat.lt_irrefl,
        if_false] at hrun
      obtain rfl := Except.ok.inj hrun
      exact hin
    · split at hrun
      · rename_i hin
        split at hrun
        · cases hrun
        rename_i hsplit
        obtain rfl := Except.ok.inj hrun
        refine drive_restoreSplitFile hlast ?_ ?_ hsplit
        · exact hdrive
        · exact .more Nat.one_pos rfl hin
      · split at hrun
        · cases hrun
        split at hrun
        · cases hrun
        rename_i d hinsert
        refine ih ?_ ?_ hrun
        · exact hlast _ d hinsert
        · exact hmore

end Drive

section Places

variable {c : Config} {destination : Text} {images : List Image} {first k : Nat} {ps : List Bytes}
  {t : Bytes} {i : Image} {w : World}

theorem ending_of_placed (h : Placed destination first ps t images)
    (hcount : first + ps.length < images.length) :
    ending images destination = first + ps.length := by
  rw [ending, List.findIdx_eq hcount]
  refine ⟨?_, ?_⟩
  · exact decide_eq_true (Stored.mem (h.tail _ (List.getElem?_eq_getElem hcount)).1)
  · intro k hk
    have hget : images[k]? = some images[k] := List.getElem?_eq_getElem (by omega)
    rw [decide_eq_false_iff_not]
    by_cases hbefore : k < first
    · exact (h.others k _ hget (.inl hbefore)).1
    · obtain ⟨d, rfl⟩ := Nat.exists_eq_add_of_le (Nat.le_of_not_lt hbefore)
      have hd : d < ps.length := by omega
      exact (h.parts d _ _ hget (List.getElem?_eq_getElem hd)).2

theorem beginning_of_placed (h : Placed destination first ps t images)
    (hcount : first + ps.length < images.length) : beginning images destination = first := by
  have hlt : first < images.length := by omega
  have hget : images[first]? = some images[first] := List.getElem?_eq_getElem hlt
  rw [beginning, List.findIdx_eq hlt]
  refine ⟨?_, ?_⟩
  · rw [decide_eq_true_eq]
    by_cases hps : ps.length = 0
    · exact .inl (Stored.mem (h.tail _ (by rw [hps]; exact hget)).1)
    · have hzero : 0 < ps.length := Nat.pos_of_ne_zero hps
      exact .inr (Stored.mem (h.parts 0 _ _ hget (List.getElem?_eq_getElem hzero)).1)
  · intro k hk
    obtain ⟨hwhole, hpart⟩ := h.others k _ (List.getElem?_eq_getElem (by omega)) (.inl hk)
    rw [decide_eq_false_iff_not, not_or]
    exact ⟨hwhole, hpart⟩

/-- Only the volume at `ending` has the last part. -/
theorem eq_ending (h : Placed destination first ps t images)
    (hcount : first + ps.length < images.length) (hi : images[k]? = some i)
    (hmem : destination ∈ i.files) : k = ending images destination := by
  rw [ending_of_placed h hcount]
  by_contra hne
  rcases Nat.lt_or_gt_of_ne hne with hlt | hgt
  · by_cases hbefore : k < first
    · exact (h.others k i hi (.inl hbefore)).1 hmem
    · obtain ⟨d, rfl⟩ := Nat.exists_eq_add_of_le (Nat.le_of_not_lt hbefore)
      have hd : d < ps.length := by omega
      exact (h.parts d i _ hi (List.getElem?_eq_getElem hd)).2 hmem
  · exact (h.others k i hi (.inr hgt)).1 hmem

theorem nodup_labels_of_wellLabelled (h : WellLabelled c w) :
    (w.built.map Image.label).Nodup := by
  rcases Nat.eq_zero_or_pos w.volno with hzero | hpos
  · rw [(h.single hzero).1]
    exact List.nodup_singleton _
  · rw [h.several hpos]
    exact RoundTrip.nodup_labels c 1 w.volno

theorem mem_of_insertFrom {x : Text} {d : Files} (h : insertFrom images x = some d) :
    ∃ i ∈ images, d = i.files := by
  obtain ⟨i, hi, rfl⟩ := Option.map_eq_some_iff.mp h
  exact ⟨i, List.mem_of_find?_eq_some hi, rfl⟩

/-- The last volume has no part that is continued. -/
theorem uncomplete_not_mem (h : VolumeSet c destination first ps t images)
    (hi : i ∈ images) (hlast : lastCd ∈ i.files) : uncomplete destination ∉ i.files := by
  obtain ⟨k, hk, rfl⟩ := List.getElem_of_mem hi
  have hget : images[k]? = some images[k] := List.getElem?_eq_getElem hk
  have hklast := (h.last k _ hget).mp hlast
  by_cases htail : k = first + ps.length
  · obtain ⟨j, hj, -, hnone⟩ := h.tail
    rw [← htail, hget] at hj
    obtain rfl := Option.some.inj hj
    exact hnone
  · have htaillt := h.tail_lt
    exact (h.others k _ hget (.inr (by omega))).2

/-- After a call the volume with the last part is in the drive. -/
theorem mem_drive {fuel : Nat} {s : Session} {r : Restored}
    (h : VolumeSet c destination first ps t images) (hi : images[k]? = some i)
    (hdrive : s.drive = i.files) (hs : Between images s)
    (hr : getBackupBack (insertFrom images) fuel destination s = .ok r) :
    destination ∈ r.session.drive := by
  rw [h.getBackupBack_eq hi hdrive] at hr
  refine drive_search ?_ ?_ hs.noMore hr
  · intro x d hx
    obtain ⟨j, hj, rfl⟩ := mem_of_insertFrom hx
    exact uncomplete_not_mem h hj
  · rw [hdrive]
    exact uncomplete_not_mem h (List.mem_of_getElem? hi)

/-- Between two calls a session with the last part in the drive is at `ending`. -/
theorem drive_eq_ending {s : Session} (hs : Between images s)
    (h : Placed destination first ps t images) (hcount : first + ps.length < images.length)
    (hmem : destination ∈ s.drive) : s.drive = images[first + ps.length].files := by
  obtain ⟨j, hj, hdrive⟩ := hs.drive
  obtain ⟨n, hn, rfl⟩ := List.getElem_of_mem hj
  rw [hdrive] at hmem
  have heq := eq_ending h hcount (List.getElem?_eq_getElem hn) hmem
  rw [ending_of_placed h hcount] at heq
  subst heq
  exact hdrive

theorem drive_single {s : Session} (hs : Between w.built s) (hwell : WellLabelled c w)
    (hzero : w.volno = 0) (hi : i ∈ w.built) : s.drive = i.files := by
  obtain ⟨j, hj, hdrive⟩ := hs.drive
  have hone : w.built.length = 1 := by
    simpa using congrArg List.length (hwell.single hzero).1
  obtain ⟨a, ha⟩ := List.length_eq_one_iff.mp hone
  rw [ha, List.mem_singleton] at hi hj
  rw [hdrive, hj, hi]

/-- One call. -/
theorem getBackupBack_step {fuel : Nat} {s : Session} (hwell : WellLabelled c w)
    (h : Placed destination first ps t w.built) (hcount : first + ps.length < w.built.length)
    (hi : w.built[k]? = some i) (hdrive : s.drive = i.files) (hs : Between w.built s)
    (hfuel : 2 * w.built.length ≤ fuel) :
    ∃ r i', getBackupBack (insertFrom w.built) fuel destination s = .ok r ∧
      Between w.built r.session ∧ w.built[ending w.built destination]? = some i' ∧
      r.session.drive = i'.files ∧
      (FromFirst w.built (beginning w.built destination) (ps.flatten ++ t) r ↔
        ¬ Continues w.built destination k) := by
  have hinsert := RoundTrip.insertFrom_eq (nodup_labels_of_wellLabelled hwell)
  rw [Continues, beginning_of_placed h hcount, ending_of_placed h hcount]
  have hlast : w.built[first + ps.length]? = some w.built[first + ps.length] :=
    List.getElem?_eq_getElem hcount
  rcases Nat.eq_zero_or_pos w.volno with hzero | hpos
  · obtain ⟨r, hr, hsession, hfrom, hnot⟩ := h.getBackupBack_single hcount hwell hzero
      (insertFrom w.built) hi hdrive hs (by omega : 0 < fuel)
    refine ⟨r, _, hr, hsession, hlast, ?_, iff_of_true hfrom hnot⟩
    exact drive_single hsession hwell hzero (List.getElem_mem hcount)
  · have hset := h.volumeSet hcount hwell hpos
    obtain ⟨r, hr, hsession, hiff⟩ := hset.fromFirst_iff hinsert hi hdrive hs
      (by omega : w.built.length + ps.length + 1 ≤ fuel)
    refine ⟨r, _, hr, hsession, hlast, ?_, hiff⟩
    exact drive_eq_ending hsession h hcount (mem_drive hset hi hdrive hs hr)

end Places

section Backup

variable {c : Config} {outcome : Nat → Outcome} {du : Files → Nat} {maxcdsize : Nat}
  {jobs pre post : List Job} {j : Job} {w w' : World}

theorem le_built_runJobs (hm : 0 < maxcdsize)
    (hrun : runJobs c outcome du maxcdsize jobs w = .ok w') :
    w.built.length ≤ w'.built.length := by
  refine runJobs_invariant (fun v => w.built.length ≤ v.built.length) (Nat.le_refl _) ?_ hrun
  intro j _ v v' hv hjob
  refine runJob_invariant (fun _ u => w.built.length ≤ u.built.length)
    (fun u => w.built.length ≤ u.built.length) hm (fun _ _ h => h) (fun _ _ _ h => h) ?_ ?_
    (fun _ _ => hv) hjob
  · intro u hu
    rcases makeISO9660_built_cases (c := c) true j.destination (outcome (u.volno + 1))
      { u with volno := u.volno + 1 } with h | h
    · rw [h]
      exact hu
    · rw [h, List.length_append]
      exact Nat.le_add_right_of_le hu
  · intro _ u hu
    exact storeLog_invariant (fun u => w.built.length ≤ u.built.length) hu fun _ _ => hu

theorem After.le {destination : Text} {first : Nat} {ps : List Bytes} {t : Bytes}
    (h : After destination first ps t w) : first + ps.length ≤ w.built.length := by
  cases h with
  | pending _ count => exact Nat.le_of_eq count.symm
  | done _ count => exact Nat.le_of_lt count

/-- The last image takes along what still waits in `ISOFS_DIR`. -/
theorem placed_lastVolume {destination : Text} {first : Nat} {ps : List Bytes} {t : Bytes}
    (hok : ∀ n, (outcome n).Succeeds) (hname : ArchiveName c destination)
    (h : After destination first ps t w) :
    Placed destination first ps t (lastVolume c outcome w).built ∧
      first + ps.length < (lastVolume c outcome w).built.length := by
  have hclosed : After destination first ps t { w with isofs := touch lastCd [] w.isofs } := by
    have hnot : ¬ Reserved destination lastCd := fun h => hname.ne_lastCd h rfl
    rw [touch]
    split
    · exact h
    · exact h.insert hnot []
  have hsucceeds := hok (closeSet w).volno
  have hmade : (lastVolume c outcome w).built = w.built ++
      [image c false [] (outcome (closeSet w).volno) (closeSet w)] :=
    makeISO9660_built hsucceeds.mkisofs (fun _ => hsucceeds.bootable) false []
  have hnone : false = true → Unrelated c destination [] := by simp
  obtain ⟨hplaced, hcount⟩ := hclosed.placed_image (n := (closeSet w).volno)
    (o := outcome (closeSet w).volno) hname hnone
  refine ⟨?_, ?_⟩
  · rw [hmade]
    exact hplaced
  · rw [hmade]
    exact hcount

/-- The archive of a job begins on the volume that is being filled when the job begins, and ends
on one that is being filled when the job is over, or before. -/
theorem tarIt_spans (hm : 0 < maxcdsize) (hcd : c.CdMode) (hok : ∀ n, (outcome n).Succeeds)
    (hsep : Separate c jobs) (hjobs : jobs = pre ++ j :: post) (hclean : CleanStart jobs w)
    (hrun : tarIt c outcome du maxcdsize jobs w = .ok w') :
    ∃ w₁ w₂ ps t, runJobs c outcome du maxcdsize pre w = .ok w₁ ∧
      runJob c outcome du maxcdsize j w₁ = .ok w₂ ∧ ps.flatten ++ t = j.stream ∧
      Placed j.destination w₁.built.length ps t w'.built ∧
      w₁.built.length + ps.length < w'.built.length ∧
      w₁.built.length + ps.length ≤ w₂.built.length := by
  have hall : AllFinish c outcome := fun n _ => (hok n).finishes hcd n
  subst hjobs
  rw [tarIt] at hrun
  split at hrun
  · cases hrun
  rename_i w₃ hjobsRun
  obtain rfl := Except.ok.inj hrun
  have hin : j ∈ pre ++ j :: post := by simp
  have hj := hsep.plain j hin
  have hlogs := hsep.logs j hin
  obtain ⟨_, harchives, hcross⟩ := List.pairwise_append.mp hsep.archives
  obtain ⟨w₁, hpre, hrest⟩ := runJobs_append hjobsRun
  obtain ⟨w₂, hjob, hpost⟩ := runJobs_cons hrest
  have hbefore := before_runJobs hm hall hj.archive
    (fun k hk => ⟨(hcross k hk j List.mem_cons_self).2, hlogs k (by simp [hk])⟩)
    ⟨hclean.unused j hin, by simp [hclean.built]⟩ hpre
  have hlab := labelled_runJobs hm hall (fun k hk => hsep.plain k (by simp [hk]))
    (labelled_start hclean.volno hclean.built hclean.unmarked hclean.notLast) hpre
  obtain ⟨ps, t, hstream, hafter⟩ := after_runJob hm hcd hok hj (hlogs j hin) hbefore hlab hjob
  have hend := after_runJobs hm hall hj.archive
    (fun k hk => ⟨((List.pairwise_cons.mp harchives).1 k hk).1, hlogs k (by simp [hk])⟩)
    hafter hpost
  obtain ⟨hplaced, hcount⟩ := placed_lastVolume hok hj.archive hend
  exact ⟨w₁, w₂, ps, t, hpre, hjob, hstream, hplaced, hcount, After.le hafter⟩

/-- A finished set: every archive lies on consecutive volumes, and none begins before one that was
made earlier has ended. -/
structure LaidOut (c : Config) (jobs : List Job) (w : World) : Prop where
  labelled : WellLabelled c w
  placed : ∀ j ∈ jobs, ∃ first ps t, ps.flatten ++ t = j.stream ∧
    Placed j.destination first ps t w.built ∧ first + ps.length < w.built.length
  ordered : jobs.Pairwise fun x y =>
    ending w.built x.destination ≤ beginning w.built y.destination

theorem tarIt_laidOut (hm : 0 < maxcdsize) (hcd : c.CdMode) (hok : ∀ n, (outcome n).Succeeds)
    (hsep : Separate c jobs) (hne : jobs ≠ []) (hclean : CleanStart jobs w)
    (hrun : tarIt c outcome du maxcdsize jobs w = .ok w') : LaidOut c jobs w' := by
  refine ⟨?_, ?_, ?_⟩
  · obtain ⟨j, rest, hjobs⟩ := List.exists_cons_of_ne_nil hne
    have hsplit : jobs = [] ++ j :: rest := hjobs
    exact (tarIt_placed hm hcd hok hsep hsplit hclean hrun).1
  · intro j hj
    obtain ⟨pre, post, hjobs⟩ := List.append_of_mem hj
    exact (tarIt_placed hm hcd hok hsep hjobs hclean hrun).2
  · rw [List.pairwise_iff_forall_sublist]
    intro x y hxy
    obtain ⟨front, back, hsublist, hx, hy⟩ := List.cons_sublist_iff.mp hxy
    obtain ⟨pre, mid, rfl⟩ := List.append_of_mem hx
    obtain ⟨mid', post, rfl⟩ := List.append_of_mem (List.singleton_sublist.mp hy)
    have hjobs : jobs = pre ++ x :: (mid ++ mid' ++ y :: post) := by simp [hsublist]
    have hsplit : jobs = (pre ++ x :: (mid ++ mid')) ++ y :: post := by simp [hsublist]
    obtain ⟨w₁, w₂, ps, t, hpre, hjob, -, hplaced, hcount, hle⟩ :=
      tarIt_spans hm hcd hok hsep hjobs hclean hrun
    obtain ⟨v₁, -, qs, u, hpre', -, -, hplaced', hcount', -⟩ :=
      tarIt_spans hm hcd hok hsep hsplit hclean hrun
    rw [ending_of_placed hplaced hcount, beginning_of_placed hplaced' hcount']
    obtain ⟨v, hv, hrest⟩ := runJobs_append hpre'
    obtain rfl := Except.ok.inj (hv.symm.trans hpre)
    obtain ⟨v₂, hv₂, hmid⟩ := runJobs_cons hrest
    obtain rfl := Except.ok.inj (hv₂.symm.trans hjob)
    exact Nat.le_trans hle (le_built_runJobs hm hmid)

end Backup

section Recovery

variable {c : Config} {jobs order : List Job} {j : Job} {w w' : World} {i : Image} {s : Session}
  {k fuel : Nat}

/-- Both orders of two jobs. -/
theorem LaidOut.apart (h : LaidOut c jobs w) {x y : Job} (hx : x ∈ jobs) (hy : y ∈ jobs) :
    x = y ∨ ending w.built x.destination ≤ beginning w.built y.destination ∨
      ending w.built y.destination ≤ beginning w.built x.destination := by
  have hboth : jobs.Pairwise fun x y => x = y ∨
      ending w.built x.destination ≤ beginning w.built y.destination ∨
        ending w.built y.destination ≤ beginning w.built x.destination :=
    h.ordered.imp fun hle => .inr (.inl hle)
  refine hboth.forall_of_forall_of_flip (fun x _ => .inl rfl) ?_ hx hy
  exact h.ordered.imp fun hle => .inr (.inr hle)

theorem LaidOut.beginning_le (h : LaidOut c jobs w) (hj : j ∈ jobs) :
    beginning w.built j.destination ≤ ending w.built j.destination := by
  obtain ⟨first, ps, t, _, hplaced, hcount⟩ := h.placed j hj
  rw [beginning_of_placed hplaced hcount, ending_of_placed hplaced hcount]
  exact Nat.le_add_right _ _

/-- After one archive of the set another one is continued on the volume in the drive exactly if it
is split and ends there too. -/
theorem LaidOut.continues_iff (h : LaidOut c jobs w) {x y : Job} (hx : x ∈ jobs) (hy : y ∈ jobs) :
    ¬ Continues w.built y.destination (ending w.built x.destination) ↔ Follows w.built x y := by
  have hbx := h.beginning_le hx
  have hby := h.beginning_le hy
  rw [Continues, Follows]
  rcases h.apart hx hy with rfl | hle | hle
  · omega
  · omega
  · omega

/-- The calls, one after the other. -/
theorem LaidOut.restoreAll (h : LaidOut c jobs w) (horder : ∀ j ∈ order, j ∈ jobs)
    (hfuel : 2 * w.built.length ≤ fuel) (hi : w.built[k]? = some i) (hdrive : s.drive = i.files)
    (hs : Between w.built s) :
    ∃ rs, restoreAll (insertFrom w.built) fuel (order.map Job.destination) s = .ok rs ∧
      (List.Forall₂ (fun j r => FromFirst w.built (beginning w.built j.destination) j.stream r)
          order rs ↔
        (∀ j ∈ order.head?, ¬ Continues w.built j.destination k) ∧
          order.IsChain (Follows w.built)) := by
  induction order generalizing k i s with
  | nil => exact ⟨[], rfl, by simp⟩
  | cons j order ih =>
    obtain ⟨hj, horder⟩ := List.forall_mem_cons.mp horder
    obtain ⟨first, ps, t, hstream, hplaced, hcount⟩ := h.placed j hj
    obtain ⟨r, i', hr, hsession, hi', hdrive', hiff⟩ :=
      getBackupBack_step h.labelled hplaced hcount hi hdrive hs hfuel
    rw [hstream] at hiff
    obtain ⟨rs, hrs, hall⟩ := ih horder hi' hdrive' hsession
    have hchain : ((∀ y ∈ order.head?, ¬ Continues w.built y.destination
        (ending w.built j.destination)) ∧ order.IsChain (Follows w.built)) ↔
        (j :: order).IsChain (Follows w.built) := by
      cases order with
      | nil => simp
      | cons y order =>
        rw [List.isChain_cons_cons, ← h.continues_iff hj (horder y List.mem_cons_self)]
        simp
    refine ⟨r :: rs, ?_, ?_⟩
    · rw [List.map_cons, CdRecovery.restoreAll, hr]
      simp only [hrs]
    · rw [List.forall₂_cons, hiff, hall, hchain]
      simp

/-- Backup and recovery with several volumes. In whatever order the archives are asked for, each
comes out whole if and only if the volume in the drive at the beginning does not continue the
first one, and no archive that is split follows on one that ends on the same volume. -/
theorem volumes_restored_iff {outcome : Nat → Outcome} {du : Files → Nat} {maxcdsize : Nat}
    (hm : 0 < maxcdsize) (hcd : c.CdMode) (hok : ∀ n, (outcome n).Succeeds)
    (hsep : Separate c jobs) (hne : jobs ≠ []) (hclean : CleanStart jobs w)
    (hrun : tarIt c outcome du maxcdsize jobs w = .ok w') (order : List Job)
    (horder : ∀ j ∈ order, j ∈ jobs) (hfuel : 2 * w'.built.length ≤ fuel)
    (hi : w'.built[k]? = some i) (hdrive : s.drive = i.files) (hs : Between w'.built s) :
    ∃ rs, restoreAll (insertFrom w'.built) fuel (order.map Job.destination) s = .ok rs ∧
      (List.Forall₂ (fun j r => FromFirst w'.built (beginning w'.built j.destination) j.stream r)
          order rs ↔
        (∀ j ∈ order.head?, ¬ Continues w'.built j.destination k) ∧
          order.IsChain (Follows w'.built)) :=
  (tarIt_laidOut hm hcd hok hsep hne hclean hrun).restoreAll horder hfuel hi hdrive hs

/-- From the first volume on, the order of the backup is always right. -/
theorem LaidOut.restoreAll_backup (h : LaidOut c jobs w) (hsub : order.Sublist jobs)
    (hfuel : 2 * w.built.length ≤ fuel) (hi : w.built[0]? = some i) (hdrive : s.drive = i.files)
    (hs : Between w.built s) :
    ∃ rs, CdRecovery.restoreAll (insertFrom w.built) fuel (order.map Job.destination) s = .ok rs ∧
      List.Forall₂ (fun j r => FromFirst w.built (beginning w.built j.destination) j.stream r)
        order rs := by
  obtain ⟨rs, hrs, hiff⟩ := h.restoreAll (fun j hj => hsub.subset hj) hfuel hi hdrive hs
  refine ⟨rs, hrs, hiff.mpr ⟨?_, ?_⟩⟩
  · rintro j - ⟨hlt, -⟩
    exact Nat.not_lt_zero _ hlt
  · have hordered := (h.ordered.sublist hsub).isChain
    refine hordered.imp_of_mem_imp ?_
    intro x y hx hy hle heq
    have := h.beginning_le (hsub.subset hy)
    omega

end Recovery

def homeArchive : Text := "hda5._home.tar.gz".toList

def homeJob : Job := { destination := homeArchive, stream := [8], log := none }

theorem archiveName_home : ArchiveName diskConfig homeArchive := by
  refine archiveName_of_plain ⟨'h', _, rfl, by decide⟩ (by decide) (by decide)
    ⟨'z', by decide, by decide⟩ (by decide) (by decide) (by decide) ?_
  decide

theorem not_reserved {destination x : Text} (h : ¬ destination <+: x) :
    ¬ Reserved destination x := by
  intro hx
  obtain ⟨s, rfl, -⟩ := hx.exists_suffix
  exact h (List.prefix_append _ _)

theorem separate_pair : Separate diskConfig [usrJob, homeJob] := by
  refine ⟨?_, ?_, ?_⟩
  · intro j hj
    rcases List.mem_pair.mp hj with rfl | rfl
    · exact usrJob_plain
    · exact ⟨archiveName_home, fun _ hl => by cases hl⟩
  · rw [List.pairwise_pair]
    exact ⟨⟨archiveName_home, not_reserved (by decide), not_reserved (by decide)⟩,
      archiveName_usr, not_reserved (by decide), not_reserved (by decide)⟩
  · intro j _ k hk l hl
    rcases List.mem_pair.mp hk with rfl | rfl <;> cases hl

/-- `/usr` goes onto two volumes, `/home` onto the second one. In this order both are restored; if
`/home` comes first, the second part of `/usr` is taken for all of it. -/
theorem usr_after_home : ∃ w' i, tarIt diskConfig (fun _ => allSucceed) (fun _ => 0) 1
      [usrJob, homeJob] emptyWorld = .ok w' ∧ w'.built[0]? = some i ∧
    (∃ rs, restoreAll (insertFrom w'.built) (2 * w'.built.length) [usrArchive, homeArchive]
        ⟨i.files, [], none⟩ = .ok rs ∧ List.Forall₂ (fun j r => FromFirst w'.built
          (beginning w'.built j.destination) j.stream r) [usrJob, homeJob] rs) ∧
    ∃ rs, restoreAll (insertFrom w'.built) (2 * w'.built.length) [homeArchive, usrArchive]
        ⟨i.files, [], none⟩ = .ok rs ∧ ¬ List.Forall₂ (fun j r => FromFirst w'.built
          (beginning w'.built j.destination) j.stream r) [homeJob, usrJob] rs := by
  have hplaces : (tarIt diskConfig (fun _ => allSucceed) (fun _ => 0) 1 [usrJob, homeJob]
      emptyWorld).toOption.map (fun w => [w.built.length, beginning w.built usrArchive,
        ending w.built usrArchive, beginning w.built homeArchive, ending w.built homeArchive]) =
      some [2, 0, 1, 1, 1] := by decide +kernel
  obtain ⟨w', hrun, hplaces⟩ := exists_ok_of_map hplaces
  simp only [List.cons.injEq, and_true] at hplaces
  obtain ⟨hlength, hbu, heu, hbh, heh⟩ := hplaces
  obtain ⟨i, hi⟩ : ∃ i, w'.built[0]? = some i := ⟨_, List.getElem?_eq_getElem (by omega)⟩
  have hs : Between w'.built ⟨i.files, [], none⟩ := ⟨⟨i, List.mem_of_getElem? hi, rfl⟩, rfl⟩
  refine ⟨w', i, hrun, hi, ?_, ?_⟩
  · exact (tarIt_laidOut Nat.one_pos (show diskConfig.CdMode from rfl)
      (fun _ => allSucceed_succeeds) separate_pair (List.cons_ne_nil _ _) (cleanStart_empty _)
      hrun).restoreAll_backup (List.Sublist.refl _) (Nat.le_refl _) hi rfl hs
  · obtain ⟨rs, hrs, hiff⟩ := volumes_restored_iff Nat.one_pos (show diskConfig.CdMode from rfl)
      (fun _ => allSucceed_succeeds) separate_pair (List.cons_ne_nil _ _) (cleanStart_empty _) hrun
      [homeJob, usrJob] (by simp) (Nat.le_refl _) hi rfl hs
    refine ⟨rs, hrs, fun hall => ?_⟩
    obtain ⟨-, hchain⟩ := hiff.mp hall
    rw [List.isChain_pair] at hchain
    have hone := hchain (heh.trans heu.symm)
    rw [usrJob, hbu, heu] at hone
    cases hone

end CdRecovery
