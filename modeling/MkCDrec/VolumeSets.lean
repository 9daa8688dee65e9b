import MkCDrec.GetBackup
import MkCDrec.RoundTrip
import MkCDrec.Labels

/-!
# The volume sets that `tar-it.sh` makes

Every archive of a set with several volumes lies as `VolumeSet` describes: its
parts on consecutive volumes, its last part on the next one, nothing elsewhere. A
run is followed with respect to one archive: before its job, after it with the last
part waiting in `ISOFS_DIR`, and after the image that took that part along.
-/

namespace VolumeSets

open Directory ShellText SplitFile MakeIso Backup Cutstream Cutting TarIt Labels GetBackup

/-- Jobs whose archives and logs are stored under different names. -/
structure Separate (c : Config) (jobs : List Job) : Prop where
  plain : ∀ j ∈ jobs, j.Plain c
  archives : jobs.Pairwise fun j k =>
    Unrelated c j.destination k.destination ∧ Unrelated c k.destination j.destination
  logs : ∀ j ∈ jobs, ∀ k ∈ jobs, ∀ l ∈ k.log, ¬ Reserved j.destination (l.1 ++ gzSuffix)

/-- The beginning of a run: `rd-base.sh` has written 0 to the file of the volume
number, and `ISOFS_DIR` holds nothing of an earlier run. -/
structure CleanStart (jobs : List Job) (w : World) : Prop where
  volno : w.volno = 0
  built : w.built = []
  unmarked : ∀ x ∈ w.isofs, isMarker x = false
  notLast : lastCd ∉ w.isofs
  unused : ∀ j ∈ jobs, ∀ x, Reserved j.destination x → x ∉ w.isofs

/-- Where the parts of an archive are among the images made so far. -/
structure Placed (destination : Text) (first : Nat) (ps : List Bytes) (t : Bytes)
    (images : List Image) : Prop where
  parts : ∀ k i p, images[first + k]? = some i → ps[k]? = some p →
    Stored i.files (uncomplete destination) p ∧ destination ∉ i.files
  tail : ∀ i, images[first + ps.length]? = some i →
    Stored i.files destination t ∧ uncomplete destination ∉ i.files
  others : ∀ k i, images[k]? = some i → k < first ∨ first + ps.length < k →
    destination ∉ i.files ∧ uncomplete destination ∉ i.files

/-- No trace of the archive yet. -/
structure Before (destination : Text) (w : World) : Prop where
  isofs : ∀ x, Reserved destination x → x ∉ w.isofs
  built : ∀ i ∈ w.built, destination ∉ i.files ∧ uncomplete destination ∉ i.files

/-- After the job of the archive: its last part waits for the next image, or is on
one. -/
inductive After (destination : Text) (first : Nat) (ps : List Bytes) (t : Bytes) (w : World) : Prop
  | pending (placed : Placed destination first ps t w.built)
      (count : w.built.length = first + ps.length)
      (file : w.isofs.lookup destination = some t)
      (absent : ∀ x, Reserved destination x → x ≠ destination → x ∉ w.isofs)
  | done (placed : Placed destination first ps t w.built)
      (count : first + ps.length < w.built.length)
      (absent : ∀ x, Reserved destination x → x ∉ w.isofs)

variable {c : Config} {destination : Text} {outcome : Nat → Outcome} {o : Outcome} {w : World}
  {first : Nat} {ps : List Bytes} {t : Bytes}

theorem Before.insert (h : Before destination w) {x : Text} (hx : ¬ Reserved destination x)
    (b : Bytes) : Before destination { w with isofs := w.isofs.insert x b } := by
  refine ⟨?_, h.built⟩
  intro y hy hmem
  rcases (AList.mem_insert _).mp hmem with rfl | hmem
  · exact hx hy
  · exact h.isofs y hy hmem

theorem After.insert (h : After destination first ps t w) {x : Text}
    (hx : ¬ Reserved destination x) (b : Bytes) :
    After destination first ps t { w with isofs := w.isofs.insert x b } := by
  have hother : ∀ y, Reserved destination y → (w.isofs.insert x b).lookup y = w.isofs.lookup y := by
    intro y hy
    apply AList.lookup_insert_ne
    rintro rfl
    exact hx hy
  cases h with
  | pending placed count file absent =>
    refine .pending placed count ((hother _ (Reserved.self _)).trans file) ?_
    intro y hy hne
    rw [← AList.lookup_eq_none, hother y hy, AList.lookup_eq_none]
    exact absent y hy hne
  | done placed count absent =>
    refine .done placed count fun y hy => ?_
    rw [← AList.lookup_eq_none, hother y hy, AList.lookup_eq_none]
    exact absent y hy

theorem Before.modify (h : Before destination w) (x : Text) (f : Bytes → Bytes) :
    Before destination { w with isofs := modify x f w.isofs } :=
  ⟨fun y hy hmem => h.isofs y hy (mem_modify.mp hmem), h.built⟩

theorem After.modify (h : After destination first ps t w) {x : Text}
    (hx : ¬ Reserved destination x) (f : Bytes → Bytes) :
    After destination first ps t { w with isofs := modify x f w.isofs } := by
  cases h with
  | pending placed count file absent =>
    refine .pending placed count ?_ fun y hy hne hmem => absent y hy hne (mem_modify.mp hmem)
    have hne : destination ≠ x := by
      rintro rfl
      exact hx (Reserved.self _)
    rw [lookup_modify, if_neg hne]
    exact file
  | done placed count absent =>
    exact .done placed count fun y hy hmem => absent y hy (mem_modify.mp hmem)

theorem getElem?_snoc {α : Type} {l : List α} {a b : α} {k : Nat} (h : (l ++ [a])[k]? = some b) :
    l[k]? = some b ∨ k = l.length ∧ b = a := by
  by_cases hk : k < l.length
  · rw [List.getElem?_append_left hk] at h
    exact .inl h
  · rw [List.getElem?_append_right (by omega)] at h
    have hzero : k - l.length = 0 := by
      have := (List.getElem?_eq_some_iff.mp h).1
      rw [List.length_singleton] at this
      omega
    rw [hzero] at h
    exact .inr ⟨by omega, (Option.some.inj h).symm⟩

/-- One more image. -/
theorem Placed.snoc {images : List Image} {i : Image} (h : Placed destination first ps t images)
    (hlong : first + ps.length ≤ images.length)
    (htail : images.length = first + ps.length →
      Stored i.files destination t ∧ uncomplete destination ∉ i.files)
    (hother : first + ps.length < images.length →
      destination ∉ i.files ∧ uncomplete destination ∉ i.files) :
    Placed destination first ps t (images ++ [i]) := by
  refine ⟨?_, ?_, ?_⟩
  · intro k j p hj hp
    have hk := (List.getElem?_eq_some_iff.mp hp).1
    rcases getElem?_snoc hj with hj | ⟨hk', rfl⟩
    · exact h.parts k j p hj hp
    · omega
  · intro j hj
    rcases getElem?_snoc hj with hj | ⟨hk, rfl⟩
    · exact h.tail j hj
    · exact htail hk.symm
  · intro k j hj hk
    rcases getElem?_snoc hj with hj | ⟨rfl, rfl⟩
    · exact h.others k j hj hk
    · exact hother (by omega)

/-- The image that the script makes after the job, for another archive or as the
last one. -/
theorem After.placed_image {next : Text} {continued : Bool} {n : Nat}
    (hname : ArchiveName c destination) (h : After destination first ps t w)
    (hnext : continued = true → Unrelated c destination next) :
    Placed destination first ps t
      (w.built ++ [image c continued next o { w with volno := n }]) ∧
      first + ps.length < (w.built ++ [image c continued next o { w with volno := n }]).length := by
  cases h with
  | pending placed count file absent =>
    have hstored := stored_image (w := { w with volno := n }) (o := o) hname file absent hnext
    refine ⟨placed.snoc (by omega) (fun _ => hstored) (by omega), ?_⟩
    rw [List.length_append, List.length_singleton]
    omega
  | done placed count absent =>
    have hnone := notMem_image (w := { w with volno := n }) (o := o) hname absent hnext
    refine ⟨placed.snoc (by omega) (by omega) (fun _ => hnone), ?_⟩
    rw [List.length_append, List.length_singleton]
    omega

theorem After.makeISO9660 {next : Text} (hname : ArchiveName c destination)
    (h : After destination first ps t w) (hnext : Unrelated c destination next)
    (hfin : Finishes c o (w.volno + 1)) : After destination first ps t
      (makeISO9660 c true next o { w with volno := w.volno + 1 }).1 := by
  obtain ⟨iso, hmake⟩ := makeISO9660_finishes (w := { w with volno := w.volno + 1 }) hfin
    (Nat.succ_pos _) true next
  obtain ⟨hplaced, hcount⟩ := h.placed_image (n := w.volno + 1) (o := o) hname fun _ => hnext
  rw [hmake]
  exact .done hplaced hcount fun x hx => notMem_sweep (hname.swept hx)

theorem Before.makeISO9660 {next : Text} (hname : ArchiveName c destination)
    (h : Before destination w) (hnext : Unrelated c destination next)
    (hfin : Finishes c o (w.volno + 1)) :
    Before destination (makeISO9660 c true next o { w with volno := w.volno + 1 }).1 := by
  obtain ⟨iso, hmake⟩ := makeISO9660_finishes (w := { w with volno := w.volno + 1 }) hfin
    (Nat.succ_pos _) true next
  rw [hmake]
  refine ⟨fun x hx => notMem_sweep (hname.swept hx), ?_⟩
  intro i hi
  rcases List.mem_append.mp hi with hi | hi
  · exact h.built i hi
  · obtain rfl := List.mem_singleton.mp hi
    exact notMem_image hname h.isofs fun _ => hnext

section Jobs

variable {du : Files → Nat} {maxcdsize : Nat} {jobs : List Job} {w' : World}

theorem before_runJobs (hm : 0 < maxcdsize) (hall : AllFinish c outcome)
    (hname : ArchiveName c destination)
    (hjobs : ∀ k ∈ jobs, Unrelated c destination k.destination ∧
      ∀ l ∈ k.log, ¬ Reserved destination (l.1 ++ gzSuffix))
    (h : Before destination w) (hrun : runJobs c outcome du maxcdsize jobs w = .ok w') :
    Before destination w' := by
  refine runJobs_invariant (Before destination) h ?_ hrun
  intro k hk w w' h hrun
  obtain ⟨hunrelated, hlog⟩ := hjobs k hk
  refine runJob_invariant (fun _ => Before destination) (Before destination) hm ?_ ?_ ?_ ?_
    (fun _ _ => h) hrun
  · intro _ w h
    exact h.insert hunrelated.whole []
  · intro _ w b h
    exact h.modify _ _
  · intro w h
    exact h.makeISO9660 hname hunrelated (hall _ (Nat.succ_pos _))
  · intro _ w h
    exact storeLog_invariant (Before destination) h fun l hl => h.insert (hlog l hl) _

theorem after_runJobs (hm : 0 < maxcdsize) (hall : AllFinish c outcome)
    (hname : ArchiveName c destination)
    (hjobs : ∀ k ∈ jobs, Unrelated c destination k.destination ∧
      ∀ l ∈ k.log, ¬ Reserved destination (l.1 ++ gzSuffix))
    (h : After destination first ps t w) (hrun : runJobs c outcome du maxcdsize jobs w = .ok w') :
    After destination first ps t w' := by
  refine runJobs_invariant (After destination first ps t) h ?_ hrun
  intro k hk w w' h hrun
  obtain ⟨hunrelated, hlog⟩ := hjobs k hk
  refine runJob_invariant (fun _ => After destination first ps t) (After destination first ps t) hm
    ?_ ?_ ?_ ?_ (fun _ _ => h) hrun
  · intro _ w h
    exact h.insert hunrelated.whole []
  · intro _ w b h
    exact h.modify hunrelated.whole _
  · intro w h
    exact h.makeISO9660 hname hunrelated (hall _ (Nat.succ_pos _))
  · intro _ w h
    exact storeLog_invariant (After destination first ps t) h fun l hl => h.insert (hlog l hl) _

theorem labelled_runJobs (hm : 0 < maxcdsize) (hall : AllFinish c outcome)
    (hjobs : ∀ k ∈ jobs, k.Plain c) (h : Labelled c w)
    (hrun : runJobs c outcome du maxcdsize jobs w = .ok w') : Labelled c w' :=
  inv_runJobs hm hjobs (fun _ => h) hrun fun _ => hall

/-- The images of consecutive parts. -/
theorem Volumes.getElem? {n : Nat} {images : List Image}
    (h : Volumes c destination n ps images) :
    ∀ k i p, images[k]? = some i → ps[k]? = some p → PartVolume c destination (n + k) p i := by
  induction h with
  | nil => intro k i p hi; simp at hi
  | @cons n q qs image images head _ ih =>
    intro k i p hi hp
    cases k with
    | zero =>
      obtain rfl := Option.some.inj hi
      obtain rfl := Option.some.inj hp
      exact head
    | succ k =>
      have := ih k i p hi hp
      rwa [show n + 1 + k = n + (k + 1) by omega] at this

/-- The job of the archive itself. -/
theorem after_runJob {j : Job} (hm : 0 < maxcdsize) (hcd : c.CdMode)
    (hok : ∀ n, (outcome n).Succeeds) (hj : j.Plain c)
    (hlog : ∀ l ∈ j.log, ¬ Reserved j.destination (l.1 ++ gzSuffix))
    (hbefore : Before j.destination w) (hlab : Labelled c w)
    (hrun : runJob c outcome du maxcdsize j w = .ok w') :
    ∃ ps t, ps.flatten ++ t = j.stream ∧ After j.destination w.built.length ps t w' := by
  obtain ⟨capacity, ps, t, _, cuts, hleaves⟩ := runJob_leaves hm hrun
  have hfresh : Fresh j.destination w.isofs :=
    ⟨fun x hx _ => hbefore.isofs x hx, hlab.unmarked, hlab.open_⟩
  obtain ⟨w₁, images, hcut, hvols, _, hbuilt, _, hopen⟩ := cutAll_succeeds hj.archive hcd hok ps
    w.volno { w with isofs := w.isofs.insert j.destination [] } rfl (hfresh.open_ hj.archive)
  cases hleaves with
  | failed run => rw [hcut] at run; cases run
  | done run =>
    rw [hcut] at run
    obtain rfl := Except.ok.inj run
    refine ⟨ps, t, cuts.flatten, ?_⟩
    have hhold := hopen.write t
    rw [List.nil_append] at hhold
    have hlen := RoundTrip.Volumes.length_eq hvols
    have hplaced : Placed j.destination w.built.length ps t (w.built ++ images) := by
      refine ⟨?_, ?_, ?_⟩
      · intro k i p hi hp
        rw [List.getElem?_append_right (by omega), Nat.add_sub_cancel_left] at hi
        have hpart := Volumes.getElem? hvols k i p hi hp
        exact ⟨hpart.stored, hpart.renamed⟩
      · intro i hi
        have := (List.getElem?_eq_some_iff.mp hi).1
        rw [List.length_append] at this
        omega
      · intro k i hi hk
        have hlt := (List.getElem?_eq_some_iff.mp hi).1
        rw [List.length_append] at hlt
        have hbefore' : k < w.built.length := by omega
        rw [List.getElem?_append_left hbefore'] at hi
        exact hbefore.built i (List.mem_of_getElem? hi)
    have hafter : After j.destination w.built.length ps t
        ((host c j.destination outcome).fwrite t w₁) := by
      refine .pending ?_ ?_ hhold.file hhold.absent
      · change Placed _ _ _ _ w₁.built
        rw [hbuilt]
        exact hplaced
      · change w₁.built.length = _
        rw [hbuilt, List.length_append, hlen]
    exact storeLog_invariant (After j.destination w.built.length ps t) hafter
      fun l hl => hafter.insert (hlog l hl) _

end Jobs

/-- Where the parts of an archive are when the run is over. -/
theorem tarIt_placed {du : Files → Nat} {maxcdsize : Nat} {jobs pre post : List Job} {j : Job}
    {w' : World} (hm : 0 < maxcdsize) (hcd : c.CdMode) (hok : ∀ n, (outcome n).Succeeds)
    (hsep : Separate c jobs) (hjobs : jobs = pre ++ j :: post) (hclean : CleanStart jobs w)
    (hrun : tarIt c outcome du maxcdsize jobs w = .ok w') :
    WellLabelled c w' ∧ ∃ first ps t, ps.flatten ++ t = j.stream ∧
      Placed j.destination first ps t w'.built ∧ first + ps.length < w'.built.length := by
  have hall : AllFinish c outcome := fun n _ => (hok n).finishes hcd n
  subst hjobs
  rw [tarIt] at hrun
  split at hrun
  · cases hrun
  rename_i w₃ hjobsRun
  obtain rfl := Except.ok.inj hrun
  have hin : j ∈ pre ++ j :: post := by simp
  have hj := hsep.plain j hin
  have hlogs : ∀ k ∈ pre ++ j :: post, ∀ l ∈ k.log, ¬ Reserved j.destination (l.1 ++ gzSuffix) :=
    hsep.logs j hin
  obtain ⟨_, harchives, hcross⟩ := List.pairwise_append.mp hsep.archives
  have hlabStart : Labelled c w :=
    labelled_start hclean.volno hclean.built hclean.unmarked hclean.notLast
  obtain ⟨w₁, hpre, hrest⟩ := runJobs_append hjobsRun
  obtain ⟨w₂, hjob, hpost⟩ := runJobs_cons hrest
  have hstart : Before j.destination w :=
    ⟨hclean.unused j hin, by simp [hclean.built]⟩
  have hbefore := before_runJobs hm hall hj.archive (fun k hk =>
    ⟨(hcross k hk j List.mem_cons_self).2, hlogs k (by simp [hk])⟩) hstart hpre
  have hlab := labelled_runJobs hm hall (fun k hk => hsep.plain k (by simp [hk])) hlabStart hpre
  obtain ⟨ps, t, hstream, hafter⟩ := after_runJob hm hcd hok hj (hlogs j hin) hbefore hlab hjob
  have hend := after_runJobs hm hall hj.archive (fun k hk =>
    ⟨((List.pairwise_cons.mp harchives).1 k hk).1, hlogs k (by simp [hk])⟩) hafter hpost
  have hclosed : After j.destination w₁.built.length ps t
      { w₃ with isofs := touch lastCd [] w₃.isofs } := by
    have hnot : ¬ Reserved j.destination lastCd := fun h => hj.archive.ne_lastCd h rfl
    rw [touch]
    split
    · exact hend
    · exact hend.insert hnot []
  have hmkisofs := (hok (closeSet w₃).volno).mkisofs
  have hbootable := (hok (closeSet w₃).volno).bootable
  have hwell := (labelled_runJobs hm hall hsep.plain hlabStart hjobsRun).lastVolume hmkisofs
    fun _ => hbootable
  have hmade : (lastVolume c outcome w₃).built = w₃.built ++ [image c false []
      (outcome (closeSet w₃).volno) (closeSet w₃)] :=
    makeISO9660_built hmkisofs (fun _ => hbootable) false []
  have hnone : false = true → Unrelated c j.destination [] := by simp
  obtain ⟨hplaced, hcount⟩ := hclosed.placed_image (n := (closeSet w₃).volno)
    (o := outcome (closeSet w₃).volno) hj.archive hnone
  refine ⟨hwell, w₁.built.length, ps, t, hstream, ?_, ?_⟩
  · rw [hmade]
    exact hplaced
  · rw [hmade]
    exact hcount

section Layout

variable {images : List Image}

theorem markers_iff {i : Image} (hown : markers i.files = [i.label]) :
    ∀ x, isMarker x = true → (x ∈ i.files ↔ x = i.label) := by
  intro x hx
  have hiff : x ∈ i.files ↔ x ∈ markers i.files := by
    simp only [markers, List.mem_filter, hx, and_true]
    rfl
  rw [hiff, hown, List.mem_singleton]

/-- A set of several volumes is laid out as `Get_backup_back` expects it. -/
theorem Placed.volumeSet (h : Placed destination first ps t w.built)
    (hcount : first + ps.length < w.built.length) (hwell : WellLabelled c w)
    (hseveral : 0 < w.volno) : VolumeSet c destination first ps t w.built := by
  have hlabels := hwell.several hseveral
  have hlength : w.built.length = w.volno := by simpa using congrArg List.length hlabels
  refine ⟨?_, ?_, ?_, ?_, h.others⟩
  · intro k i hi
    have hlabel : i.label = volId c (k + 1) := by
      have := congrArg (fun l => l[k]?) hlabels
      have hk := (List.getElem?_eq_some_iff.mp hi).1
      simp only [List.getElem?_map, hi, Option.map_some, List.getElem?_range' (hlength ▸ hk)] at this
      rw [Option.some.inj this]
      congr 1
      omega
    exact ⟨hlabel, hlabel ▸ markers_iff (hwell.own i (List.mem_of_getElem? hi))⟩
  · intro k i hi
    obtain ⟨init, l, hsplit, hl, hfree⟩ := hwell.last
    rw [hsplit] at hi ⊢
    rw [List.length_append, List.length_singleton]
    rcases getElem?_snoc hi with hi | ⟨rfl, rfl⟩
    · have hk := (List.getElem?_eq_some_iff.mp hi).1
      exact iff_of_false (hfree i (List.mem_of_getElem? hi)) (by omega)
    · exact iff_of_true hl rfl
  · intro k p hp
    have hk := (List.getElem?_eq_some_iff.mp hp).1
    have hlt : first + k < w.built.length := by omega
    refine ⟨_, List.getElem?_eq_getElem hlt, ?_⟩
    exact h.parts k _ p (List.getElem?_eq_getElem hlt) hp
  · exact ⟨_, List.getElem?_eq_getElem hcount, h.tail _ (List.getElem?_eq_getElem hcount)⟩

/-- The single volume of a backup without a cut holds every archive whole. -/
theorem Placed.getBackupBack_single (h : Placed destination first ps t w.built)
    (hcount : first + ps.length < w.built.length) (hwell : WellLabelled c w) (hzero : w.volno = 0)
    (insert : Text → Option Files) {k fuel : Nat} {i : Image} {s : RestoreSplit.Session}
    (hi : w.built[k]? = some i) (hdrive : s.drive = i.files) (hs : Between w.built s)
    (hfuel : 0 < fuel) :
    ∃ r, getBackupBack insert fuel destination s = .ok r ∧ Between w.built r.session ∧
      FromFirst w.built first (ps.flatten ++ t) r ∧ ¬ (first < k ∧ k ≤ first + ps.length) := by
  obtain ⟨hlabels, hunderscore⟩ := hwell.single hzero
  have hlength : w.built.length = 1 := by simpa using congrArg List.length hlabels
  obtain ⟨rfl, hps⟩ : first = 0 ∧ ps.length = 0 := by omega
  obtain rfl := List.length_eq_zero_iff.mp hps
  have hk := (List.getElem?_eq_some_iff.mp hi).1
  obtain rfl : k = 0 := by omega
  obtain ⟨fuel, rfl⟩ := Nat.exists_eq_succ_of_ne_zero (by omega : fuel ≠ 0)
  have hlabel : i.label = volId c 0 := by
    have := congrArg (fun l => l[0]?) hlabels
    simpa [List.getElem?_map, hi] using this
  have hmarkers : markers s.drive = [volId c 0] := by
    rw [hdrive, hwell.own i (List.mem_of_getElem? hi), hlabel]
  have hsingle : ¬ ((markers s.drive).any fun m => m.contains '_') = true := by
    simp [hmarkers, hunderscore]
  obtain ⟨hstored, _⟩ := h.tail i hi
  obtain ⟨b, hb⟩ := hstored.exists_file
  have hin : destination ∈ s.drive := by
    rw [hdrive]
    exact AList.lookup_isSome.mp (by rw [hb]; rfl)
  have hcat : cat s.drive destination = t := hdrive ▸ hstored.cat_eq
  refine ⟨{ start := s.drive, out := t, session := s }, ?_, hs, ⟨⟨i, hi, hdrive⟩, rfl⟩, by omega⟩
  rw [getBackupBack, if_neg (by simp [hmarkers]), if_neg hsingle]
  simp only [RestoreSplit.restoreSplitFile, hin, if_true, hs.noMore, ite_self, Nat.lt_irrefl,
    if_false, hcat]

end Layout

/-- Whichever volume of a set is in the drive, as another restore has left it:
`Get_backup_back` begins with the first part if and only if that volume is not one
of those on which the archive is continued. -/
theorem getBackupBack_fromFirst_iff {du : Files → Nat} {maxcdsize : Nat} {jobs : List Job} {j : Job}
    {w' : World} (hm : 0 < maxcdsize) (hcd : c.CdMode) (hok : ∀ n, (outcome n).Succeeds)
    (hsep : Separate c jobs) (hclean : CleanStart jobs w)
    (hrun : tarIt c outcome du maxcdsize jobs w = .ok w') (hj : j ∈ jobs) :
    ∃ first ps t, ps.flatten ++ t = j.stream ∧ Placed j.destination first ps t w'.built ∧
      ∀ insert : Text → Option Files, (∀ i ∈ w'.built, insert i.label = some i.files) →
        ∀ (k : Nat) (i : Image) (s : RestoreSplit.Session), w'.built[k]? = some i →
          s.drive = i.files → Between w'.built s →
          ∀ fuel, w'.built.length + ps.length + 1 ≤ fuel →
            ∃ r, getBackupBack insert fuel j.destination s = .ok r ∧ Between w'.built r.session ∧
              (FromFirst w'.built first j.stream r ↔ ¬ (first < k ∧ k ≤ first + ps.length)) := by
  obtain ⟨pre, post, hsplit⟩ := List.append_of_mem hj
  obtain ⟨hwell, first, ps, t, hstream, hplaced, hcount⟩ :=
    tarIt_placed hm hcd hok hsep hsplit hclean hrun
  refine ⟨first, ps, t, hstream, hplaced, ?_⟩
  intro insert hinsert k i s hi hdrive hs fuel hfuel
  rw [← hstream]
  by_cases hseveral : 0 < w'.volno
  · exact (hplaced.volumeSet hcount hwell hseveral).fromFirst_iff hinsert hi hdrive hs hfuel
  · obtain ⟨r, hr, hsession, hfrom, hnot⟩ := hplaced.getBackupBack_single hcount hwell (by omega)
      insert hi hdrive hs (by omega : 0 < fuel)
    exact ⟨r, hr, hsession, iff_of_true hfrom hnot⟩

theorem separate_usr : Separate diskConfig [usrJob] := by
  refine ⟨by simp [usrJob_plain], List.pairwise_singleton _ _, ?_⟩
  intro j _ k hk l hl
  obtain rfl := List.mem_singleton.mp hk
  cases hl

theorem cleanStart_empty (jobs : List Job) : CleanStart jobs emptyWorld :=
  ⟨rfl, rfl, fun _ hx => absurd hx (AList.notMem_empty _), AList.notMem_empty _,
    fun _ _ _ _ => AList.notMem_empty _⟩

/-- A restore of `/usr` from the set `w'` with volume `k` in the drive. -/
def restoreUsr (fuel : Nat) (w' : World) (k : Nat) : Option Restored := do
  let i ← w'.built[k]?
  let s := { drive := i.files, restore := [], moreToCome := none }
  (getBackupBack (RoundTrip.insertFrom w'.built) fuel usrArchive s).toOption

/-- With the first volume in the drive the whole archive comes out. -/
theorem getBackupBack_fromFirst_usr :
    ∃ w' fuel r, tarIt diskConfig (fun _ => allSucceed) (fun _ => 0) 1 [usrJob] emptyWorld =
      .ok w' ∧ restoreUsr fuel w' 0 = some r ∧ r.out = List.replicate 1025 7 := by
  have hlabels : (tarIt diskConfig (fun _ => allSucceed) (fun _ => 0) 1 [usrJob]
      emptyWorld).toOption.map (fun w => w.built.map Image.label) =
      some ((List.range' 1 2).map (volId diskConfig)) := by decide +kernel
  obtain ⟨w', hrun, hlabels⟩ := exists_ok_of_map hlabels
  have hlength : w'.built.length = 2 := by simpa using congrArg List.length hlabels
  have hinsert := RoundTrip.insertFrom_eq (hlabels ▸ RoundTrip.nodup_labels diskConfig 1 2)
  obtain ⟨first, ps, t, hstream, hplaced, hall⟩ := getBackupBack_fromFirst_iff (j := usrJob)
    Nat.one_pos (show diskConfig.CdMode from rfl) (fun _ => allSucceed_succeeds) separate_usr
    (cleanStart_empty _) hrun List.mem_cons_self
  obtain ⟨i, hi⟩ : ∃ i, w'.built[0]? = some i := ⟨_, List.getElem?_eq_getElem (by omega)⟩
  obtain ⟨r, hr, _, hiff⟩ := hall _ hinsert 0 i
    { drive := i.files, restore := [], moreToCome := none } hi rfl
    ⟨⟨i, List.mem_of_getElem? hi, rfl⟩, rfl⟩ _ (Nat.le_refl _)
  have hfrom := hiff.mpr (by omega)
  refine ⟨w', w'.built.length + ps.length + 1, r, hrun, ?_, hfrom.out⟩
  rw [restoreUsr, hi]
  exact congrArg Except.toOption hr

/-- With the second volume in the drive its part is taken for the archive. -/
theorem tail_taken_for_archive :
    ∃ w' a b r, tarIt diskConfig (fun _ => allSucceed) (fun _ => 0) 1 [usrJob] emptyWorld =
        .ok w' ∧ w'.built = [a, b] ∧
      cat a.files (uncomplete usrArchive) = List.replicate 1024 7 ∧
      restoreUsr 9 w' 1 = some r ∧ r.start = b.files ∧ r.out = [7] := by
  have hparts : (tarIt diskConfig (fun _ => allSucceed) (fun _ => 0) 1 [usrJob]
      emptyWorld).toOption.map (fun w => w.built.map fun i => cat i.files (uncomplete usrArchive)) =
      some [List.replicate 1024 7, []] := by decide +kernel
  have hrestore : (tarIt diskConfig (fun _ => allSucceed) (fun _ => 0) 1 [usrJob]
      emptyWorld).toOption.map (fun w => (restoreUsr 9 w 1).map fun r =>
        (w.built[1]?.map (fun i => decide (r.start.entries = i.files.entries)), r.out)) =
      some (some (some true, [7])) := by decide +kernel
  obtain ⟨w', hrun, hparts⟩ := exists_ok_of_map hparts
  rw [hrun] at hrestore
  replace hrestore := Option.some.inj hrestore
  have hlength : w'.built.length = 2 := by
    have := congrArg List.length hparts
    rwa [List.length_map] at this
  obtain ⟨a, b, hbuilt⟩ := List.length_eq_two.mp hlength
  obtain ⟨r, hr, hflags⟩ := Option.map_eq_some_iff.mp hrestore
  obtain ⟨hstart, hout⟩ := Prod.mk.inj hflags
  rw [hbuilt] at hparts hstart
  refine ⟨w', a, b, r, hrun, hbuilt, ?_, hr, ?_, hout⟩
  · exact (List.cons.inj hparts).1
  · exact AList.ext (of_decide_eq_true (Option.some.inj hstart))

end VolumeSets
