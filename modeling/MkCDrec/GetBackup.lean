import MkCDrec.RestoreSplit

/-!
# `Get_backup_back` from a set of volumes

The multi-volume branch looks for the archive on the volume in the drive and asks
for the next volumes until it finds it. The last part of a split archive has the
name of an unsplit one, and a middle part that of a first one, so what it takes for
the beginning depends on the volume that happens to be in the drive.
-/

namespace GetBackup

open Directory ShellText SplitFile MakeIso Backup RestoreSplit

/-- What a call has done: the volume on which it began to extract, what it wrote
to the decompressor and the state it leaves. -/
structure Restored where
  start : Files
  out : Bytes
  session : Session

/-- The endless loop of the multi-volume branch. The volume that is mounted is not checked. -/
def search (insert : Text → Option Files) (destination cdrecDate : Text) :
    Nat → Text → Session → Except Failure Restored
  | 0, _, _ => .error .outOfFuel
  | fuel + 1, volno, s =>
    if destination ∈ s.drive then
      match restoreSplitFile insert (fuel + 1) destination s with
      | .error e => .error e
      | .ok (out, s') => .ok { start := s.drive, out, session := s' }
    else if uncomplete destination ∈ s.drive then
      match restoreSplittedBackup insert (fuel + 1) destination s.drive with
      | .error e => .error e
      | .ok (out, s') => .ok { start := s.drive, out, session := s' }
    else
      match nextVolno s.drive volno with
      | none => .error .wrongVolume
      | some n =>
        match insert (cdrecDate ++ '_' :: numeral n) with
        | none => .error .wrongVolume
        | some d => search insert destination cdrecDate fuel (numeral n) { s with drive := d }

/-- `Get_backup_back` for backups on CD. -/
def getBackupBack (insert : Text → Option Files) (fuel : Nat) (destination : Text) (s : Session) :
    Except Failure Restored :=
  if markers s.drive = [] then .error .wrongVolume
  else if (markers s.drive).any (fun m => m.contains '_') then
    search insert destination (markerField 1 s.drive) fuel (markerField 2 s.drive) s
  else
    match restoreSplitFile insert fuel destination s with
    | .error e => .error e
    | .ok (out, s') => .ok { start := s.drive, out, session := s' }

/-- The volumes of a finished set, as far as one archive is concerned: its parts
`ps` lie on consecutive volumes from the one at index `first` on, its last part `t`
on the next one. -/
structure VolumeSet (c : Config) (destination : Text) (first : Nat) (ps : List Bytes) (t : Bytes)
    (images : List Image) : Prop where
  marked : ∀ k i, images[k]? = some i →
    i.label = volId c (k + 1) ∧ ∀ x, isMarker x = true → (x ∈ i.files ↔ x = volId c (k + 1))
  last : ∀ k i, images[k]? = some i → (lastCd ∈ i.files ↔ k + 1 = images.length)
  parts : ∀ k p, ps[k]? = some p → ∃ i, images[first + k]? = some i ∧
    Stored i.files (uncomplete destination) p ∧ destination ∉ i.files
  tail : ∃ i, images[first + ps.length]? = some i ∧ Stored i.files destination t ∧
    uncomplete destination ∉ i.files
  others : ∀ k i, images[k]? = some i → k < first ∨ first + ps.length < k →
    destination ∉ i.files ∧ uncomplete destination ∉ i.files

/-- A session between two restores: a volume of the set is in the drive, and the
flag files announce no further part. -/
structure Between (images : List Image) (s : Session) : Prop where
  drive : ∃ i ∈ images, s.drive = i.files
  noMore : s.moreToCome.getD 0 = 0

/-- The call handed over the whole archive, beginning on the volume with its first
part. -/
structure FromFirst (images : List Image) (first : Nat) (stream : Bytes) (r : Restored) : Prop where
  start : ∃ i, images[first]? = some i ∧ r.start = i.files
  out : r.out = stream

section Search

variable {c : Config} {destination : Text} {first : Nat} {ps : List Bytes} {t : Bytes}
  {images : List Image} {insert : Text → Option Files}

theorem VolumeSet.tail_lt (h : VolumeSet c destination first ps t images) :
    first + ps.length < images.length := by
  obtain ⟨i, hi, _⟩ := h.tail
  exact (List.getElem?_eq_some_iff.mp hi).1

theorem VolumeSet.partVolume (h : VolumeSet c destination first ps t images) {k : Nat} {p : Bytes}
    (hp : ps[k]? = some p) :
    ∃ i, images[first + k]? = some i ∧ PartVolume c destination (first + k + 1) p i := by
  obtain ⟨i, hi, hstored, hrenamed⟩ := h.parts k p hp
  obtain ⟨hlabel, hmarked⟩ := h.marked _ i hi
  refine ⟨i, hi, hlabel, hstored, hrenamed, hmarked, ?_⟩
  rw [h.last _ i hi]
  have hk := (List.getElem?_eq_some_iff.mp hp).1
  have := h.tail_lt
  omega

theorem VolumeSet.tailVolume (h : VolumeSet c destination first ps t images) :
    ∃ i, images[first + ps.length]? = some i ∧
      TailVolume c destination (first + ps.length + 1) t i := by
  obtain ⟨i, hi, hstored, hcomplete⟩ := h.tail
  obtain ⟨hlabel, hmarked⟩ := h.marked _ i hi
  exact ⟨i, hi, hlabel, hstored, hcomplete, hmarked⟩

/-- The volumes of the parts from number `k` on. -/
theorem VolumeSet.volumes (h : VolumeSet c destination first ps t images) :
    ∀ (qs : List Bytes) (k : Nat), ps.drop k = qs →
      ∃ is, Volumes c destination (first + k + 1) qs is ∧ (∀ i ∈ is, i ∈ images) ∧
        is.head? = if qs = [] then none else images[first + k]? := by
  intro qs
  induction qs with
  | nil => intro k _; exact ⟨[], .nil, by simp, rfl⟩
  | cons q qs ih =>
    intro k hk
    have hq : ps[k]? = some q := by
      have := congrArg List.head? hk
      rwa [List.head?_drop] at this
    have hrest : ps.drop (k + 1) = qs := by
      rw [← List.drop_drop, hk, List.drop_succ_cons, List.drop_zero]
    obtain ⟨i, hi, hpart⟩ := h.partVolume hq
    obtain ⟨is, hvols, hin, _⟩ := ih (k + 1) hrest
    refine ⟨i :: is, .cons hpart hvols, ?_, ?_⟩
    · intro j hj
      rcases List.mem_cons.mp hj with rfl | hj
      · exact List.mem_of_getElem? hi
      · exact hin j hj
    · rw [if_neg (List.cons_ne_nil _ _), hi]
      rfl

/-- With the volume of part `k` in the drive, the parts from there on are taken for
the archive. -/
theorem VolumeSet.search_part (h : VolumeSet c destination first ps t images)
    (hinsert : ∀ i ∈ images, insert i.label = some i.files) (cdrecDate volno : Text) {k fuel : Nat}
    {s : Session} {i : Image} (hk : k < ps.length) (hi : images[first + k]? = some i)
    (hdrive : s.drive = i.files) (hfuel : ps.length + 1 ≤ fuel) :
    ∃ r, search insert destination cdrecDate fuel volno s = .ok r ∧ r.start = i.files ∧
      r.out = (ps.drop k).flatten ++ t ∧ Between images r.session := by
  obtain ⟨fuel, rfl⟩ := Nat.exists_eq_succ_of_ne_zero (by omega : fuel ≠ 0)
  obtain ⟨is, hvols, hin, hhead⟩ := h.volumes (ps.drop k) k rfl
  obtain ⟨tailImage, hmem, htail⟩ := h.tailVolume
  have hlen := List.length_drop (i := k) (l := ps)
  cases hqs : ps.drop k with
  | nil => rw [hqs] at hlen; simp at hlen; omega
  | cons q qs =>
    rw [hqs] at hvols hhead hlen
    rw [if_neg (List.cons_ne_nil _ _), hi] at hhead
    cases hvols with
    | @cons _ _ _ j is hpart hvols =>
      obtain rfl := Option.some.inj hhead
      have htail' : TailVolume c destination (first + k + 1 + 1 + qs.length) t tailImage := by
        have hnumber : first + k + 1 + 1 + qs.length = first + ps.length + 1 := by
          simp only [List.length_cons] at hlen
          omega
        exact hnumber ▸ htail
      have hlater : ∀ a ∈ is ++ [tailImage], insert a.label = some a.files := by
        intro a ha
        rcases List.mem_append.mp ha with ha | ha
        · exact hinsert a (hin a (List.mem_cons_of_mem _ ha))
        · obtain rfl := List.mem_singleton.mp ha
          exact hinsert _ (List.mem_of_getElem? hmem)
      have hbound : qs.length + 2 ≤ fuel + 1 := by
        simp only [List.length_cons] at hlen
        omega
      have hrest := restoreSplitFile_volumes qs (first + k + 1) q j is (Nat.succ_pos _)
        (.cons hpart hvols) htail' hlater (fuel + 1)
        { drive := s.drive, restore := uncomplete destination, moreToCome := some 1 } hbound hdrive
        rfl rfl
      obtain ⟨b, hb⟩ := hpart.stored.exists_file
      have hin' : uncomplete destination ∈ s.drive := by
        rw [hdrive]
        exact AList.lookup_isSome.mp (by rw [hb]; rfl)
      have hnot : destination ∉ s.drive := hdrive ▸ hpart.renamed
      refine ⟨{ start := s.drive, out := q ++ (qs.flatten ++ t), session := ⟨tailImage.files,
        destination, some 0⟩ }, ?_, hdrive, ?_, ⟨tailImage, List.mem_of_getElem? hmem, rfl⟩, rfl⟩
      · rw [search, if_neg hnot, if_pos hin', restoreSplittedBackup, hrest]
      · simp

/-- With the volume of the last part in the drive, that part is taken for the
archive. -/
theorem VolumeSet.search_tail (h : VolumeSet c destination first ps t images) {fuel : Nat}
    {cdrecDate volno : Text} {s : Session} {i : Image} (hi : images[first + ps.length]? = some i)
    (hs : Between images s) (hdrive : s.drive = i.files) :
    search insert destination cdrecDate (fuel + 1) volno s =
      .ok { start := i.files, out := t, session := s } := by
  obtain ⟨j, hj, htail⟩ := h.tailVolume
  obtain rfl := Option.some.inj (hi.symm.trans hj)
  obtain ⟨b, hb⟩ := htail.stored.exists_file
  have hin : destination ∈ s.drive := by
    rw [hdrive]
    exact AList.lookup_isSome.mp (by rw [hb]; rfl)
  have hcat : cat s.drive destination = t := hdrive ▸ htail.stored.cat_eq
  rw [hdrive] at hin hcat
  simp only [search, hin, if_true, restoreSplitFile, hs.noMore, ite_self, Nat.lt_irrefl, if_false,
    hcat, hdrive]

/-- The number of volumes that are asked for before the first part is reached. -/
def distance (count first k : Nat) : Nat := if k ≤ first then first - k else count - k + first

/-- From a volume without any part the loop goes on to the first one. -/
theorem VolumeSet.search_other (h : VolumeSet c destination first ps t images)
    (hinsert : ∀ i ∈ images, insert i.label = some i.files) :
    ∀ (d k fuel : Nat) (s : Session) (i : Image), images[k]? = some i →
      k ≤ first ∨ first + ps.length < k → distance images.length first k = d →
      d + ps.length + 1 ≤ fuel → s.drive = i.files → Between images s →
      ∃ r, search insert destination (markerPrefix ++ c.date) fuel (numeral (k + 1)) s = .ok r ∧
        FromFirst images first (ps.flatten ++ t) r ∧ Between images r.session := by
  intro d
  induction d with
  | zero =>
    intro k fuel s i hi hk hd hfuel hdrive hs
    have hlt := (List.getElem?_eq_some_iff.mp hi).1
    have hkf : k = first := by
      simp only [distance] at hd
      split at hd <;> omega
    subst hkf
    by_cases hps : ps = []
    · subst hps
      obtain ⟨fuel, rfl⟩ := Nat.exists_eq_succ_of_ne_zero (by omega : fuel ≠ 0)
      exact ⟨_, h.search_tail hi hs hdrive, ⟨⟨i, hi, rfl⟩, rfl⟩, hs⟩
    · have hbound : ps.length + 1 ≤ fuel := by omega
      obtain ⟨r, hr, hstart, hout, hsession⟩ := h.search_part hinsert (markerPrefix ++ c.date)
        (numeral (k + 1)) (k := 0) (List.length_pos_iff.mpr hps) hi hdrive hbound
      exact ⟨r, hr, ⟨⟨i, hi, hstart⟩, hout⟩, hsession⟩
  | succ d ih =>
    intro k fuel s i hi hk hd hfuel hdrive hs
    have hlt := (List.getElem?_eq_some_iff.mp hi).1
    have hfirst := h.tail_lt
    have hne : k ≠ first := by
      rintro rfl
      simp [distance] at hd
    obtain ⟨hnot, hnotPart⟩ := h.others k i hi (by omega)
    obtain ⟨fuel, rfl⟩ := Nat.exists_eq_succ_of_ne_zero (by omega : fuel ≠ 0)
    obtain ⟨next, j, hnext, hj, hstep⟩ : ∃ next j, nextVolno s.drive (numeral (k + 1)) =
        some (next + 1) ∧ images[next]? = some j ∧
        ((next ≤ first ∨ first + ps.length < next) ∧ distance images.length first next = d) := by
      by_cases hlast : k + 1 = images.length
      · have hin : lastCd ∈ s.drive := hdrive ▸ (h.last k i hi).mpr hlast
        obtain ⟨j, hj⟩ : ∃ j, images[0]? = some j := ⟨_, List.getElem?_eq_getElem (by omega)⟩
        refine ⟨0, j, by rw [nextVolno, if_pos hin], hj, .inl (Nat.zero_le _), ?_⟩
        simp only [distance] at hd ⊢
        split at hd <;> (split <;> omega)
      · have hin : lastCd ∉ s.drive := by
          rw [hdrive, h.last k i hi]
          exact hlast
        obtain ⟨j, hj⟩ : ∃ j, images[k + 1]? = some j := ⟨_, List.getElem?_eq_getElem (by omega)⟩
        refine ⟨k + 1, j, nextVolno_numeral hin, hj, by omega, ?_⟩
        simp only [distance] at hd ⊢
        split at hd <;> (split <;> omega)
    have hlabel : markerPrefix ++ c.date ++ '_' :: numeral (next + 1) = j.label := by
      rw [(h.marked next j hj).1, volId, if_pos (Nat.succ_pos _)]
    have hmem := List.mem_of_getElem? hj
    obtain ⟨r, hr, hres⟩ := ih next fuel { s with drive := j.files } j hj hstep.1 hstep.2 (by omega)
      rfl ⟨⟨j, hmem, rfl⟩, hs.noMore⟩
    refine ⟨r, ?_, hres⟩
    rw [search, if_neg (hdrive ▸ hnot), if_neg (hdrive ▸ hnotPart), hnext]
    simp only [hlabel, hinsert j hmem]
    exact hr

/-- The call, for any volume of the set in the drive. -/
theorem VolumeSet.getBackupBack_eq (h : VolumeSet c destination first ps t images)
    {k fuel : Nat} {s : Session} {i : Image} (hi : images[k]? = some i) (hdrive : s.drive = i.files) :
    getBackupBack insert fuel destination s =
      search insert destination (markerPrefix ++ c.date) fuel (numeral (k + 1)) s := by
  have hmarked := (h.marked k i hi).2
  rw [← hdrive] at hmarked
  have hmarkers := markers_eq hmarked
  have hunderscore : '_' ∈ volId c (k + 1) := by
    rw [volId, if_pos (Nat.succ_pos k)]
    simp
  have hmulti : ((markers s.drive).any fun m => m.contains '_') = true := by
    simp [hmarkers, hunderscore]
  rw [getBackupBack, if_neg (by simp [hmarkers]), if_pos hmulti,
    markerField_one (Nat.succ_pos k) hmarked, markerField_two (Nat.succ_pos k) hmarked]

/-- `Get_backup_back` begins with the first part if and only if the volume in the
drive is not one of those that hold a middle or the last part of the archive. -/
theorem VolumeSet.fromFirst_iff (h : VolumeSet c destination first ps t images)
    (hinsert : ∀ i ∈ images, insert i.label = some i.files) {k fuel : Nat} {s : Session} {i : Image}
    (hi : images[k]? = some i) (hdrive : s.drive = i.files) (hs : Between images s)
    (hfuel : images.length + ps.length + 1 ≤ fuel) :
    ∃ r, getBackupBack insert fuel destination s = .ok r ∧ Between images r.session ∧
      (FromFirst images first (ps.flatten ++ t) r ↔ ¬ (first < k ∧ k ≤ first + ps.length)) := by
  rw [h.getBackupBack_eq hi hdrive]
  have hlt := (List.getElem?_eq_some_iff.mp hi).1
  have htail := h.tail_lt
  by_cases hlater : first < k ∧ k ≤ first + ps.length
  · have hwrong : ∀ r : Restored, r.start = i.files →
        ¬ FromFirst images first (ps.flatten ++ t) r := by
      intro r hstart hfrom
      obtain ⟨j, hj, hsame⟩ := hfrom.start
      have hown := ((h.marked k i hi).2 _ (isMarker_volId c _)).mpr rfl
      rw [← hstart, hsame] at hown
      have := volId_injective (((h.marked first j hj).2 _ (isMarker_volId c _)).mp hown)
      omega
    by_cases hlast : k = first + ps.length
    · subst hlast
      obtain ⟨fuel, rfl⟩ := Nat.exists_eq_succ_of_ne_zero (by omega : fuel ≠ 0)
      have hsearch : search insert destination (markerPrefix ++ c.date) (fuel + 1)
          (numeral (first + ps.length + 1)) s = .ok { start := i.files, out := t, session := s } :=
        h.search_tail hi hs hdrive
      exact ⟨_, hsearch, hs, iff_of_false (hwrong _ rfl) fun hnot => hnot hlater⟩
    · obtain ⟨d, rfl⟩ := Nat.exists_eq_add_of_le (Nat.le_of_lt hlater.1)
      have hd : d < ps.length := by omega
      have hbound : ps.length + 1 ≤ fuel := by omega
      obtain ⟨r, hr, hstart, _, hsession⟩ := h.search_part hinsert (markerPrefix ++ c.date)
        (numeral (first + d + 1)) hd hi hdrive hbound
      exact ⟨r, hr, hsession, iff_of_false (hwrong r hstart) fun hnot => hnot hlater⟩
  · have hdist : distance images.length first k ≤ images.length := by
      simp only [distance]
      split <;> omega
    have hbound : distance images.length first k + ps.length + 1 ≤ fuel := by omega
    obtain ⟨r, hr, hfrom, hsession⟩ := h.search_other hinsert _ k fuel s i hi (by omega) rfl hbound
      hdrive hs
    exact ⟨r, hr, hsession, iff_of_true hfrom hlater⟩

end Search

end GetBackup
