import MkCDrec.Backup

/-!
# Restoring a split archive

`restore_split_file` copies what the volume in the drive holds of an archive to
its stdout and calls `ask.for.cd.sh` for the next volume, until the volume with
`LAST_CD` or the last part is reached. The two scripts talk through
`/tmp/restore`, `/tmp/more_to_come` and the names of the files. File names are
relative to `/cdrom`.
-/

namespace RestoreSplit

open Directory ShellText SplitFile MakeIso Backup

/-- The volume in the drive and the flag files in `/tmp`. -/
structure Session where
  drive : Files
  restore : Text
  moreToCome : Option Nat

inductive Failure
  | notFound
  | wrongVolume
  | outOfFuel

/-- `$((volno+1))`, or 1 after the last volume; arithmetic on something that is
no number ends the script. -/
def nextVolno (d : Files) (volno : Text) : Option Nat :=
  if lastCd ∈ d then some 1
  else if volno ≠ [] ∧ volno.all Char.isDigit then some (value volno + 1)
  else none

/-- `ls CDrec-* | cut -d"_" -f k`. -/
def markerField (k : Nat) (d : Files) : Text := ['\n'].intercalate ((markers d).map (cut '_' k))

/-- `ask.for.cd.sh`. What the user puts into the drive for a label is `insert`;
a volume without that marker is never accepted. An early exit of the script
goes unnoticed by its caller and changes nothing. -/
def askForCd (insert : Text → Option Files) (s : Session) : Except Failure Session :=
  if markers s.drive = [] then .ok s
  else match nextVolno s.drive (markerField 2 s.drive) with
    | none => .ok s
    | some volno =>
      let label := markerField 1 s.drive ++ '_' :: numeral volno
      match insert label with
      | none => .error .wrongVolume
      | some d =>
        if label ∈ d then
          if s.restore ∈ d then
            .ok { drive := d, restore := s.restore, moreToCome := some 1 }
          else
            .ok { drive := d, restore := chop '_' s.restore, moreToCome := some 0 }
        else .error .wrongVolume

/-- `restore_split_file`: its output and the state it leaves. -/
def restoreSplitFile (insert : Text → Option Files) :
    Nat → Text → Session → Except Failure (Bytes × Session)
  | 0, _, _ => .error .outOfFuel
  | fuel + 1, file, s =>
    let file := if file ∈ s.drive then file else chop '_' file
    if file ∈ s.drive then
      let mtc := if lastCd ∈ s.drive then 0 else s.moreToCome.getD 0
      if 0 < mtc then
        match askForCd insert s with
        | .error e => .error e
        | .ok s' =>
          match restoreSplitFile insert fuel file s' with
          | .error e => .error e
          | .ok (out, s'') => .ok (cat s.drive file ++ out, s'')
      else .ok (cat s.drive file, s)
    else .error .notFound

/-- `Restore_Splitted_Backup` up to the pipe. -/
def restoreSplittedBackup (insert : Text → Option Files) (fuel : Nat) (restore : Text)
    (drive : Files) : Except Failure (Bytes × Session) :=
  restoreSplitFile insert fuel (uncomplete restore)
    { drive, restore := uncomplete restore, moreToCome := some 1 }

section Labels

variable {c : Config} {n : Nat} {d : Files}

theorem cut_one_volId (hn : 0 < n) : cut '_' 1 (volId c n) = markerPrefix ++ c.date := by
  have hdate : '_' ∉ markerPrefix ++ c.date := by
    simp only [List.mem_append, not_or]
    exact ⟨by decide, c.date_plain.1⟩
  rw [volId, if_pos hn]
  exact cut_one hdate (notMem_numeral (by decide) n)

theorem cut_two_volId (hn : 0 < n) : cut '_' 2 (volId c n) = numeral n := by
  have hdate : '_' ∉ markerPrefix ++ c.date := by
    simp only [List.mem_append, not_or]
    exact ⟨by decide, c.date_plain.1⟩
  rw [volId, if_pos hn]
  exact cut_two hdate (notMem_numeral (by decide) n)

theorem markerField_one (hn : 0 < n) (hmarked : ∀ x, isMarker x = true → (x ∈ d ↔ x = volId c n)) :
    markerField 1 d = markerPrefix ++ c.date := by
  simp [markerField, markers_eq hmarked, cut_one_volId hn]

theorem markerField_two (hn : 0 < n) (hmarked : ∀ x, isMarker x = true → (x ∈ d ↔ x = volId c n)) :
    markerField 2 d = numeral n := by
  simp [markerField, markers_eq hmarked, cut_two_volId hn]

theorem nextVolno_numeral (hlast : lastCd ∉ d) : nextVolno d (numeral n) = some (n + 1) := by
  rw [nextVolno, if_neg hlast, if_pos ⟨numeral_ne_nil n, all_isDigit_numeral n⟩, value_numeral]

end Labels

section Restore

variable {c : Config} {destination : Text} {insert : Text → Option Files} {n : Nat} {d : Files}

/-- On a volume that ends at a cut the script asks for the next one, and finds
out from the names on it whether that is the last part. -/
theorem askForCd_eq {s : Session} (hn : 0 < n)
    (hmarked : ∀ x, isMarker x = true → (x ∈ s.drive ↔ x = volId c n))
    (hlast : lastCd ∉ s.drive) (hinsert : insert (volId c (n + 1)) = some d)
    (hlabel : volId c (n + 1) ∈ d) :
    askForCd insert s =
      if s.restore ∈ d then .ok { drive := d, restore := s.restore, moreToCome := some 1 }
      else .ok { drive := d, restore := chop '_' s.restore, moreToCome := some 0 } := by
  have hnonempty : markers s.drive ≠ [] := by simp [markers_eq hmarked]
  have hnext : markerField 1 s.drive ++ '_' :: numeral (n + 1) = volId c (n + 1) := by
    rw [markerField_one hn hmarked, volId, if_pos (Nat.succ_pos n)]
  simp only [askForCd, hnonempty, if_false, markerField_two hn hmarked, nextVolno_numeral hlast,
    hnext, hinsert, hlabel, if_true]

theorem restoreSplitFile_tail {fuel : Nat} {t : Bytes} {image : Image} {s : Session}
    (htail : TailVolume c destination n t image) (hdrive : s.drive = image.files)
    (hmore : s.moreToCome = some 0) :
    restoreSplitFile insert (fuel + 1) (uncomplete destination) s = .ok (t, s) := by
  obtain ⟨b, hb⟩ := htail.stored.exists_file
  have hin : destination ∈ image.files := AList.lookup_isSome.mp (by rw [hb]; rfl)
  have hchop : chop '_' (uncomplete destination) = destination := chop_append '_' destination
  simp only [restoreSplitFile, hdrive, htail.complete, if_false, hchop, hin, if_true, hmore,
    Option.getD_some, ite_self, Nat.lt_irrefl, htail.stored.cat_eq]

/-- One round on a volume that ends at a cut. -/
theorem restoreSplitFile_part {fuel : Nat} {p out : Bytes} {image : Image} {s s' s'' : Session}
    (hpart : PartVolume c destination n p image) (hdrive : s.drive = image.files)
    (hmore : s.moreToCome = some 1) (hask : askForCd insert s = .ok s')
    (hrest : restoreSplitFile insert fuel (uncomplete destination) s' = .ok (out, s'')) :
    restoreSplitFile insert (fuel + 1) (uncomplete destination) s = .ok (p ++ out, s'') := by
  obtain ⟨b, hb⟩ := hpart.stored.exists_file
  have hin : uncomplete destination ∈ image.files := AList.lookup_isSome.mp (by rw [hb]; rfl)
  simp only [restoreSplitFile, hdrive, hin, if_true, hpart.notLast, if_false, hmore,
    Option.getD_some, Nat.one_pos, hask, hrest, hpart.stored.cat_eq]

/-- From any part on, the rest of the archive comes out in order. The induction
is over the volumes: `/tmp/restore` keeps its underscore as long as parts
follow. -/
theorem restoreSplitFile_volumes {t : Bytes} {tailImage : Image} (ps : List Bytes) :
    ∀ (n : Nat) (p : Bytes) (image : Image) (images : List Image), 0 < n →
      Volumes c destination n (p :: ps) (image :: images) →
      TailVolume c destination (n + 1 + ps.length) t tailImage →
      (∀ i ∈ images ++ [tailImage], insert i.label = some i.files) →
      ∀ (fuel : Nat) (s : Session), ps.length + 2 ≤ fuel → s.drive = image.files →
        s.restore = uncomplete destination → s.moreToCome = some 1 →
        restoreSplitFile insert fuel (uncomplete destination) s = .ok (p ++ (ps.flatten ++ t),
          { drive := tailImage.files, restore := destination, moreToCome := some 0 }) := by
  induction ps with
  | nil =>
    intro n p image images hn hvols htail hinsert fuel s hfuel hdrive hrestore hmore
    obtain ⟨fuel, rfl⟩ := Nat.exists_eq_add_of_le hfuel
    cases hvols with
    | cons hpart _ =>
      have hlabel : volId c (n + 1) ∈ tailImage.files :=
        (htail.marked _ (isMarker_volId c _)).mpr rfl
      have hnext : insert (volId c (n + 1)) = some tailImage.files := by
        have h := hinsert tailImage (by simp)
        rwa [htail.label] at h
      have hask := askForCd_eq hn (hdrive ▸ hpart.marked) (hdrive ▸ hpart.notLast) hnext hlabel
      rw [hrestore, if_neg htail.complete] at hask
      rw [List.length_nil, Nat.zero_add, Nat.add_comm 2 fuel]
      have hchop : chop '_' (uncomplete destination) = destination := chop_append '_' destination
      rw [hchop] at hask
      exact restoreSplitFile_part hpart hdrive hmore hask (restoreSplitFile_tail htail rfl rfl)
  | cons q ps ih =>
    intro n p image images hn hvols htail hinsert fuel s hfuel hdrive hrestore hmore
    obtain ⟨fuel, rfl⟩ := Nat.exists_eq_add_of_le hfuel
    cases hvols with
    | cons hpart htails =>
      cases htails with
      | @cons _ _ _ next images hnextPart hlater =>
        have hlabel : volId c (n + 1) ∈ next.files :=
          (hnextPart.marked _ (isMarker_volId c _)).mpr rfl
        have hnext : insert (volId c (n + 1)) = some next.files := by
          have h := hinsert next (by simp)
          rwa [hnextPart.label] at h
        obtain ⟨b, hb⟩ := hnextPart.stored.exists_file
        have hin : uncomplete destination ∈ next.files :=
          AList.lookup_isSome.mp (by rw [hb]; rfl)
        have hask := askForCd_eq hn (hdrive ▸ hpart.marked) (hdrive ▸ hpart.notLast) hnext hlabel
        rw [hrestore, if_pos hin] at hask
        have hlen : n + 1 + (q :: ps).length = n + 1 + 1 + ps.length := by
          simp only [List.length_cons]
          omega
        rw [hlen] at htail
        have hsplit : (q :: ps).length + 2 + fuel = (ps.length + 2 + fuel) + 1 := by
          simp only [List.length_cons]
          omega
        have hrest := ih (n + 1) q next images (Nat.succ_pos n)
          (.cons hnextPart hlater) htail
          (fun i hi => hinsert i (List.mem_cons_of_mem _ hi)) (ps.length + 2 + fuel)
          { drive := next.files, restore := uncomplete destination, moreToCome := some 1 }
          (by omega) rfl rfl rfl
        rw [hsplit, List.flatten_cons, List.append_assoc]
        exact restoreSplitFile_part hpart hdrive hmore hask hrest

end Restore

end RestoreSplit
