import MkCDrec.RestoreSplit

/-!
# The multi-volume round trip

What `cutstream` cuts and `makeISO9660.sh` puts on volumes comes back from
`restore_split_file` unchanged, if every image is made and the user follows the
prompts. The last part may share its volume with other archives and need not lie
on the last volume of the set.
-/

namespace RoundTrip

open Directory ShellText SplitFile MakeIso Backup RestoreSplit Cutting

/-- A user who looks for the volume with the label that is asked for. -/
def insertFrom (images : List Image) (label : Text) : Option Files :=
  (images.find? fun i => i.label == label).map Image.files

theorem insertFrom_eq {images : List Image} (hnodup : (images.map Image.label).Nodup) :
    ∀ i ∈ images, insertFrom images i.label = some i.files := by
  induction images with
  | nil => simp
  | cons j images ih =>
    obtain ⟨hj, hrest⟩ := List.nodup_cons.mp hnodup
    intro i hi
    rcases List.mem_cons.mp hi with rfl | hi
    · simp [insertFrom]
    · have hne : j.label ≠ i.label := fun h => hj (h ▸ List.mem_map_of_mem hi)
      have := ih hrest i hi
      rw [insertFrom] at this ⊢
      rw [List.find?_cons_of_neg (by simpa using hne)]
      exact this

section Volumes

variable {c : Config} {destination : Text} {n : Nat} {ps : List Bytes} {images : List Image}

theorem Volumes.length_eq (h : Volumes c destination n ps images) :
    images.length = ps.length := by
  induction h with
  | nil => rfl
  | cons _ _ ih => simp [ih]

theorem Volumes.labels (h : Volumes c destination n ps images) :
    images.map Image.label = (List.range' n ps.length).map (volId c) := by
  induction h with
  | nil => rfl
  | cons head _ ih =>
    rw [List.map_cons, ih, head.label, List.length_cons, List.range'_succ, List.map_cons]

end Volumes

theorem nodup_labels (c : Config) (n k : Nat) : ((List.range' n k).map (volId c)).Nodup :=
  (List.nodup_range' ..).map fun _ _ h => volId_injective h

variable {c : Config} {destination : Text} {outcome : Nat → Outcome}

/-- The round trip, for a stream that reaches its first cut. `w` is the world in
which the backup of the file system begins, `w'` that in which the next image
after its end is made. -/
theorem split_archive_restored (hname : ArchiveName c destination) (hcd : c.CdMode)
    (hok : ∀ n, (outcome n).Succeeds) {maxcdsize : Nat} (hm : 0 < maxcdsize) (capacity : Nat)
    (s : Bytes) (hcut : capacity * 1024 ≤ s.length) (w : World)
    (hfresh : Fresh destination w.isofs) {fuel : Nat} (hfuel : s.length + 2 ≤ fuel) :
    ∃ q, cutstream c destination outcome maxcdsize fuel capacity s w = .ok q ∧
      ∀ (w' : World) (continued : Bool) (next : Text), Interlude destination q.world w' →
        (continued = true → Unrelated c destination next) →
        ∃ first rest,
          (makeISO9660 c continued next (outcome (w'.volno + 1))
            { w' with volno := w'.volno + 1 }).1.shelf = w.shelf ++ first :: rest ∧
          (first :: rest).map Image.label =
            (List.range' (w.volno + 1) (rest.length + 1)).map (volId c) ∧
          Stored first.files (uncomplete destination) (s.take (capacity * 1024)) ∧
          ∀ insert : Text → Option Files, (∀ i ∈ rest, insert i.label = some i.files) →
            ∀ fuel', rest.length + 1 ≤ fuel' →
              ∃ session, restoreSplittedBackup insert fuel' destination first.files =
                .ok (s, session) := by
  obtain ⟨ps, t, hcuts⟩ := exists_cuts (m := maxcdsize * 1024) (by omega) (capacity * 1024) s
  obtain ⟨q, images, hrun, hvols, hshelf, _, hvol, hhold⟩ :=
    cutstream_succeeds hname hcd hok hm hcuts hfuel hfresh
  refine ⟨q, hrun, ?_⟩
  intro w' continued next hbetween hnext
  have htail := tailVolume_image (w := { w' with volno := w'.volno + 1 })
    (o := outcome (w'.volno + 1)) hname hhold hbetween.same hbetween.noLabel hnext
  obtain ⟨iso, hmake⟩ := makeISO9660_finishes (w := { w' with volno := w'.volno + 1 })
    ((hok (w'.volno + 1)).finishes hcd _) (Nat.succ_pos _) continued next
  generalize himage : image c continued next (outcome (w'.volno + 1))
    { w' with volno := w'.volno + 1 } = tailImage at htail hmake
  cases hcuts with
  | tail short => omega
  | @cut _ _ _ ps full hlater =>
    cases hvols with
    | @cons _ _ _ first images hfirst hvols =>
      have hlen := Volumes.length_eq hvols
      have hnumber : w'.volno + 1 = w.volno + 1 + 1 + ps.length := by
        rw [hbetween.volno, hvol, List.length_cons]
        omega
      refine ⟨first, images ++ [tailImage], ?_, ?_, hfirst.stored, ?_⟩
      · rw [hmake, hbetween.shelf, hshelf]
        simp
      · have hlabels : (first :: (images ++ [tailImage])).map Image.label =
            volId c (w.volno + 1) :: ((List.range' (w.volno + 1 + 1) ps.length).map (volId c) ++
              [volId c (w'.volno + 1)]) := by
          simp only [List.map_cons, List.map_append, List.map_nil, hfirst.label,
            Volumes.labels hvols, htail.label]
        rw [hlabels, List.length_append, List.length_singleton, hlen, List.range'_succ,
          List.map_cons, List.range'_concat, List.map_append, List.map_singleton, hnumber,
          Nat.one_mul]
      · intro insert hinsert fuel' hfuel'
        rw [List.length_append, List.length_singleton, hlen] at hfuel'
        have hwhole : s.take (capacity * 1024) ++ (ps.flatten ++ t) = s := by
          rw [hlater.flatten, List.take_append_drop]
        have hrestore := restoreSplitFile_volumes ps (w.volno + 1)
          (s.take (capacity * 1024)) first images (Nat.succ_pos _) (.cons hfirst hvols)
          (hnumber ▸ htail) hinsert fuel'
          { drive := first.files, restore := uncomplete destination, moreToCome := some 1 }
          (by omega) rfl rfl rfl
        rw [hwhole] at hrestore
        exact ⟨_, hrestore⟩

theorem fresh_empty (destination : Text) : Fresh destination ∅ :=
  ⟨fun _ _ _ => AList.notMem_empty _, fun _ h => absurd h (AList.notMem_empty _),
    AList.notMem_empty _⟩

/-- The first part is empty, the volume with the tail is made at the end. -/
theorem split_archive_restored_usr :
    ∃ q first rest session,
      cutstream diskConfig usrArchive (fun _ => allSucceed) 1 5 0 [1, 2, 3]
        emptyWorld = .ok q ∧
      (makeISO9660 diskConfig false [] allSucceed
        { q.world with volno := q.world.volno + 1 }).1.shelf = first :: rest ∧
      restoreSplittedBackup (insertFrom rest) (rest.length + 1) usrArchive
        first.files = .ok ([1, 2, 3], session) := by
  obtain ⟨q, hrun, hrest⟩ := split_archive_restored archiveName_usr rfl
    (fun _ => allSucceed_succeeds) (show 0 < 1 by decide) 0 [1, 2, 3] (by decide) emptyWorld
    (fresh_empty _) (show _ ≤ 5 by decide)
  obtain ⟨first, rest, hshelf, hlabels, _, hrestore⟩ :=
    hrest q.world false [] ⟨rfl, rfl, fun _ _ => rfl, fun _ h _ => h⟩ (by simp)
  have hnodup : (rest.map Image.label).Nodup := by
    have h := hlabels ▸ nodup_labels diskConfig _ _
    exact (List.nodup_cons.mp h).2
  obtain ⟨session, hsession⟩ := hrestore (insertFrom rest) (insertFrom_eq hnodup) _ (Nat.le_refl _)
  exact ⟨q, first, rest, session, hrun, hshelf, hsession⟩

end RoundTrip
