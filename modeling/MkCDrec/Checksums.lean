import MkCDrec.Labels

/-!
# The list of checksums on a volume

Before `mkisofs` the script appends a line of `md5sum` to `Checksums.md5` for every
file that `find` lists. The list of files is complete before the first line is
written, so on the first volume `Checksums.md5` is not in it. On a later volume it
is if the run for the volume before it did not empty `ISOFS_DIR`: then the lines
of that volume are still there, and there is a line for the list itself, which is
wrong as soon as it is written. What makes the first image bootable comes after the list.
-/

namespace Checksums

open Directory ShellText SplitFile MakeIso Backup TarIt

/-- The content of `Checksums.md5`. -/
def sums (d : Files) : Bytes := (d.lookup checksums).getD []

def line (c : Config) (d : Files) (x : Text) : Bytes := c.md5sum x ((d.lookup x).getD [])

/-- The other files on the volume. -/
def others (d : Files) : List Text := d.keys.filter (· ≠ checksums)

/-- `Checksums.md5` has the right line for every other file on the volume, and
nothing else. -/
def Listed (c : Config) (d : Files) : Prop := sums d = (others d).flatMap (line c d)

/-- The run for volume `n` of a set gets as far as the `rm` at its end. -/
structure Empties (c : Config) (o : Outcome) (n : Nat) : Prop where
  cdMode : c.CdMode
  bootable : n ≤ 1 → o.bootable = true
  verified : n ≤ 1 → o.verify = true

/-- Nothing is added to the first image behind the list, and the line of `isolinux.bin` is as
right after `mkisofs` as before. -/
structure Unaltered (c : Config) (o : Outcome) (d : Files) : Prop where
  img : o.boot.img = none
  catalog : o.boot.catalog = none
  table : ∀ b ∈ d.lookup isolinuxBin,
    c.md5sum isolinuxBin (writeTable o.boot.table (unsplit b)) = c.md5sum isolinuxBin (unsplit b)

/-- One file of the list. -/
def append (c : Config) (acc : Files) (fl : Text) : Files :=
  match acc.lookup fl with
  | some b => acc.insert checksums ((acc.lookup checksums).getD [] ++ c.md5sum fl b)
  | none => acc

section Lines

variable {c : Config} {d acc : Files} {x fl : Text} {l : List Text}

theorem addChecksums_eq (c : Config) (d : Files) :
    addChecksums c d = d.keys.foldl (append c) d := rfl

theorem append_of_mem (h : fl ∈ acc) :
    append c acc fl = acc.insert checksums (sums acc ++ line c acc fl) := by
  obtain ⟨b, hb⟩ := Option.isSome_iff_exists.mp (AList.lookup_isSome.mpr h)
  simp only [append, sums, line, hb, Option.getD_some]

theorem sums_append (h : fl ∈ acc) : sums (append c acc fl) = sums acc ++ line c acc fl := by
  rw [append_of_mem h, sums, AList.lookup_insert, Option.getD_some]

theorem lookup_append (hx : x ≠ checksums) (acc : Files) (fl : Text) :
    (append c acc fl).lookup x = acc.lookup x := by
  rw [append]
  split
  · exact AList.lookup_insert_ne hx
  · rfl

theorem mem_append_of_mem (h : x ∈ acc) : x ∈ append c acc fl := by
  rw [append]
  split
  · exact (AList.mem_insert _).mpr (.inr h)
  · exact h

/-- The lines of the files other than the list are those of their final contents. -/
theorem sums_foldl (hl : ∀ x ∈ l, x ∈ acc ∧ x ≠ checksums)
    (hsame : ∀ x, x ≠ checksums → acc.lookup x = d.lookup x) :
    sums (l.foldl (append c) acc) = sums acc ++ l.flatMap (line c d) := by
  induction l generalizing acc with
  | nil => simp
  | cons fl l ih =>
    obtain ⟨hmem, hne⟩ := hl fl List.mem_cons_self
    have hline : line c acc fl = line c d fl := by rw [line, line, hsame fl hne]
    rw [List.foldl_cons, ih, sums_append hmem, hline, List.flatMap_cons, List.append_assoc]
    · intro x hx
      have hx := hl x (List.mem_cons_of_mem _ hx)
      exact ⟨mem_append_of_mem hx.1, hx.2⟩
    · intro x hx
      rw [lookup_append hx, hsame x hx]

/-- The list itself among the files makes it longer by the line for it. -/
theorem length_sums_foldl (hself : ∀ b, c.md5sum checksums b ≠ []) (hl : ∀ x ∈ l, x ∈ acc)
    (hsame : ∀ x, x ≠ checksums → acc.lookup x = d.lookup x) :
    (sums acc).length + ((l.filter (· ≠ checksums)).flatMap (line c d)).length +
        (if checksums ∈ l then 1 else 0) ≤
      (sums (l.foldl (append c) acc)).length := by
  induction l generalizing acc with
  | nil => simp
  | cons fl l ih =>
    have hmem := hl fl List.mem_cons_self
    have hrest := @ih (append c acc fl)
      (fun x hx => mem_append_of_mem (hl x (List.mem_cons_of_mem _ hx)))
      (fun x hx => (lookup_append hx acc fl).trans (hsame x hx))
    rw [sums_append hmem, List.length_append] at hrest
    rw [List.foldl_cons]
    by_cases hfl : fl = checksums
    · subst hfl
      have hpos : 0 < (line c acc checksums).length := List.length_pos_of_ne_nil (hself _)
      rw [List.filter_cons_of_neg (by simp), if_pos List.mem_cons_self]
      omega
    · have hline : line c acc fl = line c d fl := by rw [line, line, hsame fl hfl]
      have hiff : checksums ∈ fl :: l ↔ checksums ∈ l := by
        simp [Ne.symm hfl]
      rw [List.filter_cons_of_pos (by simpa using hfl), List.flatMap_cons, List.length_append]
      simp only [hiff]
      rw [hline] at hrest
      omega

theorem keys_foldl : ∀ (l : List Text) (acc : Files),
    others (l.foldl (append c) acc) = others acc := by
  intro l
  induction l with
  | nil => intro acc; rfl
  | cons fl l ih =>
    intro acc
    rw [List.foldl_cons, ih]
    simp only [append]
    split
    · exact filter_keys_insert _ _ _
    · rfl

theorem line_addChecksums (hx : x ≠ checksums) :
    line c (addChecksums c d) x = line c d x := by
  rw [line, line, lookup_addChecksums_other hx]

theorem flatMap_others (c : Config) (d : Files) :
    (others (addChecksums c d)).flatMap (line c (addChecksums c d)) =
      (others d).flatMap (line c d) := by
  rw [addChecksums_eq, keys_foldl, ← addChecksums_eq]
  have hcongr : ∀ x ∈ others d, line c (addChecksums c d) x = line c d x := by
    intro x hx
    exact line_addChecksums (by simpa using (List.mem_filter.mp hx).2)
  exact List.flatMap_congr hcongr

/-- The list is right exactly if there was none before. -/
theorem listed_addChecksums_iff (hself : ∀ b, c.md5sum checksums b ≠ []) :
    Listed c (addChecksums c d) ↔ checksums ∉ d := by
  rw [Listed, flatMap_others, addChecksums_eq]
  constructor
  · intro heq hmem
    have hlen := length_sums_foldl (d := d) (l := d.keys) hself (fun x hx => hx) (fun _ _ => rfl)
    rw [heq, if_pos (show checksums ∈ d.keys from hmem)] at hlen
    simp only [others] at hlen
    omega
  · intro habsent
    have hall : ∀ x ∈ d.keys, x ≠ checksums := fun x hx h => habsent (h ▸ hx)
    have hothers : others d = d.keys := by
      rw [others, List.filter_eq_self]
      intro x hx
      simpa using hall x hx
    have hold : sums d = [] := by rw [sums, AList.lookup_eq_none.mpr habsent]; rfl
    rw [sums_foldl (d := d) (fun x hx => ⟨hx, hall x hx⟩) (fun _ _ => rfl), hold, hothers,
      List.nil_append]

theorem checksums_mem_addChecksums (hx : x ∈ d) : checksums ∈ addChecksums c d := by
  have hfold : ∀ (l : List Text) (acc : Files), checksums ∈ acc →
      checksums ∈ l.foldl (append c) acc := by
    intro l
    induction l with
    | nil => intro acc h; exact h
    | cons fl l ih => intro acc h; exact ih _ (mem_append_of_mem h)
  rw [addChecksums_eq]
  cases hkeys : d.keys with
  | nil =>
    have hx : x ∈ d.keys := hx
    rw [hkeys] at hx
    cases hx
  | cons fl l =>
    have hfl : fl ∈ d := by
      have hmem : fl ∈ d.keys := by rw [hkeys]; exact List.mem_cons_self
      exact hmem
    rw [List.foldl_cons, append_of_mem hfl]
    exact hfold l _ ((AList.mem_insert _).mpr (.inl rfl))

end Lines

section Boot

variable {c : Config} {o : Outcome} {d : Files} {n : Nat}

/-- Lines of the same lengths are the same one by one. -/
theorem flatMap_eq_iff {α β : Type} {f g : α → List β} (hlen : ∀ x, (f x).length = (g x).length)
    (l : List α) : l.flatMap f = l.flatMap g ↔ ∀ x ∈ l, f x = g x := by
  constructor
  · intro h
    induction l with
    | nil => simp
    | cons x l ih =>
      rw [List.flatMap_cons, List.flatMap_cons] at h
      obtain ⟨hx, hl⟩ := List.append_inj h (hlen x)
      exact List.forall_mem_cons.mpr ⟨hx, ih hl⟩
  · exact List.flatMap_congr

/-- The names that are added to the directory and to the image. -/
def added (o : Outcome) : List Text :=
  o.boot.catalog.elim [] (fun x => [x.1]) ++ o.boot.img.elim [] fun _ => [bootImg]

theorem mem_added {x : Text} (hx : x ∈ added o) : x ∈ bootImg :: catalogs := by
  rcases List.mem_append.mp hx with hx | hx
  · cases hcatalog : o.boot.catalog with
    | none =>
      rw [hcatalog] at hx
      cases hx
    | some y =>
      rw [hcatalog, Option.elim_some, List.mem_singleton] at hx
      exact List.mem_cons_of_mem _ (hx ▸ o.boot.catalog_name y hcatalog)
  · cases himg : o.boot.img with
    | none =>
      rw [himg] at hx
      cases hx
    | some b =>
      rw [himg, Option.elim_some, List.mem_singleton] at hx
      exact hx ▸ List.mem_cons_self

theorem added_eq_nil_iff : added o = [] ↔ o.boot.img = none ∧ o.boot.catalog = none := by
  rw [added, List.append_eq_nil_iff]
  cases o.boot.catalog <;> cases o.boot.img <;> simp

theorem keys_first (hn : n ≤ 1) (hboot : o.bootable = true)
    (hnone : ∀ x ∈ bootImg :: catalogs, x ∉ d) :
    (addCatalog o n (addBoot o n d)).keys = added o ++ d.keys := by
  have himg : (addBoot o n d).keys = o.boot.img.elim [] (fun _ => [bootImg]) ++ d.keys := by
    rw [addBoot, if_pos ⟨hn, hboot⟩, keys_modify]
    cases o.boot.img with
    | none => rfl
    | some b => exact keys_insert_of_notMem (hnone _ List.mem_cons_self) b
  rw [addCatalog, if_pos hn, added]
  cases hcatalog : o.boot.catalog with
  | none => rw [Option.elim_none, Option.elim_none, List.nil_append, himg]
  | some x =>
    have hname := o.boot.catalog_name x hcatalog
    have hfresh : x.1 ∉ addBoot o n d := by
      intro hmem
      have hmem : x.1 ∈ (addBoot o n d).keys := hmem
      rw [himg] at hmem
      rcases List.mem_append.mp hmem with hmem | hmem
      · have hne : bootImg ∉ catalogs := by decide
        cases himg : o.boot.img with
        | none =>
          rw [himg] at hmem
          cases hmem
        | some b =>
          rw [himg, Option.elim_some, List.mem_singleton] at hmem
          exact hne (hmem ▸ hname)
      · exact hnone _ (List.mem_cons_of_mem _ hname) hmem
    rw [Option.elim_some, Option.elim_some, keys_insert_of_notMem hfresh, himg, List.append_assoc]
    rfl

theorem others_first (hn : n ≤ 1) (hboot : o.bootable = true)
    (hnone : ∀ x ∈ bootImg :: catalogs, x ∉ d) :
    others (addCatalog o n (addBoot o n d)) = added o ++ others d := by
  have hfiles : ∀ x ∈ bootImg :: catalogs, x ≠ checksums := by decide
  rw [others, keys_first hn hboot hnone, List.filter_append, List.filter_eq_self.mpr, others]
  intro x hx
  simpa using hfiles x (mem_added hx)

theorem sums_first (o : Outcome) (n : Nat) (d : Files) :
    sums (addCatalog o n (addBoot o n d)) = sums d := by
  have hfree : checksums ∉ bootFiles := by decide
  rw [sums, lookup_addCatalog hfree, lookup_addBoot hfree, sums]

/-- Where nothing is added, only the table is written. -/
theorem first_eq_modify (hn : n ≤ 1) (hboot : o.bootable = true) (himg : o.boot.img = none)
    (hcatalog : o.boot.catalog = none) (d : Files) :
    addCatalog o n (addBoot o n d) = modify isolinuxBin (writeTable o.boot.table) d := by
  rw [addCatalog, if_pos hn, hcatalog, Option.elim_none, addBoot, if_pos ⟨hn, hboot⟩, himg,
    Option.elim_none]

theorem listed_first_iff (hself : ∀ x ≠ [], ∀ b, c.md5sum x b ≠ [])
    (hlen : ∀ x b b', (c.md5sum x b).length = (c.md5sum x b').length) (hn : n ≤ 1)
    (hboot : o.bootable = true) (hnone : ∀ x ∈ bootImg :: catalogs, x ∉ d) (hd : Listed c d) :
    Listed c (addCatalog o n (addBoot o n d)) ↔ o.boot.img = none ∧ o.boot.catalog = none ∧
      ∀ b ∈ d.lookup isolinuxBin,
        c.md5sum isolinuxBin (writeTable o.boot.table b) = c.md5sum isolinuxBin b := by
  have hlines : ∀ e x, (line c e x).length = (line c d x).length := fun e x => hlen x _ _
  rw [Listed] at hd
  rw [Listed, sums_first, others_first hn hboot hnone, List.flatMap_append, hd]
  constructor
  · intro h
    have hnil : added o = [] := by
      rw [List.eq_nil_iff_forall_not_mem]
      intro x hx
      have hempty : (added o).flatMap (line c (addCatalog o n (addBoot o n d))) = [] := by
        have hcount := congrArg List.length h
        simp only [List.length_append, List.length_flatMap, hlines] at hcount
        rw [← List.length_eq_zero_iff, List.length_flatMap]
        simp only [hlines]
        omega
      have hfiles : ∀ x ∈ bootImg :: catalogs, x ≠ [] := by decide
      exact hself x (hfiles x (mem_added hx)) _ (List.flatMap_eq_nil_iff.mp hempty x hx)
    obtain ⟨himg, hcatalog⟩ := added_eq_nil_iff.mp hnil
    refine ⟨himg, hcatalog, ?_⟩
    intro b hb
    rw [hnil, List.flatMap_nil, List.nil_append, first_eq_modify hn hboot himg hcatalog,
      flatMap_eq_iff fun x => (hlines _ x).symm] at h
    have hmem : isolinuxBin ∈ others d := by
      have hkeys : isolinuxBin ∈ d.keys := AList.lookup_isSome.mp (by rw [hb]; rfl)
      exact List.mem_filter.mpr ⟨hkeys, by decide⟩
    have hline := h isolinuxBin hmem
    rw [line, line, lookup_modify, if_pos rfl, hb] at hline
    exact hline.symm
  · rintro ⟨himg, hcatalog, htable⟩
    rw [added_eq_nil_iff.mpr ⟨himg, hcatalog⟩, List.flatMap_nil, List.nil_append,
      first_eq_modify hn hboot himg hcatalog, flatMap_eq_iff fun x => (hlines _ x).symm]
    intro x _
    rw [line, line, lookup_modify]
    by_cases hx : x = isolinuxBin
    · rw [if_pos hx, hx]
      cases hb : d.lookup isolinuxBin with
      | none => rfl
      | some b => exact (htable b hb).symm
    · rw [if_neg hx]

end Boot

section Runs

variable {c : Config} {destination : Text} {outcome : Nat → Outcome} {o : Outcome} {w : World}

/-- The names that no archive and no log has. -/
def fixedFiles : List Text := checksums :: bootFiles

theorem ne_partName {x : Text} (hx : x ∈ fixedFiles) (g : Text) (n : Nat) : x ≠ partName g n := by
  have hfixed : ∀ y ∈ fixedFiles, 'p' ∉ y ∨ ∀ a ∈ y.getLast?, a.isDigit = false := by decide
  rintro rfl
  have hnil : numeral n ≠ [] := numeral_ne_nil n
  rcases hfixed _ hx with h | h
  · exact h (by simp [partName])
  · have hdigit := h ((numeral n).getLast hnil) (by
      rw [partName, List.getLast?_append_of_ne_nil _ hnil, List.getLast?_eq_some_getLast hnil]
      exact Option.mem_some_self _)
    rw [isDigit_of_mem_numeral (List.getLast_mem hnil)] at hdigit
    cases hdigit

theorem mem_splitAll_iff {d : Files} {x : Text} (hx : x ∈ fixedFiles) : x ∈ splitAll d ↔ x ∈ d := by
  constructor
  · intro h
    rcases mem_splitAll h with h | ⟨g, n, _, _, _, h⟩
    · exact h
    · exact absurd h (ne_partName hx g n)
  · exact mem_splitAll_of_mem

theorem lookup_addFiles_fixed (hid : '_' ∈ c.identity) {x : Text} (hx : x ∈ fixedFiles) (n : Nat)
    (d : Files) : (addFiles c o (volId c n) d).lookup x = d.lookup x := by
  have hfixed : ∀ y ∈ fixedFiles, isMarker y = false ∧ '_' ∉ y ∧ y ≠ autorunInf ∧
      y.getLast? ≠ some 'z' := by decide
  obtain ⟨hmarker, hunderscore, hauto, hlast⟩ := hfixed x hx
  apply lookup_addFiles_other
  · rintro rfl
    rw [isMarker_volId] at hmarker
    cases hmarker
  · rintro rfl
    exact hunderscore hid
  · exact hauto
  · rintro p rfl
    rw [List.getLast?_append_of_ne_nil _ (by decide)] at hlast
    exact hlast (by decide)

theorem not_reserved_of_fixed (hname : ArchiveName c destination) {x : Text}
    (hx : x ∈ fixedFiles) : ¬ Reserved destination x := by
  intro h
  rcases List.mem_cons.mp hx with rfl | hx
  · exact hname.free _ h .checksums
  · exact hname.free _ h (.boot hx)

theorem volId_mem_addFiles {n : Nat} {d : Files} : volId c n ∈ addFiles c o (volId c n) d := by
  have htouch : volId c n ∈ touch c.identity [] (touch (volId c n) [] d) :=
    mem_touch.mpr (.inr (mem_touch.mpr (.inl rfl)))
  have hbase : volId c n ∈ (match c.autorun with
      | some b => (touch c.identity [] (touch (volId c n) [] d)).insert autorunInf b
      | none => touch c.identity [] (touch (volId c n) [] d)) := by
    cases c.autorun with
    | none => exact htouch
    | some b => exact (AList.mem_insert _).mpr (.inr htouch)
  simp only [addFiles]
  cases o.log with
  | none => exact hbase
  | some log => exact (AList.mem_insert _).mpr (.inr hbase)

/-- What the list and the boot loader's files are when the list is made. -/
structure Filled (c : Config) (d₀ d : Files) (n : Nat) : Prop where
  label : volId c n ∈ d
  mem : ∀ x ∈ fixedFiles, x ∈ d ↔ x ∈ d₀
  bin : d.lookup isolinuxBin = (d₀.lookup isolinuxBin).map unsplit

/-- A renamed archive is none of these files. -/
theorem exists_filled (hid : '_' ∈ c.identity) (o : Outcome) (continued : Bool)
    (hname : continued = true → ArchiveName c destination) (w : World) :
    ∃ d : Files, fill c continued destination o w = addBoot o w.volno (addChecksums c d) ∧
      Filled c w.isofs d w.volno := by
  have hstage : ∀ d : Files, (∀ x ∈ fixedFiles, d.lookup x = w.isofs.lookup x) →
      ∃ d' : Files, stage c o (volId c w.volno) d = addChecksums c d' ∧
        Filled c w.isofs d' w.volno := by
    intro d hd
    have hadd : ∀ x ∈ fixedFiles,
        (addFiles c o (volId c w.volno) d).lookup x = w.isofs.lookup x :=
      fun x hx => (lookup_addFiles_fixed hid hx _ d).trans (hd x hx)
    refine ⟨_, rfl, ?_, ?_, ?_⟩
    · exact mem_splitAll_of_mem volId_mem_addFiles
    · intro x hx
      rw [mem_splitAll_iff hx, ← AList.lookup_isSome, hadd x hx, AList.lookup_isSome]
    · have hbin : isolinuxBin ∈ fixedFiles := by decide
      rw [← hadd isolinuxBin hbin]
      cases hlookup : (addFiles c o (volId c w.volno) d).lookup isolinuxBin with
      | none =>
        rw [AList.lookup_eq_none] at hlookup
        rw [Option.map_none, AList.lookup_eq_none, mem_splitAll_iff hbin]
        exact hlookup
      | some b => exact lookup_splitAll (ne_partName hbin) hlookup
  have hmoved : ∀ x ∈ fixedFiles, (if 0 < w.volno ∧ continued ∧ o.mvDestination then
      move destination (uncomplete destination) w.isofs else w.isofs).lookup x =
      w.isofs.lookup x := by
    intro x hx
    split
    · rename_i hmv
      have hfree := not_reserved_of_fixed (hname hmv.2.1) hx
      rw [lookup_move_other]
      · rintro rfl
        exact hfree (Reserved.self _)
      · rintro rfl
        exact hfree (Reserved.uncomplete _)
    · rfl
  obtain ⟨d, hd, hfilled⟩ := hstage _ hmoved
  exact ⟨d, by rw [fill, hd], hfilled⟩

@[simp] theorem makeImage_isofs : (makeImage c o w).isofs = w.isofs := by
  rw [makeImage]
  split <;> split <;> rfl

@[simp] theorem saveIso_isofs : (saveIso o w).isofs = w.isofs := by
  rw [saveIso]
  split <;> rfl

@[simp] theorem burnCdr_isofs : (burnCdr c o w).isofs = w.isofs := by
  rw [burnCdr]
  split
  · split
    · rfl
    · exact saveIso_isofs
  · rfl

theorem endVolume_isofs (hvol : 0 < w.volno) : (endVolume c o w).isofs = sweep w.isofs := by
  rw [endVolume, if_pos hvol]
  split
  · rfl
  · simp only [saveIso_isofs]

/-- What the run for a volume of a set leaves in the directory. -/
theorem makeISO9660_isofs (hvol : 0 < w.volno) (continued : Bool) (destination : Text) :
    Empties c o w.volno ∧ (makeISO9660 c continued destination o w).1.isofs =
        sweep (fill c continued destination o w) ∨
      ¬ Empties c o w.volno ∧ (makeISO9660 c continued destination o w).1.isofs =
        fill c continued destination o w := by
  by_cases hboot : w.volno ≤ 1 ∧ o.bootable = false
  · right
    constructor
    · intro h
      rw [h.bootable hboot.1] at hboot
      cases hboot.2
    · simp only [makeISO9660, if_pos hboot]
  cases hmode : c.dvdDrive && c.burncdr with
  | true =>
    right
    constructor
    · intro h
      have hcd : (c.dvdDrive && c.burncdr) = false := h.cdMode
      rw [hmode] at hcd
      cases hcd
    · simp only [makeISO9660, if_neg hboot, hmode, if_true, makeImage_isofs]
  | false =>
    by_cases hverify : w.volno ≤ 1 ∧ o.verify = false
    · right
      constructor
      · intro h
        rw [h.verified hverify.1] at hverify
        cases hverify.2
      · simp only [makeISO9660, if_neg hboot, hmode, Bool.false_eq_true, if_false,
          makeImage_volno, if_pos hverify, makeImage_isofs]
    · left
      refine ⟨⟨hmode, fun hn => ?_, fun hn => ?_⟩, ?_⟩
      · simpa [hn] using hboot
      · simpa [hn] using hverify
      · simp only [makeISO9660, if_neg hboot, hmode, Bool.false_eq_true, if_false,
          makeImage_volno, if_neg hverify]
        rw [endVolume_isofs (by rw [burnCdr_volno, makeImage_volno]; exact hvol), burnCdr_isofs,
          makeImage_isofs]

/-- The list on the image of volume `n` is right. -/
def Right (c : Config) (outcome : Nat → Outcome) (d : Files) (n : Nat) : Prop :=
  if n ≤ 1 then Unaltered c (outcome n) d else Empties c (outcome (n - 1)) (n - 1)

/-- The images made so far, and when the list of the last one is still there. Before the first
one the boot loader's files are those of `d₀`. -/
structure Recorded (c : Config) (outcome : Nat → Outcome) (d₀ : Files) (w : World) : Prop where
  listed : ∀ i ∈ w.built, ∃ n, i.label = volId c n ∧ (Listed c i.files ↔ Right c outcome d₀ n)
  present : checksums ∈ w.isofs ↔ 0 < w.volno ∧ ¬ Empties c (outcome w.volno) w.volno
  start : w.volno = 0 → ∀ x ∈ bootFiles, w.isofs.lookup x = d₀.lookup x

variable {d₀ : Files}

theorem Recorded.congr (h : Recorded c outcome d₀ w) {w' : World} (hvol : w'.volno = w.volno)
    (hbuilt : w'.built = w.built)
    (hisofs : ∀ x ∈ fixedFiles, w'.isofs.lookup x = w.isofs.lookup x) :
    Recorded c outcome d₀ w' := by
  refine ⟨?_, ?_, ?_⟩
  · rw [hbuilt]
    exact h.listed
  · rw [← AList.lookup_isSome, hisofs _ List.mem_cons_self, AList.lookup_isSome, hvol]
    exact h.present
  · intro hzero x hx
    rw [hisofs x (List.mem_cons_of_mem _ hx), h.start (hvol ▸ hzero) x hx]

theorem Recorded.insert (h : Recorded c outcome d₀ w) {x : Text} (b : Bytes)
    (hx : ∀ y ∈ fixedFiles, y ≠ x) :
    Recorded c outcome d₀ { w with isofs := w.isofs.insert x b } :=
  h.congr rfl rfl fun y hy => AList.lookup_insert_ne (hx y hy)

/-- The image for the first volume has nothing of `Checksums.md5` but the right lines exactly
if nothing is altered after the sums were taken. -/
theorem listed_added_iff {e : Files} {n : Nat} (hself : ∀ x ≠ [], ∀ b, c.md5sum x b ≠ [])
    (hlen : ∀ x b b', (c.md5sum x b).length = (c.md5sum x b').length) (hn : n ≤ 1)
    (hbootable : o.bootable = true) (hnone : ∀ x ∈ bootImg :: catalogs, x ∉ d₀)
    (hfilled : Filled c e d n) (hstart : ∀ x ∈ bootFiles, e.lookup x = d₀.lookup x)
    (hlisted : Listed c (addChecksums c d)) :
    Listed c (addCatalog o n (addBoot o n (addChecksums c d))) ↔ Unaltered c o d₀ := by
  have habsent : ∀ x ∈ bootImg :: catalogs, x ∉ addChecksums c d := by
    have hboot : ∀ x ∈ bootImg :: catalogs, x ∈ bootFiles ∧ x ≠ checksums := by decide
    intro x hx hmem
    obtain ⟨hfile, hne⟩ := hboot x hx
    have hin := (hfilled.mem x (List.mem_cons_of_mem _ hfile)).mp
      ((mem_addChecksums hmem).resolve_left hne)
    rw [← AList.lookup_isSome, hstart x hfile, AList.lookup_isSome] at hin
    exact hnone x hx hin
  have hbin : (addChecksums c d).lookup isolinuxBin =
      (d₀.lookup isolinuxBin).map unsplit := by
    rw [lookup_addChecksums_other (by decide), hfilled.bin, hstart _ (by decide)]
  rw [listed_first_iff hself hlen hn hbootable habsent hlisted, hbin]
  constructor
  · rintro ⟨himg, hcatalog, htable⟩
    exact ⟨himg, hcatalog, fun b hb => htable _ (Option.mem_map_of_mem unsplit hb)⟩
  · intro hright
    refine ⟨hright.img, hright.catalog, ?_⟩
    intro b hb
    obtain ⟨a, ha, rfl⟩ := Option.mem_map.mp hb
    exact hright.table a ha

/-- The image of a volume of number `n`, made where volume `w.volno` was the last. -/
theorem Recorded.listed_image (h : Recorded c outcome d₀ w) (w₁ : World) (hid : '_' ∈ c.identity)
    (hself : ∀ x ≠ [], ∀ b, c.md5sum x b ≠ [])
    (hlen : ∀ x b b', (c.md5sum x b).length = (c.md5sum x b').length)
    (hnone : ∀ x ∈ bootImg :: catalogs, x ∉ d₀) {continued : Bool}
    (hname : continued = true → ArchiveName c destination)
    (hisofs : ∀ x ∈ fixedFiles, w₁.isofs.lookup x = w.isofs.lookup x)
    (hone : w.volno = 0 → w₁.volno ≤ 1) (hnext : 0 < w.volno → w₁.volno = w.volno + 1)
    (hbootable : w₁.volno ≤ 1 → (outcome w₁.volno).bootable = true) :
    Listed c (image c continued destination (outcome w₁.volno) w₁).files ↔
      Right c outcome d₀ w₁.volno := by
  obtain ⟨d, hfill, hfilled⟩ := exists_filled hid (outcome w₁.volno) continued hname w₁
  have hfiles : (image c continued destination (outcome w₁.volno) w₁).files =
      addCatalog (outcome w₁.volno) w₁.volno
        (addBoot (outcome w₁.volno) w₁.volno (addChecksums c d)) := by
    rw [image, hfill]
  have hchecksums : checksums ≠ [] := by decide
  have hmem : checksums ∈ d ↔ checksums ∈ w.isofs := by
    rw [hfilled.mem _ List.mem_cons_self, ← AList.lookup_isSome, hisofs _ List.mem_cons_self,
      AList.lookup_isSome]
  rw [hfiles, Right]
  by_cases hzero : w.volno = 0
  · have hn := hone hzero
    have hlisted : Listed c (addChecksums c d) := by
      rw [listed_addChecksums_iff (hself _ hchecksums), hmem, h.present]
      simp [hzero]
    have hstart : ∀ x ∈ bootFiles, w₁.isofs.lookup x = d₀.lookup x := fun x hx =>
      (hisofs x (List.mem_cons_of_mem _ hx)).trans (h.start hzero x hx)
    rw [if_pos hn]
    exact listed_added_iff hself hlen hn (hbootable hn) hnone hfilled hstart hlisted
  · have hpos : 0 < w.volno := Nat.pos_of_ne_zero hzero
    have hlater : ¬ w₁.volno ≤ 1 := by rw [hnext hpos]; omega
    have hplain : addCatalog (outcome w₁.volno) w₁.volno
        (addBoot (outcome w₁.volno) w₁.volno (addChecksums c d)) = addChecksums c d := by
      rw [addCatalog, if_neg hlater, addBoot, if_neg fun h => hlater h.1]
    rw [hplain, if_neg hlater, listed_addChecksums_iff (hself _ hchecksums), hmem, h.present,
      hnext hpos, Nat.add_sub_cancel]
    simp [hpos]

theorem Recorded.makeISO9660 (h : Recorded c outcome d₀ w) (hid : '_' ∈ c.identity)
    (hself : ∀ x ≠ [], ∀ b, c.md5sum x b ≠ [])
    (hlen : ∀ x b b', (c.md5sum x b).length = (c.md5sum x b').length)
    (hnone : ∀ x ∈ bootImg :: catalogs, x ∉ d₀) (hname : ArchiveName c destination) :
    Recorded c outcome d₀ (makeISO9660 c true destination (outcome (w.volno + 1))
      { w with volno := w.volno + 1 }).1 := by
  refine ⟨?_, ?_, ?_⟩
  · intro i hi
    have hold : i ∈ w.built → _ := h.listed i
    by_cases hboot : w.volno + 1 ≤ 1 ∧ (outcome (w.volno + 1)).bootable = false
    · rw [makeISO9660_unbootable hboot] at hi
      exact hold hi
    rcases makeISO9660_built_cases (c := c) true destination (outcome (w.volno + 1))
      { w with volno := w.volno + 1 } with hbuilt | hbuilt
    · rw [hbuilt] at hi
      exact hold hi
    · rw [hbuilt] at hi
      rcases List.mem_append.mp hi with hi | hi
      · exact hold hi
      · obtain rfl := List.mem_singleton.mp hi
        refine ⟨w.volno + 1, rfl, ?_⟩
        refine h.listed_image { w with volno := w.volno + 1 } hid hself hlen hnone
          (fun _ => hname) (fun _ _ => rfl) (fun hzero => ?_) (fun _ => rfl) fun hn => ?_
        · exact Nat.le_of_eq (by rw [hzero])
        · simpa [hn] using hboot
  · rw [makeISO9660_volno]
    obtain ⟨d, hfill, hfilled⟩ := exists_filled hid (outcome (w.volno + 1)) true
      (fun _ => hname) { w with volno := w.volno + 1 }
    have hpos : 0 < w.volno + 1 := Nat.succ_pos _
    rcases makeISO9660_isofs (c := c) (o := outcome (w.volno + 1))
      (w := { w with volno := w.volno + 1 }) hpos true destination with ⟨hempties, h⟩ | ⟨hnot, h⟩
    · rw [h]
      exact iff_of_false (notMem_sweep (by decide)) fun hnot => hnot.2 hempties
    · rw [h, hfill, ← AList.lookup_isSome, lookup_addBoot (by decide), AList.lookup_isSome]
      exact iff_of_true (checksums_mem_addChecksums hfilled.label) ⟨hpos, hnot⟩
  · intro hzero
    rw [makeISO9660_volno] at hzero
    exact absurd hzero (Nat.succ_ne_zero _)

/-- The last image, with or without a cut before it. -/
theorem Recorded.lastVolume (h : Recorded c outcome d₀ w) (hid : '_' ∈ c.identity)
    (hself : ∀ x ≠ [], ∀ b, c.md5sum x b ≠ [])
    (hlen : ∀ x b b', (c.md5sum x b).length = (c.md5sum x b').length)
    (hnone : ∀ x ∈ bootImg :: catalogs, x ∉ d₀) :
    ∀ i ∈ (lastVolume c outcome w).built, ∃ n, i.label = volId c n ∧
      (Listed c i.files ↔ Right c outcome d₀ n) := by
  intro i hi
  rw [TarIt.lastVolume] at hi
  have hold : i ∈ w.built → _ := h.listed i
  by_cases hboot : (closeSet w).volno ≤ 1 ∧ (outcome (closeSet w).volno).bootable = false
  · rw [makeISO9660_unbootable hboot] at hi
    exact hold hi
  rcases makeISO9660_built_cases (c := c) false [] (outcome (closeSet w).volno)
    (closeSet w) with hbuilt | hbuilt
  · rw [hbuilt] at hi
    exact hold hi
  · rw [hbuilt] at hi
    rcases List.mem_append.mp hi with hi | hi
    · exact hold hi
    · obtain rfl := List.mem_singleton.mp hi
      refine ⟨(closeSet w).volno, rfl, ?_⟩
      have hfixed : ∀ x ∈ fixedFiles, x ≠ lastCd := by decide
      refine h.listed_image (closeSet w) hid hself hlen hnone (by simp)
        (fun x hx => lookup_touch_other (hfixed x hx) _ _) ?_ ?_ ?_
      · intro hzero
        simp [Labels.closeSet_volno, hzero]
      · intro hpos
        rw [Labels.closeSet_volno, if_pos hpos]
      · intro hn
        simpa [hn] using hboot

end Runs

end Checksums
