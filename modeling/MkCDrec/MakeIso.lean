import MkCDrec.SplitFile

/-!
# `makeISO9660.sh`

One run renames the part that a cut has completed, adds its own files to
`ISOFS_DIR`, makes an image of it and, in the CD mode of a multi-volume set,
empties the directory for the next volume. The status of every command that can
fail is an input. The test for `MKISOFS` is not among them: its backquotes are
always empty, so `[ ! -f ]` is false and a missing program shows only as a
failing `mkisofs`.
-/

namespace MakeIso

open Directory ShellText SplitFile

def lastCd : Text := "LAST_CD".toList
def checksums : Text := "Checksums.md5".toList
def autorunInf : Text := "autorun.inf".toList
def markerPrefix : Text := "CDrec-".toList

/-- What `ls CDrec-*` lists. -/
def isMarker (name : Text) : Bool := markerPrefix.isPrefixOf name && !name.contains '/'

/-- `ls CDrec-*`. -/
def markers (d : Files) : List Text := d.keys.filter isMarker

/-- The configuration that one backup run keeps. `hostname` and the output of
`date` are no labels of volumes. -/
structure Config where
  date : Text
  identity : Text
  autorun : Option Bytes
  dvdDrive : Bool
  burncdr : Bool
  isoOnly : Bool
  gzip : Bytes → Bytes
  md5sum : Text → Bytes → Bytes
  date_plain : '_' ∉ date ∧ '/' ∉ date
  identity_plain : isMarker identity = false ∧ identity ≠ lastCd

def logSuffix : Text := ".log.gz".toList

/-- `${dsk_fs_prefix}`, the first two fields of the name of the log. -/
def logPrefix (log : Text) : Text := cutTo '.' 2 log

/-- The log of `tar` in `TMP_DIR` when the script runs. -/
structure TarLog where
  name : Text
  content : Bytes
  plain : isMarker (logPrefix name ++ logSuffix) = false

def bootImg : Text := "boot/boot.img".toList
def isolinuxBin : Text := "isolinux/isolinux.bin".toList

/-- The names that `mkisofs` gives to the catalogue. -/
def catalogs : List Text :=
  ["isolinux/boot.cat".toList, "boot/monboot.catalog".toList, "boot.catalog".toList]

/-- What the first image starts from: the `boot.img` that is copied on ia64, the table that
`mkisofs -boot-info-table` writes into `isolinux.bin`, and the catalogue that it adds. -/
structure Boot where
  img : Option Bytes
  table : Bytes
  catalog : Option (Text × Bytes)
  catalog_name : ∀ x ∈ catalog, x.1 ∈ catalogs

def noBoot : Boot := ⟨none, [], none, fun _ h => nomatch h⟩

/-- What the commands of one run do. `bootable` fails where `error 1` is called
before the image of volume 0 or 1, `verify` where the heavy verification of that
volume ends the script. -/
structure Outcome where
  volnoFile : Bool
  mvDestination : Bool
  log : Option TarLog
  bootable : Bool
  boot : Boot
  mkisofs : Bool
  verify : Bool
  burn : Bool
  mvIso : Bool
  reopen : Bool

/-- Every command succeeds. -/
structure Outcome.Succeeds (o : Outcome) : Prop where
  volnoFile : o.volnoFile = true
  mvDestination : o.mvDestination = true
  bootable : o.bootable = true
  mkisofs : o.mkisofs = true
  verify : o.verify = true
  burn : o.burn = true
  mvIso : o.mvIso = true
  reopen : o.reopen = true

/-- The outcome of a run in which nothing fails. -/
def allSucceed : Outcome where
  volnoFile := true
  mvDestination := true
  log := none
  bootable := true
  boot := noBoot
  mkisofs := true
  verify := true
  burn := true
  mvIso := true
  reopen := true

theorem allSucceed_succeeds : allSucceed.Succeeds := ⟨rfl, rfl, rfl, rfl, rfl, rfl, rfl, rfl⟩

/-- An architecture without a recipe for a bootable image: `error 1` ends the
script for the first volume. -/
def unbootable (n : Nat) : Outcome := { allSucceed with bootable := decide (1 < n) }

/-- A configuration that saves its images on disk. -/
def diskConfig : Config where
  date := "01.02.2009".toList
  identity := "box_2.6.18".toList
  autorun := none
  dvdDrive := false
  burncdr := false
  isoOnly := false
  gzip := id
  md5sum := fun name _ => name.map fun a => a.toNat.toUInt8
  date_plain := by decide
  identity_plain := by decide

structure Image where
  label : Text
  files : Files

/-- `ISOFS_DIR`, the volume counter and the images: all that were made, those
on a disc or saved under a name of their own, and `CDrec.iso`. -/
structure World where
  isofs : Files
  volno : Nat
  built : List Image
  shelf : List Image
  cdrecIso : Option Image

/-- The world before a backup, with nothing in `ISOFS_DIR`. -/
def emptyWorld : World where
  isofs := ∅
  volno := 0
  built := []
  shelf := []
  cdrecIso := none

def volId (c : Config) (volno : Nat) : Text :=
  markerPrefix ++ c.date ++ if 0 < volno then '_' :: numeral volno else []

/-- `${DESTINATION}_` means an uncomplete archive. -/
def uncomplete (destination : Text) : Text := destination ++ ['_']

/-- What `gzip` writes of a log. A name with further dots is cut short, and `gzip`
then finds no file. -/
def storedLog (c : Config) (log : TarLog) : Bytes :=
  if logPrefix log.name ++ ".log".toList = log.name then c.gzip log.content else []

/-- The files that the script adds to every volume. -/
def addFiles (c : Config) (o : Outcome) (volid : Text) (d : Files) : Files :=
  let d := touch c.identity [] (touch volid [] d)
  let d := match c.autorun with
    | some b => d.insert autorunInf b
    | none => d
  match o.log with
  | some log => d.insert (logPrefix log.name ++ logSuffix) (storedLog c log)
  | none => d

/-- One line of `md5sum` for every file that `find` has listed. -/
def addChecksums (c : Config) (d : Files) : Files :=
  d.keys.foldl (fun acc fl =>
    match acc.lookup fl with
    | some b => acc.insert checksums ((acc.lookup checksums).getD [] ++ c.md5sum fl b)
    | none => acc) d

/-- What `rm -vf *; rm -rvf doc utilities isolinux` removes: the files at the
top and three directories, but no hidden file and no other directory. -/
def swept (name : Text) : Bool :=
  if name.contains '/' then
    ["doc".toList, "utilities".toList, "isolinux".toList].contains (name.takeWhile (· ≠ '/'))
  else
    name.head?.any (· ≠ '.')

def stage (c : Config) (o : Outcome) (volid : Text) (d : Files) : Files :=
  addChecksums c (splitAll (addFiles c o volid d))

/-- The table stands behind the first eight bytes and does not make the file longer. -/
def writeTable (table b : Bytes) : Bytes :=
  b.take 8 ++ table.take (b.length - 8) ++ b.drop (8 + table.length)

def addBoot (o : Outcome) (volno : Nat) (d : Files) : Files :=
  if volno ≤ 1 ∧ o.bootable then
    modify isolinuxBin (writeTable o.boot.table) (o.boot.img.elim d fun b => d.insert bootImg b)
  else d

def addCatalog (o : Outcome) (volno : Nat) (d : Files) : Files :=
  if volno ≤ 1 then o.boot.catalog.elim d fun x => d.insert x.1 x.2 else d

/-- The directory as `mkisofs` leaves it. -/
def fill (c : Config) (continued : Bool) (destination : Text) (o : Outcome) (w : World) : Files :=
  let d := if 0 < w.volno ∧ continued ∧ o.mvDestination
    then move destination (uncomplete destination) w.isofs else w.isofs
  addBoot o w.volno (stage c o (volId c w.volno) d)

def toDisc (c : Config) (volno : Nat) : Bool :=
  c.dvdDrive && c.burncdr && !c.isoOnly && decide (volno ≤ 1)

/-- `mkisofs` to `CDrec.iso`, or `growisofs` straight to the disc for the first
DVD; a failure is only warned about. -/
def makeImage (c : Config) (o : Outcome) (w : World) : World :=
  let image : Image := ⟨volId c w.volno, addCatalog o w.volno w.isofs⟩
  if toDisc c w.volno then
    if o.mkisofs then { w with built := w.built ++ [image], shelf := w.shelf ++ [image] } else w
  else
    if o.mkisofs then { w with built := w.built ++ [image], cdrecIso := some image }
    else { w with cdrecIso := none }

/-- `mv CDrec.iso` to a name of its own. -/
def saveIso (o : Outcome) (w : World) : World :=
  if o.mvIso then { w with shelf := w.shelf ++ w.cdrecIso.toList, cdrecIso := none } else w

def burnCdr (c : Config) (o : Outcome) (w : World) : World :=
  if c.burncdr then
    if o.burn then { w with shelf := w.shelf ++ w.cdrecIso.toList } else saveIso o w
  else w

/-- The directory after the `rm` at the end of a volume. -/
def sweep (d : Files) : Files := restrict (fun name => !swept name) d

/-- The end of a volume of a set. -/
def endVolume (c : Config) (o : Outcome) (w : World) : World :=
  if 0 < w.volno then
    let w := if c.burncdr then w else saveIso o w
    { w with isofs := sweep w.isofs }
  else w

/-- The script with `DONE=N` (`continued`) or not; the second component is its
exit status. -/
def makeISO9660 (c : Config) (continued : Bool) (destination : Text) (o : Outcome) (w : World) :
    World × Nat :=
  let w := { w with isofs := fill c continued destination o w }
  if w.volno ≤ 1 ∧ o.bootable = false then (w, 1)
  else
    let w := makeImage c o w
    -- a DVD that was written directly is neither checked nor followed by a next one
    if c.dvdDrive && c.burncdr then (w, 0)
    else if w.volno ≤ 1 ∧ o.verify = false then (w, 1)
    else (endVolume c o (burnCdr c o w), 0)

def bootFiles : List Text := bootImg :: isolinuxBin :: catalogs

/-- Names that the scripts use for something other than an archive. -/
inductive Auxiliary (c : Config) : Text → Prop
  | marker {x : Text} (h : isMarker x = true) : Auxiliary c x
  | lastCd : Auxiliary c lastCd
  | identity : Auxiliary c c.identity
  | autorun : Auxiliary c autorunInf
  | checksums : Auxiliary c checksums
  | boot {x : Text} (h : x ∈ bootFiles) : Auxiliary c x
  | log (p : Text) : Auxiliary c (p ++ logSuffix)

section Names

@[simp] theorem isMarker_volId (c : Config) (n : Nat) : isMarker (volId c n) = true := by
  have hslash : '/' ∉ volId c n := by
    have hhead : '/' ∉ markerPrefix := by decide
    simp only [volId, List.mem_append, not_or]
    refine ⟨⟨hhead, c.date_plain.2⟩, ?_⟩
    split
    · simp [notMem_numeral]
    · simp
  have hpre : markerPrefix.isPrefixOf (volId c n) = true := by
    rw [List.isPrefixOf_iff_prefix, volId, List.append_assoc]
    exact List.prefix_append _ _
  simp [isMarker, hslash, hpre]

theorem volId_injective {c : Config} {m n : Nat} (h : volId c m = volId c n) : m = n := by
  have htail := List.append_cancel_left h
  by_cases hm : 0 < m
  · by_cases hn : 0 < n
    · rw [if_pos hm, if_pos hn] at htail
      exact numeral_injective (List.cons.inj htail).2
    · rw [if_pos hm, if_neg hn] at htail
      cases htail
  · by_cases hn : 0 < n
    · rw [if_neg hm, if_pos hn] at htail
      cases htail
    · omega

theorem starts_of_isMarker {x : Text} (h : isMarker x = true) : markerPrefix <+: x := by
  simp only [isMarker, Bool.and_eq_true] at h
  exact List.isPrefixOf_iff_prefix.mp h.1

/-- The part of a file is a marker only if the file is one. -/
theorem isMarker_of_partName {g : Text} {n : Nat} (h : isMarker (partName g n) = true) :
    isMarker g = true := by
  have hpre := starts_of_isMarker h
  simp only [isMarker, Bool.and_eq_true, Bool.not_eq_true', List.contains_eq_mem,
    decide_eq_false_iff_not] at h ⊢
  refine ⟨?_, fun hg => h.2 (by simp [partName, hg])⟩
  rw [List.isPrefixOf_iff_prefix]
  rw [partName, List.append_assoc] at hpre
  by_cases hlen : markerPrefix.length ≤ g.length
  · exact List.prefix_of_prefix_length_le hpre (List.prefix_append g _) hlen
  · -- a shorter name would put the dot of `.part` into the prefix
    obtain ⟨t, ht⟩ := List.prefix_of_prefix_length_le (List.prefix_append g _) hpre (by omega)
    rw [← ht, List.prefix_append_right_inj] at hpre
    obtain ⟨u, hu⟩ := hpre
    cases t with
    | nil =>
      rw [List.append_nil] at ht
      exact absurd (Nat.le_of_eq (congrArg List.length ht.symm)) hlen
    | cons a t =>
      have ha : a = '.' := (List.cons.inj hu).1
      have hmem : '.' ∈ markerPrefix := by rw [← ht, ha]; simp
      exact absurd hmem (by decide)

theorem notMem_bootFiles {x : Text} (hx : isMarker x = true) : x ∉ bootFiles := by
  have hall : ∀ y ∈ bootFiles, isMarker y = false := by decide
  intro h
  rw [hall x h] at hx
  cases hx

theorem partName_ne_lastCd (g : Text) (n : Nat) : partName g n ≠ lastCd := by
  intro h
  have hmem : '.' ∈ lastCd := by rw [← h]; simp [partName]
  exact absurd hmem (by decide)

/-- A part ends in a digit, an uncomplete archive in an underscore. -/
theorem uncomplete_ne_partName (destination g : Text) (n : Nat) :
    uncomplete destination ≠ partName g n := by
  intro h
  have hne : numeral n ≠ [] := numeral_ne_nil n
  have hlast := congrArg List.getLast? h
  rw [uncomplete, partName, List.getLast?_concat, List.getLast?_append_of_ne_nil _ hne] at hlast
  exact notMem_numeral (by decide) n (List.mem_of_getLast? hlast.symm)

end Names

section Lookups

variable {c : Config} {o : Outcome} {volid x : Text} {d : Files}

theorem lookup_addFiles_other (hv : x ≠ volid) (hi : x ≠ c.identity) (ha : x ≠ autorunInf)
    (hl : ∀ p, x ≠ p ++ logSuffix) : (addFiles c o volid d).lookup x = d.lookup x := by
  have hbase : ∀ d' : Files,
      (match c.autorun with | some b => d'.insert autorunInf b | none => d').lookup x =
        d'.lookup x := by
    intro d'
    cases c.autorun with
    | none => rfl
    | some b => exact AList.lookup_insert_ne ha
  simp only [addFiles]
  cases o.log with
  | none => simp only [hbase, lookup_touch_other hi, lookup_touch_other hv]
  | some log =>
    simp only
    rw [AList.lookup_insert_ne (hl _), hbase, lookup_touch_other hi, lookup_touch_other hv]

theorem mem_addFiles (hx : x ∈ addFiles c o volid d) :
    x = volid ∨ x = c.identity ∨ x = autorunInf ∨
      (∃ log, o.log = some log ∧ x = logPrefix log.name ++ logSuffix) ∨ x ∈ d := by
  have htouch : ∀ (a b : Text) (d' : Files), b ∈ touch a [] d' → b = a ∨ b ∈ d' := by
    intro a b d' hb
    by_cases h : b = a
    · exact .inl h
    · right
      rw [← AList.lookup_isSome, lookup_touch_other h, AList.lookup_isSome] at hb
      exact hb
  have hbase : x ∈ (match c.autorun with
      | some b => (touch c.identity [] (touch volid [] d)).insert autorunInf b
      | none => touch c.identity [] (touch volid [] d)) →
      x = volid ∨ x = c.identity ∨ x = autorunInf ∨ x ∈ d := by
    intro h
    have hrest : x = autorunInf ∨ x ∈ touch c.identity [] (touch volid [] d) := by
      cases hauto : c.autorun with
      | none => rw [hauto] at h; exact .inr h
      | some b => rw [hauto] at h; exact (AList.mem_insert _).mp h
    rcases hrest with rfl | hrest
    · simp
    · rcases htouch _ _ _ hrest with rfl | hrest
      · simp
      · rcases htouch _ _ _ hrest with rfl | hrest
        · simp
        · simp [hrest]
  simp only [addFiles] at hx
  cases hlog : o.log with
  | none =>
    rw [hlog] at hx
    have := hbase hx
    tauto
  | some log =>
    rw [hlog] at hx
    rcases (AList.mem_insert _).mp hx with rfl | hx
    · exact .inr (.inr (.inr (.inl ⟨log, rfl, rfl⟩)))
    · have := hbase hx
      tauto

theorem lookup_addChecksums_other (hx : x ≠ checksums) :
    (addChecksums c d).lookup x = d.lookup x := by
  rw [addChecksums]
  suffices h : ∀ (l : List Text) (acc : Files), (l.foldl (fun acc fl =>
      match acc.lookup fl with
      | some b => acc.insert checksums ((acc.lookup checksums).getD [] ++ c.md5sum fl b)
      | none => acc) acc).lookup x = acc.lookup x from h d.keys d
  intro l
  induction l with
  | nil => intro acc; rfl
  | cons fl l ih =>
    intro acc
    rw [List.foldl_cons, ih]
    cases acc.lookup fl with
    | none => rfl
    | some b => exact AList.lookup_insert_ne hx

theorem mem_addChecksums (hx : x ∈ addChecksums c d) : x = checksums ∨ x ∈ d := by
  by_cases h : x = checksums
  · exact .inl h
  · right
    rw [← AList.lookup_isSome, lookup_addChecksums_other h, AList.lookup_isSome] at hx
    exact hx

end Lookups

section Boot

variable {o : Outcome} {x : Text}

theorem length_writeTable (table b : Bytes) : (writeTable table b).length = b.length := by
  simp only [writeTable, List.length_append, List.length_take, List.length_drop]
  omega

theorem lookup_addBoot (hx : x ∉ bootFiles) (n : Nat) (d : Files) :
    (addBoot o n d).lookup x = d.lookup x := by
  have himg : x ≠ bootImg := by
    rintro rfl
    exact hx List.mem_cons_self
  have hbin : x ≠ isolinuxBin := by
    rintro rfl
    exact hx (List.mem_cons_of_mem _ List.mem_cons_self)
  rw [addBoot]
  split
  · rw [lookup_modify, if_neg hbin]
    cases o.boot.img with
    | none => rfl
    | some b => exact AList.lookup_insert_ne himg
  · rfl

theorem lookup_addCatalog (hx : x ∉ bootFiles) (n : Nat) (d : Files) :
    (addCatalog o n d).lookup x = d.lookup x := by
  rw [addCatalog]
  split
  · cases hcatalog : o.boot.catalog with
    | none => rfl
    | some y =>
      have hname := o.boot.catalog_name y hcatalog
      refine AList.lookup_insert_ne ?_
      rintro rfl
      exact hx (List.mem_cons_of_mem _ (List.mem_cons_of_mem _ hname))
  · rfl

end Boot

section Stage

variable {c : Config} {o : Outcome} {n : Nat} {x name : Text} {d e : Files} {data : Bytes}

theorem lookup_addFiles_of_not_auxiliary (hx : ¬ Auxiliary c x) :
    (addFiles c o (volId c n) d).lookup x = d.lookup x := by
  apply lookup_addFiles_other
  · rintro rfl; exact hx (.marker (isMarker_volId c n))
  · rintro rfl; exact hx .identity
  · rintro rfl; exact hx .autorun
  · rintro p rfl; exact hx (.log p)

/-- The script changes no name of an archive except by splitting. -/
theorem lookup_stage (hfree : ¬ Auxiliary c x) :
    (stage c o (volId c n) d).lookup x = (splitAll (addFiles c o (volId c n) d)).lookup x := by
  apply lookup_addChecksums_other
  rintro rfl
  exact hfree .checksums

/-- The files of `e` are those that are staged from `d`, but for those of the boot loader. -/
def Staged (c : Config) (o : Outcome) (n : Nat) (d e : Files) : Prop :=
  ∀ x ∉ bootFiles, e.lookup x = (stage c o (volId c n) d).lookup x

theorem Staged.lookup (h : Staged c o n d e) (hfree : ¬ Auxiliary c x) :
    e.lookup x = (splitAll (addFiles c o (volId c n) d)).lookup x := by
  rw [h x fun hx => hfree (.boot hx), lookup_stage hfree]

theorem Staged.mem_iff (h : Staged c o n d e) (hx : x ∉ bootFiles) :
    x ∈ e ↔ x ∈ stage c o (volId c n) d := by
  rw [← AList.lookup_isSome, ← AList.lookup_isSome, h x hx]

/-- The script keeps every archive, if need be in parts. -/
theorem Staged.stored (h : Staged c o n d e) (hpart : ∀ g n, name ≠ partName g n)
    (hfree : ∀ x, Owns name x → ¬ Auxiliary c x) (hstored : Stored d name data) :
    Stored e name data :=
  ((hstored.congr fun x hx => lookup_addFiles_of_not_auxiliary (hfree x hx)).splitAll hpart).congr
    fun x hx => h.lookup (hfree x hx)

theorem Staged.absent (h : Staged c o n d e) (hpart : ∀ g n, name ≠ partName g n)
    (hfree : ∀ x, Owns name x → ¬ Auxiliary c x) (none : ∀ x, Owns name x → x ∉ d) :
    ∀ x, Owns name x → x ∉ e := by
  intro x hx
  rw [← AList.lookup_eq_none, h.lookup (hfree x hx), AList.lookup_eq_none]
  refine absent_splitAll hpart (fun y hy => ?_) x hx
  rw [← AList.lookup_eq_none, lookup_addFiles_of_not_auxiliary (hfree y hy), AList.lookup_eq_none]
  exact none y hy

theorem Staged.held (h : Staged c o n d e) (hpart : ∀ g n, name ≠ partName g n)
    (hfree : ∀ x, Owns name x → ¬ Auxiliary c x) (hheld : Held d name data) : Held e name data :=
  ((hheld.congr fun x hx => lookup_addFiles_of_not_auxiliary (hfree x hx)).splitAll hpart).congr
    fun x hx => h.lookup (hfree x hx)

theorem Staged.mem (h : Staged c o n d e) (hx : x ∈ e) (haux : ¬ Auxiliary c x)
    (hpart : ∀ g n, x ≠ partName g n) : x ∈ d := by
  rcases mem_addChecksums ((h.mem_iff fun hx => haux (.boot hx)).mp hx) with rfl | hx
  · exact absurd .checksums haux
  · rcases mem_splitAll hx with hx | ⟨g, k, _, _, _, rfl⟩
    · rw [← AList.lookup_isSome, lookup_addFiles_of_not_auxiliary haux, AList.lookup_isSome] at hx
      exact hx
    · exact absurd rfl (hpart g k)

theorem lookup_volId_addFiles (hfresh : volId c n ∉ d) :
    (addFiles c o (volId c n) d).lookup (volId c n) = some [] := by
  have hi : volId c n ≠ c.identity := by
    intro h
    have hm := isMarker_volId c n
    rw [h, c.identity_plain.1] at hm
    cases hm
  have ha : volId c n ≠ autorunInf := by
    intro h
    have hm := isMarker_volId c n
    rw [h] at hm
    exact absurd hm (by decide)
  have htouch : (touch c.identity [] (touch (volId c n) [] d)).lookup (volId c n) = some [] := by
    rw [lookup_touch_other hi, lookup_touch, if_pos rfl, AList.lookup_eq_none.mpr hfresh]
    rfl
  have hbase : (match c.autorun with
      | some b => (touch c.identity [] (touch (volId c n) [] d)).insert autorunInf b
      | none => touch c.identity [] (touch (volId c n) [] d)).lookup (volId c n) = some [] := by
    cases c.autorun with
    | none => exact htouch
    | some b => exact (AList.lookup_insert_ne ha).trans htouch
  simp only [addFiles]
  cases o.log with
  | none => exact hbase
  | some log =>
    refine (AList.lookup_insert_ne ?_).trans hbase
    intro h
    have hm := isMarker_volId c n
    rw [h, log.plain] at hm
    cases hm

/-- The only marker on a volume is its own label, if the directory had none. -/
theorem Staged.marker (h : Staged c o n d e) (hd : ∀ y ∈ d, isMarker y = false)
    (hx : isMarker x = true) : x ∈ e ↔ x = volId c n := by
  rw [h.mem_iff (notMem_bootFiles hx)]
  have hfresh : volId c n ∉ d := by
    intro h
    have hm := isMarker_volId c n
    rw [hd _ h] at hm
    cases hm
  have hold := lookup_volId_addFiles (o := o) hfresh
  have hplain : ∀ y ∈ addFiles c o (volId c n) d, isMarker y = true → y = volId c n := by
    intro y hy hm
    rcases mem_addFiles hy with h | rfl | rfl | ⟨log, _, rfl⟩ | h
    · exact h
    · rw [c.identity_plain.1] at hm; cases hm
    · exact absurd hm (by decide)
    · rw [log.plain] at hm; cases hm
    · rw [hd y h] at hm; cases hm
  constructor
  · intro h
    rcases mem_addChecksums h with rfl | h
    · exact absurd hx (by decide)
    · rcases mem_splitAll h with h | ⟨g, k, b, hg, hbig, rfl⟩
      · exact hplain x h hx
      · -- an over-long file is no label: those are empty
        have hgm := isMarker_of_partName hx
        have hgv := hplain g (AList.lookup_isSome.mp (by rw [hg]; rfl)) hgm
        rw [hgv, hold] at hg
        obtain rfl := Option.some.inj hg
        exact absurd hbig (by decide)
  · rintro rfl
    have hne : volId c n ≠ checksums := by
      intro h
      have hm := isMarker_volId c n
      rw [h] at hm
      exact absurd hm (by decide)
    rw [← AList.lookup_isSome, stage, lookup_addChecksums_other hne, AList.lookup_isSome]
    exact mem_splitAll_of_mem (AList.lookup_isSome.mp (by rw [hold]; rfl))

theorem markers_eq (hmarked : ∀ x, isMarker x = true → (x ∈ d ↔ x = volId c n)) :
    markers d = [volId c n] := by
  have hnodup : (markers d).Nodup := List.Nodup.sublist List.filter_sublist d.nodupKeys
  have hmem : ∀ x, x ∈ markers d ↔ x = volId c n := by
    intro x
    simp only [markers, List.mem_filter]
    constructor
    · rintro ⟨hx, hm⟩
      exact (hmarked x hm).mp hx
    · rintro rfl
      exact ⟨(hmarked _ (isMarker_volId c n)).mpr rfl, isMarker_volId c n⟩
  exact List.perm_singleton.mp ((List.perm_ext_iff_of_nodup hnodup (List.nodup_singleton _)).mpr
    (by simpa using hmem))

theorem Staged.lastCd_iff (h : Staged c o n d e) : lastCd ∈ e ↔ lastCd ∈ d := by
  rw [h.mem_iff (by decide)]
  have hadd : (addFiles c o (volId c n) d).lookup lastCd = d.lookup lastCd := by
    apply lookup_addFiles_other
    · intro h
      have hm := isMarker_volId c n
      rw [← h] at hm
      exact absurd hm (by decide)
    · exact Ne.symm c.identity_plain.2
    · decide
    · intro p h
      have hmem : '.' ∈ lastCd := h ▸ List.mem_append_right p (by decide)
      exact absurd hmem (by decide)
  constructor
  · intro h
    rcases mem_addChecksums h with h | h
    · exact absurd h (by decide)
    · rcases mem_splitAll h with h | ⟨g, k, _, _, _, h⟩
      · rw [← AList.lookup_isSome, hadd, AList.lookup_isSome] at h
        exact h
      · exact absurd h.symm (partName_ne_lastCd g k)
  · intro h
    rw [← AList.lookup_isSome, stage, lookup_addChecksums_other (by decide), AList.lookup_isSome]
    apply mem_splitAll_of_mem
    rw [← AList.lookup_isSome, hadd, AList.lookup_isSome]
    exact h

end Stage

section Run

variable {c : Config} {o : Outcome} {w : World}

/-- The mode in which images are made of `ISOFS_DIR` and the directory is
emptied: everything but writing directly to a DVD. -/
def Config.CdMode (c : Config) : Prop := (c.dvdDrive && c.burncdr) = false

theorem notMem_sweep {d : Files} {x : Text} (hx : swept x = true) : x ∉ sweep d := by
  rw [← AList.lookup_eq_none, sweep, lookup_restrict, if_neg (by simp [hx])]

theorem swept_of_isMarker {x : Text} (hx : isMarker x = true) : swept x = true := by
  obtain ⟨t, rfl⟩ := starts_of_isMarker hx
  simp only [isMarker, Bool.and_eq_true, Bool.not_eq_true'] at hx
  rw [swept, if_neg (by simp only [hx.2]; decide)]
  rfl

def image (c : Config) (continued : Bool) (destination : Text) (o : Outcome) (w : World) : Image :=
  ⟨volId c w.volno, addCatalog o w.volno (fill c continued destination o w)⟩

/-- The directory and the image after the renaming for a volume of a set. -/
theorem staged_move (hvol : 0 < w.volno) (hmv : o.mvDestination = true) (destination : Text) :
    Staged c o w.volno (move destination (uncomplete destination) w.isofs)
        (fill c true destination o w) ∧
      Staged c o w.volno (move destination (uncomplete destination) w.isofs)
        (image c true destination o w).files := by
  have hfill : fill c true destination o w = addBoot o w.volno
      (stage c o (volId c w.volno) (move destination (uncomplete destination) w.isofs)) := by
    rw [fill, if_pos ⟨hvol, rfl, hmv⟩]
  constructor
  · intro x hx
    rw [hfill, lookup_addBoot hx]
  · intro x hx
    rw [image, lookup_addCatalog hx, hfill, lookup_addBoot hx]

theorem staged_keep {continued : Bool} {destination : Text}
    (hmv : ¬ (0 < w.volno ∧ continued ∧ o.mvDestination)) :
    Staged c o w.volno w.isofs (fill c continued destination o w) ∧
      Staged c o w.volno w.isofs (image c continued destination o w).files := by
  have hfill : fill c continued destination o w =
      addBoot o w.volno (stage c o (volId c w.volno) w.isofs) := by
    rw [fill, if_neg hmv]
  constructor
  · intro x hx
    rw [hfill, lookup_addBoot hx]
  · intro x hx
    rw [image, lookup_addCatalog hx, hfill, lookup_addBoot hx]

/-- The run for volume `n` makes an image that stays, on a disc or under a name of
its own, and empties the directory. -/
structure Finishes (c : Config) (o : Outcome) (n : Nat) : Prop where
  cdMode : c.CdMode
  made : o.mkisofs = true
  bootable : n ≤ 1 → o.bootable = true
  verified : n ≤ 1 → o.verify = true
  kept : o.mvIso = true ∨ c.burncdr = true ∧ o.burn = true

/-- The run for volume `n` makes no image and leaves the directory as it is. -/
inductive StopsEarly (c : Config) (o : Outcome) (n : Nat) : Prop
  | unbootable (first : n ≤ 1) (h : o.bootable = false)
  | toDvd (h : o.mkisofs = false) (mode : ¬ c.CdMode)
  | unverified (h : o.mkisofs = false) (first : n ≤ 1) (bad : o.verify = false)

theorem Outcome.Succeeds.finishes (hok : o.Succeeds) (hcd : c.CdMode) (n : Nat) :
    Finishes c o n :=
  ⟨hcd, hok.mkisofs, fun _ => hok.bootable, fun _ => hok.verify, .inl hok.mvIso⟩

@[simp] theorem makeImage_volno : (makeImage c o w).volno = w.volno := by
  simp only [makeImage]
  split <;> split <;> rfl

@[simp] theorem saveIso_volno : (saveIso o w).volno = w.volno := by
  rw [saveIso]
  split <;> rfl

@[simp] theorem saveIso_built : (saveIso o w).built = w.built := by
  rw [saveIso]
  split <;> rfl

theorem burnCdr_volno : (burnCdr c o w).volno = w.volno := by
  rw [burnCdr]
  split
  · split
    · rfl
    · exact saveIso_volno
  · rfl

theorem burnCdr_built : (burnCdr c o w).built = w.built := by
  rw [burnCdr]
  split
  · split
    · rfl
    · exact saveIso_built
  · rfl

theorem endVolume_volno : (endVolume c o w).volno = w.volno := by
  rw [endVolume]
  split
  · simp only
    split
    · rfl
    · exact saveIso_volno
  · rfl

theorem endVolume_built : (endVolume c o w).built = w.built := by
  rw [endVolume]
  split
  · simp only
    split
    · rfl
    · exact saveIso_built
  · rfl

theorem makeISO9660_finishes (h : Finishes c o w.volno) (hvol : 0 < w.volno) (continued : Bool)
    (destination : Text) :
    ∃ iso, makeISO9660 c continued destination o w =
      ({ w with
          isofs := sweep (fill c continued destination o w)
          built := w.built ++ [image c continued destination o w]
          shelf := w.shelf ++ [image c continued destination o w]
          cdrecIso := iso }, 0) := by
  have hmode : (c.dvdDrive && c.burncdr) = false := h.cdMode
  have hdisc : toDisc c w.volno = false := by simp [toDisc, hmode]
  have hboot : ¬ (w.volno ≤ 1 ∧ o.bootable = false) := by
    rintro ⟨hn, hb⟩
    rw [h.bootable hn] at hb
    cases hb
  have hverify : ¬ (w.volno ≤ 1 ∧ o.verify = false) := by
    rintro ⟨hn, hb⟩
    rw [h.verified hn] at hb
    cases hb
  simp only [makeISO9660, if_neg hboot, hmode, Bool.false_eq_true, if_false, makeImage_volno,
    if_neg hverify]
  simp only [makeImage, hdisc, h.made, if_true, Bool.false_eq_true, if_false]
  cases hb : c.burncdr with
  | false =>
    have hmv : o.mvIso = true := by simpa [hb] using h.kept
    exact ⟨none, by simp [burnCdr, endVolume, saveIso, hb, hmv, hvol, image]⟩
  | true =>
    cases hburn : o.burn with
    | true =>
      exact ⟨some (image c continued destination o w),
        by simp [burnCdr, endVolume, hb, hburn, hvol, image]⟩
    | false =>
      have hmv : o.mvIso = true := by simpa [hburn] using h.kept
      exact ⟨none, by simp [burnCdr, endVolume, saveIso, hb, hburn, hmv, hvol, image]⟩

theorem makeISO9660_volno (c : Config) (continued : Bool) (destination : Text) (o : Outcome)
    (w : World) : (makeISO9660 c continued destination o w).1.volno = w.volno := by
  simp only [makeISO9660]
  split
  · rfl
  · split
    · exact makeImage_volno
    · split
      · exact makeImage_volno
      · rw [endVolume_volno, burnCdr_volno, makeImage_volno]

/-- If `mkisofs` is reached and works, the image is made, in every mode. -/
theorem makeISO9660_built (hmade : o.mkisofs = true) (hboot : w.volno ≤ 1 → o.bootable = true)
    (continued : Bool) (destination : Text) :
    (makeISO9660 c continued destination o w).1.built =
      w.built ++ [image c continued destination o w] := by
  have hreached : ¬ (w.volno ≤ 1 ∧ o.bootable = false) := by
    rintro ⟨hn, hb⟩
    rw [hboot hn] at hb
    cases hb
  have himage : ∀ w' : World,
      (makeImage c o w').built =
        w'.built ++ [⟨volId c w'.volno, addCatalog o w'.volno w'.isofs⟩] := by
    intro w'
    simp only [makeImage, hmade, if_true]
    split <;> rfl
  simp only [makeISO9660, if_neg hreached]
  split
  · exact himage _
  · split
    · exact himage _
    · rw [endVolume_built, burnCdr_built, himage]
      rfl

/-- A first image that cannot be made bootable is not made. -/
theorem makeISO9660_unbootable (h : w.volno ≤ 1 ∧ o.bootable = false) (continued : Bool)
    (destination : Text) : (makeISO9660 c continued destination o w).1.built = w.built := by
  simp only [makeISO9660, if_pos h]

/-- A run makes one image at most. -/
theorem makeISO9660_built_cases (continued : Bool) (destination : Text) (o : Outcome) (w : World) :
    (makeISO9660 c continued destination o w).1.built = w.built ∨
      (makeISO9660 c continued destination o w).1.built =
        w.built ++ [image c continued destination o w] := by
  by_cases hreached : w.volno ≤ 1 ∧ o.bootable = false
  · left
    simp only [makeISO9660, if_pos hreached]
  · cases hmade : o.mkisofs with
    | true =>
      right
      refine makeISO9660_built hmade (fun hn => ?_) continued destination
      simpa [hn] using hreached
    | false =>
      left
      have himage : ∀ w' : World, (makeImage c o w').built = w'.built := by
        intro w'
        simp only [makeImage, hmade, Bool.false_eq_true, if_false]
        split <;> rfl
      simp only [makeISO9660, if_neg hreached]
      split
      · exact himage _
      · split
        · exact himage _
        · rw [endVolume_built, burnCdr_built, himage]

theorem makeISO9660_stops (h : StopsEarly c o w.volno) (continued : Bool) (destination : Text) :
    ∃ iso status, makeISO9660 c continued destination o w =
      ({ w with isofs := fill c continued destination o w, cdrecIso := iso }, status) := by
  by_cases hboot : w.volno ≤ 1 ∧ o.bootable = false
  · exact ⟨w.cdrecIso, 1, by simp only [makeISO9660, if_pos hboot]⟩
  · have hmade : o.mkisofs = false := by
      cases h with
      | unbootable first h => exact absurd ⟨first, h⟩ hboot
      | toDvd h _ => exact h
      | unverified h _ _ => exact h
    obtain ⟨iso, hiso⟩ : ∃ iso, makeImage c o { w with isofs := fill c continued destination o w } =
        { w with isofs := fill c continued destination o w, cdrecIso := iso } := by
      cases hdisc : toDisc c w.volno with
      | true => exact ⟨w.cdrecIso, by simp [makeImage, hdisc, hmade]⟩
      | false => exact ⟨none, by simp [makeImage, hdisc, hmade]⟩
    cases hmode : c.dvdDrive && c.burncdr with
    | true => exact ⟨iso, 0, by simp only [makeISO9660, if_neg hboot, hiso, hmode, if_true]⟩
    | false =>
      have hverify : w.volno ≤ 1 ∧ o.verify = false := by
        cases h with
        | unbootable first h => exact absurd ⟨first, h⟩ hboot
        | toDvd _ mode => exact absurd hmode mode
        | unverified _ first bad => exact ⟨first, bad⟩
      refine ⟨iso, 1, ?_⟩
      simp only [makeISO9660, if_neg hboot, hiso, hmode, if_pos hverify]
      rfl

end Run

end MakeIso
