import MkCDrec.Cutstream
import MkCDrec.MakeIso

/-!
# A backup stream over several volumes

`cutstream` with `makeISO9660.sh` behind its cuts. The outcome of the run that
makes volume `n` is `outcome n`. `Holding` describes `ISOFS_DIR` while an archive
is being written, and `Volumes` the images that its cuts leave behind.
-/

namespace Backup

open Directory ShellText SplitFile MakeIso Cutstream Cutting

/-- The system around `cutstream`: its destination is a file in `ISOFS_DIR`,
`MAKE_ISO9660` is `makeISO9660.sh`, run with `DONE=N`. -/
def host (c : Config) (destination : Text) (outcome : Nat → Outcome) : Host World where
  fwrite b w := { w with isofs := modify destination (· ++ b) w.isofs }
  putVolno n w := if (outcome n).volnoFile then some { w with volno := n } else none
  system w := (makeISO9660 c true destination (outcome w.volno) w).1
  reopen w :=
    if (outcome w.volno).reopen then some { w with isofs := w.isofs.insert destination [] } else none
  fwrite_nil w := by
    have hid : (fun x : Bytes => x ++ []) = id := by
      funext x
      exact List.append_nil x
    simp only [hid, modify_id]
  fwrite_append a b w := by
    simp only [modify_modify, Function.comp_def, List.append_assoc]

/-- `cutstream` on its standard input: `main` opens the destination. -/
def cutstream (c : Config) (destination : Text) (outcome : Nat → Outcome) (maxcdsize fuel : Nat)
    (capacity : Int) (input : Bytes) (w : World) : Except (Exit World) (Pipe World) :=
  filepipe (host c destination outcome) maxcdsize fuel capacity w.volno input
    { w with isofs := w.isofs.insert destination [] }

/-- A name that can be an archive in `ISOFS_DIR`: a plain file name under which,
and under whose variants, the scripts store nothing else. -/
structure ArchiveName (c : Config) (destination : Text) : Prop where
  visible : ∃ a s, destination = a :: s ∧ a ≠ '.'
  top : '/' ∉ destination
  notPart : ∀ g n, destination ≠ partName g n
  free : ∀ x, Owns destination x ∨ Owns (uncomplete destination) x → ¬ Auxiliary c x

/-- The names under which the archive and its parts may be stored. -/
def Reserved (destination x : Text) : Prop := Owns destination x ∨ Owns (uncomplete destination) x

/-- `ISOFS_DIR` without traces of the archive or of an earlier volume. -/
structure Fresh (destination : Text) (d : Files) : Prop where
  absent : ∀ x, Reserved destination x → x ≠ destination → x ∉ d
  unmarked : ∀ x ∈ d, isMarker x = false
  notLast : lastCd ∉ d

/-- `ISOFS_DIR` while `cutstream` has written `data` since the last cut. -/
structure Holding (destination : Text) (data : Bytes) (d : Files) : Prop where
  file : d.lookup destination = some data
  absent : ∀ x, Reserved destination x → x ≠ destination → x ∉ d
  unmarked : ∀ x ∈ d, isMarker x = false
  notLast : lastCd ∉ d

/-- An image that ends at a cut. -/
structure PartVolume (c : Config) (destination : Text) (n : Nat) (data : Bytes) (image : Image) :
    Prop where
  label : image.label = volId c n
  stored : Stored image.files (uncomplete destination) data
  renamed : destination ∉ image.files
  marked : ∀ x, isMarker x = true → (x ∈ image.files ↔ x = volId c n)
  notLast : lastCd ∉ image.files

/-- The image that holds the last part. -/
structure TailVolume (c : Config) (destination : Text) (n : Nat) (data : Bytes) (image : Image) :
    Prop where
  label : image.label = volId c n
  stored : Stored image.files destination data
  complete : uncomplete destination ∉ image.files
  marked : ∀ x, isMarker x = true → (x ∈ image.files ↔ x = volId c n)

/-- Consecutive volumes, from number `n` on, with one piece each. -/
inductive Volumes (c : Config) (destination : Text) : Nat → List Bytes → List Image → Prop
  | nil {n : Nat} : Volumes c destination n [] []
  | cons {n : Nat} {p : Bytes} {ps : List Bytes} {image : Image} {images : List Image}
      (head : PartVolume c destination n p image)
      (tail : Volumes c destination (n + 1) ps images) :
      Volumes c destination n (p :: ps) (image :: images)

section Names

variable {c : Config} {destination x : Text}

theorem length_uncomplete (destination : Text) :
    (uncomplete destination).length = destination.length + 1 := by
  simp [uncomplete]

theorem uncomplete_ne (destination : Text) : uncomplete destination ≠ destination := by
  intro h
  have hlen := congrArg List.length h
  rw [length_uncomplete] at hlen
  omega

theorem Reserved.self (destination : Text) : Reserved destination destination := .inl (.inl rfl)

theorem Reserved.uncomplete (destination : Text) :
    Reserved destination (uncomplete destination) := .inr (.inl rfl)

/-- The names of an archive end in a suffix of its own name. -/
theorem Reserved.exists_suffix (h : Reserved destination x) :
    ∃ s, x = destination ++ s ∧ '/' ∉ s := by
  have hpart : '/' ∉ ".part".toList := by decide
  rcases h with (rfl | ⟨n, rfl⟩) | (rfl | ⟨n, rfl⟩)
  · exact ⟨[], by simp⟩
  · refine ⟨".part".toList ++ numeral n, by simp [partName], ?_⟩
    simp only [List.mem_append, not_or]
    exact ⟨hpart, notMem_numeral (by decide) n⟩
  · exact ⟨['_'], rfl, by decide⟩
  · refine ⟨'_' :: (".part".toList ++ numeral n), by simp [partName, MakeIso.uncomplete], ?_⟩
    simp only [List.mem_cons, List.mem_append, not_or]
    exact ⟨by decide, hpart, notMem_numeral (by decide) n⟩

/-- The `rm` at the end of a volume removes every part of an archive. -/
theorem ArchiveName.swept (h : ArchiveName c destination) (hx : Reserved destination x) :
    swept x = true := by
  obtain ⟨a, s, rfl, ha⟩ := h.visible
  obtain ⟨t, rfl, ht⟩ := hx.exists_suffix
  have hslash : '/' ∉ a :: s ++ t := by
    simp only [List.mem_append, not_or]
    exact ⟨h.top, ht⟩
  rw [MakeIso.swept, if_neg (by simpa using hslash)]
  simp [ha]

theorem Reserved.getLast? (h : Reserved destination x) (hne : x ≠ destination) :
    ∃ a, x.getLast? = some a ∧ (a = '_' ∨ a.isDigit = true) := by
  have hpart : ∀ g n, ∃ a, (partName g n).getLast? = some a ∧ (a = '_' ∨ a.isDigit = true) := by
    intro g n
    have hnil : numeral n ≠ [] := numeral_ne_nil n
    have hmem := List.getLast_mem hnil
    refine ⟨(numeral n).getLast hnil, ?_, .inr ?_⟩
    · rw [partName, List.getLast?_append_of_ne_nil _ hnil, List.getLast?_eq_some_getLast hnil]
    · exact isDigit_of_mem_numeral hmem
  rcases h with (rfl | ⟨n, rfl⟩) | (rfl | ⟨n, rfl⟩)
  · exact absurd rfl hne
  · exact hpart _ _
  · exact ⟨'_', List.getLast?_concat, .inl rfl⟩
  · exact hpart _ _

theorem ArchiveName.notMarker (h : ArchiveName c destination) (hx : Reserved destination x) :
    isMarker x = false :=
  Bool.eq_false_iff.mpr fun hm => h.free x hx (.marker hm)

theorem ArchiveName.ne_lastCd (h : ArchiveName c destination) (hx : Reserved destination x) :
    x ≠ lastCd := by
  rintro rfl
  exact h.free _ hx .lastCd

/-- Conditions on the name alone that make it an archive name. -/
theorem archiveName_of_plain (hvisible : ∃ a s, destination = a :: s ∧ a ≠ '.')
    (htop : '/' ∉ destination) (hdot : '.' ∈ destination)
    (hlast : ∃ a, destination.getLast? = some a ∧ a.isDigit = false)
    (hlong : markerPrefix.length ≤ destination.length) (hmarker : ¬ markerPrefix <+: destination)
    (hlog : ¬ logSuffix <:+ destination)
    (hfixed : ∀ y ∈ [c.identity, autorunInf, checksums] ++ bootFiles, ¬ destination <+: y) :
    ArchiveName c destination := by
  refine ⟨hvisible, htop, ?_, ?_⟩
  · rintro g n rfl
    obtain ⟨a, ha, hdigit⟩ := hlast
    have hnil : numeral n ≠ [] := numeral_ne_nil n
    rw [partName, List.getLast?_append_of_ne_nil _ hnil] at ha
    have := isDigit_of_mem_numeral (List.mem_of_getLast? ha)
    rw [hdigit] at this
    cases this
  · intro x hx haux
    have hx : Reserved destination x := hx
    obtain ⟨s, hs, _⟩ := hx.exists_suffix
    have hpre : destination <+: x := hs ▸ List.prefix_append _ _
    cases haux with
    | marker h =>
      exact hmarker (List.prefix_of_prefix_length_le (starts_of_isMarker h) hpre hlong)
    | lastCd => exact absurd (hpre.mem hdot) (by decide)
    | identity => exact hfixed _ (by simp) hpre
    | autorun => exact hfixed _ (by simp) hpre
    | checksums => exact hfixed _ (by simp) hpre
    | boot h => exact hfixed _ (List.mem_append_right _ h) hpre
    | log q =>
      by_cases heq : q ++ logSuffix = destination
      · exact hlog (heq ▸ List.suffix_append _ _)
      · obtain ⟨a, ha, hkind⟩ := hx.getLast? heq
        rw [List.getLast?_append_of_ne_nil _ (by decide)] at ha
        have hz : logSuffix.getLast? = some 'z' := by decide
        rw [hz] at ha
        obtain rfl := Option.some.inj ha
        revert hkind
        decide

end Names

/-- A run of which something is known has ended well. -/
theorem exists_ok_of_map {ε α β : Type} {x : Except ε α} {f : α → β} {v : β}
    (h : x.toOption.map f = some v) : ∃ a, x = .ok a ∧ f a = v := by
  cases x with
  | error e => cases h
  | ok a => exact ⟨a, rfl, Option.some.inj h⟩

def usrArchive : Text := "hda1._usr.tar.gz".toList

theorem archiveName_usr : ArchiveName diskConfig usrArchive := by
  refine archiveName_of_plain ⟨'h', _, rfl, by decide⟩ (by decide) (by decide)
    ⟨'z', by decide, by decide⟩ (by decide) (by decide) (by decide) ?_
  decide

section Steps

variable {c : Config} {destination : Text} {outcome : Nat → Outcome} {o : Outcome} {w : World}
  {d : Files} {data : Bytes}

theorem Fresh.open_ (h : Fresh destination d) (hname : ArchiveName c destination) :
    Holding destination [] (d.insert destination []) := by
  refine ⟨AList.lookup_insert _, ?_, ?_, ?_⟩
  · intro x hx hne hmem
    rcases (AList.mem_insert _).mp hmem with rfl | hmem
    · exact hne rfl
    · exact h.absent x hx hne hmem
  · intro x hmem
    rcases (AList.mem_insert _).mp hmem with rfl | hmem
    · have hfree := hname.free x (Reserved.self x)
      exact Bool.eq_false_iff.mpr fun hm => hfree (.marker hm)
    · exact h.unmarked x hmem
  · intro hmem
    rcases (AList.mem_insert _).mp hmem with hlast | hmem
    · exact hname.free _ (Reserved.self _) (hlast ▸ .lastCd)
    · exact h.notLast hmem

theorem Holding.write (h : Holding destination data d) (b : Bytes) :
    Holding destination (data ++ b) (modify destination (· ++ b) d) := by
  refine ⟨?_, ?_, ?_, ?_⟩
  · rw [lookup_modify, if_pos rfl, h.file]
    rfl
  · intro x hx hne hmem
    exact h.absent x hx hne (mem_modify.mp hmem)
  · intro x hmem
    exact h.unmarked x (mem_modify.mp hmem)
  · intro hmem
    exact h.notLast (mem_modify.mp hmem)

/-- The directory that `sweep` leaves is fresh for every archive. -/
theorem fresh_sweep (hname : ArchiveName c destination) (d : Files) :
    Fresh destination (sweep d) := by
  refine ⟨?_, ?_, ?_⟩
  · intro x hx _
    exact notMem_sweep (hname.swept hx)
  · intro x hmem
    rw [← Bool.not_eq_true]
    exact fun hm => notMem_sweep (swept_of_isMarker hm) hmem
  · exact notMem_sweep (by decide)

/-- At a cut the part written since the last one is put on the image under its
name with an underscore. -/
theorem partVolume_image (hname : ArchiveName c destination) (hok : o.Succeeds)
    (hvol : 0 < w.volno) (h : Holding destination data w.isofs) :
    PartVolume c destination w.volno data (image c true destination o w) := by
  obtain ⟨-, hstaged⟩ := staged_move (c := c) hvol hok.mvDestination destination
  have hmove := lookup_move (b := uncomplete destination) h.file
  have hmem : ∀ x ∈ move destination (uncomplete destination) w.isofs,
      x = uncomplete destination ∨ x ∈ w.isofs := by
    intro x hx
    rw [← AList.lookup_isSome, hmove] at hx
    split at hx
    · exact .inl (by assumption)
    · split at hx
      · cases hx
      · exact .inr (AList.lookup_isSome.mp hx)
  have hunmarked : ∀ y ∈ move destination (uncomplete destination) w.isofs,
      isMarker y = false := by
    intro y hy
    rcases hmem y hy with rfl | hy
    · have hfree := hname.free _ (Reserved.uncomplete destination)
      exact Bool.eq_false_iff.mpr fun hm => hfree (.marker hm)
    · exact h.unmarked y hy
  refine ⟨rfl, ?_, ?_, ?_, ?_⟩
  · refine hstaged.stored (uncomplete_ne_partName destination)
      (fun x hx => hname.free x (.inr hx)) (.whole ?_ ?_)
    · rw [hmove, if_pos rfl]
    · intro k
      rw [hmove, if_neg (partName_ne_self _ _)]
      split
      · rfl
      · rename_i hne
        exact AList.lookup_eq_none.mpr (h.absent _ (.inr (.inr ⟨k, rfl⟩)) hne)
  · intro hin
    have hin := hstaged.mem hin (hname.free _ (Reserved.self _)) hname.notPart
    rw [← AList.lookup_isSome, hmove, if_neg (Ne.symm (uncomplete_ne _)), if_pos rfl] at hin
    cases hin
  · intro x hx
    exact hstaged.marker hunmarked hx
  · rw [hstaged.lastCd_iff]
    intro hlast
    rcases hmem _ hlast with hlast | hlast
    · exact hname.free _ (Reserved.uncomplete destination) (hlast ▸ .lastCd)
    · exact h.notLast hlast

/-- The ways in which a change of volumes can end: the file for the volume number
or the destination cannot be opened, or the destination is empty again. -/
theorem changeVolume_cases (c : Config) (destination : Text) (outcome : Nat → Outcome) (n : Nat)
    (w : World) :
    let w₁ := (makeISO9660 c true destination (outcome n) { w with volno := n }).1
    changeVolume (host c destination outcome) n w = .error (.code 1 w) ∨
      changeVolume (host c destination outcome) n w = .error (.code 10 w₁) ∨
      changeVolume (host c destination outcome) n w =
        .ok { w₁ with isofs := w₁.isofs.insert destination [] } := by
  intro w₁
  simp only [changeVolume, host]
  cases (outcome n).volnoFile with
  | false => exact .inl rfl
  | true =>
    right
    simp only [if_true]
    cases (outcome (makeISO9660 c true destination (outcome n) { w with volno := n }).1.volno).reopen
    with
    | false => exact .inl rfl
    | true => exact .inr rfl

/-- What happens in `ISOFS_DIR` between the end of an archive and the image it
ends on: other archives and logs are added, but no label. -/
structure Interlude (destination : Text) (w w' : World) : Prop where
  volno : w'.volno = w.volno
  shelf : w'.shelf = w.shelf
  same : ∀ x, Reserved destination x → w'.isofs.lookup x = w.isofs.lookup x
  noLabel : ∀ x ∈ w'.isofs, isMarker x = true → x ∈ w.isofs

/-- The archive that a later cut renames is another one. -/
structure Unrelated (c : Config) (destination next : Text) : Prop where
  name : ArchiveName c next
  whole : ¬ Reserved destination next
  part : ¬ Reserved destination (uncomplete next)

/-- The directory after the renaming for another archive holds the same under the
names of this one. -/
theorem exists_staged {next : Text} {continued : Bool}
    (hnext : continued = true → Unrelated c destination next) :
    ∃ d : Files, Staged c o w.volno d (image c continued next o w).files ∧
      ∀ x, Reserved destination x → d.lookup x = w.isofs.lookup x := by
  by_cases hmv : 0 < w.volno ∧ continued ∧ o.mvDestination
  · obtain ⟨_, hwhole, hpart⟩ := hnext hmv.2.1
    obtain ⟨hvol, rfl, hmv⟩ := hmv
    refine ⟨move next (uncomplete next) w.isofs, (staged_move hvol hmv next).2, ?_⟩
    intro x hx
    rw [lookup_move_other]
    · rintro rfl; exact hwhole hx
    · rintro rfl; exact hpart hx
  · exact ⟨w.isofs, (staged_keep hmv).2, fun _ _ => rfl⟩

/-- The last part of an archive stays under the name of the archive on the next
image, whoever makes it. -/
theorem stored_image {next : Text} {continued : Bool} (hname : ArchiveName c destination)
    (file : w.isofs.lookup destination = some data)
    (absent : ∀ x, Reserved destination x → x ≠ destination → x ∉ w.isofs)
    (hnext : continued = true → Unrelated c destination next) :
    Stored (image c continued next o w).files destination data ∧
      uncomplete destination ∉ (image c continued next o w).files := by
  obtain ⟨d, hstaged, hsame⟩ := exists_staged (o := o) (w := w) hnext
  have habsent : ∀ x, Reserved destination x → x ≠ destination → d.lookup x = none := by
    intro x hx hne
    rw [hsame x hx]
    exact AList.lookup_eq_none.mpr (absent x hx hne)
  constructor
  · refine hstaged.stored hname.notPart (fun x hx => hname.free x (.inl hx)) (.whole ?_ ?_)
    · rw [hsame _ (Reserved.self _), file]
    · intro k
      exact habsent _ (.inl (.inr ⟨k, rfl⟩)) (partName_ne_self _ _)
  · intro hmem
    have hin := hstaged.mem hmem (hname.free _ (Reserved.uncomplete _))
      (uncomplete_ne_partName destination)
    exact AList.lookup_eq_none.mp
      (habsent _ (Reserved.uncomplete _) (uncomplete_ne destination)) hin

/-- An image made without any part of an archive in the directory holds none. -/
theorem notMem_image {next : Text} {continued : Bool} (hname : ArchiveName c destination)
    (absent : ∀ x, Reserved destination x → x ∉ w.isofs)
    (hnext : continued = true → Unrelated c destination next) :
    destination ∉ (image c continued next o w).files ∧
      uncomplete destination ∉ (image c continued next o w).files := by
  obtain ⟨d, hstaged, hsame⟩ := exists_staged (o := o) (w := w) hnext
  have habsent : ∀ x, Reserved destination x → x ∉ d := by
    intro x hx
    rw [← AList.lookup_eq_none, hsame x hx]
    exact AList.lookup_eq_none.mpr (absent x hx)
  constructor
  · intro hmem
    exact habsent _ (Reserved.self _)
      (hstaged.mem hmem (hname.free _ (Reserved.self _)) hname.notPart)
  · intro hmem
    exact habsent _ (Reserved.uncomplete _)
      (hstaged.mem hmem (hname.free _ (Reserved.uncomplete _)) (uncomplete_ne_partName destination))

/-- The directory of the next image holds no label besides the one it gets. -/
theorem staged_unmarked (o : Outcome) (continued : Bool) {next : Text}
    (hname : continued = true → ArchiveName c next)
    (hunmarked : ∀ x ∈ w.isofs, isMarker x = false) :
    ∃ d : Files, Staged c o w.volno d (image c continued next o w).files ∧
      (∀ x ∈ d, isMarker x = false) ∧ (lastCd ∈ d ↔ lastCd ∈ w.isofs) := by
  by_cases hmv : 0 < w.volno ∧ continued ∧ o.mvDestination
  · obtain ⟨hvol, rfl, hmv⟩ := hmv
    have hname := hname rfl
    refine ⟨_, (staged_move hvol hmv next).2, ?_, ?_⟩
    · intro x hx
      rcases mem_move hx with rfl | hx
      · exact hname.notMarker (Reserved.uncomplete _)
      · exact hunmarked x hx
    · rw [← AList.lookup_isSome, ← AList.lookup_isSome, lookup_move_other]
      · exact Ne.symm (hname.ne_lastCd (Reserved.self _))
      · exact Ne.symm (hname.ne_lastCd (Reserved.uncomplete _))
  · exact ⟨_, (staged_keep hmv).2, hunmarked, Iff.rfl⟩

theorem tailVolume_image {next : Text} {continued : Bool} {d₀ : Files}
    (hname : ArchiveName c destination) (h : Holding destination data d₀)
    (hold : ∀ x, Reserved destination x → w.isofs.lookup x = d₀.lookup x)
    (hlabel : ∀ x ∈ w.isofs, isMarker x = true → x ∈ d₀)
    (hnext : continued = true → Unrelated c destination next) :
    TailVolume c destination w.volno data (image c continued next o w) := by
  have hunmarked : ∀ x ∈ w.isofs, isMarker x = false := by
    intro x hx
    refine Bool.eq_false_iff.mpr fun hm => ?_
    rw [h.unmarked x (hlabel x hx hm)] at hm
    cases hm
  have hstored := stored_image (o := o) hname ((hold _ (Reserved.self _)).trans h.file)
    (fun x hx hne => by
      rw [← AList.lookup_eq_none, hold x hx, AList.lookup_eq_none]
      exact h.absent x hx hne) hnext
  obtain ⟨d, hstaged, hplain, _⟩ :=
    staged_unmarked o continued (fun hc => (hnext hc).name) hunmarked
  refine ⟨rfl, hstored.1, hstored.2, ?_⟩
  intro x hx
  exact hstaged.marker hplain hx

/-- A successful change of volumes. -/
theorem changeVolume_succeeds (hname : ArchiveName c destination) (hcd : c.CdMode) {n : Nat}
    (hn : 0 < n) (hok : (outcome n).Succeeds) (h : Holding destination data w.isofs) :
    ∃ w' image, changeVolume (host c destination outcome) n w = .ok w' ∧
      PartVolume c destination n data image ∧ w'.shelf = w.shelf ++ [image] ∧
      w'.built = w.built ++ [image] ∧ w'.volno = n ∧ Holding destination [] w'.isofs := by
  obtain ⟨iso, hmake⟩ := makeISO9660_finishes (w := { w with volno := n }) (hok.finishes hcd n) hn
    true destination
  have hchange : changeVolume (host c destination outcome) n w = .ok
      { (makeISO9660 c true destination (outcome n) { w with volno := n }).1 with
        isofs := (sweep (fill c true destination (outcome n) { w with volno := n })).insert
          destination [] } := by
    simp only [changeVolume, host, hok.volnoFile, if_true, hmake, hok.reopen]
  have hpart := partVolume_image (w := { w with volno := n }) hname hok hn h
  refine ⟨_, _, hchange, hpart, ?_, ?_, ?_, (fresh_sweep hname _).open_ hname⟩
  all_goals rw [hmake]

/-- A stream whose cuts all succeed leaves one volume for each piece. -/
theorem cutAll_succeeds (hname : ArchiveName c destination) (hcd : c.CdMode)
    (hok : ∀ n, (outcome n).Succeeds) (ps : List Bytes) :
    ∀ (n : Nat) (w : World), w.volno = n → Holding destination [] w.isofs →
      ∃ w' images, cutAll (host c destination outcome) n ps w = .ok w' ∧
        Volumes c destination (n + 1) ps images ∧ w'.shelf = w.shelf ++ images ∧
        w'.built = w.built ++ images ∧ w'.volno = n + ps.length ∧
        Holding destination [] w'.isofs := by
  induction ps with
  | nil =>
    intro n w hn h
    exact ⟨w, [], rfl, .nil, by simp, by simp, by simpa using hn, h⟩
  | cons p ps ih =>
    intro n w hn h
    have hwrite : Holding destination p ((host c destination outcome).fwrite p w).isofs := by
      have := h.write p
      rwa [List.nil_append] at this
    obtain ⟨w₁, image, hchange, hpart, hshelf, hbuilt, hvol, hopen⟩ :=
      changeVolume_succeeds hname hcd (by omega) (hok (n + 1)) hwrite
    obtain ⟨w₂, images, hrest, hvols, hshelf₂, hbuilt₂, hvol₂, hopen₂⟩ :=
      ih (n + 1) w₁ hvol hopen
    refine ⟨w₂, image :: images, ?_, .cons hpart hvols, ?_, ?_, ?_, hopen₂⟩
    · rw [cutAll, hchange]
      exact hrest
    · rw [hshelf₂, hshelf]
      simp [host]
    · rw [hbuilt₂, hbuilt]
      simp [host]
    · rw [hvol₂, List.length_cons]
      omega

/-- A whole run of `cutstream` whose cuts all succeed. -/
theorem cutstream_succeeds (hname : ArchiveName c destination) (hcd : c.CdMode)
    (hok : ∀ n, (outcome n).Succeeds) {maxcdsize capacity fuel : Nat} {s t : Bytes}
    {ps : List Bytes} (hm : 0 < maxcdsize)
    (hcuts : Cuts (maxcdsize * 1024) (capacity * 1024) s ps t) (hfuel : s.length + 2 ≤ fuel)
    (hfresh : Fresh destination w.isofs) :
    ∃ q images, cutstream c destination outcome maxcdsize fuel capacity s w = .ok q ∧
      Volumes c destination (w.volno + 1) ps images ∧ q.world.shelf = w.shelf ++ images ∧
      q.world.built = w.built ++ images ∧ q.world.volno = w.volno + ps.length ∧
      Holding destination t q.world.isofs := by
  obtain ⟨w', images, hrun, hvols, hshelf, hbuilt, hvol, hopen⟩ :=
    cutAll_succeeds hname hcd hok ps w.volno { w with isofs := w.isofs.insert destination [] } rfl
      (hfresh.open_ hname)
  have hpipe := filepipe_eq_cutAll (host c destination outcome) maxcdsize w.volno (fun _ => hm)
    hcuts hfuel { w with isofs := w.isofs.insert destination [] }
  rw [hrun] at hpipe
  cases hq : cutstream c destination outcome maxcdsize fuel capacity s w with
  | error e =>
    rw [cutstream] at hq
    rw [hq] at hpipe
    cases hpipe
  | ok q =>
    rw [cutstream] at hq
    rw [hq] at hpipe
    have hworld : q.world = (host c destination outcome).fwrite t w' :=
      (Prod.mk.inj (Except.ok.inj hpipe)).2
    refine ⟨q, images, rfl, hvols, ?_, ?_, ?_, ?_⟩
    · rw [hworld]; exact hshelf
    · rw [hworld]; exact hbuilt
    · rw [hworld]; exact hvol
    · rw [hworld]
      have := hopen.write t
      rwa [List.nil_append] at this

end Steps

end Backup
