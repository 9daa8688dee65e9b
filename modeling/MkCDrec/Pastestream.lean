import MkCDrec.RoundTrip

/-!
# The older program that joins a split archive

`pastestream` talks with `ask.for.cd.sh` through the same two files as `restore_split_file`, but
it opens each part under its own name. The parts into which `makeISO9660.sh` splits an over-long
file stay unread; the emptied file is copied in their place.
-/

namespace Pastestream

open Directory ShellText SplitFile MakeIso Backup RestoreSplit Cutstream Cutting

def nameLength : Nat := 254

def cdrom : Text := "/cdrom/".toList

/-- `fgets`: a line with its newline, or what fits into the buffer. -/
def fgets (size : Nat) (t : Text) : Text :=
  (t.takeWhile (· ≠ '\n') ++ (t.dropWhile (· ≠ '\n')).take 1).take (size - 1)

/-- The path in `restore_str`, without its last character. -/
def restoreStr (s : Session) : Text :=
  (fgets nameLength (cdrom ++ s.restore ++ ['\n'])).dropLast

/-- `fopen` of a path below `/cdrom/`. -/
def fopen (d : Files) (path : Text) : Option Bytes :=
  if cdrom.isPrefixOf path then d.lookup (path.drop cdrom.length) else none

/-- `main`: its output and the state it leaves. What `system` returns is ignored. -/
def pastestream (insert : Text → Option Files) : Nat → Session → Except Failure (Bytes × Session)
  | 0, _ => .error .outOfFuel
  | fuel + 1, s =>
    match s.moreToCome with
    | none => .error .notFound
    | some i =>
      match fopen s.drive (restoreStr s) with
      | none => .error .notFound
      | some data =>
        if i = 0 then .ok (data, s)
        else
          match askForCd insert s with
          | .error e => .error e
          | .ok s' =>
            match pastestream insert fuel s' with
            | .error e => .error e
            | .ok (out, s'') => .ok (data ++ out, s'')

theorem unsplit_sublist (data : Bytes) : (unsplit data).Sublist data := by
  rw [unsplit]
  split
  · exact List.nil_sublist data
  · exact List.Sublist.refl data

theorem unsplit_eq_self {data : Bytes} : unsplit data = data ↔ tooBig data = false := by
  constructor
  · intro h
    rw [← h, unsplit]
    split
    · rfl
    · simpa using ‹¬ tooBig data = true›
  · intro h
    simp [unsplit, h]

section Names

variable {s : Session}

theorem restoreStr_eq (hline : '\n' ∉ s.restore)
    (hshort : (cdrom ++ s.restore).length < nameLength - 1) :
    restoreStr s = cdrom ++ s.restore := by
  have hplain : ∀ a ∈ cdrom ++ s.restore, decide (a ≠ '\n') = true := by
    intro a ha
    rw [decide_eq_true_eq]
    rintro rfl
    rcases List.mem_append.mp ha with h | h
    · exact absurd h (by decide)
    · exact hline h
  have hread : fgets nameLength (cdrom ++ s.restore ++ ['\n']) = cdrom ++ s.restore ++ ['\n'] := by
    rw [fgets, List.takeWhile_append_of_pos hplain, List.dropWhile_append_of_pos hplain]
    simp only [ne_eq, not_true_eq_false, decide_false, Bool.false_eq_true, not_false_eq_true,
      List.takeWhile_cons_of_neg, List.append_nil, List.dropWhile_cons_of_neg, List.take_succ_cons,
      List.take_zero]
    apply List.take_of_length_le
    rw [List.length_append, List.length_singleton]
    omega
  rw [restoreStr, hread, List.dropLast_concat]

theorem fopen_cdrom (d : Files) (name : Text) : fopen d (cdrom ++ name) = d.lookup name := by
  have hbelow : cdrom.isPrefixOf (cdrom ++ name) = true :=
    List.isPrefixOf_iff_prefix.mpr (List.prefix_append cdrom name)
  rw [fopen, if_pos hbelow, List.drop_left]

end Names

section Restore

variable {c : Config} {destination : Text} {insert : Text → Option Files} {fuel : Nat}

/-- One round on a volume that ends at a cut. -/
theorem pastestream_part {data out : Bytes} {s s' s'' : Session} (hline : '\n' ∉ s.restore)
    (hshort : (cdrom ++ s.restore).length < nameLength - 1)
    (hfile : s.drive.lookup s.restore = some data) (hmore : s.moreToCome = some 1)
    (hask : askForCd insert s = .ok s') (hrest : pastestream insert fuel s' = .ok (out, s'')) :
    pastestream insert (fuel + 1) s = .ok (data ++ out, s'') := by
  have hopen : fopen s.drive (restoreStr s) = some data := by
    rw [restoreStr_eq hline hshort, fopen_cdrom, hfile]
  simp only [pastestream, hmore, hopen, Nat.one_ne_zero, if_false, hask, hrest]

theorem pastestream_tail {data : Bytes} {s : Session} (hline : '\n' ∉ s.restore)
    (hshort : (cdrom ++ s.restore).length < nameLength - 1)
    (hfile : s.drive.lookup s.restore = some data) (hmore : s.moreToCome = some 0) :
    pastestream insert (fuel + 1) s = .ok (data, s) := by
  have hopen : fopen s.drive (restoreStr s) = some data := by
    rw [restoreStr_eq hline hshort, fopen_cdrom, hfile]
  simp only [pastestream, hmore, hopen, if_true]

/-- From any part on, the files that bear the name of the archive come out in order. The
induction is over the volumes, as for `restore_split_file`. -/
theorem pastestream_volumes {t b : Bytes} {tailImage : Image} (hline : '\n' ∉ destination)
    (hshort : (cdrom ++ uncomplete destination).length < nameLength - 1)
    (hb : tailImage.files.lookup destination = some b) {datas : List Bytes} {images : List Image}
    (hfiles : List.Forall₂ (fun data i => i.files.lookup (uncomplete destination) = some data)
      datas images) :
    ∀ (n : Nat) (p : Bytes) (ps : List Bytes) (image : Image) (data : Bytes), 0 < n →
      image.files.lookup (uncomplete destination) = some data →
      Volumes c destination n (p :: ps) (image :: images) →
      TailVolume c destination (n + 1 + ps.length) t tailImage →
      (∀ i ∈ images ++ [tailImage], insert i.label = some i.files) →
      ∀ (fuel : Nat) (s : Session), ps.length + 2 ≤ fuel → s.drive = image.files →
        s.restore = uncomplete destination → s.moreToCome = some 1 →
        pastestream insert fuel s = .ok (data ++ (datas.flatten ++ b),
          { drive := tailImage.files, restore := destination, moreToCome := some 0 }) := by
  have hparts : '\n' ∉ uncomplete destination := by
    simpa [uncomplete] using hline
  induction hfiles with
  | nil =>
    intro n p ps image data hn hdata hvols htail hinsert fuel s hfuel hdrive hrestore hmore
    obtain ⟨fuel, rfl⟩ := Nat.exists_eq_add_of_le hfuel
    cases hvols with
    | cons hpart hnone =>
      cases hnone
      have hlabel : volId c (n + 1) ∈ tailImage.files :=
        (htail.marked _ (isMarker_volId c _)).mpr rfl
      have hnext : insert (volId c (n + 1)) = some tailImage.files := by
        have h := hinsert tailImage (by simp)
        rwa [htail.label] at h
      have hask := askForCd_eq hn (hdrive ▸ hpart.marked) (hdrive ▸ hpart.notLast) hnext hlabel
      have hchop : chop '_' (uncomplete destination) = destination := chop_append '_' destination
      rw [hrestore, if_neg htail.complete, hchop] at hask
      have hlast : (cdrom ++ destination).length < nameLength - 1 := by
        rw [List.length_append, length_uncomplete] at hshort
        rw [List.length_append]
        omega
      rw [List.length_nil, Nat.zero_add, Nat.add_comm 2 fuel]
      exact pastestream_part (hrestore ▸ hparts) (hrestore ▸ hshort)
        (by rw [hdrive, hrestore, hdata]) hmore hask (pastestream_tail hline hlast hb rfl)
  | @cons data' image' datas images hfile hfiles ih =>
    intro n p ps image data hn hdata hvols htail hinsert fuel s hfuel hdrive hrestore hmore
    obtain ⟨fuel, rfl⟩ := Nat.exists_eq_add_of_le hfuel
    cases hvols with
    | cons hpart htails =>
      cases htails with
      | @cons _ q ps _ _ hnextPart hlater =>
        have hlabel : volId c (n + 1) ∈ image'.files :=
          (hnextPart.marked _ (isMarker_volId c _)).mpr rfl
        have hnext : insert (volId c (n + 1)) = some image'.files := by
          have h := hinsert image' (by simp)
          rwa [hnextPart.label] at h
        have hin : uncomplete destination ∈ image'.files :=
          AList.lookup_isSome.mp (by rw [hfile]; rfl)
        have hask := askForCd_eq hn (hdrive ▸ hpart.marked) (hdrive ▸ hpart.notLast) hnext hlabel
        rw [hrestore, if_pos hin] at hask
        have hlen : n + 1 + (q :: ps).length = n + 1 + 1 + ps.length := by
          simp only [List.length_cons]
          omega
        rw [hlen] at htail
        have hrest := ih (n + 1) q ps image' data' (Nat.succ_pos n) hfile (.cons hnextPart hlater)
          htail (fun i hi => hinsert i (List.mem_cons_of_mem _ hi)) (ps.length + 2 + fuel)
          { drive := image'.files, restore := uncomplete destination, moreToCome := some 1 }
          (by omega) rfl rfl rfl
        have hsplit : (q :: ps).length + 2 + fuel = (ps.length + 2 + fuel) + 1 := by
          simp only [List.length_cons]
          omega
        rw [hsplit, List.flatten_cons, List.append_assoc]
        exact pastestream_part (hrestore ▸ hparts) (hrestore ▸ hshort)
          (by rw [hdrive, hrestore, hdata]) hmore hask hrest

end Restore

section Images

variable {c : Config} {destination name : Text} {outcome : Nat → Outcome} {o : Outcome} {w : World}
  {d : Files} {data : Bytes}

theorem lookup_staged_unsplit {n : Nat} {e : Files} (h : Staged c o n d e)
    (hpart : ∀ g n, name ≠ partName g n) (hfree : ¬ Auxiliary c name)
    (file : d.lookup name = some data) : e.lookup name = some (unsplit data) := by
  rw [h.lookup hfree]
  exact lookup_splitAll hpart ((lookup_addFiles_of_not_auxiliary hfree).trans file)

/-- What the image that is made at a cut holds under the name of the part. -/
theorem lookup_image_part (hname : ArchiveName c destination) (hok : o.Succeeds)
    (hvol : 0 < w.volno) (h : Holding destination data w.isofs) :
    (image c true destination o w).files.lookup (uncomplete destination) = some (unsplit data) := by
  refine lookup_staged_unsplit (staged_move hvol hok.mvDestination destination).2
    (uncomplete_ne_partName destination) (hname.free _ (Reserved.uncomplete _)) ?_
  rw [lookup_move h.file, if_pos rfl]

theorem lookup_image_tail {next : Text} {continued : Bool} (hname : ArchiveName c destination)
    (file : w.isofs.lookup destination = some data)
    (hnext : continued = true → Unrelated c destination next) :
    (image c continued next o w).files.lookup destination = some (unsplit data) := by
  obtain ⟨d, hstaged, hsame⟩ := exists_staged (o := o) (w := w) hnext
  refine lookup_staged_unsplit hstaged hname.notPart (hname.free _ (Reserved.self _)) ?_
  rw [hsame _ (Reserved.self _), file]

/-- The image that a successful change of volumes adds. -/
theorem changeVolume_shelf {w' : World} (hcd : c.CdMode) {n : Nat} (hn : 0 < n)
    (hok : (outcome n).Succeeds) (h : changeVolume (host c destination outcome) n w = .ok w') :
    w'.shelf = w.shelf ++ [image c true destination (outcome n) { w with volno := n }] := by
  obtain ⟨iso, hmake⟩ := makeISO9660_finishes (w := { w with volno := n }) (hok.finishes hcd n) hn
    true destination
  simp only [changeVolume, host, hok.volnoFile, if_true, hmake, hok.reopen] at h
  rw [← Except.ok.inj h]

/-- What is left of the parts under their own names. -/
def Unsplit (destination : Text) (ps : List Bytes) (images : List Image) : Prop :=
  List.Forall₂ (fun data i => i.files.lookup (uncomplete destination) = some data)
    (ps.map unsplit) images

theorem cutAll_unsplit (hname : ArchiveName c destination) (hcd : c.CdMode)
    (hok : ∀ n, (outcome n).Succeeds) (ps : List Bytes) :
    ∀ (n : Nat) (w w' : World), w.volno = n → Holding destination [] w.isofs →
      cutAll (host c destination outcome) n ps w = .ok w' →
      ∃ images, w'.shelf = w.shelf ++ images ∧ Unsplit destination ps images := by
  induction ps with
  | nil =>
    intro n w w' _ _ hrun
    obtain rfl := Except.ok.inj hrun
    exact ⟨[], (List.append_nil _).symm, .nil⟩
  | cons p ps ih =>
    intro n w w' hn h hrun
    have hwrite : Holding destination p ((host c destination outcome).fwrite p w).isofs := by
      have := h.write p
      rwa [List.nil_append] at this
    obtain ⟨w₁, _, hchange, _, _, _, hvol, hopen⟩ :=
      changeVolume_succeeds hname hcd (Nat.succ_pos n) (hok (n + 1)) hwrite
    have hshelf := changeVolume_shelf hcd (Nat.succ_pos n) (hok (n + 1)) hchange
    rw [cutAll, hchange] at hrun
    obtain ⟨images, hshelf', himages⟩ := ih (n + 1) w₁ w' hvol hopen hrun
    have himage := lookup_image_part (w := { (host c destination outcome).fwrite p w with
      volno := n + 1 }) hname (hok (n + 1)) (Nat.succ_pos n) hwrite
    refine ⟨_ :: images, ?_, .cons himage himages⟩
    rw [hshelf', hshelf, List.append_assoc]
    rfl

theorem cutstream_unsplit (hname : ArchiveName c destination) (hcd : c.CdMode)
    (hok : ∀ n, (outcome n).Succeeds) {maxcdsize capacity fuel : Nat} {s t : Bytes}
    {ps : List Bytes} (hm : 0 < maxcdsize)
    (hcuts : Cuts (maxcdsize * 1024) (capacity * 1024) s ps t) (hfuel : s.length + 2 ≤ fuel)
    (hfresh : Fresh destination w.isofs) {q : Pipe World}
    (hrun : cutstream c destination outcome maxcdsize fuel capacity s w = .ok q) :
    ∃ images, q.world.shelf = w.shelf ++ images ∧ Unsplit destination ps images := by
  have hpipe := filepipe_eq_cutAll (host c destination outcome) maxcdsize w.volno (fun _ => hm)
    hcuts hfuel { w with isofs := w.isofs.insert destination [] }
  rw [cutstream] at hrun
  rw [hrun] at hpipe
  cases hcut : cutAll (host c destination outcome) w.volno ps
      { w with isofs := w.isofs.insert destination [] } with
  | error e =>
    rw [hcut] at hpipe
    cases hpipe
  | ok w' =>
    rw [hcut] at hpipe
    have hworld : q.world = (host c destination outcome).fwrite t w' :=
      (Prod.mk.inj (Except.ok.inj hpipe)).2
    rw [hworld]
    exact cutAll_unsplit hname hcd hok ps w.volno { w with isofs := w.isofs.insert destination [] }
      w' rfl (hfresh.open_ hname) hcut

end Images

variable {c : Config} {destination : Text} {outcome : Nat → Outcome}

/-- A split archive comes back from `pastestream` exactly if none of its parts was so long that
`makeISO9660.sh` had to split it again. -/
theorem pasted_iff (hname : ArchiveName c destination) (hcd : c.CdMode)
    (hok : ∀ n, (outcome n).Succeeds) {maxcdsize : Nat} (hm : 0 < maxcdsize) {capacity : Nat}
    {s t : Bytes} {ps : List Bytes} (hcuts : Cuts (maxcdsize * 1024) (capacity * 1024) s ps t)
    (hcut : capacity * 1024 ≤ s.length) (w : World) (hfresh : Fresh destination w.isofs)
    (hline : '\n' ∉ destination)
    (hshort : (cdrom ++ uncomplete destination).length < nameLength - 1)
    {fuel : Nat} (hfuel : s.length + 2 ≤ fuel) :
    ∃ q, cutstream c destination outcome maxcdsize fuel capacity s w = .ok q ∧
      ∀ (w' : World) (continued : Bool) (next : Text), Interlude destination q.world w' →
        (continued = true → Unrelated c destination next) →
        ∃ first rest,
          (makeISO9660 c continued next (outcome (w'.volno + 1))
            { w' with volno := w'.volno + 1 }).1.shelf = w.shelf ++ first :: rest ∧
          ∀ insert : Text → Option Files, (∀ i ∈ rest, insert i.label = some i.files) →
            ∀ fuel', rest.length + 1 ≤ fuel' →
              ((∃ session, pastestream insert fuel'
                  { drive := first.files, restore := uncomplete destination, moreToCome := some 1 } =
                    .ok (s, session)) ↔
                ∀ p ∈ ps ++ [t], tooBig p = false) := by
  obtain ⟨q, images, hrun, hvols, hshelf, _, hvol, hhold⟩ :=
    cutstream_succeeds hname hcd hok hm hcuts hfuel hfresh
  obtain ⟨images', hshelf', hunsplit⟩ := cutstream_unsplit hname hcd hok hm hcuts hfuel hfresh hrun
  obtain rfl : images = images' := List.append_cancel_left (hshelf.symm.trans hshelf')
  refine ⟨q, hrun, ?_⟩
  intro w' continued next hbetween hnext
  have htail := tailVolume_image (w := { w' with volno := w'.volno + 1 })
    (o := outcome (w'.volno + 1)) hname hhold hbetween.same hbetween.noLabel hnext
  have hlast := lookup_image_tail (w := { w' with volno := w'.volno + 1 })
    (o := outcome (w'.volno + 1)) hname
    ((hbetween.same _ (Reserved.self destination)).trans hhold.file) hnext
  obtain ⟨iso, hmake⟩ := makeISO9660_finishes (w := { w' with volno := w'.volno + 1 })
    ((hok (w'.volno + 1)).finishes hcd _) (Nat.succ_pos _) continued next
  generalize image c continued next (outcome (w'.volno + 1))
    { w' with volno := w'.volno + 1 } = tailImage at htail hlast hmake
  cases hvols with
  | nil =>
    cases hcuts with
    | tail short => omega
  | @cons _ p ps first images hfirst hvols =>
    cases hunsplit with
    | cons hdata hunsplit =>
      have hlen := RoundTrip.Volumes.length_eq hvols
      have hnumber : w'.volno + 1 = w.volno + 1 + 1 + ps.length := by
        rw [hbetween.volno, hvol, List.length_cons]
        omega
      refine ⟨first, images ++ [tailImage], ?_, ?_⟩
      · rw [hmake, hbetween.shelf, hshelf, List.append_assoc]
        rfl
      · intro insert hinsert fuel' hfuel'
        rw [List.length_append, List.length_singleton, hlen] at hfuel'
        have hpaste := pastestream_volumes hline hshort hlast hunsplit (w.volno + 1) p ps first
          (unsplit p) (Nat.succ_pos _) hdata (.cons hfirst hvols) (hnumber ▸ htail) hinsert fuel'
          { drive := first.files, restore := uncomplete destination, moreToCome := some 1 }
          (by omega) rfl rfl rfl
        have hout : unsplit p ++ ((ps.map unsplit).flatten ++ unsplit t) =
            (((p :: ps) ++ [t]).map unsplit).flatten := by simp
        have hwhole : ((p :: ps) ++ [t]).flatten = s := by
          rw [List.flatten_append, List.flatten_singleton]
          exact hcuts.flatten
        rw [hpaste, hout]
        simp only [← unsplit_eq_self]
        rw [← flatten_map_eq_iff fun p _ => unsplit_sublist p, hwhole]
        constructor
        · rintro ⟨session, h⟩
          exact (Prod.mk.inj (Except.ok.inj h)).1
        · intro h
          exact ⟨_, by rw [h]⟩

/-- A part of 1900001 Kb. -/
def overlong : Bytes := List.replicate (1900001 * 1024) 0

theorem length_overlong : overlong.length = 1900001 * 1024 := List.length_replicate

theorem tooBig_overlong : tooBig overlong = true := by
  rw [tooBig, length_overlong]
  decide

theorem cuts_overlong : Cuts (1 * 1024) (1900001 * 1024) overlong [overlong] [] := by
  have hdrop : overlong.drop (1900001 * 1024) = [] := List.drop_of_length_le length_overlong.le
  have hcut := Cuts.cut (m := 1 * 1024) length_overlong.ge (.tail (s := overlong.drop _) (by
    rw [hdrop]
    decide))
  rwa [List.take_of_length_le length_overlong.le, hdrop] at hcut

/-- Nothing comes back of it. -/
theorem overlong_not_pasted :
    ∃ q first rest,
      cutstream diskConfig usrArchive (fun _ => allSucceed) 1 (1900001 * 1024 + 2) 1900001 overlong
        emptyWorld = .ok q ∧
      (makeISO9660 diskConfig false [] allSucceed
        { q.world with volno := q.world.volno + 1 }).1.shelf = first :: rest ∧
      ∀ insert : Text → Option Files, (∀ i ∈ rest, insert i.label = some i.files) →
        ¬ ∃ session, pastestream insert (rest.length + 1)
          { drive := first.files, restore := uncomplete usrArchive, moreToCome := some 1 } =
            .ok (overlong, session) := by
  obtain ⟨q, hrun, hrest⟩ := pasted_iff archiveName_usr rfl (fun _ => allSucceed_succeeds)
    (show 0 < 1 by decide) cuts_overlong length_overlong.ge emptyWorld
    (RoundTrip.fresh_empty _) (by decide) (by decide)
    (show overlong.length + 2 ≤ 1900001 * 1024 + 2 by rw [length_overlong])
  obtain ⟨first, rest, hshelf, hpaste⟩ :=
    hrest q.world false [] ⟨rfl, rfl, fun _ _ => rfl, fun _ h _ => h⟩ (by simp)
  refine ⟨q, first, rest, hrun, hshelf, ?_⟩
  intro insert hinsert hout
  have hsmall := (hpaste insert hinsert _ (Nat.le_refl _)).mp hout overlong List.mem_cons_self
  rw [tooBig_overlong] at hsmall
  cases hsmall

end Pastestream
