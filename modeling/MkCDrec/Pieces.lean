import MkCDrec.Backup

/-!
# What a cut may lose

`cutstream` does not look at the status of `makeISO9660.sh`, truncates its
destination after every cut, and every cut renames to the same name. `accounted`
collects what the images that still exist and `ISOFS_DIR` hold of an archive; it
is the input consumed so far as long as every run of the script either finishes
its volume or leaves the renamed part alone in the directory.
-/

namespace Pieces

open Directory ShellText SplitFile MakeIso Backup Cutstream

/-- What a directory holds of the archive, `DESTINATION_` before `DESTINATION`. -/
def holds (destination : Text) (d : Files) : Bytes :=
  cat d (uncomplete destination) ++ cat d destination

/-- The image has not been overwritten by a later one. -/
def survives (w : World) (i : Image) : Bool :=
  (w.shelf ++ w.cdrecIso.toList).any fun j => j.label == i.label

/-- The images that are on a disc or in a file, in the order of their creation. -/
def kept (w : World) : List Image := w.built.filter (survives w)

def accounted (destination : Text) (w : World) : Bytes :=
  (kept w).flatMap (fun i => holds destination i.files) ++ holds destination w.isofs

/-- The run of the script at a cut either finishes the volume or stops after the
renaming, and the renaming does not hit the part of an earlier run that stopped. -/
inductive SafeCut (c : Config) (destination : Text) (o : Outcome) (w : World) : Prop
  | finished (done : Finishes c o w.volno)
      (room : uncomplete destination ∉ w.isofs ∨ o.mvDestination = false)
  | stopped (early : StopsEarly c o w.volno) (renamed : o.mvDestination = true)
      (room : uncomplete destination ∉ w.isofs)

variable {c : Config} {destination : Text} {outcome : Nat → Outcome} {o : Outcome} {w : World}
  {d : Files} {s b u : Bytes}

/-- The next round does not cut, or the cut is safe. -/
def SafeRound (c : Config) (destination : Text) (outcome : Nat → Outcome) (p : Pipe World) : Prop :=
  ∀ n : Nat, p.capacity - p.i = n → n ≤ p.input.length →
    SafeCut c destination (outcome (p.volno + 1))
      { (host c destination outcome).fwrite (p.input.take n) p.world with volno := p.volno + 1 }

/-- `ISOFS_DIR` between two rounds: the destination with the bytes since the last
cut, perhaps beside an earlier part. -/
structure Writing (destination : Text) (u b : Bytes) (d : Files) : Prop where
  file : d.lookup destination = some b
  noParts : ∀ n, d.lookup (partName destination n) = none
  part : Held d (uncomplete destination) u

theorem Writing.holds_eq (h : Writing destination u b d) : holds destination d = u ++ b := by
  rw [holds, h.part.cat_eq, (Stored.whole h.file h.noParts).cat_eq]

theorem Writing.empty_of_notMem (h : Writing destination u b d)
    (room : uncomplete destination ∉ d) : u = [] := by
  cases h.part with
  | stored hs =>
    obtain ⟨x, hx⟩ := hs.exists_file
    exact absurd (AList.lookup_isSome.mp (by rw [hx]; rfl)) room
  | absent empty _ => exact empty

theorem Writing.partAbsent (h : Writing destination u b d) (room : uncomplete destination ∉ d) :
    ∀ x, Owns (uncomplete destination) x → x ∉ d := by
  cases h.part with
  | stored hs =>
    obtain ⟨x, hx⟩ := hs.exists_file
    exact absurd (AList.lookup_isSome.mp (by rw [hx]; rfl)) room
  | absent _ none => exact none

theorem ne_of_owns_uncomplete (hname : ArchiveName c destination) {x : Text}
    (hx : Owns (uncomplete destination) x) : x ≠ destination := by
  rcases hx with rfl | ⟨n, rfl⟩
  · exact uncomplete_ne destination
  · exact Ne.symm (hname.notPart _ n)

theorem Writing.write (hname : ArchiveName c destination) (h : Writing destination u b d)
    (data : Bytes) : Writing destination u (b ++ data) (modify destination (· ++ data) d) := by
  refine ⟨?_, ?_, ?_⟩
  · rw [lookup_modify, if_pos rfl, h.file]
    rfl
  · intro n
    rw [lookup_modify, if_neg (partName_ne_self _ _), h.noParts]
  · refine h.part.congr fun x hx => ?_
    rw [lookup_modify, if_neg (ne_of_owns_uncomplete hname hx)]

section Fill

/-- The renamed part on the image, and nothing under the name of the archive. -/
theorem staged_renamed (hname : ArchiveName c destination) (hvol : 0 < w.volno)
    (hmv : o.mvDestination = true) (h : Writing destination u b w.isofs)
    (room : uncomplete destination ∉ w.isofs) {e : Files}
    (he : e = fill c true destination o w ∨ e = (image c true destination o w).files) :
    Stored e (uncomplete destination) b ∧ ∀ x, Owns destination x → x ∉ e := by
  have hstaged : Staged c o w.volno (move destination (uncomplete destination) w.isofs) e := by
    rcases he with rfl | rfl
    · exact (staged_move hvol hmv destination).1
    · exact (staged_move hvol hmv destination).2
  have hmove := lookup_move (b := uncomplete destination) h.file
  have habsent := h.partAbsent room
  have hpart : Stored (move destination (uncomplete destination) w.isofs)
      (uncomplete destination) b := by
    refine .whole (by rw [hmove, if_pos rfl]) fun n => ?_
    have hown : Owns (uncomplete destination) (partName (uncomplete destination) n) :=
      .inr ⟨n, rfl⟩
    rw [hmove, if_neg (partName_ne_self _ _), if_neg (ne_of_owns_uncomplete hname hown)]
    exact AList.lookup_eq_none.mpr (habsent _ hown)
  have hgone : ∀ x, Owns destination x → x ∉ move destination (uncomplete destination) w.isofs := by
    intro x hx
    rw [← AList.lookup_eq_none, hmove]
    rcases hx with rfl | ⟨n, rfl⟩
    · rw [if_neg (Ne.symm (uncomplete_ne _)), if_pos rfl]
    · rw [if_neg (Ne.symm (uncomplete_ne_partName _ _ _)), if_neg (partName_ne_self _ _)]
      exact h.noParts n
  exact ⟨hstaged.stored (uncomplete_ne_partName _) (fun x hx => hname.free x (.inr hx)) hpart,
    hstaged.absent hname.notPart (fun x hx => hname.free x (.inl hx)) hgone⟩

/-- Without the renaming both parts are there as before. -/
theorem image_unrenamed (hname : ArchiveName c destination) (hmv : o.mvDestination = false)
    (h : Writing destination u b w.isofs) :
    Held (image c true destination o w).files (uncomplete destination) u ∧
      Held (image c true destination o w).files destination b := by
  obtain ⟨-, hstaged⟩ : _ ∧ Staged c o w.volno w.isofs (image c true destination o w).files :=
    staged_keep (by simp [hmv])
  exact ⟨hstaged.held (uncomplete_ne_partName _) (fun x hx => hname.free x (.inr hx)) h.part,
    hstaged.held hname.notPart (fun x hx => hname.free x (.inl hx))
      (.stored (.whole h.file h.noParts))⟩

theorem writing_insert (hname : ArchiveName c destination)
    (hpart : Held d (uncomplete destination) u)
    (hgone : ∀ n, partName destination n ∉ d) :
    Writing destination u [] (d.insert destination []) := by
  refine ⟨AList.lookup_insert _, ?_, ?_⟩
  · intro n
    rw [AList.lookup_insert_ne (partName_ne_self _ _)]
    exact AList.lookup_eq_none.mpr (hgone n)
  · exact hpart.congr fun x hx => AList.lookup_insert_ne (ne_of_owns_uncomplete hname hx)

end Fill

/-- The balance of a state: what is accounted for and what is still to be read
make up the stream. -/
structure Balanced (destination : Text) (s : Bytes) (p : Pipe World) : Prop where
  balance : accounted destination p.world ++ p.input = s
  writing : ∃ u b, Writing destination u b p.world.isofs
  safe : ∀ i ∈ p.world.built,
    (∃ j ∈ p.world.shelf, j.label = i.label) ∨ holds destination i.files = []

/-- Images that were overwritten do not matter if they held nothing. -/
theorem flatMap_kept
    (h : ∀ i ∈ w.built, (∃ j ∈ w.shelf, j.label = i.label) ∨ holds destination i.files = []) :
    (kept w).flatMap (fun i => holds destination i.files) =
      w.built.flatMap fun i => holds destination i.files := by
  rw [kept]
  generalize w.built = l at h
  induction l with
  | nil => rfl
  | cons i l ih =>
    have ih := ih fun j hj => h j (List.mem_cons_of_mem _ hj)
    by_cases hkept : survives w i = true
    · rw [List.filter_cons_of_pos hkept, List.flatMap_cons, List.flatMap_cons, ih]
    · rcases h i List.mem_cons_self with ⟨j, hj, heq⟩ | hnone
      · exact absurd (List.any_eq_true.mpr ⟨j, List.mem_append_left _ hj, by simp [heq]⟩) hkept
      · rw [List.filter_cons_of_neg hkept, ih, List.flatMap_cons, hnone, List.nil_append]

/-- A round without a cut. -/
theorem Balanced.copy {p q : Pipe World} {n : Nat} (hname : ArchiveName c destination)
    (h : Balanced destination s p) (hinput : q.input = p.input.drop n)
    (hworld : q.world = (host c destination outcome).fwrite (p.input.take n) p.world) :
    Balanced destination s q := by
  obtain ⟨u, b, hw⟩ := h.writing
  have hw' : Writing destination u (b ++ p.input.take n) q.world.isofs := by
    rw [hworld]
    exact hw.write hname _
  refine ⟨?_, ⟨u, _, hw'⟩, ?_⟩
  · have hkept : kept q.world = kept p.world := by rw [hworld]; rfl
    have hsum := h.balance
    rw [accounted, hw.holds_eq, List.append_assoc, List.append_assoc] at hsum
    rw [accounted, hkept, hw'.holds_eq, hinput]
    simp only [List.append_assoc, List.take_append_drop]
    exact hsum
  · rw [hworld]
    exact h.safe

/-- A safe change of volumes moves what `ISOFS_DIR` holds to an image, or leaves it
where it is. -/
theorem SafeCut.balanced {n : Nat} {w' : World} (hname : ArchiveName c destination) (hn : 0 < n)
    (hsafe : SafeCut c destination (outcome n) { w with volno := n })
    (hw : Writing destination u b w.isofs)
    (hbuilt : ∀ i ∈ w.built, (∃ j ∈ w.shelf, j.label = i.label) ∨ holds destination i.files = [])
    (hchange : changeVolume (host c destination outcome) n w = .ok w') :
    accounted destination w' = accounted destination w ∧
      (∃ u b, Writing destination u b w'.isofs) ∧
      ∀ i ∈ w'.built, (∃ j ∈ w'.shelf, j.label = i.label) ∨ holds destination i.files = [] := by
  have hreopen : w' = { (makeISO9660 c true destination (outcome n) { w with volno := n }).1 with
      isofs := (makeISO9660 c true destination (outcome n) { w with volno := n }).1.isofs.insert
        destination [] } := by
    rcases changeVolume_cases c destination outcome n w with h | h | h
    · rw [h] at hchange; cases hchange
    · rw [h] at hchange; cases hchange
    · exact Except.ok.inj (hchange.symm.trans h)
  have hold : accounted destination w =
      w.built.flatMap (fun i => holds destination i.files) ++ (u ++ b) := by
    rw [accounted, flatMap_kept hbuilt, hw.holds_eq]
  cases hsafe with
  | finished done room =>
    obtain ⟨iso, hmake⟩ := makeISO9660_finishes done hn true destination
    rw [hmake] at hreopen
    subst hreopen
    have hclean : Writing destination [] []
        ((sweep (fill c true destination (outcome n) { w with volno := n })).insert
          destination []) :=
      writing_insert hname (.absent rfl fun x hx => notMem_sweep (hname.swept (.inr hx)))
        fun k => notMem_sweep (hname.swept (.inl (.inr ⟨k, rfl⟩)))
    -- the image holds what the directory held
    have himage : holds destination
        (image c true destination (outcome n) { w with volno := n }).files = u ++ b := by
      cases hmv : (outcome n).mvDestination with
      | true =>
        have hroom : uncomplete destination ∉ w.isofs := by simpa [hmv] using room
        obtain ⟨hpart, hgone⟩ :=
          staged_renamed (w := { w with volno := n }) hname hn hmv hw hroom (.inr rfl)
        rw [holds, hpart.cat_eq, (Held.absent rfl hgone).cat_eq, hw.empty_of_notMem hroom]
        simp
      | false =>
        obtain ⟨hpart, htail⟩ := image_unrenamed (w := { w with volno := n }) hname hmv hw
        rw [holds, hpart.cat_eq, htail.cat_eq]
    have hsafe : ∀ i ∈ w.built ++ [image c true destination (outcome n) { w with volno := n }],
        (∃ j ∈ w.shelf ++ [image c true destination (outcome n) { w with volno := n }],
          j.label = i.label) ∨ holds destination i.files = [] := by
      intro i hi
      rcases List.mem_append.mp hi with hi | hi
      · rcases hbuilt i hi with ⟨j, hj, heq⟩ | hnone
        · exact .inl ⟨j, List.mem_append_left _ hj, heq⟩
        · exact .inr hnone
      · exact .inl ⟨i, List.mem_append_right _ hi, rfl⟩
    refine ⟨?_, ⟨[], [], hclean⟩, hsafe⟩
    rw [hold, accounted, flatMap_kept hsafe, hclean.holds_eq]
    simp only [List.flatMap_append, List.flatMap_singleton, himage, List.append_nil]
  | stopped early renamed room =>
    obtain ⟨iso, status, hmake⟩ := makeISO9660_stops early true destination
    rw [hmake] at hreopen
    subst hreopen
    obtain ⟨hpart, hgone⟩ :=
      staged_renamed (w := { w with volno := n }) hname hn renamed hw room (.inl rfl)
    have hnext : Writing destination b []
        ((fill c true destination (outcome n) { w with volno := n }).insert destination []) :=
      writing_insert hname (.stored hpart) fun k => hgone _ (.inr ⟨k, rfl⟩)
    refine ⟨?_, ⟨b, [], hnext⟩, hbuilt⟩
    rw [hold, accounted, flatMap_kept (by exact hbuilt), hnext.holds_eq,
      hw.empty_of_notMem room]
    simp

/-- In every run all of whose cuts are safe, what is on the images that exist and
in `ISOFS_DIR` is the part of the stream consumed so far. -/
theorem accounted_of_reaches (hname : ArchiveName c destination) (maxcdsize : Nat) (capacity : Int)
    (s : Bytes) (w : World) (hfresh : ∀ x, Reserved destination x → x ≠ destination → x ∉ w.isofs)
    (helsewhere : ∀ i ∈ w.built, holds destination i.files = []) {p : Pipe World}
    (hp : Reaches (host c destination outcome) maxcdsize (SafeRound c destination outcome)
      { input := s, eof := false, capacity := capacity * 1024, i := 0, volno := w.volno,
        world := { w with isofs := w.isofs.insert destination [] } } p) :
    accounted destination p.world ++ p.input = s := by
  refine (Reaches.invariant _ _ (Balanced destination s) ?_ ?_ hp).balance
  · have hstart : Writing destination [] [] (w.isofs.insert destination []) :=
      writing_insert hname
        (.absent rfl fun x hx => hfresh x (.inr hx) (ne_of_owns_uncomplete hname hx))
        fun n => hfresh _ (.inl (.inr ⟨n, rfl⟩)) (partName_ne_self _ _)
    refine ⟨?_, ⟨[], [], hstart⟩, fun i hi => .inr (helsewhere i hi)⟩
    have hkept := flatMap_kept (w := { w with isofs := w.isofs.insert destination [] })
      fun i hi => .inr (helsewhere i hi)
    rw [List.flatMap_eq_nil_iff.mpr helsewhere] at hkept
    simp only [accounted, hkept, hstart.holds_eq, List.append_nil, List.nil_append]
  · intro p q hbal hround hstep
    obtain ⟨n, _, hinput, _, ⟨_, _, _, _, hworld⟩ | ⟨hcap, hle, _, _, _, hchange⟩⟩ := step_cases hstep
    · exact hbal.copy hname hinput hworld
    · -- the bytes up to the cut are written first
      obtain ⟨u, b, hw⟩ := hbal.writing
      have hcopied : Balanced destination s { p with
          input := p.input.drop n
          world := (host c destination outcome).fwrite (p.input.take n) p.world } :=
        @Balanced.copy c destination outcome s p _ n hname hbal rfl rfl
      obtain ⟨heq, hwriting, hsafe⟩ := (hround n hcap hle).balanced hname (Nat.succ_pos _)
        (hw.write hname _) hcopied.safe hchange
      refine ⟨?_, hwriting, hsafe⟩
      rw [heq, hinput]
      exact hcopied.balance

/-- A stream of two Kb on a medium of one. -/
def twoKb : Pipe World where
  input := List.replicate 2048 7
  eof := false
  capacity := 1 * 1024
  i := 0
  volno := 0
  world := { emptyWorld with isofs := emptyWorld.isofs.insert usrArchive [] }

theorem accounted_of_reaches_twoKb :
    ∃ q, Reaches (host diskConfig usrArchive fun _ => allSucceed) 1
        (SafeRound diskConfig usrArchive fun _ => allSucceed) twoKb q ∧
      q.volno = 1 ∧ accounted usrArchive q.world ++ q.input = List.replicate 2048 7 := by
  have hvol : (step (host diskConfig usrArchive fun _ => allSucceed) 1 twoKb).toOption.map
      Pipe.volno = some 1 := by decide +kernel
  obtain ⟨q, hstep, hvol⟩ := exists_ok_of_map hvol
  have hsafe : SafeRound diskConfig usrArchive (fun _ => allSucceed) twoKb := by
    intro n _ _
    refine .finished (allSucceed_succeeds.finishes (show diskConfig.CdMode from rfl) _)
      (.inl fun hmem => ?_)
    have hin := mem_modify.mp hmem
    revert hin
    decide
  have hq := Reaches.round (.start) (p := twoKb) rfl hsafe hstep
  exact ⟨q, hq, hvol, accounted_of_reaches archiveName_usr 1 1 (List.replicate 2048 7) emptyWorld
    (fun _ _ _ => AList.notMem_empty _) (by simp [emptyWorld]) hq⟩

/-- The first part stays in `ISOFS_DIR` as `DESTINATION_`, and the second cut
renames the second part over it. -/
theorem first_part_overwritten :
    ¬ ∀ q, Reaches (host diskConfig usrArchive unbootable) 1 (fun _ => True) twoKb q →
      accounted usrArchive q.world ++ q.input = List.replicate 2048 7 := by
  intro hclaim
  have hlost : ((step (host diskConfig usrArchive unbootable) 1 twoKb).bind
      (step (host diskConfig usrArchive unbootable) 1)).toOption.map
      (fun q => (accounted usrArchive q.world ++ q.input).length) = some 1024 := by decide +kernel
  have hgoing : (step (host diskConfig usrArchive unbootable) 1 twoKb).toOption.map Pipe.eof =
      some false := by decide +kernel
  obtain ⟨p, hfirst, hgoing⟩ := exists_ok_of_map hgoing
  rw [hfirst, Except.bind] at hlost
  obtain ⟨q, hsecond, hlen⟩ := exists_ok_of_map hlost
  have hq := hclaim q (.round (.round .start rfl trivial hfirst) hgoing trivial hsecond)
  rw [hq, List.length_replicate] at hlen
  omega

end Pieces
