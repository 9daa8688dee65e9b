import MkCDrec.GetBackup

/-!
# Restores one after the other

`/tmp/restore` and `/tmp/more_to_come` outlive the restore that wrote them.
`Restore_Splitted_Backup` writes both before it calls `restore_split_file`; the
branches for an archive in one piece call it with whatever the restores before
have left. The scripts are followed here together with what they show: the bytes
on the pipe and the volumes they ask for.
-/

namespace Histories

open Directory ShellText SplitFile MakeIso Backup RestoreSplit GetBackup

/-- `cat` to stdout, or a `Please insert`. `ask.for.cd.sh` also names the part it
wants. -/
inductive Event
  | bytes (b : Bytes)
  | request (label : Text) (nextPart : Option Text)
  deriving DecidableEq

/-- What a script has shown and what came of it. -/
structure Shown (α : Type) where
  events : List Event
  result : Except Failure α

/-- One command after the other; a script that ends takes the later ones with it. -/
def Shown.andThen {α β : Type} (first : Shown α) (next : α → Shown β) : Shown β :=
  match first.result with
  | .error e => { events := first.events, result := .error e }
  | .ok a => { events := first.events ++ (next a).events, result := (next a).result }

section Shown

variable {α β : Type}

@[simp] theorem Shown.andThen_ok (events : List Event) (a : α) (next : α → Shown β) :
    Shown.andThen { events, result := .ok a } next =
      { events := events ++ (next a).events, result := (next a).result } := rfl

@[simp] theorem Shown.andThen_error (events : List Event) (e : Failure) (next : α → Shown β) :
    Shown.andThen { events, result := .error e } next = { events, result := .error e } := rfl

/-- What was shown stays shown. -/
theorem Shown.prefix_andThen (first : Shown α) (next : α → Shown β) :
    first.events <+: (first.andThen next).events := by
  obtain ⟨events, result⟩ := first
  cases result with
  | error e => exact List.prefix_rfl
  | ok a => exact List.prefix_append _ _

end Shown

/-- The loop of `ask.for.cd.sh`: it asks until the volume with the label is in. The
volumes are those that the user puts in one after the other; when there is no
further one the script waits. -/
def prompt (label nextPart : Text) : List Files → Shown (Files × List Files)
  | [] => { events := [.request label nextPart], result := .error .wrongVolume }
  | d :: later =>
    if label ∈ d then { events := [.request label nextPart], result := .ok (d, later) }
    else
      Shown.andThen { events := [.request label nextPart], result := .ok () }
        fun _ => prompt label nextPart later

/-- `ask.for.cd.sh`. `[ -f ]` of nothing is true. -/
def askForCd (s : Session) (insertions : List Files) : Shown (Session × List Files) :=
  if markers s.drive = [] then { events := [], result := .ok (s, insertions) }
  else match nextVolno s.drive (markerField 2 s.drive) with
    | none => { events := [], result := .ok (s, insertions) }
    | some volno =>
      (prompt (markerField 1 s.drive ++ '_' :: numeral volno) s.restore insertions).andThen
        fun (d, later) =>
          if s.restore = [] ∨ s.restore ∈ d then
            { events := []
              result := .ok ({ drive := d, restore := s.restore, moreToCome := some 1 }, later) }
          else
            { events := []
              result := .ok ({ drive := d, restore := chop '_' s.restore, moreToCome := some 0 },
                later) }

/-- The name without its underscore when there is no such file. -/
def named (file : Text) (d : Files) : Text := if file ∈ d then file else chop '_' file

/-- `restore_split_file`. -/
def restoreSplitFile : Nat → Text → Session → List Files → Shown (Session × List Files)
  | 0, _, _, _ => { events := [], result := .error .outOfFuel }
  | fuel + 1, file, s, insertions =>
    let file := named file s.drive
    if file ∈ s.drive then
      Shown.andThen { events := [.bytes (cat s.drive file)], result := .ok () } fun _ =>
        let mtc := if lastCd ∈ s.drive then 0 else s.moreToCome.getD 0
        if 0 < mtc then
          (askForCd s insertions).andThen fun (s', later) => restoreSplitFile fuel file s' later
        else { events := [], result := .ok (s, insertions) }
    else { events := [], result := .error .notFound }

/-- `Restore_Splitted_Backup`: it sets both flags. -/
def restoreSplittedBackup (fuel : Nat) (restore : Text) (drive : Files) (insertions : List Files) :
    Shown (Session × List Files) :=
  restoreSplitFile fuel (uncomplete restore)
    { drive, restore := uncomplete restore, moreToCome := some 1 } insertions

/-- The loop of the multi-volume branch. -/
def search (fuel : Nat) (destination cdrecDate : Text) :
    List Files → Text → Session → Shown (Session × List Files)
  | insertions, volno, s =>
    if destination ∈ s.drive then restoreSplitFile fuel destination s insertions
    else if uncomplete destination ∈ s.drive then
      restoreSplittedBackup fuel destination s.drive insertions
    else match nextVolno s.drive volno with
      | none => { events := [], result := .error .wrongVolume }
      | some n => match insertions with
        | [] =>
          { events := [.request (cdrecDate ++ '_' :: numeral n) none], result := .error .wrongVolume }
        | d :: later =>
          Shown.andThen
            { events := [.request (cdrecDate ++ '_' :: numeral n) none], result := .ok () }
            fun _ => search fuel destination cdrecDate later (numeral n) { s with drive := d }

/-- `Get_backup_back` for backups on CD. -/
def getBackupBack (fuel : Nat) (destination : Text) (s : Session) (insertions : List Files) :
    Shown (Session × List Files) :=
  if markers s.drive = [] then { events := [], result := .error .wrongVolume }
  else if (markers s.drive).any (fun m => m.contains '_') then
    search fuel destination (markerField 1 s.drive) insertions (markerField 2 s.drive) s
  else restoreSplitFile fuel destination s insertions

/-- The call shows the same whatever the restores before it have left, after any
number of rounds. -/
def Unaffected (destination : Text) (drive : Files) (insertions : List Files) : Prop :=
  ∀ (restore restore' : Text) (moreToCome moreToCome' : Option Nat) (fuel : Nat),
    (getBackupBack fuel destination { drive, restore, moreToCome } insertions).events =
      (getBackupBack fuel destination { drive, restore := restore', moreToCome := moreToCome' }
        insertions).events

/-- The volume holds the archive, or the beginning of one that goes on. -/
def Holds (destination : Text) (d : Files) : Prop :=
  destination ∈ d ∨ uncomplete destination ∈ d

instance (destination : Text) (d : Files) : Decidable (Holds destination d) :=
  inferInstanceAs (Decidable (_ ∨ _))

/-- The volumes that the loop can come to: the one in the drive, and the others when
its number can be counted up. -/
def offered (volno : Text) (drive : Files) (insertions : List Files) : List Files :=
  if nextVolno drive volno = none then [drive] else drive :: insertions

/-- An archive that is found in one piece lies on the last volume of its set. -/
def OnLastVolume (destination : Text) (drive : Files) (insertions : List Files) : Prop :=
  if markers drive = [] then True
  else if (markers drive).any (fun m => m.contains '_') then
    ∀ d, (offered (markerField 2 drive) drive insertions).find? (Holds destination ·) = some d →
      destination ∈ d → lastCd ∈ d
  else named destination drive ∈ drive → lastCd ∈ drive

section RestoreSplitFile

variable {fuel : Nat} {file : Text} {s : Session} {insertions : List Files}

theorem restoreSplitFile_of_notMem (hfile : named file s.drive ∉ s.drive) :
    (restoreSplitFile fuel file s insertions).events = [] := by
  cases fuel with
  | zero => rfl
  | succ fuel => simp only [restoreSplitFile, if_neg hfile]

/-- A round begins with the file. -/
theorem exists_restoreSplitFile (fuel : Nat) (insertions : List Files)
    (hfile : named file s.drive ∈ s.drive) :
    ∃ events, (restoreSplitFile (fuel + 1) file s insertions).events =
      .bytes (cat s.drive (named file s.drive)) :: events := by
  simp only [restoreSplitFile, if_pos hfile, Shown.andThen_ok, List.singleton_append]
  exact ⟨_, rfl⟩

/-- The loop is left after its first round when no further part is announced. -/
theorem restoreSplitFile_of_done (fuel : Nat) (insertions : List Files)
    (hfile : named file s.drive ∈ s.drive)
    (hdone : lastCd ∈ s.drive ∨ s.moreToCome.getD 0 = 0) :
    (restoreSplitFile (fuel + 1) file s insertions).events =
      [.bytes (cat s.drive (named file s.drive))] := by
  have hnone : (if lastCd ∈ s.drive then 0 else s.moreToCome.getD 0) = 0 := by
    rcases hdone with hlast | hzero
    · rw [if_pos hlast]
    · rw [hzero, ite_self]
  simp only [restoreSplitFile, if_pos hfile, hnone, Nat.lt_irrefl, if_false, Shown.andThen_ok,
    List.append_nil]

theorem exists_prompt (label nextPart : Text) (insertions : List Files) :
    ∃ events, (prompt label nextPart insertions).events = .request label nextPart :: events := by
  cases insertions with
  | nil => exact ⟨[], rfl⟩
  | cons d later =>
    simp only [prompt]
    split
    · exact ⟨[], rfl⟩
    · exact ⟨_, rfl⟩

/-- `ask.for.cd.sh` leaves before it has done anything, or it asks. -/
theorem askForCd_cases (s : Session) (insertions : List Files) :
    askForCd s insertions = { events := [], result := .ok (s, insertions) } ∨
      ∃ label events, (askForCd s insertions).events = .request label s.restore :: events := by
  simp only [askForCd]
  split
  · exact .inl rfl
  split
  · exact .inl rfl
  obtain ⟨asked, hasked⟩ := exists_prompt _ s.restore insertions
  obtain ⟨events, hevents⟩ := Shown.prefix_andThen _ _
  exact .inr ⟨_, _, by rw [← hevents, hasked, List.cons_append]⟩

/-- An announcement left over makes the loop go on: it asks for a volume, or
copies the archive once more. -/
theorem restoreSplitFile_of_stale (fuel : Nat) (insertions : List Files)
    (hfile : named file s.drive ∈ s.drive)
    (hlast : lastCd ∉ s.drive) (hmore : 0 < s.moreToCome.getD 0) :
    ∃ e events, (restoreSplitFile (fuel + 2) file s insertions).events =
      .bytes (cat s.drive (named file s.drive)) :: e :: events := by
  rw [restoreSplitFile]
  simp only [if_pos hfile, if_neg hlast, if_pos hmore, Shown.andThen_ok, List.singleton_append]
  rcases askForCd_cases s insertions with hleft | ⟨label, events, hasked⟩
  · have hstable : named (named file s.drive) s.drive ∈ s.drive := by
      rwa [named, if_pos hfile]
    obtain ⟨events, hagain⟩ := exists_restoreSplitFile fuel insertions hstable
    exact ⟨_, events, by rw [hleft, Shown.andThen_ok, hagain, List.nil_append]⟩
  · obtain ⟨later, hlater⟩ := Shown.prefix_andThen (askForCd s insertions) fun (s', later) =>
      restoreSplitFile (fuel + 1) (named file s.drive) s' later
    exact ⟨_, _, by rw [← hlater, hasked, List.cons_append]⟩

end RestoreSplitFile

section Search

variable {destination cdrecDate : Text}

theorem nextVolno_numeral_ne_none (d : Files) (n : Nat) : nextVolno d (numeral n) ≠ none := by
  by_cases hlast : lastCd ∈ d
  · rw [nextVolno, if_pos hlast]
    exact Option.some_ne_none _
  · rw [nextVolno_numeral hlast]
    exact Option.some_ne_none _

theorem find_offered_of_holds {drive : Files} (h : Holds destination drive) (volno : Text)
    (insertions : List Files) :
    (offered volno drive insertions).find? (Holds destination ·) = some drive := by
  unfold offered
  split <;> exact List.find?_cons_of_pos (by simpa using h)

theorem search_of_holds {s : Session} (h : Holds destination s.drive) (fuel : Nat) (volno : Text)
    (insertions : List Files) :
    search fuel destination cdrecDate insertions volno s =
      if destination ∈ s.drive then restoreSplitFile fuel destination s insertions
      else restoreSplittedBackup fuel destination s.drive insertions := by
  rw [search]
  split
  · rfl
  · rw [if_pos (h.resolve_left ‹_›)]

theorem search_of_not_holds {s : Session} (h : ¬ Holds destination s.drive) (fuel : Nat)
    (volno : Text) (insertions : List Files) :
    search fuel destination cdrecDate insertions volno s =
      match nextVolno s.drive volno with
      | none => { events := [], result := .error .wrongVolume }
      | some n => match insertions with
        | [] =>
          { events := [.request (cdrecDate ++ '_' :: numeral n) none], result := .error .wrongVolume }
        | d :: later =>
          Shown.andThen
            { events := [.request (cdrecDate ++ '_' :: numeral n) none], result := .ok () }
            fun _ => search fuel destination cdrecDate later (numeral n) { s with drive := d } := by
  obtain ⟨hnot, hnotPart⟩ := not_or.mp h
  rw [search, if_neg hnot, if_neg hnotPart]

/-- What is shown before the archive is found depends on the volumes only. -/
theorem search_events (destination cdrecDate : Text) (insertions : List Files) :
    ∀ (volno : Text) (drive : Files), ∃ requests later,
      ∀ (fuel : Nat) (restore : Text) (moreToCome : Option Nat),
        (search fuel destination cdrecDate insertions volno
            { drive, restore, moreToCome }).events =
          requests ++ match (offered volno drive insertions).find? (Holds destination ·) with
            | none => []
            | some d =>
              if destination ∈ d then
                (restoreSplitFile fuel destination { drive := d, restore, moreToCome } later).events
              else (restoreSplittedBackup fuel destination d later).events := by
  induction insertions with
  | nil =>
    intro volno drive
    by_cases hholds : Holds destination drive
    · refine ⟨[], [], fun fuel restore moreToCome => ?_⟩
      rw [search_of_holds hholds, find_offered_of_holds hholds]
      exact apply_ite Shown.events _ _ _
    · have hnone : (offered volno drive []).find? (Holds destination ·) = none := by
        simp [offered, hholds]
      rw [hnone]
      cases hnext : nextVolno drive volno with
      | none =>
        exact ⟨[], [], fun fuel restore moreToCome => by rw [search_of_not_holds hholds, hnext]; rfl⟩
      | some n =>
        exact ⟨[.request (cdrecDate ++ '_' :: numeral n) none], [], fun fuel restore moreToCome => by
          rw [search_of_not_holds hholds, hnext]; rfl⟩
  | cons d later ih =>
    intro volno drive
    by_cases hholds : Holds destination drive
    · refine ⟨[], d :: later, fun fuel restore moreToCome => ?_⟩
      rw [search_of_holds hholds, find_offered_of_holds hholds]
      exact apply_ite Shown.events _ _ _
    · cases hnext : nextVolno drive volno with
      | none =>
        have hnone : (offered volno drive (d :: later)).find? (Holds destination ·) = none := by
          simp [offered, hnext, hholds]
        rw [hnone]
        exact ⟨[], [], fun fuel restore moreToCome => by rw [search_of_not_holds hholds, hnext]; rfl⟩
      | some n =>
        obtain ⟨requests, rest, hlater⟩ := ih (numeral n) d
        have hfind : (offered volno drive (d :: later)).find? (Holds destination ·) =
            (offered (numeral n) d later).find? (Holds destination ·) := by
          rw [offered, offered, if_neg (by simp [hnext]), if_neg (nextVolno_numeral_ne_none d n),
            List.find?_cons_of_neg (by simpa using hholds)]
        refine ⟨.request (cdrecDate ++ '_' :: numeral n) none :: requests, rest,
          fun fuel restore moreToCome => ?_⟩
        rw [search_of_not_holds hholds, hnext, hfind, List.cons_append, ← hlater fuel]
        rfl

end Search

section Unaffected

variable {destination : Text} {drive : Files} {insertions : List Files}

/-- The branches that call `restore_split_file` without setting the flags. -/
theorem restoreSplitFile_unaffected_iff (file : Text) (drive : Files) (insertions : List Files) :
    (∀ (restore restore' : Text) (moreToCome moreToCome' : Option Nat) (fuel : Nat),
      (restoreSplitFile fuel file { drive, restore, moreToCome } insertions).events =
        (restoreSplitFile fuel file { drive, restore := restore', moreToCome := moreToCome' }
          insertions).events) ↔
      (named file drive ∈ drive → lastCd ∈ drive) := by
  constructor
  · intro hsame hfile
    by_contra hlast
    -- nothing left, and the announcement of a further part
    have hfirst := restoreSplitFile_of_done 1 insertions
      (s := { drive, restore := [], moreToCome := none }) hfile (.inr rfl)
    obtain ⟨e, events, hlater⟩ := restoreSplitFile_of_stale 0 insertions
      (s := { drive, restore := [], moreToCome := some 1 }) hfile hlast Nat.one_pos
    have hboth := hsame [] [] none (some 1) 2
    rw [hfirst, hlater] at hboth
    simp at hboth
  · intro hlast restore restore' moreToCome moreToCome' fuel
    by_cases hfile : named file drive ∈ drive
    · cases fuel with
      | zero => rfl
      | succ fuel =>
        rw [restoreSplitFile_of_done fuel insertions hfile (.inl (hlast hfile)),
          restoreSplitFile_of_done fuel insertions hfile (.inl (hlast hfile))]
    · rw [restoreSplitFile_of_notMem hfile, restoreSplitFile_of_notMem hfile]

/-- What a restore shows is independent of the restores before it if and only if an
archive that is found in one piece lies on the last volume of its set. -/
theorem unaffected_iff (destination : Text) (drive : Files) (insertions : List Files) :
    Unaffected destination drive insertions ↔ OnLastVolume destination drive insertions := by
  by_cases hmarked : markers drive = []
  · simp [Unaffected, OnLastVolume, getBackupBack, hmarked]
  by_cases hmulti : ((markers drive).any fun m => m.contains '_') = true
  · obtain ⟨requests, later, hevents⟩ := search_events destination (markerField 1 drive) insertions
      (markerField 2 drive) drive
    simp only [Unaffected, OnLastVolume, getBackupBack, if_neg hmarked, if_pos hmulti, hevents,
      List.append_cancel_left_eq]
    cases hfound : (offered (markerField 2 drive) drive insertions).find? (Holds destination ·) with
    | none => simp
    | some d =>
      by_cases hwhole : destination ∈ d
      · have hiff := restoreSplitFile_unaffected_iff destination d later
        rw [named, if_pos hwhole] at hiff
        simpa [hwhole] using hiff
      · simp [hwhole]
  · simp only [Unaffected, OnLastVolume, getBackupBack, if_neg hmarked, if_neg hmulti]
    exact restoreSplitFile_unaffected_iff destination drive insertions

/-- The first of several volumes, with an archive in one piece. -/
def firstVolume : Files :=
  ((∅ : Files).insert "CDrec-01.02.2009_1".toList []).insert "hda1._usr.tar.gz".toList [1]

/-- After a restore of a split archive that was broken off at the prompt, the whole
archive is followed by a request for another volume. -/
theorem stale_request :
    ¬ Unaffected "hda1._usr.tar.gz".toList firstVolume [] := by
  intro h
  exact absurd (h [] "hda2._home.tar.gz_".toList none (some 1) 2) (by decide +kernel)

end Unaffected

/-- The bytes on the pipe. -/
def handedOver : List Event → Bytes
  | [] => []
  | .bytes b :: later => b ++ handedOver later
  | .request _ _ :: later => handedOver later

/-- A name that is never cut down to nothing. -/
def Rooted (name : Text) : Prop := ∃ a rest, name = a :: rest ∧ a ≠ '_'

section Model

variable {insert : Text → Option Files} {s s' : Session}

@[simp] theorem handedOver_append (events events' : List Event) :
    handedOver (events ++ events') = handedOver events ++ handedOver events' := by
  induction events with
  | nil => rfl
  | cons e later ih => cases e <;> simp [handedOver, ih]

theorem Rooted.ne_nil {name : Text} (h : Rooted name) : name ≠ [] := by
  obtain ⟨a, rest, rfl, _⟩ := h
  exact List.cons_ne_nil a rest

theorem Rooted.chop {name : Text} (h : Rooted name) : Rooted (chop '_' name) := by
  obtain ⟨a, rest, rfl, ha⟩ := h
  cases rest with
  | nil => exact ⟨a, [], by simp [ShellText.chop, ha], ha⟩
  | cons b rest =>
    by_cases hlast : (a :: b :: rest).getLast? = some '_'
    · exact ⟨a, (b :: rest).dropLast, by rw [ShellText.chop, if_pos hlast]; rfl, ha⟩
    · exact ⟨a, b :: rest, by rw [ShellText.chop, if_neg hlast], ha⟩

theorem askForCd_of_ok (hroot : Rooted s.restore) (h : RestoreSplit.askForCd insert s = .ok s') :
    Rooted s'.restore ∧ ∃ insertions, ∀ later, ∃ events,
      askForCd s (insertions ++ later) = { events, result := .ok (s', later) } ∧
        handedOver events = [] := by
  simp only [RestoreSplit.askForCd] at h
  split at h
  · obtain rfl := Except.ok.inj h
    exact ⟨hroot, [], fun later => ⟨[], by rw [askForCd, if_pos ‹_›]; rfl, rfl⟩⟩
  rename_i hmarked
  cases hnext : nextVolno s.drive (markerField 2 s.drive) with
  | none =>
    simp only [hnext] at h
    obtain rfl := Except.ok.inj h
    exact ⟨hroot, [], fun later => ⟨[], by rw [askForCd, if_neg hmarked, hnext]; rfl, rfl⟩⟩
  | some volno =>
    simp only [hnext] at h
    cases hput : insert (markerField 1 s.drive ++ '_' :: numeral volno) with
    | none => simp [hput] at h
    | some d =>
      simp only [hput] at h
      split at h
      · rename_i hlabel
        split at h
        · rename_i hfile
          obtain rfl := Except.ok.inj h
          refine ⟨hroot, [d], fun later =>
            ⟨[.request (markerField 1 s.drive ++ '_' :: numeral volno) s.restore], ?_, rfl⟩⟩
          simp only [askForCd, if_neg hmarked, hnext, List.singleton_append, prompt, if_pos hlabel,
            Shown.andThen_ok, if_pos (Or.inr hfile), List.append_nil]
        · rename_i hfile
          obtain rfl := Except.ok.inj h
          refine ⟨hroot.chop, [d], fun later =>
            ⟨[.request (markerField 1 s.drive ++ '_' :: numeral volno) s.restore], ?_, rfl⟩⟩
          simp only [askForCd, if_neg hmarked, hnext, List.singleton_append, prompt, if_pos hlabel,
            Shown.andThen_ok, if_neg (not_or.mpr ⟨hroot.ne_nil, hfile⟩), List.append_nil]
      · cases h

theorem model_round (insert : Text → Option Files) (fuel : Nat) (file : Text) (s : Session) :
    RestoreSplit.restoreSplitFile insert (fuel + 1) file s =
      if named file s.drive ∈ s.drive then
        if 0 < (if lastCd ∈ s.drive then 0 else s.moreToCome.getD 0) then
          match RestoreSplit.askForCd insert s with
          | .error e => .error e
          | .ok s' => match RestoreSplit.restoreSplitFile insert fuel (named file s.drive) s' with
            | .error e => .error e
            | .ok (out, s'') => .ok (cat s.drive (named file s.drive) ++ out, s'')
        else .ok (cat s.drive (named file s.drive), s)
      else .error .notFound := rfl

/-- Every run of the scripts over the volumes that a label brings into the drive is
one over volumes put in one after the other. -/
theorem restoreSplitFile_of_ok (fuel : Nat) :
    ∀ (file : Text) (s : Session) (out : Bytes) (s' : Session), Rooted s.restore →
      RestoreSplit.restoreSplitFile insert fuel file s = .ok (out, s') →
      ∃ insertions, ∀ later, ∃ events,
        restoreSplitFile fuel file s (insertions ++ later) = { events, result := .ok (s', later) } ∧
          handedOver events = out := by
  induction fuel with
  | zero => intro file s out s' _ h; cases h
  | succ fuel ih =>
    intro file s out s' hroot h
    rw [model_round] at h
    by_cases hfile : named file s.drive ∈ s.drive
    · rw [if_pos hfile] at h
      by_cases hmore : 0 < (if lastCd ∈ s.drive then 0 else s.moreToCome.getD 0)
      · rw [if_pos hmore] at h
        cases hask : RestoreSplit.askForCd insert s with
        | error e => simp [hask] at h
        | ok asked =>
          cases hrest : RestoreSplit.restoreSplitFile insert fuel (named file s.drive) asked with
          | error e => simp [hask, hrest] at h
          | ok r =>
            simp only [hask, hrest] at h
            obtain ⟨rfl, rfl⟩ := Prod.mk.inj (Except.ok.inj h)
            obtain ⟨hroot', puts, hputs⟩ := askForCd_of_ok hroot hask
            obtain ⟨insertions, hlater⟩ := ih _ asked r.1 r.2 hroot' hrest
            refine ⟨puts ++ insertions, fun later => ?_⟩
            obtain ⟨asking, hasked, hsilent⟩ := hputs (insertions ++ later)
            obtain ⟨events, hevents, hout⟩ := hlater later
            refine ⟨.bytes (cat s.drive (named file s.drive)) :: (asking ++ events), ?_, ?_⟩
            · simp only [restoreSplitFile, if_pos hfile, if_pos hmore, List.append_assoc, hasked,
                Shown.andThen_ok, hevents, List.singleton_append]
            · simp [handedOver, hsilent, hout]
      · rw [if_neg hmore] at h
        obtain ⟨rfl, rfl⟩ := Prod.mk.inj (Except.ok.inj h)
        refine ⟨[], fun later => ⟨[.bytes (cat s.drive (named file s.drive))], ?_, ?_⟩⟩
        · simp only [restoreSplitFile, if_pos hfile, if_neg hmore, Shown.andThen_ok, List.nil_append,
            List.append_nil]
        · simp [handedOver]
    · rw [if_neg hfile] at h
      cases h

end Model

end Histories
