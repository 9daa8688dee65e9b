import MkCDrec.StartRestore

/-!
# Failures during a restore

The restore scripts learn of a failure from the status of `mount` and from `err`, the
status of the last command of the pipeline, and compare both with one. Where they
give up inside the loop over the lines they leave a subshell only, and the script goes
on with what comes after the loop.
-/

namespace Failures

open ShellText Table ArchiveNames DiskInfo StartRestore

inductive Medium
  | tape
  | cdrom
  | disk
deriving DecidableEq

inductive Command
  | dd
  | restoreSplitFile
  | encryption
  | decompressor
  | tar
deriving DecidableEq

/-- The stages that `Get_backup_back`, `Restore_dump` and `Restore_Splitted_Backup` put
together. -/
def pipeline : Medium → Kind → List Command
  | .tape, .tar => [.dd, .encryption, .decompressor, .tar]
  | .tape, .dd => [.dd, .encryption, .decompressor]
  | .cdrom, .tar => [.restoreSplitFile, .encryption, .decompressor, .tar]
  | .disk, .tar => [.encryption, .decompressor, .tar]
  | .cdrom, .dd | .disk, .dd => [.restoreSplitFile, .encryption, .decompressor, .dd]

/-- `err`: after a dump from tape it is not set. -/
def err (medium : Medium) (kind : Kind) (status : Command → Nat) : Nat :=
  match medium, kind with
  | _, .tar => status .tar
  | .tape, .dd => 0
  | .cdrom, .dd | .disk, .dd => status .dd

/-- What the commands and the user answer while one file system is restored. -/
structure Outcome where
  mount : Nat
  status : Command → Nat
  wanted : Bool
  confirm : Bool

/-- The restore of one file system; `known` tells that `SelectExtention` knows its
type. -/
structure Attempt where
  mount : Nat
  known : Bool
  wanted : Bool
  confirm : Bool
  stages : List Nat
  err : Nat
  err_stage : err = 0 ∨ err ∈ stages

def attempt (medium : Medium) (fsType : Text) (o : Outcome) : Attempt :=
  match selectExtention fsType with
  | none => ⟨o.mount, false, o.wanted, o.confirm, [], 0, Or.inl rfl⟩
  | some kind =>
    { mount := o.mount
      known := true
      wanted := o.wanted
      confirm := o.confirm
      stages := (pipeline medium kind).map o.status
      err := err medium kind o.status
      err_stage := by cases medium <;> cases kind <;> simp [err, pipeline] }

/-- A pipeline that was run, with the status of the `mount` before it. -/
structure Extraction where
  mount : Nat
  stages : List Nat
deriving DecidableEq

def Extraction.failed (x : Extraction) : Bool := x.stages.any (· ≠ 0)

inductive Event
  | mount (status : Nat)
  | extract (x : Extraction)
  | confirmed
  | finished
  | bootloader
  | message
deriving DecidableEq

/-- The loop over the lines of `start-restore.sh`, which asks whether to continue after
an error, and of `clone-dsk.sh`, which asks beforehand whether to restore. -/
def loop (asks : Bool) : List Attempt → List Event
  | [] => []
  | a :: as =>
    .mount a.mount ::
    if a.mount = 1 then []
    else if a.wanted = false then loop asks as
    else if a.known = false then []
    else .extract ⟨a.mount, a.stages⟩ ::
      if a.err = 1 then
        if asks && a.confirm then .confirmed :: .finished :: loop asks as else []
      else .finished :: loop asks as

/-- The boot loader is set up, and the scripts announce their success unless that ends
them. -/
def closing (booted : Bool) : List Event :=
  .bootloader :: if booted then [.message] else []

/-- The attempts for a `mkfs.` file, if nothing ends them. -/
def startAttempts (medium : Medium) (table : List Line) (o : Text → Nat → Outcome) (file : Text) :
    List Attempt :=
  (group table file).map fun p => attempt medium p.1.fsType { o file p.2 with wanted := true }

/-- Steps 7 to 9 of `start-restore.sh`. -/
def startRestore (medium : Medium) (r : Recovery) (o : Text → Nat → Outcome) (booted : Bool) :
    List Event :=
  ((ls r.mkfsFiles).flatMap fun file => loop true (startAttempts medium r.table o file)) ++
    closing booted

/-- `grep ${source_dev} To_Restore && grep mapper To_Restore`. -/
def cloneLines (table : List Line) (source : Text) : List Line :=
  match table.filter (grep source) with
  | [] => []
  | lines => lines ++ table.filter (grep "mapper".toList)

/-- The attempts of `clone-dsk.sh`; a meta device that is not found in `md/df` ends the
loop. -/
def cloneAttempts (medium : Medium) (table : List Line) (source : Text) (mapped : Line → Bool)
    (o : Nat → Outcome) : List Attempt :=
  (((cloneLines table source).takeWhile mapped).zipIdx).map fun p =>
    attempt medium p.1.fsType (o p.2)

/-- Steps 8 to 10 of `clone-dsk.sh`. -/
def cloneDsk (medium : Medium) (table : List Line) (source : Text) (mapped : Line → Bool)
    (o : Nat → Outcome) (booted : Bool) : List Event :=
  loop false (cloneAttempts medium table source mapped o) ++ closing booted

/-- What `restore-fs.sh` attempts: a dump is not mounted, and a file system that was
archived by `tar` has the type that the user has picked. -/
def fsAttempt (medium : Medium) (fsType pick : Text) (o : Outcome) : Attempt :=
  if selectExtention fsType = some .tar then attempt medium pick o
  else attempt medium fsType { o with mount := 0 }

/-- What follows the `mount` of `restore-fs.sh`. -/
def fsEvents (a : Attempt) : List Event :=
  if a.mount = 1 then []
  else if a.wanted = false then [.message]
  else if a.known = false then []
  else .extract ⟨a.mount, a.stages⟩ :: if a.err = 1 then [] else [.finished, .message]

/-- Steps 7 to 10 of `restore-fs.sh`. -/
def restoreFs (medium : Medium) (fsType pick : Text) (o : Outcome) : List Event :=
  let a := fsAttempt medium fsType pick o
  if selectExtention fsType = none then []
  else (if selectExtention fsType = some .tar then [.mount a.mount] else []) ++ fsEvents a

/-- Nothing is extracted without a mount, and after a failed pipeline nothing follows
but, in a script that asks, what the user confirms. -/
structure Heeded (asks : Bool) (events : List Event) : Prop where
  mounted : ∀ x, .extract x ∈ events → x.mount = 0
  stopped : ∀ before x after, events = before ++ .extract x :: after → x.failed = true →
    after = [] ∨ asks = true ∧ after.head? = some .confirmed

/-- No failure is passed over in silence: where success is announced, every `mount` has succeeded
and every failed pipeline was confirmed. -/
structure Loud (asks : Bool) (events : List Event) : Prop extends Heeded asks events where
  mounts : .message ∈ events → ∀ status, .mount status ∈ events → status = 0
  announced : .message ∈ events → ∀ before x after, events = before ++ .extract x :: after →
    x.failed = true → asks = true ∧ after.head? = some .confirmed

/-- The loops get past the attempt, or it ends them after an extraction. -/
def Attempt.runs (a : Attempt) : Bool := a.mount != 1 && (a.known || !a.wanted)

/-- The statuses that the scripts can deal with. -/
def Attempt.Sound (asks : Bool) (a : Attempt) : Prop :=
  a.wanted = true → a.mount = 0 ∧
    ((∀ status ∈ a.stages, status = 0) ∨ asks = true ∧ a.err = 1 ∧ a.confirm = true)

/-- The attempts up to the one that ends a loop. -/
def reached : List Attempt → List Attempt
  | [] => []
  | a :: as => a :: if a.runs then reached as else []

/-- Attempts that the scripts can deal with: sound ones, and if success will be announced, none
whose `mount` fails. -/
structure Manageable (asks booted : Bool) (as : List Attempt) : Prop where
  sound : ∀ a ∈ as.takeWhile Attempt.runs, a.Sound asks
  mounted : booted = true → ∀ a ∈ reached as, a.mount = 0

/-- The same for a script that stops for good if `err` is one. -/
def Attempt.SoundAlone (a : Attempt) : Prop :=
  a.mount = 0 ∧ (a.wanted = true → (∀ status ∈ a.stages, status = 0) ∨ a.err = 1)

section Loops

variable {asks : Bool} {l tail : List Event} {e : Event} {x : Extraction} {as : List Attempt}

theorem Extraction.failed_eq_false : x.failed = false ↔ ∀ status ∈ x.stages, status = 0 := by
  simp [Extraction.failed]

theorem heeded_nil : Heeded asks [] := by
  constructor
  · intro x h
    cases h
  · intro before x after h
    cases before <;> cases h

theorem heeded_cons (he : ∀ x, e ≠ .extract x) : Heeded asks (e :: l) ↔ Heeded asks l := by
  constructor
  · intro h
    constructor
    · intro x hx
      exact h.mounted x (List.mem_cons_of_mem _ hx)
    · intro before x after hl
      exact h.stopped (e :: before) x after (by rw [hl, List.cons_append])
  · intro h
    constructor
    · intro x hx
      rcases List.mem_cons.mp hx with rfl | hx
      · exact absurd rfl (he x)
      · exact h.mounted x hx
    · intro before x after hl
      rcases List.cons_eq_append_iff.mp hl with ⟨_, hl⟩ | ⟨before, _, hl⟩
      · injection hl with hl
        exact absurd hl.symm (he x)
      · exact h.stopped before x after hl

theorem Heeded.of_append (before : List Event) (h : Heeded asks (before ++ l)) :
    Heeded asks l := by
  constructor
  · intro x hx
    exact h.mounted x (List.mem_append_right _ hx)
  · intro start x after hl
    exact h.stopped (before ++ start) x after (by rw [hl, List.append_assoc])

theorem heeded_extract : Heeded asks (.extract x :: l) ↔
    x.mount = 0 ∧ (x.failed = true → l = [] ∨ asks = true ∧ l.head? = some .confirmed) ∧
      Heeded asks l := by
  constructor
  · intro h
    refine ⟨h.mounted x List.mem_cons_self, h.stopped [] x l rfl, ?_⟩
    constructor
    · intro y hy
      exact h.mounted y (List.mem_cons_of_mem _ hy)
    · intro before y after hl
      exact h.stopped (.extract x :: before) y after (by rw [hl, List.cons_append])
  · rintro ⟨hmount, hstop, h⟩
    constructor
    · intro y hy
      rcases List.mem_cons.mp hy with hy | hy
      · injection hy with hy
        rw [hy, hmount]
      · exact h.mounted y hy
    · intro before y after hl hfailed
      rcases List.cons_eq_append_iff.mp hl with ⟨_, heq⟩ | ⟨before, _, hl⟩
      · injection heq with hy hafter
        injection hy with hy
        rw [hafter]
        exact hstop (hy ▸ hfailed)
      · exact h.stopped before y after hl hfailed

/-- A loop does not begin with an answer of the user. -/
theorem head?_loop (asks : Bool) (as : List Attempt) (htail : tail.head? ≠ some .confirmed) :
    (loop asks as ++ tail).head? ≠ some .confirmed := by
  cases as with
  | nil => exact htail
  | cons a as => simp [loop]

/-- What follows an extraction: the loop goes on unless `err` is one and the user does
not want to continue, and then it is not the end of the script. -/
theorem heeded_attempt {a : Attempt} {rest : List Event} (hne : tail ≠ [])
    (htail : tail.head? ≠ some .confirmed) :
    Heeded asks (.extract ⟨a.mount, a.stages⟩ ::
        (if a.err = 1 then if asks && a.confirm then .confirmed :: .finished :: rest else []
          else .finished :: rest) ++ tail) ↔
      (a.mount = 0 ∧
        ((∀ status ∈ a.stages, status = 0) ∨ asks = true ∧ a.err = 1 ∧ a.confirm = true)) ∧
      Heeded asks (rest ++ tail) := by
  have hfinished : Heeded asks (.finished :: (rest ++ tail)) ↔ Heeded asks (rest ++ tail) :=
    heeded_cons fun x h => by cases h
  have hconfirmed : Heeded asks (.confirmed :: .finished :: (rest ++ tail)) ↔
      Heeded asks (rest ++ tail) := (heeded_cons fun x h => by cases h).trans hfinished
  have hfailed : (⟨a.mount, a.stages⟩ : Extraction).failed = false ↔
      ∀ status ∈ a.stages, status = 0 := Extraction.failed_eq_false
  rw [List.cons_append, heeded_extract]
  by_cases herr : a.err = 1
  · have hbad : ¬ ∀ status ∈ a.stages, status = 0 := by
      intro hall
      rcases a.err_stage with h | h
      · omega
      · have hzero := hall _ h
        omega
    have hfail : (⟨a.mount, a.stages⟩ : Extraction).failed = true := by
      rw [← Bool.not_eq_false, hfailed]
      exact hbad
    rw [if_pos herr]
    by_cases hgo : (asks && a.confirm) = true
    · obtain ⟨hasks, hconfirm⟩ := Bool.and_eq_true_iff.mp hgo
      rw [if_pos hgo, List.cons_append, List.cons_append, hconfirmed]
      constructor
      · rintro ⟨hmount, _, hrest⟩
        exact ⟨⟨hmount, Or.inr ⟨hasks, herr, hconfirm⟩⟩, hrest⟩
      · rintro ⟨⟨hmount, _⟩, hrest⟩
        exact ⟨hmount, fun _ => Or.inr ⟨hasks, rfl⟩, hrest⟩
    · rw [if_neg hgo, List.nil_append]
      constructor
      · rintro ⟨_, hstop, _⟩
        rcases hstop hfail with h | ⟨_, h⟩
        · exact absurd h hne
        · exact absurd h htail
      · rintro ⟨⟨_, h | ⟨hasks, _, hconfirm⟩⟩, _⟩
        · exact absurd h hbad
        · exact absurd (Bool.and_eq_true_iff.mpr ⟨hasks, hconfirm⟩) hgo
  · rw [if_neg herr, List.cons_append, hfinished]
    constructor
    · rintro ⟨hmount, hstop, hrest⟩
      refine ⟨⟨hmount, Or.inl ?_⟩, hrest⟩
      rw [← hfailed, ← Bool.not_eq_true]
      intro hfail
      rcases hstop hfail with h | ⟨_, h⟩
      · cases h
      · cases h
    · rintro ⟨⟨hmount, h | ⟨_, h, _⟩⟩, hrest⟩
      · refine ⟨hmount, fun hfail => ?_, hrest⟩
        rw [hfailed.mpr h] at hfail
        cases hfail
      · exact absurd h herr

/-- A loop that something follows heeds all failures if every attempt up to the one
that ends the loop is sound. -/
theorem heeded_loop (hne : tail ≠ []) (htail : tail.head? ≠ some .confirmed)
    (hrest : Heeded asks tail) : Heeded asks (loop asks as ++ tail) ↔
      ∀ a ∈ as.takeWhile Attempt.runs, a.Sound asks := by
  induction as with
  | nil => simpa [loop] using hrest
  | cons a as ih =>
    rw [loop, List.cons_append, heeded_cons (fun x h => by cases h)]
    by_cases hmount : a.mount = 1
    · have hruns : a.runs = false := by simp [Attempt.runs, hmount]
      simp [hmount, hruns, hrest]
    · by_cases hwanted : a.wanted = true
      · by_cases hknown : a.known = true
        · have hruns : a.runs = true := by simp [Attempt.runs, hmount, hknown]
          have hsound : a.Sound asks ↔ a.mount = 0 ∧ ((∀ status ∈ a.stages, status = 0) ∨
              asks = true ∧ a.err = 1 ∧ a.confirm = true) := forall_prop_of_true hwanted
          simp only [hmount, hwanted, hknown, if_false, Bool.true_eq_false]
          rw [heeded_attempt hne htail, ih, List.takeWhile_cons_of_pos hruns,
            List.forall_mem_cons, hsound]
        · have hruns : a.runs = false := by simp [Attempt.runs, hknown, hwanted]
          simp [hmount, hwanted, hknown, hruns, hrest]
      · have hruns : a.runs = true := by simp [Attempt.runs, hmount, hwanted]
        have hsound : a.Sound asks := fun h => absurd h hwanted
        simp only [hmount, hwanted, if_false, if_true]
        rw [ih, List.takeWhile_cons_of_pos hruns, List.forall_mem_cons]
        simp only [hsound, true_and]

/-- Sound attempts do not end the loop, so the mounts are those of the attempts that are
reached. -/
theorem mount_mem_loop (hsound : ∀ a ∈ as.takeWhile Attempt.runs, a.Sound asks) (status : Nat) :
    .mount status ∈ loop asks as ↔ ∃ a ∈ reached as, a.mount = status := by
  induction as with
  | nil => simp [loop, reached]
  | cons a as ih =>
    rw [loop, reached, List.mem_cons, List.exists_mem_cons_iff, Event.mount.injEq,
      eq_comm (a := status)]
    refine or_congr_right ?_
    by_cases hmount : a.mount = 1
    · have hruns : a.runs = false := by simp [Attempt.runs, hmount]
      simp [hmount, hruns]
    · by_cases hwanted : a.wanted = true
      · by_cases hknown : a.known = true
        · have hruns : a.runs = true := by simp [Attempt.runs, hmount, hknown]
          rw [List.takeWhile_cons_of_pos hruns, List.forall_mem_cons] at hsound
          obtain ⟨_, hstatus⟩ := hsound.1 hwanted
          simp only [hmount, hwanted, hknown, hruns, if_false, if_true, Bool.true_eq_false]
          rw [← ih hsound.2]
          by_cases herr : a.err = 1
          · rcases hstatus with hzero | ⟨hasks, _, hconfirm⟩
            · rcases a.err_stage with h | h
              · omega
              · have := hzero _ h
                omega
            · simp [herr, hasks, hconfirm]
          · simp [herr]
        · have hruns : a.runs = false := by simp [Attempt.runs, hknown, hwanted]
          simp [hmount, hwanted, hknown, hruns]
      · have hruns : a.runs = true := by simp [Attempt.runs, hmount, hwanted]
        rw [List.takeWhile_cons_of_pos hruns, List.forall_mem_cons] at hsound
        simp only [hmount, hwanted, hruns, if_false, if_true]
        exact ih hsound.2

theorem message_notMem_loop (asks : Bool) (as : List Attempt) : .message ∉ loop asks as := by
  induction as with
  | nil => simp [loop]
  | cons a as ih =>
    rw [loop]
    split_ifs <;> simp [ih]

theorem head?_closing (booted : Bool) : (closing booted).head? ≠ some .confirmed := by
  simp [closing]

theorem heeded_closing (booted : Bool) : Heeded asks (closing booted) := by
  have hnil : Heeded asks [] := heeded_nil
  cases booted
  · exact (heeded_cons fun x h => by cases h).mpr hnil
  · exact (heeded_cons fun x h => by cases h).mpr
      ((heeded_cons fun x h => by cases h).mpr hnil)

/-- Groups one after the other: a subshell that ends early does not end the script. -/
theorem heeded_flatMap {κ : Type*} (files : List κ) (attempts : κ → List Attempt) (booted : Bool) :
    Heeded asks (files.flatMap (fun f => loop asks (attempts f)) ++ closing booted) ↔
      ∀ f ∈ files, ∀ a ∈ (attempts f).takeWhile Attempt.runs, a.Sound asks := by
  have hhead : ∀ files : List κ,
      (files.flatMap (fun f => loop asks (attempts f)) ++ closing booted).head? ≠
        some .confirmed := by
    intro files
    induction files with
    | nil => exact head?_closing booted
    | cons f files ih =>
      rw [List.flatMap_cons, List.append_assoc]
      exact head?_loop asks _ ih
  have hne : ∀ files : List κ,
      files.flatMap (fun f => loop asks (attempts f)) ++ closing booted ≠ [] := by
    simp [closing]
  have hstep : ∀ f, ∀ files : List κ,
      Heeded asks (loop asks (attempts f) ++
        (files.flatMap (fun f => loop asks (attempts f)) ++ closing booted)) →
      Heeded asks (files.flatMap (fun f => loop asks (attempts f)) ++ closing booted) := by
    intro f files
    exact Heeded.of_append _
  induction files with
  | nil => simp [heeded_closing]
  | cons f files ih =>
    rw [List.flatMap_cons, List.append_assoc, List.forall_mem_cons]
    constructor
    · intro h
      have hrest := hstep f files h
      exact ⟨(heeded_loop (hne files) (hhead files) hrest).mp h, ih.mp hrest⟩
    · rintro ⟨hsound, hrest⟩
      exact (heeded_loop (hne files) (hhead files) (ih.mpr hrest)).mpr hsound

/-- A success that is announced at the end comes after whatever has failed. -/
theorem loud_iff_heeded (h : .message ∈ l → ∀ before x, l ≠ before ++ [.extract x]) :
    Loud asks l ↔ Heeded asks l ∧ (.message ∈ l → ∀ status, .mount status ∈ l → status = 0) := by
  constructor
  · intro hloud
    exact ⟨hloud.toHeeded, hloud.mounts⟩
  · rintro ⟨hheeded, hmounts⟩
    refine ⟨hheeded, hmounts, fun hmessage before x after hl hfailed => ?_⟩
    rcases hheeded.stopped before x after hl hfailed with rfl | hconfirmed
    · exact absurd hl (h hmessage before x)
    · exact hconfirmed

/-- Loops that the closing of a script follows. -/
theorem loud_flatMap {κ : Type*} (files : List κ) (attempts : κ → List Attempt) (booted : Bool) :
    Loud asks (files.flatMap (fun f => loop asks (attempts f)) ++ closing booted) ↔
      ∀ f ∈ files, Manageable asks booted (attempts f) := by
  have hend : ∀ before x, files.flatMap (fun f => loop asks (attempts f)) ++ closing booted ≠
      before ++ [.extract x] := by
    intro before x h
    have hlast := congrArg List.getLast? h
    cases booted <;> simp [closing] at hlast
  have hmessage : .message ∈ files.flatMap (fun f => loop asks (attempts f)) ++ closing booted ↔
      booted = true := by
    have hnone : .message ∉ files.flatMap fun f => loop asks (attempts f) := by
      rw [List.mem_flatMap]
      rintro ⟨f, _, hf⟩
      exact message_notMem_loop asks _ hf
    cases booted <;> simp [closing, hnone]
  have hmount : ∀ status, .mount status ∈
      files.flatMap (fun f => loop asks (attempts f)) ++ closing booted ↔
        ∃ f ∈ files, .mount status ∈ loop asks (attempts f) := by
    intro status
    cases booted <;> simp [closing, List.mem_flatMap]
  rw [loud_iff_heeded fun _ => hend, heeded_flatMap, hmessage]
  simp only [hmount]
  constructor
  · rintro ⟨hsound, hmounts⟩ f hf
    refine ⟨hsound f hf, ?_⟩
    intro hbooted a ha
    exact hmounts hbooted a.mount ⟨f, hf, (mount_mem_loop (hsound f hf) _).mpr ⟨a, ha, rfl⟩⟩
  · intro hall
    refine ⟨fun f hf => (hall f hf).sound, ?_⟩
    rintro hbooted status ⟨f, hf, hstatus⟩
    obtain ⟨a, ha, rfl⟩ := (mount_mem_loop (hall f hf).sound status).mp hstatus
    exact (hall f hf).mounted hbooted a ha

theorem loud_startRestore (medium : Medium) (r : Recovery) (o : Text → Nat → Outcome)
    (booted : Bool) : Loud true (startRestore medium r o booted) ↔
      ∀ file ∈ r.mkfsFiles, Manageable true booted (startAttempts medium r.table o file) := by
  rw [startRestore, loud_flatMap]
  simp only [mem_ls]

theorem loud_cloneDsk (medium : Medium) (table : List Line) (source : Text) (mapped : Line → Bool)
    (o : Nat → Outcome) (booted : Bool) :
    Loud false (cloneDsk medium table source mapped o booted) ↔
      Manageable false booted (cloneAttempts medium table source mapped o) := by
  have hone : Loud false ([()].flatMap (fun _ => loop false
      (cloneAttempts medium table source mapped o)) ++ closing booted) ↔ _ :=
    loud_flatMap [()] (fun _ => cloneAttempts medium table source mapped o) booted
  simpa [cloneDsk] using hone

/-- A single extraction, after which the script ends if `err` is one. -/
theorem heeded_alone {a : Attempt} :
    Heeded false (.extract ⟨a.mount, a.stages⟩ ::
        if a.err = 1 then [] else [.finished, .message]) ↔
      a.mount = 0 ∧ ((∀ status ∈ a.stages, status = 0) ∨ a.err = 1) := by
  have hfailed : (⟨a.mount, a.stages⟩ : Extraction).failed = false ↔
      ∀ status ∈ a.stages, status = 0 := Extraction.failed_eq_false
  by_cases herr : a.err = 1
  · rw [if_pos herr, heeded_extract]
    constructor
    · rintro ⟨hmount, _⟩
      exact ⟨hmount, Or.inr herr⟩
    · rintro ⟨hmount, _⟩
      exact ⟨hmount, fun _ => Or.inl rfl, heeded_nil⟩
  · have hrest : Heeded false [.finished, .message] :=
      (heeded_cons fun x h => by cases h).mpr
        ((heeded_cons fun x h => by cases h).mpr heeded_nil)
    rw [if_neg herr, heeded_extract]
    constructor
    · rintro ⟨hmount, hstop, _⟩
      refine ⟨hmount, Or.inl ?_⟩
      rw [← hfailed, ← Bool.not_eq_true]
      intro hfail
      rcases hstop hfail with h | ⟨h, _⟩
      · cases h
      · cases h
    · rintro ⟨hmount, h | h⟩
      · refine ⟨hmount, fun hfail => ?_, hrest⟩
        rw [hfailed.mpr h] at hfail
        cases hfail
      · exact absurd h herr

theorem loud_fsEvents {a : Attempt} {mounts : List Event}
    (hmounts : mounts = [.mount a.mount] ∨ mounts = [] ∧ a.mount = 0) :
    Loud false (mounts ++ fsEvents a) ↔ (a.runs = true → a.SoundAlone) := by
  have hend : .message ∈ mounts ++ fsEvents a →
      ∀ before x, mounts ++ fsEvents a ≠ before ++ [.extract x] := by
    intro hmessage before x h
    have hlast := congrArg List.getLast? h
    rcases hmounts with rfl | ⟨rfl, _⟩ <;> rw [fsEvents] at hmessage hlast <;>
      split_ifs at hmessage hlast <;> simp at hmessage hlast
  have hheeded : Heeded false (mounts ++ fsEvents a) ↔ Heeded false (fsEvents a) := by
    rcases hmounts with rfl | ⟨rfl, _⟩
    · exact heeded_cons fun x h => by cases h
    · exact Iff.rfl
  have hstatus : (.message ∈ mounts ++ fsEvents a →
      ∀ status, .mount status ∈ mounts ++ fsEvents a → status = 0) ↔
        (.message ∈ fsEvents a → a.mount = 0) := by
    have hnone : ∀ status, .mount status ∉ fsEvents a := by
      intro status
      rw [fsEvents]
      split_ifs <;> simp
    rcases hmounts with rfl | ⟨rfl, hzero⟩
    · simp [hnone]
    · simp [hnone, hzero]
  rw [loud_iff_heeded hend, hheeded, hstatus, fsEvents]
  by_cases hmount : a.mount = 1
  · have hruns : a.runs = false := by simp [Attempt.runs, hmount]
    simp [hmount, hruns, heeded_nil]
  · by_cases hwanted : a.wanted = true
    · by_cases hknown : a.known = true
      · have hruns : a.runs = true := by simp [Attempt.runs, hmount, hknown]
        have hsound : a.SoundAlone ↔ a.mount = 0 ∧
            ((∀ status ∈ a.stages, status = 0) ∨ a.err = 1) := by
          rw [Attempt.SoundAlone, forall_prop_of_true hwanted]
        simp only [hmount, hwanted, hknown, hruns, if_false, Bool.true_eq_false, forall_const]
        rw [heeded_alone, hsound, and_iff_left_of_imp]
        exact fun h _ => h.1
      · have hruns : a.runs = false := by simp [Attempt.runs, hwanted, hknown]
        simp [hmount, hwanted, hknown, hruns, heeded_nil]
    · have hruns : a.runs = true := by simp [Attempt.runs, hmount, hwanted]
      have hmessage : Heeded false [.message] :=
        (heeded_cons fun x h => by cases h).mpr heeded_nil
      simp [hmount, hwanted, hruns, hmessage, Attempt.SoundAlone]

theorem loud_restoreFs (medium : Medium) (fsType pick : Text) (o : Outcome) :
    Loud false (restoreFs medium fsType pick o) ↔
      ((selectExtention fsType).isSome = true → (fsAttempt medium fsType pick o).runs = true →
        (fsAttempt medium fsType pick o).SoundAlone) := by
  rw [restoreFs]
  by_cases htype : selectExtention fsType = none
  · have hnil : Loud false [] :=
      (loud_iff_heeded fun h => by cases h).mpr ⟨heeded_nil, fun h => by cases h⟩
    simp [htype, hnil]
  · have hsome : (selectExtention fsType).isSome = true := Option.isSome_iff_ne_none.mpr htype
    rw [if_neg htype, loud_fsEvents, forall_prop_of_true hsome]
    by_cases htar : selectExtention fsType = some .tar
    · rw [if_pos htar]
      exact Or.inl rfl
    · rw [if_neg htar]
      refine Or.inr ⟨rfl, ?_⟩
      rw [fsAttempt, if_neg htar, attempt]
      split <;> rfl

end Loops

/-- A run of one of the three scripts. -/
inductive Script
  | startRestore (r : Recovery) (o : Text → Nat → Outcome) (booted : Bool)
  | cloneDsk (table : List Line) (source : Text) (mapped : Line → Bool) (o : Nat → Outcome)
      (booted : Bool)
  | restoreFs (fsType pick : Text) (o : Outcome)

def Script.asks : Script → Bool
  | .startRestore .. => true
  | .cloneDsk .. | .restoreFs .. => false

def Script.events (medium : Medium) : Script → List Event
  | .startRestore r o booted => Failures.startRestore medium r o booted
  | .cloneDsk table source mapped o booted =>
    Failures.cloneDsk medium table source mapped o booted
  | .restoreFs fsType pick o => Failures.restoreFs medium fsType pick o

/-- Up to the first attempt that ends a loop, no `mount` and no stage of a pipeline fails,
but for a last stage with the status one, which `start-restore.sh` asks about and
`restore-fs.sh` stops at; nor does the `mount` that ends it, if success will be announced. -/
def Script.Manageable (medium : Medium) : Script → Prop
  | .startRestore r o booted => ∀ file ∈ r.mkfsFiles,
    Failures.Manageable true booted (startAttempts medium r.table o file)
  | .cloneDsk table source mapped o booted =>
    Failures.Manageable false booted (cloneAttempts medium table source mapped o)
  | .restoreFs fsType pick o => (selectExtention fsType).isSome = true →
    (fsAttempt medium fsType pick o).runs = true →
      (fsAttempt medium fsType pick o).SoundAlone

/-- No failure is passed over in silence if and only if the statuses are ones that the
scripts test for. -/
theorem loud_iff (medium : Medium) (script : Script) :
    Loud script.asks (script.events medium) ↔ script.Manageable medium := by
  cases script with
  | startRestore r o booted => exact loud_startRestore medium r o booted
  | cloneDsk table source mapped o booted =>
    exact loud_cloneDsk medium table source mapped o booted
  | restoreFs fsType pick o => exact loud_restoreFs medium fsType pick o

def rootMounts : List Mount :=
  [⟨"/dev/hda1".toList, "/".toList, "ext3".toList, "rw".toList, some 3⟩]

/-- The status of `mount` for a failed mount is 32: the archive is extracted all the
same. -/
theorem extracted_unmounted :
    ¬ Loud true (startRestore .disk (saveDiskinfo lvmHost rootMounts)
      (fun _ _ => ⟨32, fun _ => 0, true, false⟩) true) := by
  intro h
  have hmounted := h.mounted ⟨32, [0, 0, 0]⟩ (by decide +kernel)
  revert hmounted
  decide

end Failures
