import MkCDrec.Recovering
import MkCDrec.Targets

/-!
# A whole clone of a disk

`clone-dsk.sh` formats the partitions of the target disk with the commands that were noted for the
source disk, and fills them from the archives of the source disk. Every device in a command or in a
line goes through the replacement of names on its own. An archive that is not there ends the loop
only where the program that finds nothing to read returns 1.
-/

namespace Cloning

open ShellText Table ArchiveNames StartRestore Grouping Targets Updates
open Recovering (Machine Content blank overlay)

/-- A disk of a saved machine is cloned. Without software RAID `To_Restore` is used as it was
saved. `tarStatus` is the status of a `tar` that has nothing to read. -/
structure Session where
  machine : Machine
  clone : Clone
  tarStatus : Nat
  table_eq : clone.table = machine.table
  plain : clone.mdDf = none

inductive Act
  | format (dev : Text)
  | fill (l : Line) (dev : Text)
  | dump (l : Line) (dev : Text)
deriving DecidableEq

/-- The device below `/dev` that is written. -/
def Act.device : Act → Text
  | .format dev | .fill _ dev | .dump _ dev => dev

namespace Session

variable (s : Session)

/-- The archives that `tar-it.sh` has stored. -/
def archives : List Archive :=
  s.machine.table.map (tarIt s.machine.cmpProg s.machine.cipher)

/-- The archive that is looked for. -/
def wantedArchive (l : Line) : Option Archive :=
  cloneDsk s.machine.cmpProg s.machine.cipher (s.clone.sdev l.dev) l

def found (l : Line) : Bool := (s.wantedArchive l).all fun a => a ∈ s.archives

/-- `err` after `Get_backup_back`; `dd` copies nothing with success. -/
def err (l : Line) : Nat :=
  if s.found l then 0
  else match selectExtention l.fsType with
    | some .tar => s.tarStatus
    | _ => 0

/-- The rounds of the restore loop. -/
def rounds : List (Line × Nat) :=
  upTo (fun p => s.clone.wanted p.2 && s.err p.1 = 1) s.clone.lines

/-- Steps 6 and 7. -/
def formatting : List Act :=
  (if s.clone.mkfs then s.clone.mkfsScript.map fun c => .format (s.clone.rewrite .mkfs c).device
    else []) ++
    if s.clone.swap then
      (s.clone.mkswapScript.filter fun c => s.clone.source.name <:+: c.before ++ c.device).map
        fun c => .format (s.clone.rewrite .mkswap c).device
    else []

/-- What the restore of a line writes, in Step 8. -/
def act (l : Line) : Option Act :=
  (selectExtention l.fsType).map fun
    | .tar => .fill l (s.clone.tdev l.dev)
    | .dd => .dump l (s.clone.sdev l.dev)

def restoring : List Act :=
  (s.rounds.filter fun p => s.clone.wanted p.2).filterMap fun p => s.act p.1

def acts : List Act := s.formatting ++ s.restoring

/-- What comes out of the archive that is found for a line. -/
def fetched (contents : Line → Content) (l : Line) : Option Content :=
  (s.wantedArchive l).bind (s.machine.store contents)

def effect (contents : Line → Content) : Act → Content → Content
  | .format _ => fun _ => blank
  | .fill l _ => fun old => (s.fetched contents l).elim old fun new => overlay new old
  | .dump l _ => fun old => (s.fetched contents l).getD old

def writing (contents : Line → Content) : Writer Text Content Act where
  key := Act.device
  effect := s.effect contents

/-- The devices after the clone. -/
def after (contents : Line → Content) (before : Text → Content) : Text → Content :=
  (s.writing contents).run before s.acts

/-- The line is restored. -/
def Restores (l : Line) : Prop := ∃ i, (l, i) ∈ s.rounds ∧ s.clone.wanted i = true

/-- No other line is looked for under the name of this archive. -/
def Alone (l : Line) : Prop :=
  ∀ q ∈ s.machine.table,
    s.wantedArchive q = some (tarIt s.machine.cmpProg s.machine.cipher l) → q = l

end Session

section Rounds

variable {s : Session} {l : Line} {e : Act}

theorem mem_of_mem_upTo {κ : Type*} {stop : κ → Bool} {x : κ} {xs : List κ}
    (h : x ∈ upTo stop xs) : x ∈ xs := by
  induction xs with
  | nil => cases h
  | cons y xs ih =>
    rw [upTo] at h
    split at h
    · rw [List.mem_singleton.mp h]
      exact List.mem_cons_self
    · rcases List.mem_cons.mp h with rfl | h
      · exact List.mem_cons_self
      · exact List.mem_cons_of_mem _ (ih h)

theorem mem_restoring : e ∈ s.restoring ↔ ∃ l, s.Restores l ∧ s.act l = some e := by
  simp only [Session.restoring, List.mem_filterMap, List.mem_filter, Session.Restores]
  constructor
  · rintro ⟨⟨l, i⟩, ⟨hp, hwanted⟩, hact⟩
    exact ⟨l, ⟨i, hp, hwanted⟩, hact⟩
  · rintro ⟨l, ⟨i, hp, hwanted⟩, hact⟩
    exact ⟨(l, i), ⟨hp, hwanted⟩, hact⟩

theorem Session.Restores.mem_lines (h : s.Restores l) :
    ∃ i, (l, i) ∈ s.clone.lines ∧ s.clone.wanted i = true := by
  obtain ⟨i, hp, hwanted⟩ := h
  exact ⟨i, mem_of_mem_upTo hp, hwanted⟩

theorem mem_cloneLines {table : List Line} {source : Text}
    (h : l ∈ Failures.cloneLines table source) : l ∈ table := by
  rw [Failures.cloneLines] at h
  split at h
  · cases h
  · rcases List.mem_append.mp h with h | h
    · exact (List.mem_filter.mp h).1
    · exact (List.mem_filter.mp h).1

theorem Session.Restores.mem_table (h : s.Restores l) : l ∈ s.machine.table := by
  obtain ⟨i, hp, _⟩ := h.mem_lines
  have hp := mem_of_mem_upTo hp
  have hl := (List.takeWhile_sublist _).subset (List.fst_mem_of_mem_zipIdx hp)
  rw [← s.table_eq]
  exact mem_cloneLines hl

end Rounds

section Contents

variable {s : Session} {l q : Line} {n : Text} {e : Act} {contents : Line → Content}
  {before : Text → Content} {old : Content}

theorem sdev_eq (s : Session) (dev : Text) : s.clone.sdev dev = dev := by
  rw [Clone.sdev, s.plain]

/-- A partition of the source disk is looked for under the name it was saved with if that has no
underscore. -/
theorem wantedArchive_eq_iff (htar : l.fsType ∈ tarTypes) :
    s.wantedArchive l = some (tarIt s.machine.cmpProg s.machine.cipher l) ↔ '_' ∉ l.dev := by
  rw [Session.wantedArchive, cloneDsk_eq_iff, sdev_eq, flat_eq_escape_iff]
  exact and_iff_right (Or.inl htar)

/-- An archive that is found is that of one line, ... -/
theorem fetched_of_found (hapart : s.machine.Apart) (hfound : s.found q = true)
    (hact : s.act q = some e) :
    ∃ l', s.wantedArchive q = some (tarIt s.machine.cmpProg s.machine.cipher l') ∧
      ∀ contents, s.fetched contents q = some (contents l') := by
  obtain ⟨kind, hkind, -⟩ := Option.map_eq_some_iff.mp hact
  have hsome : ∃ a, s.wantedArchive q = some a := by
    simp only [Session.wantedArchive, cloneDsk, getBackupBack, hkind]
    exact ⟨_, rfl⟩
  obtain ⟨a, ha⟩ := hsome
  rw [Session.found, ha, Option.all_some, decide_eq_true_eq] at hfound
  obtain ⟨l', hl', rfl⟩ := List.mem_map.mp hfound
  refine ⟨l', ha, fun contents => ?_⟩
  rw [Session.fetched, ha]
  exact Recovering.store_tarIt hapart hl'

/-- ... and nothing comes from one that is not. -/
theorem fetched_of_lost (hlost : s.found q = false) : s.fetched contents q = none := by
  rw [Session.found] at hlost
  obtain ⟨a, ha, hmem⟩ : ∃ a, s.wantedArchive q = some a ∧ a ∉ s.archives := by
    cases ha : s.wantedArchive q with
    | none => rw [ha] at hlost; cases hlost
    | some a =>
      rw [ha, Option.all_some, decide_eq_false_iff_not] at hlost
      exact ⟨a, rfl, hlost⟩
  rw [Session.fetched, ha]
  apply Writer.run_of_untouched
  intro l' hl' hkey
  exact hmem (List.mem_map.mpr ⟨l', hl', hkey⟩)

theorem act_cases (hact : s.act q = some e) :
    selectExtention q.fsType = some .tar ∧ e = .fill q (s.clone.tdev q.dev) ∨
      selectExtention q.fsType = some .dd ∧ e = .dump q (s.clone.sdev q.dev) := by
  obtain ⟨kind, hkind, rfl⟩ := Option.map_eq_some_iff.mp hact
  cases kind with
  | tar => exact Or.inl ⟨hkind, rfl⟩
  | dd => exact Or.inr ⟨hkind, rfl⟩

/-- The effect of a restore: nothing, or that of the archive of a line, which is a dump only for a
line that was dumped. -/
theorem effect_cases (hapart : s.machine.Apart) (halone : s.Alone l) (htar : l.fsType ∈ tarTypes)
    (hq : s.Restores q) (hact : s.act q = some e) :
    (s.found q = false ∧ ∀ contents old, s.effect contents e old = old) ∨
      s.found q = true ∧ ∃ l', (l' = l → q = l ∧ '_' ∉ l.dev ∧ e = .fill l (s.clone.tdev l.dev)) ∧
        ((∀ contents old, s.effect contents e old = overlay (contents l') old) ∨
          q ≠ l ∧ l' ≠ l ∧ ∀ contents old, s.effect contents e old = contents l') := by
  cases hfound : s.found q with
  | false =>
    refine Or.inl ⟨rfl, fun contents old => ?_⟩
    have hnone : s.fetched contents q = none := fetched_of_lost hfound
    rcases act_cases hact with ⟨_, rfl⟩ | ⟨_, rfl⟩
    · simp only [Session.effect, hnone, Option.elim_none]
    · simp only [Session.effect, hnone, Option.getD_none]
  | true =>
    obtain ⟨l', hwanted, hfetched⟩ := fetched_of_found hapart hfound hact
    have hkind : selectExtention l.fsType = some .tar := if_pos htar
    have hown : l' = l → q = l := by
      rintro rfl
      exact halone q hq.mem_table hwanted
    refine Or.inr ⟨rfl, l', ?_, ?_⟩
    · intro heq
      obtain rfl := hown heq
      subst heq
      refine ⟨rfl, (wantedArchive_eq_iff htar).mp hwanted, ?_⟩
      rcases act_cases hact with ⟨_, he⟩ | ⟨hdd, _⟩
      · exact he
      · rw [hkind] at hdd
        cases hdd
    · rcases act_cases hact with ⟨_, rfl⟩ | ⟨hdd, rfl⟩
      · left
        intro contents old
        simp only [Session.effect, hfetched, Option.elim_some]
      · right
        have hne : q ≠ l := by
          rintro rfl
          rw [hkind] at hdd
          cases hdd
        refine ⟨hne, fun heq => hne (hown heq), fun contents old => ?_⟩
        simp only [Session.effect, hfetched, Option.getD_some]

end Contents

section Cloned

variable {s : Session} {l q : Line} {n dev : Text} {e : Act} {contents : Line → Content}
  {before : Text → Content}

/-- The device is formatted. -/
def Session.Formats (s : Session) (dev : Text) : Prop := Act.format dev ∈ s.formatting

theorem exists_format (he : e ∈ s.formatting) : ∃ dev, e = .format dev := by
  simp only [Session.formatting, List.mem_append] at he
  rcases he with he | he
  · split at he
    · obtain ⟨c, _, rfl⟩ := List.mem_map.mp he
      exact ⟨_, rfl⟩
    · cases he
  · split at he
    · obtain ⟨c, _, rfl⟩ := List.mem_map.mp he
      exact ⟨_, rfl⟩
    · cases he

theorem after_eq (s : Session) (contents : Line → Content) (before : Text → Content) :
    s.after contents before =
      (s.writing contents).run ((s.writing contents).run before s.formatting) s.restoring :=
  Writer.run_append

/-- A file system that has one file everywhere. -/
def full : Content := fun _ => some []

/-- What another line puts onto the device stays there. -/
theorem others_elsewhere (hapart : s.machine.Apart) (halone : s.Alone l)
    (htar : l.fsType ∈ tarTypes) (h : ∀ contents before, s.after contents before dev = contents l)
    (hq : s.Restores q) (hfound : s.found q = true) (hne : q ≠ l) (hact : s.act q = some e) :
    e.device ≠ dev := by
  intro hdev
  have hafter := h (fun l' => if l' = l then blank else full) fun _ => blank
  have hsome :
      s.after (fun l' => if l' = l then blank else full) (fun _ => blank) dev [] ≠ none := by
    rw [after_eq]
    apply Writer.run_establishes (P := fun a : Content => a [] ≠ none)
    · intro e' he' _ a ha
      obtain ⟨q', hq', hact'⟩ := mem_restoring.mp he'
      rcases effect_cases hapart halone htar hq' hact' with
        ⟨_, heff⟩ | ⟨_, l', _, heff | ⟨_, hl', heff⟩⟩
      · change s.effect _ e' a [] ≠ none
        rwa [heff]
      · change s.effect _ e' a [] ≠ none
        rw [heff, overlay, Ne, Option.or_eq_none_iff, not_and]
        exact fun _ => ha
      · change s.effect _ e' a [] ≠ none
        rw [heff, if_neg hl']
        exact Option.some_ne_none _
    · refine ⟨e, mem_restoring.mpr ⟨q, hq, hact⟩, hdev, fun a => ?_⟩
      change s.effect _ e a [] ≠ none
      rcases effect_cases hapart halone htar hq hact with
        ⟨hlost, _⟩ | ⟨_, l', hown, heff | ⟨_, hl', heff⟩⟩
      · rw [hfound] at hlost
        cases hlost
      · have hl' : l' ≠ l := fun heq => hne (hown heq).1
        rw [heff, if_neg hl']
        exact Option.some_ne_none _
      · rw [heff, if_neg hl']
        exact Option.some_ne_none _
  rw [hafter, if_pos rfl] at hsome
  exact hsome rfl

/-- Nothing but the restore of the line brings its files. -/
theorem restores_of_cloned (hapart : s.machine.Apart) (halone : s.Alone l)
    (htar : l.fsType ∈ tarTypes) (h : ∀ contents before, s.after contents before dev = contents l) :
    s.Restores l ∧ '_' ∉ l.dev ∧ s.clone.tdev l.dev = dev := by
  by_contra hnot
  have hafter := h (fun l' => if l' = l then full else blank) fun _ => blank
  have hblank :
      s.after (fun l' => if l' = l then full else blank) (fun _ => blank) dev = blank := by
    apply Writer.run_of_fixed _ rfl
    intro e he hkey
    change s.effect _ e blank = blank
    rcases List.mem_append.mp he with he | he
    · obtain ⟨_, rfl⟩ := exists_format he
      rfl
    · obtain ⟨q, hq, hact⟩ := mem_restoring.mp he
      rcases effect_cases hapart halone htar hq hact with ⟨_, heff⟩ | ⟨_, l', hown, heff⟩
      · exact heff _ _
      · have hl' : l' ≠ l := by
          intro heq
          obtain ⟨rfl, hplain, rfl⟩ := hown heq
          exact hnot ⟨hq, hplain, hkey⟩
        rcases heff with heff | ⟨_, _, heff⟩
        · rw [heff, if_neg hl', Recovering.overlay_blank]
        · rw [heff, if_neg hl']
  rw [hblank, if_pos rfl] at hafter
  exact nomatch congrFun hafter []

/-- Without formatting old files stay. -/
theorem formats_of_cloned (hapart : s.machine.Apart) (halone : s.Alone l)
    (htar : l.fsType ∈ tarTypes) (h : ∀ contents before, s.after contents before dev = contents l) :
    s.Formats dev := by
  by_contra hnot
  have hafter := h (fun _ => blank) fun _ => full
  have hfull : s.after (fun _ => blank) (fun _ => full) dev = full := by
    apply Writer.run_of_fixed _ rfl
    intro e he hkey
    change s.effect _ e full = full
    rcases List.mem_append.mp he with he | he
    · obtain ⟨dev', rfl⟩ := exists_format he
      obtain rfl : dev' = dev := hkey
      exact absurd he hnot
    · obtain ⟨q, hq, hact⟩ := mem_restoring.mp he
      rcases effect_cases hapart halone htar hq hact with ⟨_, heff⟩ | ⟨hfound, l', hown, heff⟩
      · exact heff _ _
      · rcases heff with heff | ⟨hne, _, _⟩
        · rw [heff]
          rfl
        · exact absurd hkey (others_elsewhere hapart halone htar h hq hfound hne hact)
  rw [hfull] at hafter
  exact nomatch congrFun hafter []

/-- The archive of a line is unpacked on the new file system where nothing else goes there. -/
theorem cloned_of_spared (hapart : s.machine.Apart) (halone : s.Alone l)
    (htar : l.fsType ∈ tarTypes) {device : Text} (hformats : s.Formats device)
    (hrestores : s.Restores l) (hplain : '_' ∉ l.dev) (htdev : s.clone.tdev l.dev = device)
    (hothers : ∀ q, s.Restores q → s.found q = true → q ≠ l →
      ∀ e, s.act q = some e → e.device ≠ device) (contents : Line → Content)
    (before : Text → Content) : s.after contents before device = contents l := by
  have hkind : selectExtention l.fsType = some .tar := if_pos htar
  have hact : s.act l = some (.fill l (s.clone.tdev l.dev)) := by
    rw [Session.act, hkind]
    rfl
  have hwanted := (wantedArchive_eq_iff (s := s) htar).mpr hplain
  have hfetched : s.fetched contents l = some (contents l) := by
    rw [Session.fetched, hwanted]
    exact Recovering.store_tarIt hapart hrestores.mem_table
  have hfill : s.effect contents (.fill l (s.clone.tdev l.dev)) = overlay (contents l) := by
    funext old
    simp only [Session.effect, hfetched, Option.elim_some]
  rw [after_eq]
  have hearly : (s.writing contents).run before s.formatting device = blank := by
    apply Writer.run_of_reset
    · intro e he _
      obtain ⟨_, rfl⟩ := exists_format he
      rfl
    · exact ⟨_, hformats, rfl, fun _ => rfl⟩
  have hlate : (s.writing contents).run ((s.writing contents).run before s.formatting)
      s.restoring device = overlay (contents l) blank := by
    rw [← hearly]
    apply Writer.run_of_same (f := overlay (contents l))
    · intro e he hkey
      obtain ⟨q, hq, hactq⟩ := mem_restoring.mp he
      by_cases hql : q = l
      · subst hql
        obtain rfl := Option.some.inj (hact.symm.trans hactq)
        exact Or.inl hfill
      · rcases effect_cases hapart halone htar hq hactq with ⟨_, heff⟩ | ⟨hfound, _⟩
        · exact Or.inr (funext (heff contents))
        · exact absurd hkey (hothers q hq hfound hql e hactq)
    · exact fun old => Recovering.overlay_overlay _ _
    · exact ⟨_, mem_restoring.mpr ⟨l, hrestores, hact⟩, htdev, hfill⟩
  rw [hlate, Recovering.overlay_blank]

/-- A file system that was archived by `tar` comes to its partition of the target disk, whatever
was in it and whatever was on that partition, exactly if the partition is formatted, the line is
restored, its archive and its partition are named rightly, and no other line is restored there. -/
theorem cloned_iff (hapart : s.machine.Apart) (halone : s.Alone l) (htar : l.fsType ∈ tarTypes)
    (hn : Number n) (hdev : l.dev = s.clone.source.partition n) :
    (∀ contents before, s.after contents before (s.clone.target.partition n) = contents l) ↔
      s.Formats (s.clone.target.partition n) ∧ s.Restores l ∧ '_' ∉ l.dev ∧
        Clear s.clone.source s.clone.target [] n ∧
        ∀ q, s.Restores q → s.found q = true → q ≠ l →
          ∀ e, s.act q = some e → e.device ≠ s.clone.target.partition n := by
  have hclear : s.clone.tdev l.dev = s.clone.target.partition n ↔
      Clear s.clone.source s.clone.target [] n := by
    rw [Clone.tdev, hdev]
    exact replace_eq_partition_iff hn
  constructor
  · intro h
    obtain ⟨hrestores, hplain, htdev⟩ := restores_of_cloned hapart halone htar h
    refine ⟨formats_of_cloned hapart halone htar h, hrestores, hplain, hclear.mp htdev, ?_⟩
    intro q hq hfound hne e hact
    exact others_elsewhere hapart halone htar h hq hfound hne hact
  · rintro ⟨hformats, hrestores, hplain, htdev, hothers⟩
    exact cloned_of_spared hapart halone htar hformats hrestores hplain (hclear.mpr htdev) hothers

end Cloned

/-- A root file system and a `jfs` file system on an IDE disk. -/
def idePair : Machine where
  host := Recovering.listedMachine.host
  mounts := [⟨"/dev/hda1".toList, "/".toList, "ext3".toList, "rw".toList, some 3⟩,
    ⟨"/dev/hda5".toList, "/home".toList, "jfs".toList, "rw".toList, some 3⟩]
  includeFsList := none
  built := []
  swaps := []
  labels := []
  cmpProg := "gzip".toList
  cipher := []

def rootLine : Line := ⟨"/dev/hda1".toList, "/".toList, "ext3".toList, "rw".toList⟩

def homeLine : Line := ⟨"/dev/hda5".toList, "/home".toList, "jfs".toList, "rw".toList⟩

theorem number_of_digit {c : Char} (h : c.isDigit = true) : Number [c] :=
  ⟨List.cons_ne_nil _ _, List.forall_mem_singleton.mpr h⟩

theorem idePair_table : idePair.table = [rootLine, homeLine] := by decide +kernel

def toScsi : Clone where
  source := hda
  target := sdb
  table := [rootLine, homeLine]
  mkfsScript := [⟨"mkfs -t ext3 -j /dev/".toList, "hda1".toList⟩,
    ⟨"mkfs -t jfs -f -L:jfs_hda5 /dev/".toList, "hda5".toList⟩]
  mkswapScript := []
  mdDf := none
  mkfs := true
  swap := false
  wanted := fun _ => true

def ideToScsi : Session := ⟨idePair, toScsi, 2, idePair_table.symm, rfl⟩

/-- The command for the `jfs` file system formats the source disk, so that of two file systems
only the other one is cloned. -/
theorem jfs_not_cloned :
    (∀ contents before, ideToScsi.after contents before (sdb.partition ['1']) =
        contents rootLine) ∧
      ¬ ∀ contents before, ideToScsi.after contents before (sdb.partition ['5']) =
        contents homeLine := by
  have htable : ∀ q ∈ idePair.table, q = rootLine ∨ q = homeLine := by
    intro q hq
    rw [idePair_table] at hq
    simpa using hq
  have hapart : idePair.Apart := by
    intro l hl l' hl' heq
    have hne : tarIt idePair.cmpProg idePair.cipher rootLine ≠
        tarIt idePair.cmpProg idePair.cipher homeLine := by decide +kernel
    rcases htable l hl with rfl | rfl
    · rcases htable l' hl' with rfl | rfl
      · rfl
      · exact absurd heq hne
    · rcases htable l' hl' with rfl | rfl
      · exact absurd heq.symm hne
      · rfl
  have hnumber : Number ['1'] ∧ Number ['5'] :=
    ⟨number_of_digit (by decide), number_of_digit (by decide)⟩
  constructor
  · have hformat : Act.format (sdb.partition ['1']) ∈ ideToScsi.formatting := by decide +kernel
    refine (cloned_iff (s := ideToScsi) hapart ?_ (by decide) hnumber.1 (by decide)).mpr
      ⟨hformat, ⟨0, by decide +kernel, rfl⟩, by decide,
        (replace_eq_partition_iff hnumber.1).mp (by decide +kernel), ?_⟩
    · intro q hq hwanted
      rcases htable q hq with rfl | rfl
      · rfl
      · exact absurd hwanted (by decide +kernel)
    · intro q hq _ hne e hact
      obtain rfl := (htable q hq.mem_table).resolve_left hne
      have hhome : ideToScsi.act homeLine = some (.fill homeLine "sdb5".toList) := by
        decide +kernel
      obtain rfl := Option.some.inj (hhome.symm.trans hact)
      decide +kernel
  · have halone : ideToScsi.Alone homeLine := by
      intro q hq hwanted
      rcases htable q hq with rfl | rfl
      · exact absurd hwanted (by decide +kernel)
      · rfl
    intro h
    have hformat : Act.format (sdb.partition ['5']) ∈ ideToScsi.formatting :=
      ((cloned_iff (s := ideToScsi) hapart halone (by decide) hnumber.2 (by decide)).mp h).1
    revert hformat
    decide +kernel

end Cloning
