import MkCDrec.Lib.Mounting
import MkCDrec.Lib.Paths
import MkCDrec.Lib.Updates
import MkCDrec.Lib.Words

/-!
# Labels of file systems and of swap areas

Where `/etc/fstab` mounts by label, the labels are put back before the restore. `rd-base.sh` goes
through the lines with `LABEL=`: `Check_for_disk_labels` asks `df` for the device of each mount
point, and `Check_for_swaplabel` looks for each label in what `strings` prints of the first
10 Kb of a swap area.
-/

namespace DiskLabels

open ShellText Words Runs Paths Mounting Updates

/-- `grep` of a plain pattern; without a pattern nothing is found. -/
def grep (pat s : Text) : Bool := pat ≠ [] && pat <:+: s

/-- `awk` of one field of a line. -/
def field (n : Nat) (line : Text) : Text := (words line).getD (n - 1) []

/-- `LABEL`, which ends where another `=` stands. -/
def label (line : Text) : Text := cut '=' 2 (field 1 line)

/-- `FS`, the second field of a line of `/etc/fstab`. -/
def fs (line : Text) : Text := field 2 line

/-- The types that `e2label` is used for. -/
def extTypes : List Text := ["ext2".toList, "ext3".toList, "ext4".toList, "auto".toList]

inductive Prog
  | e2label
  | echo
deriving DecidableEq

/-- A line of `mke2label.sh`. -/
structure Command where
  prog : Prog
  dev : Text
  label : Text

/-- The machine when it is saved: the mounts, the last one first, and the paths that exist. -/
structure Machine where
  fstab : List Text
  mounts : List (Path × Text)
  present : Text → Bool

section Disks

variable (k : Machine)

/-- `DEV`: the device that `df` prints for a path. -/
def df (path : Text) : Text :=
  if k.present path then ((locate k.mounts (names path)).map Prod.fst).getD [] else []

/-- One line in the loop of `Check_for_disk_labels`. -/
def command (line : Text) : Option Command :=
  let prog := if cut ',' 1 (field 3 line) ∈ extTypes then .e2label else .echo
  if df k (fs line) = [] then none else some ⟨prog, df k (fs line), label line⟩

def checkForDiskLabels : List Command :=
  (k.fstab.filter (grep "LABEL=".toList)).filterMap (command k)

/-- The labels of the devices; without a label to set `e2label` prints the one that is there. -/
def labelling : Writer Text (Option Text) Command where
  key := Command.dev
  effect c old := if c.prog = .e2label ∧ c.label ≠ [] then some c.label else old

/-- The labels after Step 6, which begins with new file systems. -/
def relabelled : Text → Option Text := labelling.run (fun _ => none) (checkForDiskLabels k)

/-- A line for which a label is set. -/
def Sets (line : Text) : Prop :=
  grep "LABEL=".toList line = true ∧ cut ',' 1 (field 3 line) ∈ extTypes ∧ label line ≠ []

instance (line : Text) : Decidable (Sets line) :=
  inferInstanceAs (Decidable (_ ∧ _ ∧ _))

end Disks

section Swap

/-- A pattern that stands for itself. -/
def Literal (pat : Text) : Prop :=
  pat ≠ [] ∧ (∀ c ∈ pat, c.isAlphanum = true ∨ c ∈ "_-/:".toList) ∧ pat.head? ≠ some '-'

instance (pat : Text) : Decidable (Literal pat) :=
  haveI : Decidable (∀ c ∈ pat, c.isAlphanum = true ∨ c ∈ "_-/:".toList) :=
    List.decidableBAll _ pat
  inferInstanceAs (Decidable (_ ∧ _ ∧ _))

/-- What `grep` finds in a line with a regular expression. -/
structure Grep where
  finds : Text → Text → Bool
  literal : ∀ pat s, Literal pat → finds pat s = decide (pat <:+: s)

def printable (c : Char) : Bool := c = '\t' || (32 ≤ c.toNat && c.toNat ≤ 126)

/-- `strings`, which prints nothing that is shorter than four characters. -/
def strings (bytes : Text) : List Text := (runs printable bytes).filter fun t => 4 ≤ t.length

/-- `dd bs=1024 count=10`. -/
def firstBlocks (bytes : Text) : Text := bytes.take (10 * 1024)

/-- The label in the header of a swap area. -/
def volumeName (bytes : Text) : Text := ((bytes.drop 1052).take 16).takeWhile (· ≠ '\x00')

/-- `dd | strings | grep -q ${LABEL}`. -/
def finds (g : Grep) (bytes line : Text) : Bool :=
  label line ≠ [] && (strings (firstBlocks bytes)).any (g.finds (label line))

/-- The lines that `Check_for_swaplabel` reads. -/
def swapLine (line : Text) : Bool := grep "LABEL=".toList line && grep "swap".toList line

/-- `/tmp/swaplabel`, which every label that is found overwrites. -/
def tracing (g : Grep) (bytes : Text) : Writer Unit (Option Text) Text where
  key _ := ()
  effect line old := if finds g bytes line then some (label line) else old

/-- The label that `mkswap` is given. -/
def checkForSwaplabel (g : Grep) (fstab : List Text) (bytes : Text) : Option Text :=
  (tracing g bytes).run (fun _ => none) (fstab.filter swapLine) ()

/-- The text is part of a printable stretch of at least four characters. -/
def Visible (bytes t : Text) : Prop :=
  ∃ u, u <:+: firstBlocks bytes ∧ (∀ c ∈ u, printable c = true) ∧ 4 ≤ u.length ∧ t <:+: u

end Swap

section Kept

variable {k : Machine} {pre post : List Text} {line line' dev : Text}

theorem df_eq_iff (hunhidden : Unhidden (k.mounts.map Prod.fst)) (hdev : dev ≠ []) {path : Text} :
    df k path = dev ↔ k.present path = true ∧ ∃ m, Deepest k.mounts (names path) m ∧ m.2 = dev := by
  rw [df]
  by_cases hpresent : k.present path = true
  · rw [if_pos hpresent, and_iff_right hpresent]
    cases hlocate : locate k.mounts (names path) with
    | none =>
      refine iff_of_false (Ne.symm hdev) ?_
      rintro ⟨m, hdeepest, _⟩
      have hsome := (locate_eq_some_iff hunhidden).mpr ⟨m, hdeepest, rfl, rfl⟩
      rw [hlocate] at hsome
      cases hsome
    | some p =>
      obtain ⟨d, rest⟩ := p
      obtain ⟨m, hdeepest, rfl, _⟩ := (locate_eq_some_iff hunhidden).mp hlocate
      constructor
      · rintro rfl
        exact ⟨m, hdeepest, rfl⟩
      · rintro ⟨m', hdeepest', rfl⟩
        have h := (find_eq_some_iff hunhidden).mpr hdeepest
        have h' := (find_eq_some_iff hunhidden).mpr hdeepest'
        rw [h] at h'
        obtain rfl := Option.some.inj h'
        rfl
  · rw [if_neg hpresent]
    exact iff_of_false (Ne.symm hdev) fun h => hpresent h.1

theorem mem_commands {lines : List Text} {c : Command}
    (h : c ∈ (lines.filter (grep "LABEL=".toList)).filterMap (command k)) :
    ∃ line ∈ lines, grep "LABEL=".toList line = true ∧ df k (fs line) ≠ [] ∧
      c = ⟨if cut ',' 1 (field 3 line) ∈ extTypes then .e2label else .echo, df k (fs line),
        label line⟩ := by
  obtain ⟨line, hline, hc⟩ := List.mem_filterMap.mp h
  obtain ⟨hmem, hgrep⟩ := List.mem_filter.mp hline
  rw [command] at hc
  split at hc
  · cases hc
  · rename_i hdf
    exact ⟨line, hmem, hgrep, hdf, (Option.some.inj hc).symm⟩

theorem command_of_sets (hsets : Sets line) (hdf : df k (fs line) ≠ []) :
    command k line = some ⟨.e2label, df k (fs line), label line⟩ := by
  rw [command, if_neg hdf, if_pos hsets.2.1]

theorem sets_of_command {c : Command} (h : grep "LABEL=".toList line = true)
    (hc : c = ⟨if cut ',' 1 (field 3 line) ∈ extTypes then .e2label else .echo, df k (fs line),
        label line⟩) (hset : c.prog = .e2label ∧ c.label ≠ []) : Sets line := by
  subst hc
  refine ⟨h, ?_, hset.2⟩
  by_contra htype
  have hprog := hset.1
  rw [if_neg htype] at hprog
  cases hprog

/-- A labelled file system has its label back exactly if no later line sets a label with a mount
point that is a directory of this file system. -/
theorem label_kept_iff (hunhidden : Unhidden (k.mounts.map Prod.fst))
    (hdevs : (k.mounts.map Prod.snd).Nodup) (hfstab : k.fstab = pre ++ line :: post)
    (hsets : Sets line) (hpresent : k.present (fs line) = true) (hdev : dev ≠ [])
    (hmounted : (names (fs line), dev) ∈ k.mounts)
    (hdistinct : ∀ line' ∈ post, Sets line' → label line' ≠ label line) :
    relabelled k dev = some (label line) ↔
      ∀ line' ∈ post, Sets line' → k.present (fs line') = true →
        ¬ Deepest k.mounts (names (fs line')) (names (fs line), dev) := by
  have hself : Deepest k.mounts (names (fs line)) (names (fs line), dev) :=
    ⟨hmounted, List.prefix_rfl, fun _ _ h => h⟩
  have hdf : df k (fs line) = dev := (df_eq_iff hunhidden hdev).mpr ⟨hpresent, _, hself, rfl⟩
  have hdf_iff : ∀ line', df k (fs line') = dev ↔ k.present (fs line') = true ∧
      Deepest k.mounts (names (fs line')) (names (fs line), dev) := by
    intro line'
    rw [df_eq_iff hunhidden hdev]
    refine and_congr_right fun _ => ⟨?_, fun h => ⟨_, h, rfl⟩⟩
    rintro ⟨m, hdeepest, hm⟩
    obtain rfl := List.inj_on_of_nodup_map hdevs hdeepest.mem hmounted hm
    exact hdeepest
  have hcommands : checkForDiskLabels k =
      ((pre.filter (grep "LABEL=".toList)).filterMap (command k)) ++
        ⟨.e2label, dev, label line⟩ ::
          ((post.filter (grep "LABEL=".toList)).filterMap (command k)) := by
    rw [checkForDiskLabels, hfstab, List.filter_append, List.filter_cons_of_pos hsets.1,
      List.filterMap_append, List.filterMap_cons,
      command_of_sets hsets (by rw [hdf]; exact hdev), hdf]
  rw [relabelled, hcommands, Writer.run_eq_iff (W := labelling)
    (fun c => c.prog = .e2label ∧ c.label ≠ []) fun c => some c.label]
  · constructor
    · intro h line' hline' hsets' hpresent' hdeepest
      have hdf' := (hdf_iff line').mpr ⟨hpresent', hdeepest⟩
      have hne : df k (fs line') ≠ [] := by rw [hdf']; exact hdev
      refine h ⟨.e2label, df k (fs line'), label line'⟩ ?_ hdf' ⟨rfl, hsets'.2.2⟩
      exact List.mem_filterMap.mpr ⟨line', List.mem_filter.mpr ⟨hline', hsets'.1⟩,
        command_of_sets hsets' hne⟩
    · intro h c hc hkey hset
      obtain ⟨line', hline', hgrep, _, hcommand⟩ := mem_commands hc
      have hdf' : df k (fs line') = dev := by
        rw [← hkey, hcommand]
        rfl
      obtain ⟨hpresent', hdeepest⟩ := (hdf_iff line').mp hdf'
      exact h line' hline' (sets_of_command hgrep hcommand hset) hpresent' hdeepest
  · intro c _ _ hidle old
    exact if_neg hidle
  · intro c _ _ hset old
    exact if_pos hset
  · rfl
  · exact ⟨rfl, hsets.2.2⟩
  · intro c hc _ hset
    obtain ⟨line', hline', hgrep, _, hcommand⟩ := mem_commands hc
    have hne := hdistinct line' hline' (sets_of_command hgrep hcommand hset)
    rw [hcommand]
    simpa using hne

def rootEntry : Text := "LABEL=/ / ext3 defaults 1 1".toList

def backupEntry : Text := "LABEL=/backup /backup ext3 noauto 0 0".toList

/-- A disk for backups that is not mounted. -/
def backupMachine : Machine where
  fstab := [rootEntry, backupEntry]
  mounts := [([], "/dev/hda1".toList)]
  present := fun _ => true

/-- The root gets the label of the other disk. -/
theorem root_label_lost :
    relabelled backupMachine "/dev/hda1".toList ≠ some (label rootEntry) := by
  have hfstab : backupMachine.fstab = [] ++ rootEntry :: [backupEntry] := rfl
  have hdev : "/dev/hda1".toList ≠ [] := by decide
  rw [Ne, label_kept_iff (by decide) (by decide) hfstab (by decide) rfl hdev (by decide)
    (by decide)]
  intro h
  refine h backupEntry (by decide) (by decide) rfl ⟨by decide, by decide, ?_⟩
  intro m hm _
  rw [List.mem_singleton.mp hm]
  exact List.nil_prefix

theorem finds_iff (g : Grep) {bytes : Text} (hliteral : label line = [] ∨ Literal (label line)) :
    finds g bytes line = true ↔ label line ≠ [] ∧ Visible bytes (label line) := by
  simp only [finds, Bool.and_eq_true, decide_eq_true_eq, List.any_eq_true]
  refine and_congr_right fun hne => ?_
  have hlit := hliteral.resolve_left hne
  constructor
  · rintro ⟨t, ht, hfound⟩
    obtain ⟨hrun, hlen⟩ := List.mem_filter.mp ht
    rw [g.literal _ _ hlit, decide_eq_true_eq] at hfound
    exact ⟨t, infix_of_mem_runs hrun, (fits_runs printable _).run t hrun, by simpa using hlen,
      hfound⟩
  · rintro ⟨u, hu, hprintable, hlen, hpart⟩
    obtain ⟨t, ht, hut⟩ := exists_run_of_infix hprintable hu
    refine ⟨t, List.mem_filter.mpr ⟨ht, ?_⟩, ?_⟩
    · simpa using Nat.le_trans hlen hut.length_le
    · rw [g.literal _ _ hlit, decide_eq_true_eq]
      exact hpart.trans hut

theorem Literal.printable {t : Text} (h : Literal t) : ∀ c ∈ t, printable c = true := by
  have hothers : "_-/:".toList.all DiskLabels.printable = true := by decide
  intro c hc
  rcases h.2.1 c hc with halpha | hother
  · have hbounds := bounds_of_isAlphanum halpha
    simp only [DiskLabels.printable, Bool.or_eq_true, Bool.and_eq_true, decide_eq_true_eq]
    omega
  · exact List.all_eq_true.mp hothers c hother

/-- A label of four characters stands in the header for all to see. -/
theorem visible_volumeName {bytes : Text} (h : Literal (volumeName bytes))
    (hlen : 4 ≤ (volumeName bytes).length) : Visible bytes (volumeName bytes) := by
  refine ⟨volumeName bytes, ?_, h.printable, hlen, List.infix_rfl⟩
  have hheader : (bytes.drop 1052).take 16 = ((firstBlocks bytes).take 1068).drop 1052 := by
    rw [firstBlocks, List.take_take, List.drop_take]
    rfl
  have hprefix : volumeName bytes <+: (bytes.drop 1052).take 16 := List.takeWhile_prefix _
  rw [hheader] at hprefix
  exact hprefix.isInfix.trans
    ((List.drop_suffix _ _).isInfix.trans (List.take_prefix _ _).isInfix)

/-- A swap area is given its label back exactly if `strings` shows the label, and no other label
of a later line for swap. -/
theorem swapLabel_kept_iff (g : Grep) {fstab : List Text} {bytes : Text}
    (hfstab : fstab = pre ++ line :: post) (hswap : swapLine line = true)
    (hline : label line = volumeName bytes) (hlabel : volumeName bytes ≠ [])
    (hliteral : ∀ line' ∈ fstab, swapLine line' = true → label line' = [] ∨ Literal (label line'))
    (hdistinct : ∀ line' ∈ post, swapLine line' = true → label line' ≠ volumeName bytes) :
    checkForSwaplabel g fstab bytes = some (volumeName bytes) ↔
      Visible bytes (volumeName bytes) ∧
        ∀ line' ∈ post, swapLine line' = true → label line' ≠ [] →
          ¬ Visible bytes (label line') := by
  have hmem : ∀ line' ∈ post, line' ∈ fstab := by
    intro line' hline'
    rw [hfstab]
    exact List.mem_append_right _ (List.mem_cons_of_mem _ hline')
  have hown : finds g bytes line = true ↔ Visible bytes (volumeName bytes) := by
    rw [finds_iff g (hliteral line (by simp [hfstab]) hswap), hline, and_iff_right hlabel]
  have hlater : ∀ line' ∈ post, swapLine line' = true → (¬ finds g bytes line' = true ↔
      (label line' ≠ [] → ¬ Visible bytes (label line'))) := by
    intro line' hline' hswap'
    rw [finds_iff g (hliteral line' (hmem line' hline') hswap')]
    tauto
  rw [← hown, checkForSwaplabel, hfstab, List.filter_append, List.filter_cons_of_pos hswap]
  by_cases hfound : finds g bytes line = true
  · rw [and_iff_right hfound, ← hline, Writer.run_eq_iff (W := tracing g bytes)
      (fun line' => finds g bytes line' = true) fun line' => some (label line')]
    · simp only [List.mem_filter, and_imp, true_imp_iff]
      constructor
      · intro h line' hline' hswap'
        exact (hlater line' hline' hswap').mp fun hset => h line' hline' hswap' hset
      · intro h line' hline' hswap' hset
        exact (hlater line' hline' hswap').mpr (h line' hline' hswap') hset
    · exact fun _ _ _ hnot _ => if_neg hnot
    · exact fun _ _ _ hset _ => if_pos hset
    · rfl
    · exact hfound
    · intro line' hline' _ _
      obtain ⟨hpost, hswap'⟩ := List.mem_filter.mp hline'
      rw [hline]
      simpa using hdistinct line' hpost hswap'
  · refine iff_of_false ?_ fun h => hfound h.1
    -- no line with this label is found
    have hsame : ∀ line', label line' = volumeName bytes → ¬ finds g bytes line' = true := by
      intro line' h'
      rwa [finds, h', ← hline, ← finds]
    refine Writer.run_invariant (W := tracing g bytes)
      (P := fun found => found ≠ some (volumeName bytes)) ?_ (by simp)
    intro line' _ _ found hne
    change (if finds g bytes line' then some (label line') else found) ≠ some (volumeName bytes)
    split
    · rename_i hset
      exact fun heq => hsame line' (Option.some.inj heq) hset
    · exact hne

def swapEntry : Text := "LABEL=swap-sda2 swap swap defaults 0 0".toList

def otherSwapEntry : Text := "LABEL=swap swap swap defaults 0 0".toList

/-- The area of the first entry, with its signature behind the header. -/
def swapSda2 : Text :=
  List.replicate 1052 '\x00' ++ ("swap-sda2".toList ++
    '\x00' :: (List.replicate 3024 '\x00' ++ "SWAPSPACE2".toList))

def fixedStrings : Grep where
  finds pat s := decide (pat <:+: s)
  literal := fun _ _ _ => rfl

/-- One label is the beginning of another one. -/
theorem swap_label_lost :
    checkForSwaplabel fixedStrings [swapEntry] swapSda2 = some (volumeName swapSda2) ∧
      checkForSwaplabel fixedStrings [swapEntry, otherSwapEntry] swapSda2 ≠
        some (volumeName swapSda2) := by
  have hname : volumeName swapSda2 = "swap-sda2".toList := by
    rw [volumeName, swapSda2, List.drop_left' List.length_replicate]
    rfl
  have hvisible : Visible swapSda2 (volumeName swapSda2) :=
    visible_volumeName (by rw [hname]; decide) (by rw [hname]; decide)
  have hnone : volumeName swapSda2 ≠ [] := by
    rw [hname]
    decide
  have hlabel : label swapEntry = volumeName swapSda2 := by
    rw [hname]
    decide
  have hliteral : ∀ line' ∈ [swapEntry, otherSwapEntry], swapLine line' = true →
      label line' = [] ∨ Literal (label line') := by decide
  have hother : label otherSwapEntry ≠ volumeName swapSda2 := by
    rw [hname]
    decide
  constructor
  · apply (swapLabel_kept_iff fixedStrings (List.nil_append _).symm (by decide) hlabel hnone
      (fun line' h => hliteral line' (by simpa using Or.inl (List.mem_singleton.mp h)))
      (by simp)).mpr
    exact ⟨hvisible, by simp⟩
  · intro hkept
    obtain ⟨_, h⟩ := (swapLabel_kept_iff fixedStrings (List.nil_append _).symm (by decide)
      hlabel hnone hliteral (by simpa using fun _ => hother)).mp hkept
    obtain ⟨u, hu, hprintable, hlen, hpart⟩ := hvisible
    rw [hname] at hpart
    refine h otherSwapEntry List.mem_cons_self (by decide) (by decide)
      ⟨u, hu, hprintable, hlen, List.IsInfix.trans ?_ hpart⟩
    decide

end Kept

end DiskLabels
