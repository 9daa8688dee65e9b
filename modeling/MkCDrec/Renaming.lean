import MkCDrec.Lib.Words
import MkCDrec.DeviceNames
import MkCDrec.Targets

/-!
# Renaming of disks in files

`Replace_Sourcedev_Targetdev_2` puts the target disk in the place of the source disk in
one line, and `Replace_Sourcedev_Targetdev` in the lines of a file. A device stands in a
line as a run of the characters of names, with or without `/dev/`. What the shell makes of
a wildcard depends on the directory it works in, and what follows an option `-e` is read
by `echo` once more; these lines are left to a parameter.
-/

namespace Renaming

open ShellText Runs Words DeviceNames
open Targets (onController followedByDigit)

def wildcard (c : Char) : Bool := c = '*' || c = '?' || c = '['

/-- `echo` may print other words than those of the line. -/
def expands (line : Text) : Bool :=
  line.any wildcard ||
    ('\\' ∈ line && ((words line).takeWhile isOption).any fun w => 'e' ∈ w)

structure Job where
  source : Disk
  target : Disk
  shell : Text → Text

/-- The `sed` of each branch. -/
def Job.sed (k : Job) (line : Text) : Text :=
  let sourceDev := k.source.name
  let targetDev := k.target.name
  if onController sourceDev then
    if onController targetDev then
      sedOnce sourceDev targetDev (sedOnce (sourceDev ++ ['p']) (targetDev ++ ['p']) line)
    else sedOnce sourceDev targetDev (sedOnce (sourceDev ++ ['p']) targetDev line)
  else if onController targetDev then
    if followedByDigit sourceDev line then sedOnce sourceDev (targetDev ++ ['p']) line
    else sedOnce sourceDev targetDev line
  else sedOnce sourceDev targetDev line

/-- `Replace_Sourcedev_Targetdev_2`. -/
def Job.replaceSourcedevTargetdev2 (k : Job) (line : Text) : Text :=
  if expands line then k.shell line else echo (k.sed (echo line))

/-- What `read` makes of a line, and whether it goes on with the next one. -/
def unquote : Text → Text × Bool
  | [] => ([], false)
  | '\\' :: [] => ([], true)
  | '\\' :: c :: s => (c :: (unquote s).1, (unquote s).2)
  | c :: s => (c :: (unquote s).1, (unquote s).2)

/-- The lines that `read` returns; the blanks that it takes off at both ends are dropped by
`echo` too. -/
def readLines : List Text → List Text
  | [] => []
  | line :: lines =>
    if (unquote line).2 then
      match readLines lines with
      | [] => []
      | next :: rest => ((unquote line).1 ++ next) :: rest
    else (unquote line).1 :: readLines lines

/-- The lines of a file, and what follows the last end of line. -/
structure File where
  lines : List Text
  rest : Text
deriving DecidableEq

/-- `Replace_Sourcedev_Targetdev`. -/
def Job.replaceSourcedevTargetdev (k : Job) (f : File) : File :=
  ⟨(readLines f.lines).map k.replaceSourcedevTargetdev2, []⟩

def runChar (c : Char) : Bool := c.isAlphanum || c = '/' || c = '_' || c = '-' || c = '.'

def dev : Text := ['/', 'd', 'e', 'v', '/']

def lead (w : Text) : Text := if dev <+: w then dev else []

def device (w : Text) : Text := w.drop (lead w).length

namespace Job

variable (k : Job)

/-- A reference to the disk or one of its partitions, renamed. -/
def renameRun (w : Text) : Text :=
  if device w = k.source.name then lead w ++ k.target.name
  else
    match k.source.number (device w) with
    | some n => lead w ++ (k.target.name ++ (k.target.sep ++ n))
    | none => w

def rename (line : Text) : Text := join ((runs runChar line).map k.renameRun) (delims runChar line)

def renameFile (f : File) : File := ⟨f.lines.map k.rename, k.rename f.rest⟩

def IsDisk (w : Text) : Prop := device w = k.source.name

def IsPartition (w : Text) : Prop := (k.source.number (device w)).isSome = true

def Refers (w : Text) : Prop := k.IsDisk w ∨ k.IsPartition w

/-- The name of the source disk is replaced by that of the target disk and `x`. -/
def Fits (x w : Text) : Prop :=
  k.IsDisk w ∧ x = [] ∨ k.IsPartition w ∧ x ++ k.source.sep = k.target.sep

/-- The same for the name of the source disk and a `p`. -/
def FitsPartition (x w : Text) : Prop := k.IsPartition w ∧ x = k.target.sep

/-- The first run with the pattern is as it should be, and the only reference. -/
def Once (pat : Text) (fits : Text → Prop) : List Text → Prop
  | [] => True
  | w :: ws =>
    if pat <:+: w then fits w ∧ ∀ v ∈ ws, ¬ k.Refers v else ¬ k.Refers w ∧ Once pat fits ws

/-- One partition and one other reference at most; if the partition comes first the name of
the source disk is not found in the new one. -/
def Twice (x : Text) : List Text → Prop
  | [] => True
  | w :: ws =>
    if k.source.name ++ ['p'] <:+: w then
      k.FitsPartition x w ∧ ¬ k.source.name <:+: k.renameRun w ∧
        k.Once k.source.name (k.Fits []) ws
    else if k.source.name <:+: w then
      k.Fits [] w ∧ k.Once (k.source.name ++ ['p']) (k.FitsPartition x) ws
    else Twice x ws

/-- The references of a line are those that are replaced. -/
def Clear (line : Text) : Prop :=
  if onController k.source.name then
    k.Twice (if onController k.target.name then ['p'] else []) (runs runChar line)
  else
    k.Once k.source.name
      (k.Fits
        (if onController k.target.name && followedByDigit k.source.name line then ['p'] else []))
      (runs runChar line)

structure Renamable (line : Text) : Prop where
  still : expands line = false
  tidy : Tidy line
  clear : k.source.name = k.target.name ∨ k.Clear line

structure RenamableFile (f : File) : Prop where
  ended : f.rest = []
  unquoted : ∀ line ∈ f.lines, '\\' ∉ line
  lines : ∀ line ∈ f.lines, k.Renamable line

end Job

section References

variable {k : Job} {w v s rep x n : Text}

theorem lead_append_device (w : Text) : lead w ++ device w = w := by
  rw [device, lead]
  split
  · rename_i h
    obtain ⟨t, rfl⟩ := h
    rw [List.drop_left]
  · rfl

/-- No name of a disk begins inside `/dev/`. -/
theorem exists_cons_name (d : Disk) (w : Text) : ∃ c s, d.name = c :: s ∧ c ∉ lead w := by
  obtain ⟨c, hc, hhead⟩ := d.head_name
  obtain ⟨s, hs⟩ := List.head?_eq_some_iff.mp hhead
  refine ⟨c, s, hs, ?_⟩
  rw [lead]
  split
  · intro hmem
    have hall : (dev.all fun e => !(['h', 's', 'm', 'c', 'i', 'r', 'a'].contains e)) = true := by
      decide
    have hno := List.all_eq_true.mp hall c hmem
    rw [List.contains_iff_mem.mpr hc] at hno
    cases hno
  · exact List.not_mem_nil

theorem sedOnce_lead (d : Disk) (x rep w s : Text) :
    sedOnce (d.name ++ x) rep (lead w ++ s) = lead w ++ sedOnce (d.name ++ x) rep s := by
  obtain ⟨c, t, ht, hc⟩ := exists_cons_name d w
  rw [ht, List.cons_append]
  exact sedOnce_append_left hc s

theorem infix_lead_iff (d : Disk) (x w s : Text) :
    d.name ++ x <:+: lead w ++ s ↔ d.name ++ x <:+: s := by
  obtain ⟨c, t, ht, hc⟩ := exists_cons_name d w
  rw [ht, List.cons_append]
  exact infix_append_left_iff hc

theorem eq_of_isDisk (h : k.IsDisk w) : w = lead w ++ k.source.name := by
  have hdev : device w = k.source.name := h
  rw [← hdev, lead_append_device]

theorem eq_of_number (h : k.source.number (device w) = some n) :
    w = lead w ++ (k.source.name ++ (k.source.sep ++ n)) := by
  rw [← (Disk.number_eq_some_iff.mp h).1, lead_append_device]

theorem not_isDisk_of_number (h : k.source.number (device w) = some n) : ¬ k.IsDisk w := by
  intro hdisk
  obtain ⟨hdev, hne, _⟩ := Disk.number_eq_some_iff.mp h
  have hdisk : device w = k.source.name := hdisk
  rw [hdisk, List.self_eq_append_right] at hdev
  exact hne (List.append_eq_nil_iff.mp hdev).2

theorem renameRun_of_isDisk (h : k.IsDisk w) : k.renameRun w = lead w ++ k.target.name :=
  if_pos h

theorem renameRun_of_number (h : k.source.number (device w) = some n) :
    k.renameRun w = lead w ++ (k.target.name ++ (k.target.sep ++ n)) := by
  rw [Job.renameRun, if_neg (show ¬ device w = k.source.name from not_isDisk_of_number h), h]

theorem renameRun_of_not_refers (h : ¬ k.Refers w) : k.renameRun w = w := by
  obtain ⟨hdisk, hpartition⟩ := not_or.mp h
  rw [Job.renameRun, if_neg (show ¬ device w = k.source.name from hdisk)]
  rw [Job.IsPartition, Option.not_isSome_iff_eq_none] at hpartition
  rw [hpartition]

/-- What `sed` makes of a reference. -/
theorem sedOnce_of_isDisk (h : k.IsDisk w) : sedOnce k.source.name rep w = lead w ++ rep := by
  have hlead := sedOnce_lead k.source [] rep w k.source.name
  have hself := sedOnce_append k.source.name_ne_nil rep []
  simp only [List.append_nil] at hlead hself
  conv_lhs => rw [eq_of_isDisk h]
  rw [hlead, hself]

theorem sedOnce_of_number (h : k.source.number (device w) = some n) :
    sedOnce k.source.name rep w = lead w ++ (rep ++ (k.source.sep ++ n)) := by
  have hlead := sedOnce_lead k.source [] rep w (k.source.name ++ (k.source.sep ++ n))
  rw [List.append_nil] at hlead
  conv_lhs => rw [eq_of_number h]
  rw [hlead, sedOnce_append k.source.name_ne_nil]

theorem infix_of_refers (h : k.Refers w) : k.source.name <:+: w := by
  rcases h with h | h
  · rw [eq_of_isDisk h]
    exact (List.suffix_append ..).isInfix
  · obtain ⟨n, hn⟩ := Option.isSome_iff_exists.mp h
    rw [eq_of_number hn]
    exact ⟨lead w, k.source.sep ++ n, by rw [List.append_assoc]⟩

/-- A `p` after the name is that of a partition. -/
theorem not_isDisk_of_name_p (h : k.source.name ++ ['p'] <:+: w) : ¬ k.IsDisk w := by
  intro hdisk
  rw [eq_of_isDisk hdisk, infix_lead_iff] at h
  have hle := h.length_le
  rw [List.length_append, List.length_singleton] at hle
  omega

theorem sep_eq_of_name_p (hn : k.source.number (device w) = some n)
    (h : k.source.name ++ ['p'] <:+: w) : k.source.sep = ['p'] := by
  rw [eq_of_number hn, infix_lead_iff] at h
  obtain ⟨u, v, huv⟩ := h
  obtain ⟨hdev, _, hdigits⟩ := Disk.number_eq_some_iff.mp hn
  rw [List.append_assoc, List.append_assoc] at huv
  obtain rfl := Disk.eq_nil_of_number hn (hdev.trans huv.symm)
  have hp : ['p'] ++ v = k.source.sep ++ n := List.append_cancel_left huv
  refine (Disk.sep_cases k.source).resolve_left ?_
  intro hsep
  have hmem : 'p' ∈ n := by
    rw [hsep, List.nil_append] at hp
    rw [← hp]
    exact List.mem_cons_self
  exact absurd (hdigits 'p' hmem) (by decide)

theorem sedOnce_p_of_number (hn : k.source.number (device w) = some n)
    (h : k.source.name ++ ['p'] <:+: w) :
    sedOnce (k.source.name ++ ['p']) rep w = lead w ++ (rep ++ n) := by
  have hw := eq_of_number hn
  rw [sep_eq_of_name_p hn h, ← List.append_assoc k.source.name] at hw
  conv_lhs => rw [hw]
  rw [sedOnce_lead, sedOnce_append (by simp)]

end References

section Fitting

variable {k : Job} {w n x : Text} {ws : List Text}

theorem renameRun_eq_self_iff (hne : k.source.name ≠ k.target.name) :
    k.renameRun w = w ↔ ¬ k.Refers w := by
  constructor
  · intro heq hrefers
    rcases hrefers with h | h
    · rw [renameRun_of_isDisk h] at heq
      have hw := eq_of_isDisk h
      exact hne (List.append_cancel_left (heq.trans hw)).symm
    · obtain ⟨n, hn⟩ := Option.isSome_iff_exists.mp h
      rw [renameRun_of_number hn] at heq
      have hw := List.append_cancel_left (heq.trans (eq_of_number hn))
      rw [← List.append_assoc, ← List.append_assoc] at hw
      exact hne (Disk.name_eq_of_append_sep (List.append_cancel_right hw)).symm
  · exact renameRun_of_not_refers

/-- Where the first `sed` of a branch does what is wanted. -/
theorem sedOnce_eq_renameRun_iff (hx : k.source.name ≠ k.target.name ++ x)
    (hin : k.source.name <:+: w) :
    sedOnce k.source.name (k.target.name ++ x) w = k.renameRun w ↔ k.Fits x w := by
  by_cases hdisk : k.IsDisk w
  · have hnot : ¬ k.IsPartition w := by
      intro h
      obtain ⟨n, hn⟩ := Option.isSome_iff_exists.mp h
      exact not_isDisk_of_number hn hdisk
    rw [sedOnce_of_isDisk hdisk, renameRun_of_isDisk hdisk, List.append_cancel_left_eq,
      List.append_right_eq_self, Job.Fits]
    simp [hdisk, hnot]
  · by_cases hpartition : k.IsPartition w
    · obtain ⟨n, hn⟩ := Option.isSome_iff_exists.mp hpartition
      rw [sedOnce_of_number hn, renameRun_of_number hn, List.append_cancel_left_eq,
        List.append_assoc, List.append_cancel_left_eq, ← List.append_assoc,
        List.append_cancel_right_eq, Job.Fits]
      simp [hdisk, hpartition]
    · have hrefers : ¬ k.Refers w := not_or.mpr ⟨hdisk, hpartition⟩
      rw [renameRun_of_not_refers hrefers, sedOnce_eq_self_iff k.source.name_ne_nil, Job.Fits]
      simp [hdisk, hpartition, hx, hin]

theorem sedOnce_p_eq_renameRun_iff (hx : k.source.name ++ ['p'] ≠ k.target.name ++ x)
    (hin : k.source.name ++ ['p'] <:+: w) :
    sedOnce (k.source.name ++ ['p']) (k.target.name ++ x) w = k.renameRun w ↔
      k.FitsPartition x w := by
  by_cases hpartition : k.IsPartition w
  · obtain ⟨n, hn⟩ := Option.isSome_iff_exists.mp hpartition
    rw [sedOnce_p_of_number hn hin, renameRun_of_number hn, List.append_cancel_left_eq,
      List.append_assoc, List.append_cancel_left_eq, List.append_cancel_right_eq,
      Job.FitsPartition]
    simp [hpartition]
  · have hrefers : ¬ k.Refers w := not_or.mpr ⟨not_isDisk_of_name_p hin, hpartition⟩
    rw [renameRun_of_not_refers hrefers, sedOnce_eq_self_iff (by simp), Job.FitsPartition]
    simp [hpartition, hx, hin]

/-- One `sed` renames the references just if there is no second one. -/
theorem sedFirst_eq_map_iff {pat rep : Text} {fits : Text → Prop}
    (hne : k.source.name ≠ k.target.name)
    (hfits : ∀ w, pat <:+: w → (sedOnce pat rep w = k.renameRun w ↔ fits w)) :
    sedFirst pat rep ws = ws.map k.renameRun ↔ k.Once pat fits ws := by
  induction ws with
  | nil => exact iff_of_true rfl trivial
  | cons w ws ih =>
    have hself : ∀ v, v = k.renameRun v ↔ ¬ k.Refers v := fun v =>
      eq_comm.trans (renameRun_eq_self_iff hne)
    rw [sedFirst, Job.Once, List.map_cons]
    by_cases hin : pat <:+: w
    · have hmap : ws.map k.renameRun = ws.map id ↔ ∀ v ∈ ws, k.renameRun v = id v :=
        List.map_inj_left
      have htail : ws = ws.map k.renameRun ↔ ∀ v ∈ ws, ¬ k.Refers v := by
        rw [List.map_id] at hmap
        rw [eq_comm, hmap]
        exact forall₂_congr fun v _ => renameRun_eq_self_iff hne
      rw [if_pos hin, if_pos hin, List.cons_eq_cons, hfits w hin, htail]
    · rw [if_neg hin, if_neg hin, List.cons_eq_cons, ih, hself]

/-- After a replaced partition the second `sed` does not get it right. -/
theorem sedOnce_sedOnce_ne_renameRun (hne : k.source.name ≠ k.target.name)
    (hs : onController k.source.name = true)
    (hx : x = if onController k.target.name then ['p'] else [])
    (hne' : k.source.name ++ ['p'] ≠ k.target.name ++ x) (hin : k.source.name ++ ['p'] <:+: w)
    (hin' : k.source.name <:+: sedOnce (k.source.name ++ ['p']) (k.target.name ++ x) w) :
    sedOnce k.source.name k.target.name
      (sedOnce (k.source.name ++ ['p']) (k.target.name ++ x) w) ≠ k.renameRun w := by
  intro heq
  by_cases hpartition : k.IsPartition w
  · obtain ⟨n, hn⟩ := Option.isSome_iff_exists.mp hpartition
    by_cases hsep : x = k.target.sep
    · have hfit := (sedOnce_p_eq_renameRun_iff hne' hin).mpr ⟨hpartition, hsep⟩
      rw [hfit] at heq hin'
      rcases (sedOnce_eq_self_iff k.source.name_ne_nil).mp heq with h | h
      · exact hne h
      · exact h hin'
    · have hsed : sedOnce (k.source.name ++ ['p']) (k.target.name ++ x) w =
          lead w ++ (k.target.name ++ x ++ n) := sedOnce_p_of_number hn hin
      have hname := infix_lead_iff k.source [] w (k.target.name ++ x ++ n)
      rw [List.append_nil] at hname
      rw [hsed, hname] at hin'
      by_cases ht : onController k.target.name = true
      · rw [if_pos ht] at hx
        have htarget : '/' ∉ k.target.name := by
          rw [Disk.slash_mem_name_iff]
          exact fun h => hsep (hx.trans h.symm)
        have hsource : '/' ∈ k.source.name := by
          rw [Disk.slash_mem_name_iff]
          exact sep_eq_of_name_p hn hin
        have hmem := hin'.subset hsource
        rw [hx, List.mem_append, List.mem_append] at hmem
        rcases hmem with (hmem | hmem) | hmem
        · exact htarget hmem
        · exact absurd hmem (by decide)
        · exact absurd ((Disk.number_eq_some_iff.mp hn).2.2 _ hmem) (by decide)
      · rw [if_neg ht] at hx
        rw [hx, List.append_nil] at hin'
        refine ht (Targets.onController_append (b := n) ?_ (Targets.onController_mono hin' hs))
        exact fun c hc => Or.inr ((Disk.number_eq_some_iff.mp hn).2.2 c hc)
  · have hrefers : ¬ k.Refers w := not_or.mpr ⟨not_isDisk_of_name_p hin, hpartition⟩
    rw [renameRun_of_not_refers hrefers] at heq
    by_cases ht : onController k.target.name = true
    · rw [if_pos ht] at hx
      subst hx
      exact sedOnce_sedOnce_ne k.source.name_ne_nil hne hin hin' heq
    · rw [if_neg ht] at hx
      have hfirst := length_sedOnce (k.target.name ++ x) (by simp) hin
      have hsecond := length_sedOnce k.target.name k.source.name_ne_nil hin'
      rw [heq] at hsecond
      rw [hx, List.append_nil, List.length_append, List.length_singleton] at hfirst
      rw [hx, List.append_nil] at hsecond
      omega

theorem sedFirst_sedFirst_eq_map_iff (hne : k.source.name ≠ k.target.name)
    (hs : onController k.source.name = true)
    (hx : x = if onController k.target.name then ['p'] else []) :
    sedFirst k.source.name k.target.name
        (sedFirst (k.source.name ++ ['p']) (k.target.name ++ x) ws) = ws.map k.renameRun ↔
      k.Twice x ws := by
  have hne' : k.source.name ++ ['p'] ≠ k.target.name ++ x := by
    intro heq
    by_cases ht : onController k.target.name = true
    · rw [hx, if_pos ht] at heq
      exact hne (List.append_cancel_right heq)
    · rw [hx, if_neg ht, List.append_nil] at heq
      exact ht (Targets.onController_mono (heq ▸ (List.prefix_append ..).isInfix) hs)
  have hname : ∀ {w}, k.source.name <:+: w →
      (sedOnce k.source.name k.target.name w = k.renameRun w ↔ k.Fits [] w) := by
    intro w hin
    have hfits := sedOnce_eq_renameRun_iff (x := []) (by rwa [List.append_nil]) hin
    rwa [List.append_nil] at hfits
  induction ws with
  | nil => exact iff_of_true rfl trivial
  | cons w ws ih =>
    rw [sedFirst, Job.Twice, List.map_cons]
    by_cases hin : k.source.name ++ ['p'] <:+: w
    · rw [if_pos hin, if_pos hin, sedFirst]
      by_cases hin' : k.source.name <:+: sedOnce (k.source.name ++ ['p']) (k.target.name ++ x) w
      · rw [if_pos hin', List.cons_eq_cons]
        refine iff_of_false ?_ ?_
        · exact fun h => sedOnce_sedOnce_ne_renameRun hne hs hx hne' hin hin' h.1
        · rintro ⟨hfit, hnot, _⟩
          rw [(sedOnce_p_eq_renameRun_iff hne' hin).mpr hfit] at hin'
          exact hnot hin'
      · rw [if_neg hin', List.cons_eq_cons, sedOnce_p_eq_renameRun_iff hne' hin,
          sedFirst_eq_map_iff hne fun w => hname]
        refine and_congr_right fun hfit => ?_
        rw [(sedOnce_p_eq_renameRun_iff hne' hin).mpr hfit] at hin'
        exact (and_iff_right hin').symm
    · rw [if_neg hin, if_neg hin, sedFirst]
      by_cases hin' : k.source.name <:+: w
      · rw [if_pos hin', if_pos hin', List.cons_eq_cons, hname hin',
          sedFirst_eq_map_iff hne fun w => sedOnce_p_eq_renameRun_iff hne']
      · have hrefers : ¬ k.Refers w := fun h => hin' (infix_of_refers h)
        rw [if_neg hin', if_neg hin', List.cons_eq_cons, renameRun_of_not_refers hrefers]
        exact (and_iff_right rfl).trans ih

end Fitting

section Lines

variable {k : Job} {w line pat rep : Text}

theorem blank_not_runChar : runChar ' ' = false ∧ runChar '\t' = false := by decide

theorem runChar_of_optionChar :
    runChar '-' = true ∧ ∀ c, optionChar c = true → runChar c = true := by
  refine ⟨by decide, ?_⟩
  intro c hc
  simp only [optionChar, Bool.or_eq_true, decide_eq_true_eq] at hc
  rcases hc with (rfl | rfl) | rfl <;> decide

theorem d_not_optionChar : 'd' ≠ '-' ∧ optionChar 'd' = false := by decide

theorem runChar_of_mem_name {d : Disk} {c : Char} (h : c ∈ d.name) : runChar c = true := by
  have hname := Disk.nameChar_of_mem_name h
  simp only [Disk.nameChar, Bool.or_eq_true, decide_eq_true_eq] at hname
  have halpha : c.isLower = true → c.isAlpha = true := isAlpha_of_isLower
  simp only [runChar, Char.isAlphanum, Bool.or_eq_true, decide_eq_true_eq]
  tauto

theorem runChar_of_mem_append_p {d : Disk} {c : Char} (h : c ∈ d.name ++ ['p']) :
    runChar c = true := by
  rcases List.mem_append.mp h with h | h
  · exact runChar_of_mem_name h
  · rw [List.mem_singleton.mp h]
    decide

/-- A text that `sed` finds and puts: of the characters of a run, and with a `d`. -/
structure Named (pat : Text) : Prop where
  run : ∀ c ∈ pat, runChar c = true
  d : 'd' ∈ pat

theorem named_name (d : Disk) : Named d.name :=
  ⟨fun _ h => runChar_of_mem_name h, d.d_mem_name⟩

theorem named_append_p (d : Disk) : Named (d.name ++ ['p']) :=
  ⟨fun _ h => runChar_of_mem_append_p h, List.mem_append_left _ d.d_mem_name⟩

theorem sedOnce_eq_join (hpat : Named pat) (line : Text) :
    sedOnce pat rep line = join (sedFirst pat rep (runs runChar line)) (delims runChar line) := by
  rw [← sedOnce_join (List.ne_nil_of_mem hpat.d) hpat.run (fits_runs runChar line), join_runs]

theorem runs_sedOnce (hpat : Named pat) (hrep : Named rep) (line : Text) :
    runs runChar (sedOnce pat rep line) = sedFirst pat rep (runs runChar line) := by
  rw [sedOnce_eq_join hpat, runs_join (fits_sedFirst hrep.run (fits_runs runChar line))]

theorem delims_sedOnce (hpat : Named pat) (hrep : Named rep) (line : Text) :
    delims runChar (sedOnce pat rep line) = delims runChar line := by
  rw [sedOnce_eq_join hpat, delims_join (fits_sedFirst hrep.run (fits_runs runChar line))]

theorem tidy_sedOnce (hpat : Named pat) (hrep : Named rep) (h : Tidy line) :
    Tidy (sedOnce pat rep line) := by
  rw [sedOnce_eq_join hpat]
  refine tidy_of_alike blank_not_runChar runChar_of_optionChar d_not_optionChar
    (fits_runs runChar line) (fits_sedFirst hrep.run (fits_runs runChar line))
    (forall₂_alike_sedFirst hpat.d hrep.d _) ?_
  rwa [join_runs]

theorem alike_renameRun (w : Text) : Alike 'd' w (k.renameRun w) := by
  by_cases hrefers : k.Refers w
  · refine Or.inr ⟨(infix_of_refers hrefers).subset k.source.d_mem_name, ?_⟩
    rcases hrefers with h | h
    · rw [renameRun_of_isDisk h]
      exact List.mem_append_right _ k.target.d_mem_name
    · obtain ⟨n, hn⟩ := Option.isSome_iff_exists.mp h
      rw [renameRun_of_number hn]
      exact List.mem_append_right _ (List.mem_append_left _ k.target.d_mem_name)
  · exact Or.inl (renameRun_of_not_refers hrefers).symm

theorem runChar_of_mem_renameRun (hw : ∀ c ∈ w, runChar c = true) :
    ∀ c ∈ k.renameRun w, runChar c = true := by
  have hlead : ∀ c ∈ lead w, runChar c = true := by
    intro c hc
    refine hw c ?_
    rw [← lead_append_device w]
    exact List.mem_append_left _ hc
  intro c hc
  by_cases hrefers : k.Refers w
  · rcases hrefers with h | h
    · rw [renameRun_of_isDisk h] at hc
      rcases List.mem_append.mp hc with hc | hc
      · exact hlead c hc
      · exact runChar_of_mem_name hc
    · obtain ⟨n, hn⟩ := Option.isSome_iff_exists.mp h
      rw [renameRun_of_number hn, List.mem_append, List.mem_append, List.mem_append] at hc
      rcases hc with hc | hc | hc | hc
      · exact hlead c hc
      · exact runChar_of_mem_name hc
      · rw [Disk.mem_sep hc]
        decide
      · have hdigit := (Disk.number_eq_some_iff.mp hn).2.2 c hc
        simp [runChar, Char.isAlphanum, hdigit]
  · rw [renameRun_of_not_refers hrefers] at hc
    exact hw c hc

theorem fits_rename (k : Job) (line : Text) :
    Runs.Fits runChar ((runs runChar line).map k.renameRun) (delims runChar line) :=
  (fits_runs runChar line).map fun w hw =>
    runChar_of_mem_renameRun ((fits_runs runChar line).run w hw)

theorem forall₂_alike_renameRun (k : Job) (ws : List Text) :
    List.Forall₂ (Alike 'd') ws (ws.map k.renameRun) := by
  rw [List.forall₂_map_right_iff, List.forall₂_same]
  exact fun w _ => alike_renameRun w

theorem tidy_of_rename (h : Tidy (k.rename line)) : Tidy line := by
  have hsim : List.Forall₂ (Alike 'd') ((runs runChar line).map k.renameRun)
      (runs runChar line) :=
    (forall₂_alike_renameRun k (runs runChar line)).flip.imp fun _ _ => Alike.symm
  have htidy := tidy_of_alike blank_not_runChar runChar_of_optionChar d_not_optionChar
    (fits_rename k line) (fits_runs runChar line) hsim h
  rwa [join_runs] at htidy

theorem rename_self (hname : k.source.name = k.target.name) (line : Text) :
    k.rename line = line := by
  have hself : ∀ w, k.renameRun w = w := by
    intro w
    have hsep : k.source.sep = k.target.sep := Disk.sep_eq_of_head (congrArg List.head? hname)
    by_cases hrefers : k.Refers w
    · rcases hrefers with h | h
      · rw [renameRun_of_isDisk h, ← hname, ← eq_of_isDisk h]
      · obtain ⟨n, hn⟩ := Option.isSome_iff_exists.mp h
        rw [renameRun_of_number hn, ← hname, ← hsep, ← eq_of_number hn]
    · exact renameRun_of_not_refers hrefers
  rw [Job.rename, List.map_congr_left fun w _ => hself w, List.map_id', join_runs]

theorem sed_self (hname : k.source.name = k.target.name) (line : Text) : k.sed line = line := by
  have hself : ∀ pat s : Text, pat ≠ [] → sedOnce pat pat s = s := fun pat s hpat =>
    (sedOnce_eq_self_iff hpat).mpr (Or.inl rfl)
  have hne := k.target.name_ne_nil
  rw [Job.sed]
  simp only [hname]
  split
  · rw [hself _ _ (List.append_ne_nil_of_left_ne_nil hne _), hself _ _ hne]
  · rw [hself _ _ hne]

theorem tidy_sed (h : Tidy line) : Tidy (k.sed line) := by
  have hs := named_name k.source
  have ht := named_name k.target
  have hsp := named_append_p k.source
  have htp := named_append_p k.target
  rw [Job.sed]
  split
  · split
    · exact tidy_sedOnce hs ht (tidy_sedOnce hsp htp h)
    · exact tidy_sedOnce hs ht (tidy_sedOnce hsp ht h)
  · split
    · split
      · exact tidy_sedOnce hs htp h
      · exact tidy_sedOnce hs ht h
    · exact tidy_sedOnce hs ht h

theorem sedOnce_eq_rename_iff (hpat : Named pat) (hrep : Named rep) :
    sedOnce pat rep line = k.rename line ↔
      sedFirst pat rep (runs runChar line) = (runs runChar line).map k.renameRun := by
  rw [sedOnce_eq_join hpat, Job.rename]
  constructor
  · exact join_inj (fits_sedFirst hrep.run (fits_runs runChar line)) (fits_rename k line)
  · intro h
    rw [h]

theorem sedOnce_sedOnce_eq_rename_iff {pat' rep' : Text} (hpat : Named pat) (hrep : Named rep)
    (hpat' : Named pat') (hrep' : Named rep') :
    sedOnce pat' rep' (sedOnce pat rep line) = k.rename line ↔
      sedFirst pat' rep' (sedFirst pat rep (runs runChar line)) =
        (runs runChar line).map k.renameRun := by
  have hfits : Runs.Fits runChar (sedFirst pat' rep' (sedFirst pat rep (runs runChar line)))
      (delims runChar line) :=
    fits_sedFirst hrep'.run (fits_sedFirst hrep.run (fits_runs runChar line))
  rw [sedOnce_eq_join hpat', runs_sedOnce hpat hrep, delims_sedOnce hpat hrep, Job.rename]
  constructor
  · exact join_inj hfits (fits_rename k line)
  · intro h
    rw [h]

theorem sed_eq_rename_iff (hne : k.source.name ≠ k.target.name) :
    k.sed line = k.rename line ↔ k.Clear line := by
  have hs := named_name k.source
  have ht := named_name k.target
  have hsp := named_append_p k.source
  have htp := named_append_p k.target
  rw [Job.sed, Job.Clear]
  by_cases hsource : onController k.source.name = true
  · rw [if_pos hsource, if_pos hsource]
    by_cases htarget : onController k.target.name = true
    · rw [if_pos htarget, if_pos htarget, sedOnce_sedOnce_eq_rename_iff hsp htp hs ht]
      exact sedFirst_sedFirst_eq_map_iff hne hsource (if_pos htarget).symm
    · have htwice : sedFirst k.source.name k.target.name (sedFirst (k.source.name ++ ['p'])
          (k.target.name ++ []) (runs runChar line)) = (runs runChar line).map k.renameRun ↔
            k.Twice [] (runs runChar line) :=
        sedFirst_sedFirst_eq_map_iff hne hsource (if_neg htarget).symm
      rw [List.append_nil] at htwice
      rw [if_neg htarget, if_neg htarget, sedOnce_sedOnce_eq_rename_iff hsp ht hs ht, htwice]
  · have hplain : ∀ {x w}, (x ≠ [] → onController k.target.name = true) →
        k.source.name <:+: w → (sedOnce k.source.name (k.target.name ++ x) w = k.renameRun w ↔
          k.Fits x w) := by
      intro x w hx hin
      refine sedOnce_eq_renameRun_iff ?_ hin
      intro heq
      by_cases hnil : x = []
      · rw [hnil, List.append_nil] at heq
        exact hne heq
      · have hinfix : k.target.name <:+: k.source.name := heq ▸ (List.prefix_append ..).isInfix
        exact hsource (Targets.onController_mono hinfix (hx hnil))
    have hone : sedOnce k.source.name k.target.name line = k.rename line ↔
        k.Once k.source.name (k.Fits []) (runs runChar line) := by
      rw [sedOnce_eq_rename_iff hs ht]
      refine sedFirst_eq_map_iff hne fun w hin => ?_
      have hfits := hplain (x := []) (fun h => absurd rfl h) hin
      rwa [List.append_nil] at hfits
    rw [if_neg hsource, if_neg hsource]
    by_cases htarget : onController k.target.name = true
    · rw [if_pos htarget, htarget, Bool.true_and]
      by_cases hnumber : followedByDigit k.source.name line = true
      · rw [if_pos hnumber, if_pos hnumber, sedOnce_eq_rename_iff hs htp]
        exact sedFirst_eq_map_iff hne fun w hin => hplain (fun _ => htarget) hin
      · rw [if_neg hnumber, if_neg hnumber]
        exact hone
    · rw [if_neg htarget, Bool.eq_false_iff.mpr htarget, Bool.false_and, if_neg Bool.false_ne_true]
      exact hone

/-- One line. -/
theorem replace_line_iff (hstill : expands line = false) :
    k.replaceSourcedevTargetdev2 line = k.rename line ↔ k.Renamable line := by
  rw [Job.replaceSourcedevTargetdev2, if_neg (Bool.eq_false_iff.mp hstill)]
  have hline : ∀ htidy : Tidy line, echo (k.sed (echo line)) = k.sed line := by
    intro htidy
    rw [echo_of_tidy htidy, echo_of_tidy (tidy_sed htidy)]
  constructor
  · intro h
    have htidy : Tidy line := by
      refine tidy_of_rename (k := k) ?_
      rw [← h]
      exact tidy_echo _
    rw [hline htidy] at h
    refine ⟨hstill, htidy, ?_⟩
    by_cases hname : k.source.name = k.target.name
    · exact Or.inl hname
    · exact Or.inr ((sed_eq_rename_iff hname).mp h)
  · rintro ⟨_, htidy, hclear⟩
    rw [hline htidy]
    by_cases hname : k.source.name = k.target.name
    · rw [sed_self hname, rename_self hname]
    · exact (sed_eq_rename_iff hname).mpr (hclear.resolve_left hname)

end Lines

section Files

variable {k : Job} {line : Text} {lines : List Text} {f : File}

theorem unquote_eq_self (h : '\\' ∉ line) : unquote line = (line, false) := by
  fun_induction unquote line with
  | case1 => rfl
  | case2 => exact absurd List.mem_cons_self h
  | case3 c s ih => exact absurd List.mem_cons_self h
  | case4 c s _ _ ih => rw [ih (List.not_mem_of_not_mem_cons h)]

/-- `read` takes the backslashes away. -/
theorem count_unquote (line : Text) :
    (unquote line).1.count '\\' ≤ line.count '\\' ∧
      ('\\' ∈ line → (unquote line).1.count '\\' < line.count '\\') := by
  fun_induction unquote line with
  | case1 => exact ⟨Nat.le_refl _, fun h => nomatch h⟩
  | case2 => exact ⟨Nat.zero_le _, fun _ => by decide⟩
  | case3 c s ih =>
    have hlt : (c :: (unquote s).1).count '\\' < ('\\' :: c :: s).count '\\' := by
      have hle := ih.1
      simp only [List.count_cons, beq_self_eq_true, if_true]
      omega
    exact ⟨Nat.le_of_lt hlt, fun _ => hlt⟩
  | case4 c s hend hmore ih =>
    have hc : c ≠ '\\' := by
      rintro rfl
      cases s with
      | nil => exact hend rfl rfl
      | cons d s => exact hmore d s rfl rfl
    rw [List.count_cons_of_ne hc, List.count_cons_of_ne hc]
    refine ⟨ih.1, fun h => ih.2 ?_⟩
    exact List.mem_of_ne_of_mem hc.symm h

theorem readLines_eq_self (h : ∀ line ∈ lines, '\\' ∉ line) : readLines lines = lines := by
  induction lines with
  | nil => rfl
  | cons line lines ih =>
    obtain ⟨hline, h⟩ := List.forall_mem_cons.mp h
    rw [readLines, unquote_eq_self hline, if_neg Bool.false_ne_true, ih h]

theorem count_readLines_le (lines : List Text) :
    (readLines lines).flatten.count '\\' ≤
      (lines.map fun line => (unquote line).1).flatten.count '\\' := by
  induction lines with
  | nil => exact Nat.le_refl _
  | cons line lines ih =>
    rw [readLines, List.map_cons, List.flatten_cons, List.count_append]
    by_cases hmore : (unquote line).2 = true
    · rw [if_pos hmore]
      cases hrest : readLines lines with
      | nil => exact Nat.zero_le _
      | cons next rest =>
        rw [hrest, List.flatten_cons, List.count_append] at ih
        rw [List.flatten_cons, List.count_append, List.count_append]
        omega
    · rw [if_neg hmore, List.flatten_cons, List.count_append]
      exact Nat.add_le_add_left ih _

theorem count_flatten_map_le {g h : Text → Text}
    (hle : ∀ s ∈ lines, (g s).count '\\' ≤ (h s).count '\\') :
    (lines.map g).flatten.count '\\' ≤ (lines.map h).flatten.count '\\' := by
  induction lines with
  | nil => exact Nat.le_refl _
  | cons line lines ih =>
    obtain ⟨hline, hle⟩ := List.forall_mem_cons.mp hle
    simp only [List.map_cons, List.flatten_cons, List.count_append]
    exact Nat.add_le_add hline (ih hle)

theorem count_flatten_map_lt {g h : Text → Text}
    (hle : ∀ s ∈ lines, (g s).count '\\' ≤ (h s).count '\\')
    (hlt : ∃ s ∈ lines, (g s).count '\\' < (h s).count '\\') :
    (lines.map g).flatten.count '\\' < (lines.map h).flatten.count '\\' := by
  induction lines with
  | nil => simp at hlt
  | cons line lines ih =>
    obtain ⟨hline, hle⟩ := List.forall_mem_cons.mp hle
    simp only [List.map_cons, List.flatten_cons, List.count_append]
    rw [List.exists_mem_cons_iff] at hlt
    rcases hlt with hlt | hlt
    · exact Nat.add_lt_add_of_lt_of_le hlt (count_flatten_map_le hle)
    · exact Nat.add_lt_add_of_le_of_lt hline (ih hle hlt)

theorem backslash_not_runChar : runChar '\\' = false := by decide

theorem count_rename (k : Job) (line : Text) : (k.rename line).count '\\' = line.count '\\' := by
  rw [Job.rename, count_join (fits_rename k line) backslash_not_runChar,
    count_delims backslash_not_runChar]

theorem count_sedOnce {pat rep : Text} (hpat : Named pat) (hrep : Named rep) (line : Text) :
    (sedOnce pat rep line).count '\\' = line.count '\\' := by
  rw [sedOnce_eq_join hpat, count_join (fits_sedFirst hrep.run (fits_runs runChar line))
    backslash_not_runChar, count_delims backslash_not_runChar]

theorem count_sed (k : Job) (line : Text) : (k.sed line).count '\\' = line.count '\\' := by
  have hs := named_name k.source
  have ht := named_name k.target
  have hsp := named_append_p k.source
  have htp := named_append_p k.target
  rw [Job.sed]
  split
  · split
    · exact (count_sedOnce hs ht _).trans (count_sedOnce hsp htp line)
    · exact (count_sedOnce hs ht _).trans (count_sedOnce hsp ht line)
  · split
    · split
      · exact count_sedOnce hs htp line
      · exact count_sedOnce hs ht line
    · exact count_sedOnce hs ht line

theorem count_replace_le (hstill : expands line = false) :
    (k.replaceSourcedevTargetdev2 line).count '\\' ≤ line.count '\\' := by
  rw [Job.replaceSourcedevTargetdev2, if_neg (Bool.eq_false_iff.mp hstill)]
  calc (echo (k.sed (echo line))).count '\\'
      ≤ (k.sed (echo line)).count '\\' := count_echo_le (by decide) (by decide) _
    _ = (echo line).count '\\' := count_sed k _
    _ ≤ line.count '\\' := count_echo_le (by decide) (by decide) line

theorem eq_nil_of_rename (h : k.rename line = []) : line = [] := by
  have hfits := fits_rename k line
  have hnone : ∀ c, c ∉ k.rename line := by simp [h]
  have hdelims : delims runChar line = [] := by
    rw [List.eq_nil_iff_forall_not_mem]
    exact fun c hc => hnone c ((mem_join hfits).mpr (Or.inr hc))
  have hruns : ∀ w ∈ runs runChar line, w = [] := by
    intro w hw
    refine (alike_renameRun (k := k) w).nil_iff.mpr ?_
    rw [List.eq_nil_iff_forall_not_mem]
    intro c hc
    refine hnone c ((mem_join hfits).mpr (Or.inl ?_))
    exact List.mem_flatten.mpr ⟨_, List.mem_map_of_mem hw, hc⟩
  rw [List.eq_nil_iff_forall_not_mem]
  intro c hc
  rw [← join_runs runChar line, mem_join (fits_runs runChar line), hdelims] at hc
  rcases hc with hc | hc
  · obtain ⟨w, hw, hc⟩ := List.mem_flatten.mp hc
    rw [hruns w hw] at hc
    cases hc
  · cases hc

/-- A file with a backslash comes out with fewer of them. -/
theorem backslash_notMem (hstill : ∀ line ∈ readLines lines, expands line = false)
    (h : (readLines lines).map k.replaceSourcedevTargetdev2 = lines.map k.rename) :
    ∀ line ∈ lines, '\\' ∉ line := by
  intro line hline hmem
  have hcount : ((readLines lines).map k.replaceSourcedevTargetdev2).flatten.count '\\' =
      (lines.map k.rename).flatten.count '\\' := by rw [h]
  have hreplace := count_flatten_map_le
    (g := k.replaceSourcedevTargetdev2) (h := id) fun s hs => count_replace_le (hstill s hs)
  have hread := count_readLines_le lines
  have hrename := count_flatten_map_lt (g := fun s => (unquote s).1)
    (h := k.rename)
    (fun s _ => (count_unquote s).1.trans (count_rename k s).ge)
    ⟨line, hline, ((count_unquote line).2 hmem).trans_eq (count_rename k line).symm⟩
  rw [List.map_id] at hreplace
  omega

theorem replace_file_iff (hstill : ∀ line ∈ readLines f.lines, expands line = false) :
    k.replaceSourcedevTargetdev f = k.renameFile f ↔ k.RenamableFile f := by
  rw [Job.replaceSourcedevTargetdev, Job.renameFile, File.mk.injEq]
  constructor
  · rintro ⟨hlines, hrest⟩
    have hunquoted := backslash_notMem hstill hlines
    rw [readLines_eq_self hunquoted] at hlines hstill
    rw [List.map_inj_left] at hlines
    refine ⟨eq_nil_of_rename hrest.symm, hunquoted, ?_⟩
    exact fun line hline => (replace_line_iff (hstill line hline)).mp (hlines line hline)
  · rintro ⟨hended, hunquoted, hlines⟩
    rw [readLines_eq_self hunquoted, hended]
    refine ⟨?_, ((alike_renameRun (k := k) []).nil_iff.mp rfl).symm⟩
    rw [List.map_inj_left]
    exact fun line hline => (replace_line_iff (hlines line hline).still).mpr (hlines line hline)

end Files

/-- A line or a file is renamed just if it is tidy and its references are those replaced. -/
theorem Job.renamed_iff (k : Job) :
    (∀ line, expands line = true ∨
      (k.replaceSourcedevTargetdev2 line = k.rename line ↔ k.Renamable line)) ∧
    ∀ f : File, (∃ line ∈ readLines f.lines, expands line = true) ∨
      (k.replaceSourcedevTargetdev f = k.renameFile f ↔ k.RenamableFile f) := by
  constructor
  · intro line
    by_cases hstill : expands line = true
    · exact Or.inl hstill
    · exact Or.inr (replace_line_iff (Bool.eq_false_iff.mpr hstill))
  · intro f
    by_cases hstill : ∃ line ∈ readLines f.lines, expands line = true
    · exact Or.inl hstill
    · push Not at hstill
      exact Or.inr (replace_file_iff fun line hline => Bool.eq_false_iff.mpr (hstill line hline))

/-- A partition of a Mylex disk, which `ParseDisk` knows and `egrep` does not. -/
theorem Job.mylex_keeps_p :
    ∃ k : Job, k.source = .controller .rd 0 0 ∧ k.target = .ide ⟨'a', by decide⟩ ∧
      k.replaceSourcedevTargetdev2 "/dev/rd/c0d0p1 /home".toList = "/dev/hdap1 /home".toList ∧
      k.rename "/dev/rd/c0d0p1 /home".toList = "/dev/hda1 /home".toList :=
  ⟨⟨.controller .rd 0 0, .ide ⟨'a', by decide⟩, id⟩, rfl, rfl, by decide +kernel, by decide +kernel⟩


end Renaming
