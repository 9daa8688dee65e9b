import Mathlib.Data.List.Pairwise
import Mathlib.Data.List.Perm.Basic
import MkCDrec.Lib.Words
import MkCDrec.MetaDevices

/-!
# The script that creates arrays again

`Analyse_mdadm_conf` reads the lines of `mdadm.conf` that have `ARRAY` or `devices` in them
and writes `mdadm-create.sh`. An `ARRAY` line is read in a pipeline of its own, with the
members from `/proc/mdstat`; what it reads is gone when a line of devices follows.
-/

namespace MdadmConf

open ShellText DeviceNames MetaDevices

/-- A line of `mdadm-create.sh`. -/
inductive Command
  | mknod (minor : Nat)
  | stop (dev : Text)
  | zeroSuperblock (dev : Text)
  | create (dev level raidDevices : Text) (devices : Words)
deriving DecidableEq

/-- The array that `mdadm` is called for. -/
def Command.array : Command → Option Text
  | mknod _ => none
  | stop dev => some dev
  | zeroSuperblock _ => none
  | create dev _ _ _ => some dev

def Command.created : Command → Option Text
  | create dev _ _ _ => some dev
  | _ => none

/-- The columns 5 to 8 of the lines of `mdstat` with the name, up to the bracket. -/
def columns (mdstat : List Device) (dev : Text) : Words :=
  ((mdstat.map Device.line).filter (grep dev)).flatMap fun l =>
    ((l.drop 4).take 4).map (cut '[' 1)

/-- `read junk MD_dev level numdev uuid`, in a pipeline. -/
def arrayLine (mdstat : List Device) (inline : Words) : List Command :=
  let md_dev := inline.getD 1 []
  let level := inline.getD 2 []
  let numdev := inline.getD 3 []
  let raidlevel :=
    if "level".toList <+: level then sedOnce "raid".toList [] (cut '=' 2 level) else []
  let raidDevices :=
    if "num".toList <+: numdev then sedOnce "num-devices=".toList [] (cut '=' 2 numdev) else []
  let parts := (columns mdstat (cutFrom '/' 3 md_dev)).map ("/dev/".toList ++ ·)
  .stop md_dev :: (parts.map .zeroSuperblock ++ [.create md_dev raidlevel raidDevices parts])

/-- A line of devices: `MD_dev`, `MD_raidlevel` and `MD_numdev` are not set here. -/
def devicesLine (inline : Words) : List Command :=
  let devices := Words.words (sedOnce [','] [' '] (cut '=' 2 ([' '].intercalate inline)))
  .stop [] :: (devices.map .zeroSuperblock ++ [.create [] [] [] devices])

/-- The loop over the lines. -/
def analyse (mdstat : List Device) (conf : List Words) : List Command :=
  (List.range 10).map .mknod ++
    (conf.filter fun l => grep "ARRAY".toList l || grep "devices".toList l).flatMap fun l =>
      if "ARRAY".toList <+: l.headD [] then arrayLine mdstat l else devicesLine l

inductive Level
  | raid (n : Nat)
  | linear
  | multipath
deriving DecidableEq

def Level.name : Level → Text
  | raid n => "raid".toList ++ numeral n
  | linear => "linear".toList
  | multipath => "multipath".toList

/-- The level as an argument of `mdadm`. -/
def Level.argument : Level → Text
  | raid n => numeral n
  | linear => "linear".toList
  | multipath => "multipath".toList

/-- What an `ARRAY` line says behind the name. -/
inductive Attribute
  | level
  | numDevices
  | other (w : Text) (plain : ¬ "level".toList <+: w ∧ ¬ "num".toList <+: w)

/-- An array in `mdadm.conf`. -/
structure Entry where
  device : Device
  /-- The name is `/dev/md/0`, not `/dev/md0`. -/
  devfs : Bool
  level : Level
  numDevices : Nat
  attributes : List Attribute
  /-- A line of devices follows. -/
  devices : Bool

namespace Entry

variable (e : Entry)

def name : Text := "md".toList ++ ((if e.devfs then ['/'] else []) ++ numeral e.device.number)

def dev : Text := "/dev/".toList ++ e.name

def word : Attribute → Text
  | .level => "level=".toList ++ e.level.name
  | .numDevices => "num-devices=".toList ++ numeral e.numDevices
  | .other w _ => w

def members : Words := e.device.members.map fun m => "/dev/".toList ++ m.partition

def lines : List Words :=
  ("ARRAY".toList :: e.dev :: e.attributes.map e.word) ::
    if e.devices then [["devices=".toList ++ [','].intercalate e.members]] else []

end Entry

/-- The arrays of a machine. A word of the state of an array is no partition. -/
structure Config where
  mdstat : List Device
  entries : List Entry
  listed : ∀ e ∈ entries, e.device ∈ mdstat
  distinct : (entries.map fun e => e.device.number).Nodup
  numbers : (mdstat.map Device.number).Nodup
  partitions : (mdstat.flatMap fun a => a.members.map Member.partition).Nodup
  states : ∀ a ∈ mdstat, ∀ b ∈ mdstat, ∀ m ∈ b.members, m.partition ∉ a.state
  kernel : ∀ a ∈ mdstat, grep "md/".toList a.line = false

namespace Config

variable (k : Config)

/-- `mdadm-create.sh`. -/
def script : List Command := analyse k.mdstat (k.entries.flatMap Entry.lines)

/-- The one command that creates the array has its level, its number of devices and its
members, which are zeroed before. -/
def Recreated (e : Entry) : Prop :=
  ∃ pre devices post,
    k.script = pre ++ .create e.dev e.level.argument (numeral e.numDevices) devices :: post ∧
      devices.Perm e.members ∧ (∀ m ∈ e.members, .zeroSuperblock m ∈ pre) ∧
      ∀ c ∈ pre ++ post, c.created ≠ some e.dev

structure Right : Prop where
  recreated : ∀ e ∈ k.entries, k.Recreated e
  named : ∀ c ∈ k.script, ∀ dev, c.array = some dev → ∃ e ∈ k.entries, dev = e.dev

/-- The lines are of the one form that is understood, and `mdstat` has up to four members
behind a state of two words, and no other members on a line with the name of the array. -/
structure Plain : Prop where
  devices : ∀ e ∈ k.entries, e.devices = false
  attributes : ∀ e ∈ k.entries, ∃ more, e.attributes = .level :: .numDevices :: more
  devfs : ∀ e ∈ k.entries, e.devfs = false
  state : ∀ e ∈ k.entries, e.device.state.length = 2
  members : ∀ e ∈ k.entries, e.device.members.length ≤ 4
  alone : ∀ e ∈ k.entries, ∀ b ∈ k.mdstat, grep e.device.name b.line = true →
    b = e.device ∨ b.state.length + b.members.length ≤ 2

end Config

section Lines

variable {mdstat : List Device} {a : Device} {e e' : Entry} {dev : Text}

/-- What the columns 5 to 8 show of the line of an array. -/
def shown (a : Device) : Words := ((a.state ++ a.members.map Member.partition).drop 2).take 4

theorem cut_word (m : Member) : cut '[' 1 m.word = m.partition := by
  have hplain : ∀ c ∈ m.partition, decide (c ≠ '[') = true := by
    intro c hc
    simpa using ne_of_mem_of_not_mem hc m.plain
  rw [cut, if_pos (by simp [Member.word]), head_splitOn, Member.word,
    List.takeWhile_append_of_pos hplain]
  simp

theorem cut_line (a : Device) : ((a.line.drop 4).take 4).map (cut '[' 1) = shown a := by
  have hstate : a.state.map (cut '[' 1) = a.state := by
    refine (List.map_congr_left ?_).trans (List.map_id _)
    intro w hw
    exact cut_absent (a.plain w hw)
  have hmembers : (a.members.map Member.word).map (cut '[' 1) = a.members.map Member.partition := by
    rw [List.map_map]
    refine List.map_congr_left ?_
    intro m _
    exact cut_word m
  rw [shown, ← hmembers, List.map_take, List.map_drop, Device.line]
  simp [hstate]

theorem columns_eq (mdstat : List Device) (dev : Text) :
    columns mdstat dev = (mdstat.filter fun a => grep dev a.line).flatMap shown := by
  rw [columns, List.filter_map, List.flatMap_map]
  refine List.flatMap_congr ?_
  intro a _
  exact cut_line a

theorem mem_columns {w : Text} : w ∈ columns mdstat dev ↔
    ∃ a ∈ mdstat, grep dev a.line = true ∧ w ∈ shown a := by
  simp [columns_eq, and_assoc]

theorem cutFrom_dev (name : Text) : cutFrom '/' 3 ("/dev/".toList ++ name) = name := by
  rw [cutFrom, if_pos (by simp), Clone.splitOn_dev]
  exact List.intercalate_splitOn '/'

theorem equals_notMem_name (l : Level) : '=' ∉ l.name := by
  cases l with
  | raid n =>
    intro h
    rcases List.mem_append.mp h with h | h
    · exact absurd h (by decide)
    · exact notMem_numeral (by decide) _ h
  | linear => decide
  | multipath => decide

theorem sedOnce_name (l : Level) : sedOnce "raid".toList [] l.name = l.argument := by
  cases l with
  | raid n => exact sedOnce_append (by decide) [] (numeral n)
  | linear => decide
  | multipath => decide

theorem argument_ne_nil (l : Level) : l.argument ≠ [] := by
  cases l with
  | raid n => exact numeral_ne_nil n
  | linear => decide
  | multipath => decide

theorem sedOnce_numeral (n : Nat) : sedOnce "num-devices=".toList [] (numeral n) = numeral n := by
  rw [sedOnce_eq_self_iff (by decide)]
  refine Or.inr ?_
  intro h
  exact notMem_numeral (c := '=') (by decide) n (h.subset (by decide))

/-- The level that is read from an attribute. -/
theorem level_word (e : Entry) (t : Attribute) :
    (if "level".toList <+: e.word t then sedOnce "raid".toList [] (cut '=' 2 (e.word t)) else []) =
      match t with
      | .level => e.level.argument
      | _ => [] := by
  cases t with
  | level =>
    have hcut : cut '=' 2 (e.word .level) = e.level.name :=
      cut_two (a := "level".toList) (by decide) (equals_notMem_name e.level)
    have hpre : "level".toList <+: e.word .level :=
      List.prefix_append "level".toList ('=' :: e.level.name)
    rw [if_pos hpre, hcut]
    exact sedOnce_name e.level
  | numDevices =>
    have hother : ¬ "level".toList <+: e.word .numDevices := by
      intro h
      exact absurd (List.cons_prefix_cons.mp h).1 (by decide)
    rw [if_neg hother]
  | other w plain => rw [if_neg (by exact plain.1)]

theorem num_word (e : Entry) (t : Attribute) :
    (if "num".toList <+: e.word t then sedOnce "num-devices=".toList [] (cut '=' 2 (e.word t))
      else []) =
      match t with
      | .numDevices => numeral e.numDevices
      | _ => [] := by
  cases t with
  | level =>
    have hother : ¬ "num".toList <+: e.word .level := by
      intro h
      exact absurd (List.cons_prefix_cons.mp h).1 (by decide)
    rw [if_neg hother]
  | numDevices =>
    have hequals : '=' ∉ numeral e.numDevices := by
      intro h
      exact notMem_numeral (by decide) _ h
    have hcut : cut '=' 2 (e.word .numDevices) = numeral e.numDevices :=
      cut_two (a := "num-devices".toList) (by decide) hequals
    have hpre : "num".toList <+: e.word .numDevices :=
      List.prefix_append "num".toList ("-devices=".toList ++ numeral e.numDevices)
    rw [if_pos hpre, hcut]
    exact sedOnce_numeral e.numDevices
  | other w plain => rw [if_neg (by exact plain.2)]

/-- The level and the number of devices, if they stand where they are read. -/
def readLevel : List Attribute → Entry → Text
  | .level :: _, e => e.level.argument
  | _, _ => []

def readNumDevices : List Attribute → Entry → Text
  | _ :: .numDevices :: _, e => numeral e.numDevices
  | _, _ => []

/-- The commands for an `ARRAY` line. -/
def Entry.commands (e : Entry) (mdstat : List Device) : List Command :=
  let parts := (columns mdstat e.name).map ("/dev/".toList ++ ·)
  .stop e.dev :: (parts.map .zeroSuperblock ++
    [.create e.dev (readLevel e.attributes e) (readNumDevices e.attributes e) parts])

theorem arrayLine_eq (mdstat : List Device) (e : Entry) :
    arrayLine mdstat ("ARRAY".toList :: e.dev :: e.attributes.map e.word) = e.commands mdstat := by
  have hlevel : (if "level".toList <+: (e.attributes.map e.word).getD 0 [] then
      sedOnce "raid".toList [] (cut '=' 2 ((e.attributes.map e.word).getD 0 [])) else []) =
        readLevel e.attributes e := by
    cases e.attributes with
    | nil => rfl
    | cons t more =>
      rw [List.map_cons, List.getD_cons_zero, level_word]
      cases t <;> rfl
  have hnum : (if "num".toList <+: (e.attributes.map e.word).getD 1 [] then
      sedOnce "num-devices=".toList [] (cut '=' 2 ((e.attributes.map e.word).getD 1 [])) else []) =
        readNumDevices e.attributes e := by
    cases e.attributes with
    | nil => rfl
    | cons t more =>
      cases more with
      | nil => cases t <;> rfl
      | cons u more =>
        rw [List.map_cons, List.map_cons, List.getD_cons_succ, List.getD_cons_zero, num_word]
        cases u <;> rfl
  rw [Entry.commands, ← hlevel, ← hnum]
  simp only [arrayLine, List.getD_cons_succ, List.getD_cons_zero, Entry.dev, cutFrom_dev]

/-- What the loop makes of the lines of an array. -/
def Entry.turn (e : Entry) (mdstat : List Device) : List Command :=
  e.commands mdstat ++
    if e.devices then devicesLine ["devices=".toList ++ [','].intercalate e.members] else []

theorem analyse_lines (mdstat : List Device) (entries : List Entry) :
    analyse mdstat (entries.flatMap Entry.lines) =
      (List.range 10).map .mknod ++ entries.flatMap fun e => e.turn mdstat := by
  rw [analyse]
  congr 1
  induction entries with
  | nil => rfl
  | cons e entries ih =>
    rw [List.flatMap_cons, List.filter_append, List.flatMap_append, ih, List.flatMap_cons]
    congr 1
    have harray : grep "ARRAY".toList ("ARRAY".toList :: e.dev :: e.attributes.map e.word) =
        true := by
      simp only [grep, List.any_cons, List.infix_rfl, decide_true, Bool.true_or]
    have hdevices : grep "devices".toList ["devices=".toList ++ [','].intercalate e.members] =
        true := by
      simp only [grep, List.any_cons, List.any_nil, Bool.or_false, decide_eq_true_eq]
      exact (List.prefix_append "devices".toList ('=' :: [','].intercalate e.members)).isInfix
    have hother : ¬ "ARRAY".toList <+: "devices=".toList ++ [','].intercalate e.members := by
      intro h
      exact absurd (List.cons_prefix_cons.mp h).1 (by decide)
    rw [Entry.lines, Entry.turn, List.filter_cons_of_pos (by rw [harray, Bool.true_or]),
      List.flatMap_cons, List.headD_cons, if_pos List.prefix_rfl, arrayLine_eq]
    congr 1
    cases e.devices with
    | false => rfl
    | true =>
      rw [if_pos rfl, if_pos rfl, List.filter_cons_of_pos (by rw [hdevices, Bool.or_true]),
        List.filter_nil, List.flatMap_cons, List.headD_cons, if_neg hother, List.flatMap_nil,
        List.append_nil]

end Lines

section Names

variable {e e' : Entry} {c : Command} {mdstat : List Device} {dev : Text}

theorem dev_ne_nil (e : Entry) : e.dev ≠ [] := by
  intro h
  exact absurd (List.append_eq_nil_iff.mp h).1 (by decide)

/-- Two names of one array have its number. -/
theorem number_eq_of_dev (h : e.dev = e'.dev) : e.device.number = e'.device.number := by
  have hname := List.append_cancel_left (List.append_cancel_left h)
  have hslash : ∀ n, '/' ∉ numeral n := by
    intro n hn
    exact notMem_numeral (by decide) _ hn
  cases hd : e.devfs with
  | false =>
    cases hd' : e'.devfs with
    | false =>
      rw [hd, hd'] at hname
      exact numeral_injective hname
    | true =>
      rw [hd, hd'] at hname
      have hmem : '/' ∈ numeral e.device.number := by
        have hnumeral : numeral e.device.number = '/' :: numeral e'.device.number := hname
        rw [hnumeral]
        exact List.mem_cons_self
      exact absurd hmem (hslash e.device.number)
  | true =>
    cases hd' : e'.devfs with
    | false =>
      rw [hd, hd'] at hname
      have hmem : '/' ∈ numeral e'.device.number := by
        have hnumeral : '/' :: numeral e.device.number = numeral e'.device.number := hname
        rw [← hnumeral]
        exact List.mem_cons_self
      exact absurd hmem (hslash e'.device.number)
    | true =>
      rw [hd, hd'] at hname
      exact numeral_injective (List.cons_inj_right '/' |>.mp hname)

theorem array_of_created (h : c.created = some dev) : c.array = some dev := by
  cases c with
  | mknod _ => cases h
  | stop _ => cases h
  | zeroSuperblock _ => cases h
  | create _ _ _ _ => exact h

theorem array_commands (hc : c ∈ e.commands mdstat) (h : c.array = some dev) : dev = e.dev := by
  rcases List.mem_cons.mp hc with rfl | hc
  · exact (Option.some.inj h).symm
  · rcases List.mem_append.mp hc with hc | hc
    · obtain ⟨w, _, rfl⟩ := List.mem_map.mp hc
      cases h
    · obtain rfl := List.mem_singleton.mp hc
      exact (Option.some.inj h).symm

theorem array_mknod (hc : c ∈ (List.range 10).map Command.mknod) : c.array = none := by
  obtain ⟨i, _, rfl⟩ := List.mem_map.mp hc
  rfl

theorem map_path_injective : Function.Injective fun w : Text => "/dev/".toList ++ w :=
  fun _ _ h => List.append_cancel_left h

end Names

section Members

variable {k : Config} {e : Entry} {a b : Device}

theorem eq_of_dev {e' : Entry} (he : e ∈ k.entries) (he' : e' ∈ k.entries) (h : e.dev = e'.dev) :
    e = e' :=
  List.inj_on_of_nodup_map k.distinct he he' (number_eq_of_dev h)

/-- Partitions that are shown of another array are none of its members. -/
theorem shown_eq_nil (ha : a ∈ k.mdstat) (hb : b ∈ k.mdstat) (hab : b ≠ a)
    (h : ∀ w ∈ shown b, w ∈ a.members.map Member.partition) : shown b = [] := by
  refine List.eq_nil_iff_forall_not_mem.mpr ?_
  intro w hw
  obtain ⟨m, hm, rfl⟩ := List.mem_map.mp (h w hw)
  rcases List.mem_append.mp (List.mem_of_mem_drop (List.mem_of_mem_take hw)) with hstate | hmember
  · exact k.states b hb a ha m hm hstate
  · have hdisjoint := (List.nodup_flatMap.mp k.partitions).2
    have hsymm : Std.Symm (Function.onFun List.Disjoint
        fun a : Device => a.members.map Member.partition) := ⟨fun _ _ h => h.symm⟩
    exact hdisjoint.forall hb ha hab hmember (List.mem_map_of_mem hm)

theorem shown_eq_nil_iff (a : Device) : shown a = [] ↔ a.state.length + a.members.length ≤ 2 := by
  rw [shown, List.take_eq_nil_iff, List.drop_eq_nil_iff]
  simp

/-- The columns are the members where the state has two words and the members are at most
four. -/
theorem shown_perm_iff (ha : a ∈ k.mdstat) :
    (shown a).Perm (a.members.map Member.partition) ↔
      a.state.length = 2 ∧ a.members.length ≤ 4 := by
  have hpos : 0 < a.members.length := List.length_pos_iff.mpr a.members_ne
  constructor
  · intro h
    have hstate : a.state.length ≤ 2 := by
      by_contra hlong
      obtain ⟨w, hw⟩ : ∃ w, a.state[2]? = some w :=
        ⟨_, List.getElem?_eq_getElem (Nat.not_le.mp hlong)⟩
      have hmem : w ∈ shown a := by
        rw [shown, List.mem_iff_getElem?]
        refine ⟨0, ?_⟩
        rw [List.getElem?_take_of_lt (by decide), List.getElem?_drop,
          List.getElem?_append_left (Nat.not_le.mp hlong)]
        exact hw
      obtain ⟨m, hm, rfl⟩ := List.mem_map.mp (h.subset hmem)
      exact k.states a ha a ha m hm (List.mem_of_getElem? hw)
    have hlen := h.length_eq
    simp only [shown, List.length_take, List.length_drop, List.length_append, List.length_map]
      at hlen
    omega
  · rintro ⟨hstate, hlen⟩
    rw [shown, List.drop_append_of_le_length (Nat.le_of_eq hstate.symm),
      List.drop_of_length_le (Nat.le_of_eq hstate), List.nil_append, List.take_of_length_le]
    rw [List.length_map]
    exact hlen

theorem name_of_plain (h : e.devfs = false) : e.name = e.device.name := by
  rw [Entry.name, h]
  rfl

theorem grep_own (a : Device) : grep a.name a.line = true := by
  simp only [grep, Device.line, List.any_cons, List.infix_rfl, decide_true, Bool.true_or]

/-- A name with a slash behind `md` is not in `mdstat`. -/
theorem columns_devfs (h : e.devfs = true) : columns k.mdstat e.name = [] := by
  rw [columns_eq]
  have hnone : k.mdstat.filter (fun a => grep e.name a.line) = [] := by
    refine List.filter_eq_nil_iff.mpr ?_
    intro a ha hgrep
    obtain ⟨w, hw, hin⟩ := List.any_eq_true.mp hgrep
    have hkernel := grep_eq_false_iff.mp (k.kernel a ha) w hw
    refine hkernel (List.IsInfix.trans ?_ (of_decide_eq_true hin))
    rw [Entry.name, h]
    exact (List.prefix_append "md/".toList (numeral e.device.number)).isInfix
  rw [hnone]
  rfl

/-- Where the name occurs in no other line with members, the columns are those of its line. -/
theorem columns_alone (ha : a ∈ k.mdstat)
    (h : ∀ b ∈ k.mdstat, grep a.name b.line = true → b = a ∨ shown b = []) :
    columns k.mdstat a.name = shown a := by
  rw [columns_eq]
  obtain ⟨pre, post, hsplit⟩ := List.append_of_mem ha
  have hnodup := k.numbers
  rw [hsplit, List.map_append, List.map_cons, List.nodup_middle, List.nodup_cons] at hnodup
  have hother : ∀ b, b ∈ pre ++ post → b ≠ a := by
    rintro b hb rfl
    refine hnodup.1 ?_
    rw [← List.map_append]
    exact List.mem_map_of_mem hb
  have hnil : ∀ l : List Device, (∀ b ∈ l, b ∈ pre ++ post) →
      (l.filter fun b => grep a.name b.line).flatMap shown = [] := by
    intro l hl
    refine List.flatMap_eq_nil_iff.mpr ?_
    intro b hb
    obtain ⟨hbl, hgrep⟩ := List.mem_filter.mp hb
    have hmem : b ∈ k.mdstat := by
      rw [hsplit]
      rcases List.mem_append.mp (hl b hbl) with hpre | hpost
      · exact List.mem_append_left _ hpre
      · exact List.mem_append_right _ (List.mem_cons_of_mem _ hpost)
    rcases h b hmem hgrep with rfl | hshown
    · exact absurd rfl (hother _ (hl _ hbl))
    · exact hshown
  have hown : (a :: post).filter (fun b => grep a.name b.line) =
      a :: post.filter fun b => grep a.name b.line := List.filter_cons_of_pos (grep_own a)
  rw [hsplit, List.filter_append, hown, List.flatMap_append,
    List.flatMap_cons, hnil pre fun b hb => List.mem_append_left _ hb,
    hnil post fun b hb => List.mem_append_right _ hb, List.nil_append, List.append_nil]

/-- What the look-up in `mdstat` finds are the members. -/
theorem columns_perm_iff (he : e ∈ k.entries) :
    (columns k.mdstat e.name).Perm (e.device.members.map Member.partition) ↔
      e.devfs = false ∧ e.device.state.length = 2 ∧ e.device.members.length ≤ 4 ∧
        ∀ b ∈ k.mdstat, grep e.device.name b.line = true →
          b = e.device ∨ b.state.length + b.members.length ≤ 2 := by
  have hdevice := k.listed e he
  constructor
  · intro h
    have hdevfs : e.devfs = false := by
      by_contra hdevfs
      rw [Bool.not_eq_false] at hdevfs
      rw [columns_devfs hdevfs] at h
      exact e.device.members_ne (List.map_eq_nil_iff.mp (List.nil_perm.mp h))
    rw [name_of_plain hdevfs] at h
    have halone : ∀ b ∈ k.mdstat, grep e.device.name b.line = true →
        b = e.device ∨ shown b = [] := by
      intro b hb hgrep
      by_cases hbe : b = e.device
      · exact Or.inl hbe
      · refine Or.inr (shown_eq_nil hdevice hb hbe ?_)
        intro w hw
        exact h.subset (mem_columns.mpr ⟨b, hb, hgrep, hw⟩)
    rw [columns_alone hdevice halone, shown_perm_iff hdevice] at h
    refine ⟨hdevfs, h.1, h.2, ?_⟩
    intro b hb hgrep
    exact (halone b hb hgrep).imp_right (shown_eq_nil_iff b).mp
  · rintro ⟨hdevfs, hstate, hlen, halone⟩
    rw [name_of_plain hdevfs, columns_alone hdevice, shown_perm_iff hdevice]
    · exact ⟨hstate, hlen⟩
    · intro b hb hgrep
      exact (halone b hb hgrep).imp_right (shown_eq_nil_iff b).mpr

end Members

namespace Config

variable {k : Config} {e : Entry} {c : Command}

theorem members_eq (e : Entry) :
    e.members = (e.device.members.map Member.partition).map ("/dev/".toList ++ ·) :=
  List.map_map.symm

theorem script_eq (k : Config) :
    k.script = (List.range 10).map .mknod ++ k.entries.flatMap fun e => e.turn k.mdstat :=
  analyse_lines k.mdstat k.entries

theorem turn_of_plain (h : e.devices = false) : e.turn k.mdstat = e.commands k.mdstat := by
  rw [Entry.turn, h, if_neg Bool.false_ne_true, List.append_nil]

theorem mem_script_of_turn (he : e ∈ k.entries) (hc : c ∈ e.turn k.mdstat) : c ∈ k.script := by
  rw [script_eq]
  exact List.mem_append_right _ (List.mem_flatMap.mpr ⟨e, he, hc⟩)

theorem create_mem_script (k : Config) (he : e ∈ k.entries) :
    .create e.dev (readLevel e.attributes e) (readNumDevices e.attributes e)
      ((columns k.mdstat e.name).map ("/dev/".toList ++ ·)) ∈ k.script := by
  refine mem_script_of_turn he (List.mem_append_left _ ?_)
  exact List.mem_cons_of_mem _ (List.mem_append_right _ List.mem_cons_self)

theorem read_of_attributes {more : List Attribute}
    (h : e.attributes = .level :: .numDevices :: more) :
    readLevel e.attributes e = e.level.argument ∧
      readNumDevices e.attributes e = numeral e.numDevices := by
  rw [h]
  exact ⟨rfl, rfl⟩

theorem attributes_of_read (hlevel : readLevel e.attributes e = e.level.argument)
    (hnum : readNumDevices e.attributes e = numeral e.numDevices) :
    ∃ more, e.attributes = .level :: .numDevices :: more := by
  have hne : numeral e.numDevices ≠ [] := numeral_ne_nil e.numDevices
  cases hattr : e.attributes with
  | nil =>
    rw [hattr] at hlevel
    exact absurd hlevel.symm (argument_ne_nil e.level)
  | cons t rest =>
    rw [hattr] at hlevel hnum
    cases t with
    | numDevices => exact absurd hlevel.symm (argument_ne_nil e.level)
    | other w plain => exact absurd hlevel.symm (argument_ne_nil e.level)
    | level =>
      cases rest with
      | nil => exact absurd hnum.symm hne
      | cons u more =>
        cases u with
        | level => exact absurd hnum.symm hne
        | other w plain => exact absurd hnum.symm hne
        | numDevices => exact ⟨more, rfl⟩

theorem Right.devices (h : k.Right) (he : e ∈ k.entries) : e.devices = false := by
  by_contra hdevices
  rw [Bool.not_eq_false] at hdevices
  have hstop : .stop [] ∈ k.script := by
    refine mem_script_of_turn he (List.mem_append_right _ ?_)
    rw [hdevices, if_pos rfl]
    exact List.mem_cons_self
  obtain ⟨e', _, hdev⟩ := h.named _ hstop [] rfl
  exact dev_ne_nil e' hdev.symm

theorem Right.plain (h : k.Right) : k.Plain := by
  have hread : ∀ e ∈ k.entries, readLevel e.attributes e = e.level.argument ∧
      readNumDevices e.attributes e = numeral e.numDevices ∧
      (columns k.mdstat e.name).Perm (e.device.members.map Member.partition) := by
    intro e he
    obtain ⟨pre, devices, post, hscript, hperm, _, honly⟩ := h.recreated e he
    have hmem := create_mem_script k he
    rw [hscript, List.mem_append, List.mem_cons] at hmem
    rcases hmem with hpre | heq | hpost
    · exact absurd rfl (honly _ (List.mem_append_left _ hpre))
    · obtain ⟨_, hlevel, hnum, rfl⟩ := Command.create.inj heq
      refine ⟨hlevel, hnum, ?_⟩
      rw [members_eq] at hperm
      exact (List.map_perm_map_iff map_path_injective).mp hperm
    · exact absurd rfl (honly _ (List.mem_append_right _ hpost))
  have hcolumns := fun e he => (columns_perm_iff he).mp (hread e he).2.2
  exact
    { devices := fun e he => h.devices he
      attributes := fun e he => attributes_of_read (hread e he).1 (hread e he).2.1
      devfs := fun e he => (hcolumns e he).1
      state := fun e he => (hcolumns e he).2.1
      members := fun e he => (hcolumns e he).2.2.1
      alone := fun e he => (hcolumns e he).2.2.2 }

theorem Plain.created (h : k.Plain) {l : List Entry} (hl : ∀ e ∈ l, e ∈ k.entries)
    (hc : c ∈ l.flatMap fun e => e.turn k.mdstat) {dev : Text} (hdev : c.array = some dev) :
    ∃ e ∈ l, dev = e.dev := by
  obtain ⟨e, he, hc⟩ := List.mem_flatMap.mp hc
  rw [turn_of_plain (h.devices e (hl e he))] at hc
  exact ⟨e, he, array_commands hc hdev⟩

theorem Plain.recreated (h : k.Plain) (he : e ∈ k.entries) : k.Recreated e := by
  obtain ⟨before, after, hsplit⟩ := List.append_of_mem he
  have hnodup : (before ++ e :: after).Nodup := by
    rw [← hsplit]
    exact List.Nodup.of_map _ k.distinct
  rw [List.nodup_middle, List.nodup_cons] at hnodup
  obtain ⟨more, hattr⟩ := h.attributes e he
  obtain ⟨hlevel, hnum⟩ := read_of_attributes hattr
  have hperm := (columns_perm_iff he).mpr
    ⟨h.devfs e he, h.state e he, h.members e he, h.alone e he⟩
  have hpaths : ((columns k.mdstat e.name).map ("/dev/".toList ++ ·)).Perm e.members := by
    rw [members_eq]
    exact hperm.map _
  have hturn := turn_of_plain (k := k) (h.devices e he)
  have hsub : ∀ e' ∈ before ++ after, e' ∈ k.entries := by
    intro e' he'
    rw [hsplit]
    rcases List.mem_append.mp he' with hb | ha
    · exact List.mem_append_left _ hb
    · exact List.mem_append_right _ (List.mem_cons_of_mem _ ha)
  -- commands of the other arrays do not create this one
  have hother : ∀ c ∈ (before ++ after).flatMap (fun e => e.turn k.mdstat),
      c.created ≠ some e.dev := by
    intro c hc hcreated
    obtain ⟨e', he', hdev⟩ := h.created hsub hc (array_of_created hcreated)
    have heq := eq_of_dev he (hsub e' he') hdev
    exact hnodup.1 (heq ▸ he')
  rw [List.flatMap_append] at hother
  refine ⟨(List.range 10).map .mknod ++ (before.flatMap fun e => e.turn k.mdstat) ++
      .stop e.dev :: ((columns k.mdstat e.name).map ("/dev/".toList ++ ·)).map .zeroSuperblock,
    (columns k.mdstat e.name).map ("/dev/".toList ++ ·),
    after.flatMap fun e => e.turn k.mdstat, ?_, hpaths, ?_, ?_⟩
  · rw [script_eq, hsplit, List.flatMap_append, List.flatMap_cons, hturn, Entry.commands, hlevel,
      hnum]
    simp only [List.append_assoc, List.cons_append, List.nil_append]
  · intro m hm
    refine List.mem_append_right _ (List.mem_cons_of_mem _ (List.mem_map_of_mem ?_))
    exact hpaths.symm.subset hm
  · intro c hc
    simp only [List.mem_append, List.mem_cons] at hc
    rcases hc with ((hc | hc) | rfl | hc) | hc
    · intro hcreated
      have harray := array_of_created hcreated
      rw [array_mknod hc] at harray
      cases harray
    · exact hother c (List.mem_append_left _ hc)
    · intro hcreated
      cases hcreated
    · obtain ⟨w, _, rfl⟩ := List.mem_map.mp hc
      intro hcreated
      cases hcreated
    · exact hother c (List.mem_append_right _ hc)

/-- Each array is created again with its members exactly where the configuration has the
form that is read. -/
theorem right_iff (k : Config) : k.Right ↔ k.Plain := by
  constructor
  · exact Right.plain
  · intro h
    refine ⟨fun e he => h.recreated he, ?_⟩
    intro c hc dev hdev
    rw [script_eq] at hc
    rcases List.mem_append.mp hc with hc | hc
    · rw [array_mknod hc] at hdev
      cases hdev
    · exact h.created (fun _ he => he) hc hdev

/-- An array over five disks. -/
def fiveDisks : Config where
  mdstat := [{
    number := 0
    state := ["active".toList, "raid5".toList]
    members := [⟨"sda1".toList, 0, false, by decide⟩, ⟨"sdb1".toList, 1, false, by decide⟩,
      ⟨"sdc1".toList, 2, false, by decide⟩, ⟨"sdd1".toList, 3, false, by decide⟩,
      ⟨"sde1".toList, 4, false, by decide⟩]
    fileSystem := none
    members_ne := List.cons_ne_nil _ _
    plain := by decide }]
  entries := [{
    device := {
      number := 0
      state := ["active".toList, "raid5".toList]
      members := [⟨"sda1".toList, 0, false, by decide⟩, ⟨"sdb1".toList, 1, false, by decide⟩,
        ⟨"sdc1".toList, 2, false, by decide⟩, ⟨"sdd1".toList, 3, false, by decide⟩,
        ⟨"sde1".toList, 4, false, by decide⟩]
      fileSystem := none
      members_ne := List.cons_ne_nil _ _
      plain := by decide }
    devfs := false
    level := .raid 5
    numDevices := 5
    attributes := [.level, .numDevices]
    devices := false }]
  listed := by simp
  distinct := by decide
  numbers := by decide
  partitions := by decide
  states := by decide
  kernel := by decide

/-- The fifth member is in the ninth column. -/
theorem member_lost : ¬ fiveDisks.Right := by
  intro h
  have hlen := (h.plain.members _ List.mem_cons_self)
  exact absurd hlen (by decide)

end Config

end MdadmConf
