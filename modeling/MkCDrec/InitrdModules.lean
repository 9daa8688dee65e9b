import MkCDrec.Lib.Columns
import MkCDrec.Lib.Loading
import MkCDrec.Lib.Patterns

/-!
# The modules of the initial ramdisk

`get_module` of `initrd.sh` copies a module with what it depends on and notes the names in
`modules.initrd`, unless `grep` finds the name there. `linuxrc` reads the file as a shell
assignment and inserts the modules in that order.
-/

namespace InitrdModules

open ShellText Words Columns Paths Patterns Collecting Loading

/-- The modules of a kernel, as `find` and `modprobe --show-depends` give their paths. -/
structure Kernel where
  find : Text → Option Text
  showDepends : Text → List Text
  /-- The version of `modprobe` is below 3. -/
  oldModprobe : Bool

def basename (path : Text) : Text := ((path.splitOn '/').getLast?).getD []

/-- `TargetBName`. -/
def target (path : Text) : Text := cutTo '.' 2 (basename path)

/-- `modlist`; a name after `@` is not looked up. -/
def Kernel.modlist (k : Kernel) : Text → List Text
  | '@' :: name => (k.find (name.take 999)).toList
  | name =>
    match k.find name with
    | none => []
    | some mod => if k.oldModprobe then [mod] else k.showDepends name

/-- One turn of the loop of `get_module`. -/
def note (file mod : Text) : Text :=
  if contains (target mod) file then file else file ++ (target mod ++ [' '])

def getModule (k : Kernel) (file name : Text) : Text := (k.modlist name).foldl note file

def header : Text := "MODULES=\"".toList

/-- `modules.initrd` after all calls of `get_module`. -/
def modulesInitrd (k : Kernel) (calls : List Text) : Text :=
  calls.foldl (getModule k) header ++ ['"', '\n']

/-- `$MODULES`, after the file was read. -/
def modules (file : Text) : List Text := words ((file.drop header.length).takeWhile (· ≠ '"'))

/-- The modules that `linuxrc` gets into the kernel. -/
def inserted (requires : Text → List Text) (file : Text) : List Text :=
  loadAll requires (modules file)

/-- The modules that the calls ask for, in their order. -/
def wanted (k : Kernel) (calls : List Text) : List Text :=
  calls.flatMap fun name => (k.modlist name).map target

/-- The file, when these modules were noted. -/
def noted (kept : List Text) : Text := header ++ kept.flatMap fun m => m ++ [' ']

def found (kept : List Text) (m : Text) : Bool := contains m (noted kept)

/-- A name that the shell takes for one word. -/
structure Plain (m : Text) : Prop where
  word : IsWord m
  quote : '"' ∉ m

section File

variable {kept : List Text} {m : Text}

theorem noted_append (kept rest : List Text) :
    noted (kept ++ rest) = noted kept ++ rest.flatMap fun m => m ++ [' '] := by
  rw [noted, noted, List.flatMap_append, List.append_assoc]

theorem test_found : Test found where
  self kept m h := by
    apply contains_of_infix
    obtain ⟨before, after, rfl⟩ := List.append_of_mem h
    rw [noted_append, List.flatMap_cons, List.append_assoc]
    exact ⟨noted before, [' '] ++ after.flatMap fun m => m ++ [' '], by simp⟩
  mono kept rest m h := by
    rw [found, noted_append]
    exact contains_mono h _

/-- The file holds what is collected. -/
theorem foldl_note (mods : List Text) :
    mods.foldl note header = noted (collect found (mods.map target)) := by
  induction mods using List.reverseRecOn with
  | nil => exact (List.append_nil header).symm
  | append_singleton mods mod ih =>
    rw [List.foldl_append, List.map_append, List.map_singleton, collect_snoc, ih]
    change note (noted (collect found (mods.map target))) mod = _
    rw [note]
    change (if found _ _ then _ else _) = _
    split
    · rfl
    · rw [noted_append, List.flatMap_singleton]

theorem modulesInitrd_eq (k : Kernel) (calls : List Text) :
    modulesInitrd k calls = noted (collect found (wanted k calls)) ++ ['"', '\n'] := by
  have hcalls : calls.foldl (getModule k) header = (calls.flatMap k.modlist).foldl note header := by
    rw [List.foldl_flatMap]
    rfl
  have hwanted : wanted k calls = (calls.flatMap k.modlist).map target := by
    rw [List.map_flatMap]
    rfl
  rw [modulesInitrd, hcalls, foldl_note, hwanted]

theorem words_noted (h : ∀ m ∈ kept, Plain m) :
    words (kept.flatMap fun m => m ++ [' ']) = kept := by
  induction kept with
  | nil => rfl
  | cons m kept ih =>
    obtain ⟨hm, hkept⟩ := List.forall_mem_cons.mp h
    rw [List.flatMap_cons, List.append_assoc, List.singleton_append, words_append,
      words_of_isWord hm.word, ih hkept]
    rfl

/-- The shell reads back the names that were noted. -/
theorem modules_noted (h : ∀ m ∈ kept, Plain m) : modules (noted kept ++ ['"', '\n']) = kept := by
  have hdrop : (noted kept ++ ['"', '\n']).drop header.length =
      (kept.flatMap fun m => m ++ [' ']) ++ ['"', '\n'] := by
    rw [noted, List.append_assoc, List.drop_left]
  have hquote : ∀ c ∈ kept.flatMap fun m => m ++ [' '], (decide (c ≠ '"')) = true := by
    intro c hc
    obtain ⟨m, hm, hcm⟩ := List.mem_flatMap.mp hc
    rw [decide_eq_true_iff]
    rintro rfl
    rcases List.mem_append.mp hcm with hcm | hcm
    · exact (h m hm).quote hcm
    · exact absurd (List.mem_singleton.mp hcm) (by decide)
  rw [modules, hdrop, List.takeWhile_append_of_pos hquote]
  simp [words_noted h]

end File

section Boot

variable {k : Kernel} {calls : List Text} {requires : Text → List Text}

/-- Where modules are asked for in an order that the kernel takes, all of them are inserted
exactly if no name is found in the file before it was noted. -/
theorem inserted_all_iff (hplain : ∀ m ∈ wanted k calls, Plain m)
    (hordered : Ordered requires (wanted k calls)) :
    (∀ m ∈ wanted k calls, m ∈ inserted requires (modulesInitrd k calls)) ↔
      ∀ pre m post, wanted k calls = pre ++ m :: post → m ∉ pre →
        contains m (noted pre.eraseDups) = false := by
  have hread : modules (modulesInitrd k calls) = collect found (wanted k calls) := by
    rw [modulesInitrd_eq]
    exact modules_noted fun m hm => hplain m (mem_of_mem_collect hm)
  rw [inserted, hread]
  constructor
  · intro hall
    exact clear_of_complete test_found fun m hm => mem_of_mem_loadAll (hall m hm)
  · intro hclear m hm
    rw [collect_of_clear test_found hclear, loadAll_eraseDups hordered]
    exact List.mem_eraseDups.mpr hm

end Boot

/-- A kernel with two drivers for one kind of USB controller. -/
def usbKernel : Kernel where
  find := fun name => some ("/lib/modules/2.4/".toList ++ (name ++ ".o".toList))
  showDepends := fun _ => []
  oldModprobe := true

def usbRequires (m : Text) : List Text := if m = "usbcore.o".toList then [] else ["usbcore.o".toList]

def usbCalls : List Text := ["usbcore".toList, "usb-uhci".toList, "uhci".toList]

theorem usb_wanted :
    wanted usbKernel usbCalls = ["usbcore.o".toList, "usb-uhci.o".toList, "uhci.o".toList] := by
  decide

theorem usb_plain : ∀ m ∈ wanted usbKernel usbCalls, Plain m := by
  rw [usb_wanted]
  simp only [List.forall_mem_cons]
  exact ⟨⟨⟨by decide, by decide, by decide⟩, by decide⟩,
    ⟨⟨by decide, by decide, by decide⟩, by decide⟩,
    ⟨⟨by decide, by decide, by decide⟩, by decide⟩, by simp⟩

theorem usb_ordered : Ordered usbRequires (wanted usbKernel usbCalls) := by
  intro pre a post heq ha d hd
  rw [usb_wanted] at heq
  rcases pre with _ | ⟨p, pre⟩
  · obtain ⟨rfl, _⟩ := List.cons.inj heq
    rw [usbRequires, if_pos rfl] at hd
    exact absurd hd List.not_mem_nil
  · obtain ⟨rfl, _⟩ := List.cons.inj heq
    rw [usbRequires] at hd
    split at hd
    · exact absurd hd List.not_mem_nil
    · rw [List.mem_singleton.mp hd]
      exact List.mem_cons_self

/-- `uhci.o` is found in `usb-uhci.o`, and never inserted. -/
theorem usb_not_inserted : ¬ ∀ m ∈ wanted usbKernel usbCalls,
    m ∈ inserted usbRequires (modulesInitrd usbKernel usbCalls) := by
  intro hall
  have hclear := (inserted_all_iff usb_plain usb_ordered).mp hall
    ["usbcore.o".toList, "usb-uhci.o".toList] "uhci.o".toList [] usb_wanted (by decide)
  exact absurd hclear (by decide)

end InitrdModules
