import MkCDrec.Lib.Columns

/-!
# Partition tables made again by `parted`

`create_parted_script_for_recovery` reads the list that `parted` prints of the partitions and
writes a `mkpart` for each of them. What is set behind that names the partition by the
number in the list, but `mkpart` takes the lowest number that is free. Of the flags only the
width of their column is read.
-/

namespace Parted

open ShellText Words Columns

inductive Layout
  | new
  | old
deriving DecidableEq

/-- A partition as it is printed. -/
structure Partition where
  number : Nat
  start : Text
  stop : Text
  size : Text
  fileSystem : Text
  name : Text
  flags : List Text

/-- The characters that are special to `printf` or to a shell. -/
def special : List Char := " \t\n|&;<>()$`\\\"'*?[\x7b%".toList

/-- A text that a command gets as it is written, and does not take for an option. -/
def Plain (t : Text) : Prop :=
  t ≠ [] ∧ (∀ c ∈ t, c ∉ special) ∧ t.head? ∉ [some '-', some '#', some '~']

instance : DecidablePred Plain := fun t =>
  letI : Decidable (∀ c ∈ t, c ∉ special) := List.decidableBAll (· ∉ special) t
  inferInstanceAs (Decidable (_ ∧ _ ∧ _))

/-- The words that the shells leave as they are, in the variable for `echo` and in a line of
the script. -/
structure Alone where
  keeps : Text → Bool
  word : ∀ {t}, keeps t = true → IsWord t
  option : ∀ {t}, keeps t = true → isOption t = false
  backslash : ∀ {t}, keeps t = true → '\\' ∉ t
  plain : ∀ {t}, Plain t → keeps t = true

/-- What `printf` and the shells make of the other texts depends on files and variables. -/
structure Shell (a : Alone) where
  printf : Text → Text
  printf_plain : ∀ t, '%' ∉ t → '\\' ∉ t → printf t = t
  glob : Text → List Text
  glob_keeps : ∀ t, a.keeps t = true → glob t = [t]
  argument : Text → Option Text
  argument_keeps : ∀ t, a.keeps t = true → argument t = some t

/-- `echo $s`. -/
def Shell.echo {a : Alone} (e : Shell a) (s : Text) : Text :=
  [' '].intercalate (((words s).flatMap e.glob).dropWhile isOption)

/-- `mkpart` gives a partition its first name: none, or the type `primary`. -/
inductive FirstName
  | empty
  | primary

def FirstName.text : FirstName → Text
  | empty => []
  | primary => "primary".toList

/-- A `parted`, with the flag that it takes a word for: an abbreviation will do. -/
structure Version where
  first : FirstName
  flag : Text → Option Text

section Printing

/-- The widths of the columns. -/
def widths : Layout → List Nat
  | .new => [8, 8, 8, 8, 13, 9, 10, 20]
  | .old => [6, 11, 11, 12, 22, 15]

def nameWidth : Layout → Nat
  | .new => 9
  | .old => 22

def flagsWidth : Layout → Nat
  | .new => 10
  | .old => 15

def flagsText (flags : List Text) : Text := [',', ' '].intercalate flags

def numberCell (n : Nat) : Text := if n < 10 then ' ' :: cell 7 (numeral n) else cell 8 (numeral n)

/-- The columns before the flags. -/
def cells : Layout → Partition → List Text
  | .new, p => [numberCell p.number, cell 8 p.start, cell 8 p.stop, cell 8 p.size,
      cell 13 p.fileSystem, cell 9 p.name]
  | .old, p => [cell 6 (numeral p.number), cellRight 11 p.start, cellRight 11 p.stop,
      cell 12 p.fileSystem, cell 22 p.name]

def line (l : Layout) (p : Partition) : Text := (cells l p).flatten ++ flagsText p.flags

/-- The partition has its place in the columns. Only a name can have special characters. -/
structure Fits (l : Layout) (p : Partition) : Prop where
  number : (numeral p.number).length < 6
  start : IsWord p.start ∧ p.start.length < (widths l).getD 1 0
  stop : IsWord p.stop ∧ p.stop.length < (widths l).getD 2 0
  size : p.size.length < 8
  fileSystem : p.fileSystem.length < 12
  name : p.name.length ≤ nameWidth l
  plain : ∀ t ∈ [p.start, p.stop, p.size, p.fileSystem], '%' ∉ t ∧ '\\' ∉ t
  flag : ∀ f ∈ p.flags, Plain f ∧ ',' ∉ f
  distinct : p.flags.Nodup
  one : '\n' ∉ line l p

end Printing

section Script

/-- What is taken from a line. -/
structure Row where
  minor : Text
  start : Text
  stop : Text
  name : Text
  flags : Text

def read : Layout → Text → Row
  | .new, text => ⟨(words text).getD 0 [], (words text).getD 1 [], (words text).getD 2 [],
      fieldAt (widths .new) 6 text, fieldAt (widths .new) 7 text⟩
  | .old, text => ⟨fieldAt (widths .old) 1 text, fieldAt (widths .old) 2 text,
      fieldAt (widths .old) 3 text, fieldAt (widths .old) 5 text, fieldAt (widths .old) 6 text⟩

/-- A line of the script, with the texts in it. -/
inductive Command
  | mklabel
  | mkpart (start stop : Text)
  | name (minor name : Text)
  | set (minor flag : Text)

def commands {a : Alone} (e : Shell a) (r : Row) : List Command :=
  let name := (e.echo r.name).filter fun c => c ≠ ' '
  .mkpart r.start r.stop :: (if name ≠ [] then [.name r.minor name] else []) ++
    ((words (tr ',' ' ' (e.echo r.flags))).flatMap e.glob).map (.set r.minor ·)

def heads : List Text := ["model".toList, "disk".toList, "minor".toList, "partition".toList,
  "sector".toList, "number".toList, "information".toList]

/-- `egrep -i '^(Model|Disk|...)'`. -/
def isHead (l : Text) : Bool := heads.any fun h => h <+: l.map Char.toLower

/-- `grep -q ^Number`. -/
def layoutOf (file : List Text) : Layout :=
  if file.any fun l => "Number".toList <+: l then .new else .old

/-- `create_parted_script_for_recovery`, without the first line, which leaves the script where it
was run before. -/
def script {a : Alone} (e : Shell a) (file : List Text) : List Command :=
  .mklabel :: (file.filter fun l => l ≠ [] && !isHead l).flatMap fun l =>
    commands e (read (layoutOf file) (e.printf l))

end Script

section Disk

/-- A partition of the disk. -/
structure Entry where
  number : Nat
  start : Text
  stop : Text
  name : Text
  flags : List Text

def lowestFree (t : List Entry) : Nat :=
  ((List.range (t.length + 1)).find? fun n => t.all fun e => e.number ≠ n + 1).getD 0 + 1

/-- What is done to the partition with a number. -/
def update (minor : Text) (f : Entry → Entry) (t : List Entry) : List Entry :=
  match words minor with
  | [m] => t.map fun e => if e.number = value m then f e else e
  | _ => t

variable {a : Alone} (v : Version) (e : Shell a)

def exec (t : List Entry) : Command → List Entry
  | .mklabel => []
  | .mkpart start stop =>
    match words start, words stop with
    | [start], [stop] => t ++ [⟨lowestFree t, start, stop, v.first.text, []⟩]
    | _, _ => t
  | .name minor name => update minor (fun p => { p with name := (e.argument name).getD p.name }) t
  | .set minor flag =>
    update minor (fun p => { p with
      flags := p.flags ++ ((e.argument flag).bind v.flag).toList }) t

def run (t : List Entry) (cs : List Command) : List Entry := cs.foldl (exec v e) t

end Disk

/-- What `parted` prints of a disk. -/
structure Listing (v : Version) where
  layout : Layout
  head : List Text
  parts : List Partition
  heads : ∀ l ∈ head, l = [] ∨ isHead l = true
  layout_head : (head.any fun l => "Number".toList <+: l) = decide (layout = .new)
  numbers : (parts.map Partition.number).Nodup
  /-- Partitions do not overlap. -/
  bounds : (parts.map fun p => (p.start, p.stop)).Nodup
  fits : ∀ p ∈ parts, Fits layout p
  known : ∀ p ∈ parts, ∀ f ∈ p.flags, v.flag f = some f

namespace Listing

variable {v : Version} (k : Listing v)

def file : List Text := k.head ++ k.parts.map (line k.layout)

def entries : List Entry := k.parts.map fun p => ⟨p.number, p.start, p.stop, p.name, p.flags⟩

/-- The same partitions under the same numbers. -/
def Same (t : List Entry) : Prop :=
  ∀ n, match k.entries.find? (fun p => p.number = n), t.find? (fun p => p.number = n) with
    | none, none => True
    | some p, some q => p.start = q.start ∧ p.stop = q.stop ∧ p.name = q.name ∧
        ∀ f, f ∈ p.flags ↔ f ∈ q.flags
    | _, _ => False

/-- The disk is as before, whatever was on it and whatever comes of the texts that are not left
as they are. -/
def Restored (a : Alone) : Prop :=
  ∀ (e : Shell a) (t : List Entry), k.Same (run v e t (script e k.file))

end Listing

/-- The list of flags has its place in the column, or it is cut in the last flag, and what is left
of that is taken for it. -/
def Readable (v : Version) (width : Nat) (flags : List Text) : Prop :=
  (flagsText flags).length ≤ width ∨
    ∃ front f part, flags = front ++ [f] ∧ part ≠ [] ∧
      (flagsText flags).take width = flagsText (front ++ [part]) ∧ v.flag part = some f

section Reading

variable {l : Layout} {p : Partition}

theorem isWord_numeral (n : Nat) : IsWord (numeral n) := by
  refine ⟨numeral_ne_nil n, ?_, ?_⟩
  · exact notMem_numeral (by decide) n
  · exact notMem_numeral (by decide) n

theorem words_numberCell (h : (numeral p.number).length < 6) (s : Text) :
    words (numberCell p.number ++ s) = numeral p.number :: words s := by
  rw [numberCell]
  split
  · rw [List.cons_append, words_blank, words_cell (isWord_numeral _) (by omega)]
  · rw [words_cell (isWord_numeral _) (by omega)]

theorem length_numberCell (h : (numeral p.number).length < 6) :
    (numberCell p.number).length = 8 := by
  rw [numberCell]
  split
  · rw [List.length_cons, length_cell (by omega)]
  · rw [length_cell (by omega)]

/-- What is taken from a line of the table. -/
structure Reads (l : Layout) (r : Row) (p : Partition) : Prop where
  minor : words r.minor = [numeral p.number]
  start : words r.start = [p.start]
  stop : words r.stop = [p.stop]
  name : ∃ w, r.name = cell w p.name
  flags : r.flags = (flagsText p.flags).take (flagsWidth l)

theorem reads_new (h : Fits .new p) : Reads .new (read .new (line .new p)) p := by
  have hnumber := h.number
  have hfs : p.fileSystem.length ≤ 13 := Nat.le_of_lt (Nat.lt_trans h.fileSystem (by decide))
  have hname : p.name.length ≤ 9 := h.name
  have hstart : p.start.length < 8 := h.start.2
  have hstop : p.stop.length < 8 := h.stop.2
  have hwords : ∃ ws, words (line .new p) = numeral p.number :: p.start :: p.stop :: ws := by
    refine ⟨words (cell 8 p.size ++ (cell 13 p.fileSystem ++ (cell 9 p.name ++
      flagsText p.flags))), ?_⟩
    simp only [line, cells, List.flatten_cons, List.flatten_nil, List.append_assoc,
      List.nil_append]
    rw [words_numberCell hnumber, words_cell h.start.1 hstart, words_cell h.stop.1 hstop]
  obtain ⟨ws, hws⟩ := hwords
  have hcells : [numberCell p.number, cell 8 p.start, cell 8 p.stop, cell 8 p.size,
      cell 13 p.fileSystem].map List.length = (widths .new).take 5 := by
    simp [length_numberCell hnumber, length_cell (Nat.le_of_lt hstart),
      length_cell (Nat.le_of_lt hstop), length_cell (Nat.le_of_lt h.size), length_cell hfs, widths]
  constructor
  · simp [read, hws, words_of_isWord (isWord_numeral _)]
  · simp [read, hws, words_of_isWord h.start.1]
  · simp [read, hws, words_of_isWord h.stop.1]
  · refine ⟨9, ?_⟩
    have hfield := fieldAt_append hcells (cell 9 p.name ++ flagsText p.flags)
    have hline : line .new p = [numberCell p.number, cell 8 p.start, cell 8 p.stop, cell 8 p.size,
        cell 13 p.fileSystem].flatten ++ (cell 9 p.name ++ flagsText p.flags) := by
      simp [line, cells]
    rw [read, hline, hfield]
    exact List.take_left' (length_cell hname)
  · have hall : (cells .new p).map List.length = (widths .new).take 6 := by
      have hsplit : cells .new p = [numberCell p.number, cell 8 p.start, cell 8 p.stop,
          cell 8 p.size, cell 13 p.fileSystem] ++ [cell 9 p.name] := rfl
      rw [hsplit, List.map_append, hcells, List.map_singleton, length_cell hname]
      rfl
    rw [read, line, fieldAt_append hall]
    rfl

theorem reads_old (h : Fits .old p) : Reads .old (read .old (line .old p)) p := by
  have hnumber : (cell 6 (numeral p.number)).length = 6 := length_cell (Nat.le_of_lt h.number)
  have hstart : (cellRight 11 p.start).length = 11 := length_cellRight h.start.2
  have hstop : (cellRight 11 p.stop).length = 11 := length_cellRight h.stop.2
  have hfs : (cell 12 p.fileSystem).length = 12 := length_cell (Nat.le_of_lt h.fileSystem)
  have hname : (cell 22 p.name).length = 22 := length_cell h.name
  have hfield : ∀ before c after n, cells .old p = before ++ c :: after →
      before.map List.length = (widths .old).take n → (widths .old).getD n 0 = c.length →
      fieldAt (widths .old) (n + 1) (line .old p) = c := by
    intro before c after n hsplit hbefore hc
    have hline : line .old p = before.flatten ++ (c ++ (after.flatten ++ flagsText p.flags)) := by
      simp [line, hsplit]
    rw [hline, fieldAt_append hbefore, hc]
    exact List.take_left
  constructor
  · have hminor : (read .old (line .old p)).minor = cell 6 (numeral p.number) :=
      hfield [] _ _ 0 rfl rfl hnumber.symm
    rw [hminor, words_cell_alone, words_of_isWord (isWord_numeral _)]
  · have hfirst : (read .old (line .old p)).start = cellRight 11 p.start :=
      hfield [cell 6 (numeral p.number)] _ _ 1 rfl (by simp [hnumber, widths]) hstart.symm
    rw [hfirst, words_cellRight h.start.1]
  · have hlast : (read .old (line .old p)).stop = cellRight 11 p.stop :=
      hfield [cell 6 (numeral p.number), cellRight 11 p.start] _ _ 2 rfl
        (by simp [hnumber, hstart, widths]) hstop.symm
    rw [hlast, words_cellRight h.stop.1]
  · refine ⟨22, hfield [cell 6 (numeral p.number), cellRight 11 p.start, cellRight 11 p.stop,
      cell 12 p.fileSystem] _ [] 4 rfl ?_ hname.symm⟩
    simp [hnumber, hstart, hstop, hfs, widths]
  · have hall : (cells .old p).map List.length = (widths .old).take 5 := by
      simp [cells, hnumber, hstart, hstop, hfs, hname, widths]
    rw [read, line, fieldAt_append hall]
    rfl

theorem reads_line (h : Fits l p) : Reads l (read l (line l p)) p := by
  cases l with
  | new => exact reads_new h
  | old => exact reads_old h

/-- A line of the table begins with a blank or a digit. -/
theorem exists_first (l : Layout) (p : Partition) :
    ∃ c s, line l p = c :: s ∧ (c = ' ' ∨ c.isDigit = true) := by
  obtain ⟨c, s, hnumeral⟩ := List.exists_cons_of_ne_nil (numeral_ne_nil p.number)
  have hdigit : c.isDigit = true := by
    have hmem : c ∈ numeral p.number := by simp [hnumeral]
    exact isDigit_of_mem_numeral hmem
  cases l with
  | old => exact ⟨c, _, by simp [line, cells, cell, hnumeral]; rfl, Or.inr hdigit⟩
  | new =>
    by_cases hlt : p.number < 10
    · exact ⟨' ', _, by simp [line, cells, numberCell, hlt]; rfl, Or.inl rfl⟩
    · exact ⟨c, _, by simp [line, cells, numberCell, hlt, cell, hnumeral]; rfl, Or.inr hdigit⟩

theorem isHead_line (l : Layout) (p : Partition) : isHead (line l p) = false := by
  obtain ⟨c, s, hline, hc⟩ := exists_first l p
  have hlower : c.toLower = c := by
    rcases hc with rfl | hdigit
    · rfl
    · exact toLower_of_not_isUpper (isUpper_eq_false_of_isDigit hdigit)
  have hother : ∀ a : Char, a.isLower = true → a ≠ c := by
    rintro a ha rfl
    rcases hc with rfl | hdigit
    · exact absurd ha (by decide)
    · rw [isLower_eq_false_of_isDigit hdigit] at ha
      cases ha
  have hstarts : ∀ h ∈ heads, ∃ a t, h = a :: t ∧ a.isLower = true := by
    simp only [heads, List.forall_mem_cons]
    exact ⟨⟨_, _, rfl, by decide⟩, ⟨_, _, rfl, by decide⟩, ⟨_, _, rfl, by decide⟩,
      ⟨_, _, rfl, by decide⟩, ⟨_, _, rfl, by decide⟩, ⟨_, _, rfl, by decide⟩,
      ⟨_, _, rfl, by decide⟩, by simp⟩
  rw [isHead, List.any_eq_false]
  intro h hh hprefix
  obtain ⟨a, t, rfl, ha⟩ := hstarts h hh
  have hcons := of_decide_eq_true hprefix
  rw [hline, List.map_cons, hlower] at hcons
  exact hother a ha (List.cons_prefix_cons.mp hcons).1

theorem not_number_line (l : Layout) (p : Partition) : ¬ "Number".toList <+: line l p := by
  obtain ⟨c, s, hline, hc⟩ := exists_first l p
  rw [hline]
  intro h
  have hN : 'N' = c := (List.cons_prefix_cons.mp h).1
  subst hN
  rcases hc with hblank | hdigit
  · exact absurd hblank (by decide)
  · exact absurd hdigit (by decide)

theorem flagsText_cons (f g : Text) (flags : List Text) :
    flagsText (f :: g :: flags) = f ++ ',' :: ' ' :: flagsText (g :: flags) := by
  simp [flagsText]

theorem mem_flagsText {c : Char} {flags : List Text} (h : c ∈ flagsText flags) :
    c = ',' ∨ c = ' ' ∨ ∃ f ∈ flags, c ∈ f := by
  induction flags with
  | nil => cases h
  | cons f flags ih =>
    cases flags with
    | nil =>
      have hf : c ∈ f := by simpa [flagsText] using h
      exact Or.inr (Or.inr ⟨f, List.mem_cons_self, hf⟩)
    | cons g flags =>
      rw [flagsText_cons, List.mem_append, List.mem_cons, List.mem_cons] at h
      rcases h with h | h | h | h
      · exact Or.inr (Or.inr ⟨f, List.mem_cons_self, h⟩)
      · exact Or.inl h
      · exact Or.inr (Or.inl h)
      · rcases ih h with hcomma | hblank | ⟨f', hf', hc⟩
        · exact Or.inl hcomma
        · exact Or.inr (Or.inl hblank)
        · exact Or.inr (Or.inr ⟨f', List.mem_cons_of_mem f hf', hc⟩)

theorem Plain.isWord {t : Text} (h : Plain t) : IsWord t := by
  refine ⟨h.1, ?_, ?_⟩
  · intro hmem
    exact h.2.1 _ hmem (by decide)
  · intro hmem
    exact h.2.1 _ hmem (by decide)

theorem Plain.isOption {t : Text} (h : Plain t) : isOption t = false := by
  obtain ⟨hne, _, hhead⟩ := h
  cases t with
  | nil => exact absurd rfl hne
  | cons c t =>
    have hc : c ≠ '-' := by
      rintro rfl
      exact hhead List.mem_cons_self
    simp [Words.isOption, hc]

theorem Plain.take {t : Text} (h : Plain t) {n : Nat} (hne : t.take n ≠ []) : Plain (t.take n) := by
  refine ⟨hne, fun c hc => h.2.1 c (List.mem_of_mem_take hc), ?_⟩
  have hn : n ≠ 0 := by
    rintro rfl
    exact hne rfl
  rw [List.head?_take, if_neg hn]
  exact h.2.2

theorem Plain.comma {t : Text} (h : Plain t) : Plain (t ++ [',']) := by
  refine ⟨by simp, ?_, ?_⟩
  · intro c hc
    rcases List.mem_append.mp hc with hc | hc
    · exact h.2.1 c hc
    · rw [List.mem_singleton.mp hc]
      decide
  · rw [List.head?_append_of_ne_nil _ h.1]
    exact h.2.2

/-- The words of a list of flags, without the commas. -/
def listed (t : Text) : List Text := (words t).flatMap fun w => words (tr ',' ' ' w)

/-- Names of flags, as `parted` has them. -/
def Names (flags : List Text) : Prop := ∀ f ∈ flags, Plain f ∧ ',' ∉ f

theorem words_tr_intercalate {ws : List Text} (h : ∀ w ∈ ws, IsWord w) :
    words (tr ',' ' ' ([' '].intercalate ws)) = ws.flatMap fun w => words (tr ',' ' ' w) := by
  induction ws with
  | nil => rfl
  | cons w ws ih =>
    obtain ⟨hw, htail⟩ := List.forall_mem_cons.mp h
    cases ws with
    | nil => simp
    | cons v ws =>
      have hsplit : [' '].intercalate (w :: v :: ws) = w ++ ' ' :: [' '].intercalate (v :: ws) := by
        simp [List.intercalate_cons_cons]
      have htr : tr ',' ' ' (w ++ ' ' :: [' '].intercalate (v :: ws)) =
          tr ',' ' ' w ++ ' ' :: tr ',' ' ' ([' '].intercalate (v :: ws)) := by
        rw [tr_append]
        rfl
      rw [hsplit, htr, words_append, ih htail]
      rfl

theorem listed_of_word {f : Text} (hf : IsWord f) (hcomma : ',' ∉ f) : listed f = [f] := by
  rw [listed, words_of_isWord hf, List.flatMap_singleton, tr_eq_self hcomma, words_of_isWord hf]

theorem listed_comma {f : Text} (hf : Plain f) (hcomma : ',' ∉ f) : listed (f ++ [',']) = [f] := by
  have hblank : tr ',' ' ' (f ++ [',']) = f ++ ' ' :: [] := by
    rw [tr_append, tr_eq_self hcomma]
    rfl
  rw [listed, words_of_isWord hf.comma.isWord, List.flatMap_singleton, hblank, words_append,
    words_of_isWord hf.isWord]
  rfl

theorem listed_next {f : Text} (hf : Plain f) (hcomma : ',' ∉ f) (t : Text) :
    listed (f ++ ',' :: ' ' :: t) = f :: listed t := by
  have hsplit : f ++ ',' :: ' ' :: t = (f ++ [',']) ++ ' ' :: t := by simp
  have hfirst := listed_comma hf hcomma
  rw [listed] at hfirst
  rw [hsplit, listed, words_append, List.flatMap_append, hfirst]
  rfl

/-- The flags come out of their list as they were put in. -/
theorem listed_flagsText {flags : List Text} (h : Names flags) :
    listed (flagsText flags) = flags := by
  induction flags with
  | nil => rfl
  | cons f flags ih =>
    obtain ⟨hf, htail⟩ := List.forall_mem_cons.mp h
    cases flags with
    | nil =>
      have hflag : flagsText [f] = f := by simp [flagsText]
      rw [hflag, listed_of_word hf.1.isWord hf.2]
    | cons g flags => rw [flagsText_cons, listed_next hf.1 hf.2, ih htail]

theorem flagsText_concat (front : List Text) (f : Text) :
    flagsText (front ++ [f]) = (front.flatMap fun g => g ++ [',', ' ']) ++ f := by
  induction front with
  | nil => simp [flagsText]
  | cons g front ih =>
    obtain ⟨x, xs, hx⟩ := List.exists_cons_of_ne_nil (show front ++ [f] ≠ [] by simp)
    rw [List.cons_append, hx, flagsText_cons, ← hx, ih]
    simp

/-- Where a list of at least two flags is cut. -/
theorem take_flagsText (f g : Text) (flags : List Text) (n : Nat) :
    (n ≤ f.length ∧ (flagsText (f :: g :: flags)).take n = f.take n) ∨
      (flagsText (f :: g :: flags)).take n = f ++ [','] ∨
      ∃ m, n = f.length + 2 + m ∧ (flagsText (f :: g :: flags)).take n =
        f ++ ',' :: ' ' :: (flagsText (g :: flags)).take m := by
  rw [flagsText_cons]
  rcases Nat.lt_or_ge f.length n with hlt | hle
  · obtain ⟨m, rfl⟩ := Nat.exists_eq_add_of_lt hlt
    right
    cases m with
    | zero => exact Or.inl (by simp [List.take_append])
    | succ m =>
      refine Or.inr ⟨m, by omega, ?_⟩
      have hm : f.length + (m + 1) + 1 = f.length + (m + 2) := rfl
      rw [hm, List.take_length_add_append]
      rfl
  · exact Or.inl ⟨hle, List.take_append_of_le_length hle⟩

theorem plain_of_mem_words {flags : List Text} (h : Names flags) (n : Nat) :
    ∀ w ∈ words ((flagsText flags).take n), Plain w := by
  have hbegin : ∀ f : Text, Plain f → ∀ m, ∀ w ∈ words (f.take m), Plain w := by
    intro f hf m w hw
    by_cases hne : f.take m = []
    · rw [hne] at hw
      cases hw
    · rw [words_of_isWord (hf.take hne).isWord] at hw
      rw [List.mem_singleton.mp hw]
      exact hf.take hne
  induction flags generalizing n with
  | nil => simp [flagsText]
  | cons f flags ih =>
    obtain ⟨hf, htail⟩ := List.forall_mem_cons.mp h
    cases flags with
    | nil =>
      have hflag : flagsText [f] = f := by simp [flagsText]
      rw [hflag]
      exact hbegin f hf.1 n
    | cons g flags =>
      rcases take_flagsText f g flags n with ⟨-, hcut⟩ | hcut | ⟨m, -, hcut⟩
      · rw [hcut]
        exact hbegin f hf.1 n
      · rw [hcut, words_of_isWord hf.1.comma.isWord]
        exact List.forall_mem_singleton.mpr hf.1.comma
      · have hsplit : f ++ ',' :: ' ' :: (flagsText (g :: flags)).take m =
            (f ++ [',']) ++ ' ' :: (flagsText (g :: flags)).take m := by simp
        rw [hcut, hsplit, words_append, words_of_isWord hf.1.comma.isWord]
        exact List.forall_mem_append.mpr ⟨List.forall_mem_singleton.mpr hf.1.comma, ih htail m⟩

/-- What is left of a list that is too long: the flags before one that is cut or lost. -/
structure CutAt (n : Nat) (flags front : List Text) (f part : Text) (back : List Text) : Prop where
  eq : flags = front ++ f :: back
  cut : ∃ m, part = f.take m
  left : listed ((flagsText flags).take n) = front ++ if part = [] then [] else [part]
  last : back = [] → part ≠ [] → (flagsText flags).take n = flagsText (front ++ [part])

theorem exists_cutAt {flags : List Text} (h : Names flags) {n : Nat}
    (hn : n < (flagsText flags).length) : ∃ front f part back, CutAt n flags front f part back := by
  have hbegin : ∀ f : Text, Plain f ∧ ',' ∉ f → ∀ m,
      listed (f.take m) = if f.take m = [] then [] else [f.take m] := by
    intro f hf m
    split
    · rename_i hnil
      rw [hnil]
      rfl
    · rename_i hne
      exact listed_of_word (hf.1.take hne).isWord fun hc => hf.2 (List.mem_of_mem_take hc)
  induction flags generalizing n with
  | nil => simp [flagsText] at hn
  | cons f flags ih =>
    obtain ⟨hf, htail⟩ := List.forall_mem_cons.mp h
    cases flags with
    | nil =>
      have hflag : ∀ x : Text, flagsText [x] = x := by simp [flagsText]
      refine ⟨[], f, f.take n, [], rfl, ⟨n, rfl⟩, ?_, ?_⟩
      · rw [hflag]
        exact hbegin f hf n
      · intro _ _
        rw [hflag, List.nil_append, hflag]
    | cons g flags =>
      rcases take_flagsText f g flags n with ⟨-, hcut⟩ | hcut | ⟨m, rfl, hcut⟩
      · refine ⟨[], f, f.take n, g :: flags, rfl, ⟨n, rfl⟩, ?_, by simp⟩
        rw [hcut]
        exact hbegin f hf n
      · refine ⟨[f], g, [], flags, rfl, ⟨0, rfl⟩, ?_, by simp⟩
        rw [hcut, listed_comma hf.1 hf.2]
        simp
      · have hm : m < (flagsText (g :: flags)).length := by
          rw [flagsText_cons] at hn
          simp only [List.length_append, List.length_cons] at hn
          omega
        obtain ⟨front, f', part, back, hsplit, hpart, hlisted, hlast⟩ := ih htail hm
        refine ⟨f :: front, f', part, back, by rw [hsplit, List.cons_append], hpart, ?_, ?_⟩
        · rw [hcut, listed_next hf.1 hf.2, hlisted, List.cons_append]
        · intro hback hne
          obtain ⟨x, xs, hx⟩ := List.exists_cons_of_ne_nil
            (show front ++ [part] ≠ [] by simp)
          rw [hcut, hlast hback hne, List.cons_append, hx, flagsText_cons]

theorem plain_of_mem_listed {flags : List Text} (h : Names flags) (n : Nat) :
    ∀ w ∈ listed ((flagsText flags).take n), Plain w := by
  intro w hw
  by_cases hle : (flagsText flags).length ≤ n
  · rw [List.take_of_length_le hle, listed_flagsText h] at hw
    exact (h w hw).1
  · obtain ⟨front, f, part, back, hcut⟩ := exists_cutAt h (Nat.lt_of_not_le hle)
    obtain ⟨m, rfl⟩ := hcut.cut
    obtain ⟨hfront, hrest⟩ := List.forall_mem_append.mp (hcut.eq ▸ h)
    rw [hcut.left] at hw
    split at hw
    · rw [List.append_nil] at hw
      exact (hfront w hw).1
    · rename_i hne
      rcases List.mem_append.mp hw with hw | hw
      · exact (hfront w hw).1
      · rw [List.mem_singleton.mp hw]
        exact (hrest f List.mem_cons_self).1.take hne

theorem echo_of_keeps {a : Alone} (e : Shell a) {s : Text}
    (h : ∀ w ∈ words s, a.keeps w = true) : e.echo s = [' '].intercalate (words s) := by
  have hglob : (words s).flatMap e.glob = words s := by
    rw [List.flatMap_congr fun w hw => e.glob_keeps w (h w hw), List.flatMap_singleton']
  have hdrop : (words s).dropWhile isOption = words s := by
    cases hwords : words s with
    | nil => rfl
    | cons w ws =>
      have hw := a.option (h w (by simp [hwords]))
      rw [List.dropWhile_cons, hw, if_neg Bool.false_ne_true]
  rw [Shell.echo, hglob, hdrop]

/-- The words of the script for the flags. -/
theorem set_words {a : Alone} (e : Shell a) {flags : List Text} (h : Names flags) (n : Nat) :
    (words (tr ',' ' ' (e.echo ((flagsText flags).take n)))).flatMap e.glob =
      listed ((flagsText flags).take n) := by
  have hplain := plain_of_mem_words h n
  rw [echo_of_keeps e fun w hw => a.plain (hplain w hw),
    words_tr_intercalate fun w hw => (hplain w hw).isWord, ← listed,
    List.flatMap_congr fun w hw => e.glob_keeps w (a.plain (plain_of_mem_listed h n w hw)),
    List.flatMap_singleton']

theorem filterMap_known {v : Version} {flags : List Text} (h : ∀ f ∈ flags, v.flag f = some f) :
    flags.filterMap v.flag = flags := by
  rw [List.filterMap_congr h, List.filterMap_some]

theorem Readable.mem_iff {v : Version} {flags : List Text} (h : Names flags)
    (hknown : ∀ f ∈ flags, v.flag f = some f) {n : Nat} (hread : Readable v n flags) (x : Text) :
    x ∈ flags ↔ x ∈ (listed ((flagsText flags).take n)).filterMap v.flag := by
  rcases hread with hle | ⟨front, f, part, rfl, hne, hcut, hpart⟩
  · rw [List.take_of_length_le hle, listed_flagsText h, filterMap_known hknown]
  · obtain ⟨hfront, hlast⟩ := List.forall_mem_append.mp h
    obtain ⟨hkfront, -⟩ := List.forall_mem_append.mp hknown
    have hnames : Names (front ++ [part]) := by
      have hprefix := List.take_prefix n (flagsText (front ++ [f]))
      rw [hcut, flagsText_concat, flagsText_concat, List.prefix_append_right_inj] at hprefix
      rw [List.prefix_iff_eq_take.mp hprefix] at hne ⊢
      obtain ⟨hf, hcomma⟩ := List.forall_mem_singleton.mp hlast
      exact List.forall_mem_append.mpr ⟨hfront, List.forall_mem_singleton.mpr
        ⟨hf.take hne, fun hc => hcomma (List.mem_of_mem_take hc)⟩⟩
    rw [hcut, listed_flagsText hnames, List.filterMap_append, filterMap_known hkfront]
    simp [hpart]

/-- Every flag needs a word of its own, so that only the last one can be cut. -/
theorem readable_of_mem_iff {v : Version} {flags : List Text} (h : Names flags)
    (hnodup : flags.Nodup) (hknown : ∀ f ∈ flags, v.flag f = some f) {n : Nat}
    (hset : ∀ f, f ∈ flags ↔ f ∈ (listed ((flagsText flags).take n)).filterMap v.flag) :
    Readable v n flags := by
  by_cases hle : (flagsText flags).length ≤ n
  · exact Or.inl hle
  obtain ⟨front, f, part, back, hcut⟩ := exists_cutAt h (Nat.lt_of_not_le hle)
  obtain rfl := hcut.eq
  have hleft := hcut.left
  obtain ⟨hkfront, hkf⟩ := List.forall_mem_append.mp hknown
  have hlength : (front ++ f :: back).length ≤
      (listed ((flagsText (front ++ f :: back)).take n)).length :=
    ((List.subperm_of_subset hnodup fun x hx => (hset x).mp hx).length_le).trans
      (List.length_filterMap_le _ _)
  have hne : part ≠ [] := by
    rintro rfl
    simp only [hleft, if_pos, List.append_nil, List.length_append, List.length_cons] at hlength
    omega
  rw [hleft, if_neg hne] at hlength hset
  have hback : back = [] := by
    cases back with
    | nil => rfl
    | cons g back => simp at hlength
  subst hback
  refine Or.inr ⟨front, f, part, rfl, hne, hcut.last rfl hne, ?_⟩
  obtain ⟨w, hw, hflag⟩ := List.mem_filterMap.mp ((hset f).mp (by simp))
  rcases List.mem_append.mp hw with hw | hw
  · have hsame : f = w := by simpa [hkfront w hw] using hflag.symm
    exact absurd hsame.symm ((List.nodup_append.mp hnodup).2.2 w hw f List.mem_cons_self)
  · rwa [List.mem_singleton.mp hw] at hflag

/-- All flags are set, and no others, exactly if the list is readable. -/
theorem readable_iff {v : Version} {flags : List Text} (h : Names flags) (hnodup : flags.Nodup)
    (hknown : ∀ f ∈ flags, v.flag f = some f) (n : Nat) :
    Readable v n flags ↔
      ∀ f, f ∈ flags ↔ f ∈ (listed ((flagsText flags).take n)).filterMap v.flag :=
  ⟨fun hread => hread.mem_iff h hknown, readable_of_mem_iff h hnodup hknown⟩

theorem notMem_cell {c : Char} (hblank : c ≠ ' ') {w : Nat} {t : Text} (ht : c ∉ t) :
    c ∉ cell w t := by
  intro hmem
  rcases mem_cell hmem with h | h
  · exact hblank h
  · exact ht h

theorem notMem_cellRight {c : Char} (hblank : c ≠ ' ') {w : Nat} {t : Text} (ht : c ∉ t) :
    c ∉ cellRight w t := by
  intro hmem
  rcases mem_cellRight hmem with h | h
  · exact hblank h
  · exact ht h

theorem notMem_numberCell {c : Char} (hblank : c ≠ ' ') (hdigit : c.isDigit = false) (n : Nat) :
    c ∉ numberCell n := by
  rw [numberCell]
  split
  · rw [List.mem_cons, not_or]
    exact ⟨hblank, notMem_cell hblank (notMem_numeral hdigit n)⟩
  · exact notMem_cell hblank (notMem_numeral hdigit n)

theorem notMem_flagsText {c : Char} (h : Fits l p) (hblank : c ≠ ' ') (hcomma : c ≠ ',')
    (hspecial : c ∈ special) : c ∉ flagsText p.flags := by
  intro hmem
  rcases mem_flagsText hmem with hcom | hbl | ⟨f, hf, hcf⟩
  · exact hcomma hcom
  · exact hblank hbl
  · exact (h.flag f hf).1.2.1 c hcf hspecial

theorem notMem_line {c : Char} (h : Fits l p) (hc : c = '%' ∨ c = '\\') (hname : c ∉ p.name) :
    c ∉ line l p := by
  have hblank : c ≠ ' ' := by rcases hc with rfl | rfl <;> decide
  have hcomma : c ≠ ',' := by rcases hc with rfl | rfl <;> decide
  have hdigit : c.isDigit = false := by rcases hc with rfl | rfl <;> decide
  have hspecial : c ∈ special := by rcases hc with rfl | rfl <;> decide
  have hplain : ∀ t ∈ [p.start, p.stop, p.size, p.fileSystem], c ∉ t := by
    intro t ht
    rcases hc with rfl | rfl
    · exact (h.plain t ht).1
    · exact (h.plain t ht).2
  rw [line, List.mem_append, not_or]
  refine ⟨?_, notMem_flagsText h hblank hcomma hspecial⟩
  intro hmem
  obtain ⟨t, ht, hct⟩ := List.mem_flatten.mp hmem
  revert hct
  cases l with
  | new =>
    simp only [cells, List.mem_cons, List.not_mem_nil, or_false] at ht
    rcases ht with rfl | rfl | rfl | rfl | rfl | rfl
    · exact notMem_numberCell hblank hdigit p.number
    · exact notMem_cell hblank (hplain _ (by simp))
    · exact notMem_cell hblank (hplain _ (by simp))
    · exact notMem_cell hblank (hplain _ (by simp))
    · exact notMem_cell hblank (hplain _ (by simp))
    · exact notMem_cell hblank hname
  | old =>
    simp only [cells, List.mem_cons, List.not_mem_nil, or_false] at ht
    rcases ht with rfl | rfl | rfl | rfl | rfl
    · exact notMem_cell hblank (notMem_numeral hdigit p.number)
    · exact notMem_cellRight hblank (hplain _ (by simp))
    · exact notMem_cellRight hblank (hplain _ (by simp))
    · exact notMem_cell hblank (hplain _ (by simp))
    · exact notMem_cell hblank hname

end Reading

section Rows

variable {a : Alone} {v : Version} {e : Shell a} {t : List Entry} {r : Row} {p : Partition}

theorem script_eq (e : Shell a) (k : Listing v) :
    script e k.file = .mklabel ::
      k.parts.flatMap fun p => commands e (read k.layout (e.printf (line k.layout p))) := by
  have hlayout : layoutOf k.file = k.layout := by
    have hrows : ((k.parts.map (line k.layout)).any fun l => "Number".toList <+: l) = false := by
      rw [List.any_eq_false]
      intro l hl
      obtain ⟨p, _, rfl⟩ := List.mem_map.mp hl
      exact fun hnumber => not_number_line k.layout p (of_decide_eq_true hnumber)
    rw [layoutOf, Listing.file, List.any_append, hrows, Bool.or_false, k.layout_head]
    cases k.layout <;> rfl
  have hhead : (k.head.filter fun l => l ≠ [] && !isHead l) = [] := by
    apply List.filter_eq_nil_iff.mpr
    intro l hl
    rcases k.heads l hl with rfl | hhead
    · simp
    · simp [hhead]
  have hparts : ((k.parts.map (line k.layout)).filter fun l => l ≠ [] && !isHead l) =
      k.parts.map (line k.layout) := by
    apply List.filter_eq_self.mpr
    intro l hl
    obtain ⟨p, _, rfl⟩ := List.mem_map.mp hl
    obtain ⟨c, s, hline, _⟩ := exists_first k.layout p
    have hhead := isHead_line k.layout p
    rw [hline] at hhead
    simp [hline, hhead]
  rw [script, hlayout, Listing.file, List.filter_append, hhead, hparts, List.nil_append,
    List.flatMap_map]

/-- The numbers of the partitions made so far. -/
def Counted (t : List Entry) : Prop := t.map Entry.number = List.range' 1 t.length

theorem Counted.lowestFree (h : Counted t) : lowestFree t = t.length + 1 := by
  have hmem : ∀ n, (∃ x ∈ t, x.number = n) ↔ 1 ≤ n ∧ n < 1 + t.length := by
    intro n
    rw [← List.mem_range'_1, ← h, List.mem_map]
  have hfind : (List.range (t.length + 1)).find? (fun n => t.all fun x => x.number ≠ n + 1) =
      some t.length := by
    rw [List.find?_range_eq_some]
    refine ⟨?_, List.mem_range.mpr (Nat.lt_succ_self _), ?_⟩
    · rw [List.all_eq_true]
      intro x hx
      have := (hmem x.number).mp ⟨x, hx, rfl⟩
      simp only [decide_eq_true_eq]
      omega
    · intro n hn
      obtain ⟨x, hx, hnumber⟩ := (hmem (n + 1)).mpr ⟨by omega, by omega⟩
      simp only [Bool.not_eq_true', List.all_eq_false]
      exact ⟨x, hx, by simp [hnumber]⟩
  rw [Parted.lowestFree, hfind, Option.getD_some]

theorem update_of_words {minor : Text} {n : Nat} (h : words minor = [numeral n])
    (f : Entry → Entry) (t : List Entry) :
    update minor f t = t.map fun x => if x.number = n then f x else x := by
  simp only [update, h, value_numeral]

/-- The numbers and bounds, which no name and no flag changes. -/
def places (t : List Entry) : List (Nat × Text × Text) := t.map fun x => (x.number, x.start, x.stop)

theorem places_update (minor : Text) {f : Entry → Entry}
    (hf : ∀ x, (f x).number = x.number ∧ (f x).start = x.start ∧ (f x).stop = x.stop)
    (t : List Entry) : places (update minor f t) = places t := by
  rw [update]
  split
  · simp only [places, List.map_map]
    apply List.map_congr_left
    intro x _
    simp only [Function.comp_apply]
    split
    · simp [hf]
    · rfl
  · rfl

theorem places_set (minor : Text) (flags : List Text) (t : List Entry) :
    places (run v e t (flags.map (.set minor ·))) = places t := by
  induction flags generalizing t with
  | nil => rfl
  | cons f flags ih =>
    have hset : places (exec v e t (.set minor f)) = places t := by
      apply places_update
      intro x
      exact ⟨rfl, rfl, rfl⟩
    exact (ih (exec v e t (.set minor f))).trans hset

theorem run_append (t : List Entry) (cs ds : List Command) :
    run v e t (cs ++ ds) = run v e (run v e t cs) ds :=
  List.foldl_append

theorem exec_mkpart {l : Layout} (h : Reads l r p) (t : List Entry) :
    exec v e t (.mkpart r.start r.stop) =
      t ++ [⟨lowestFree t, p.start, p.stop, v.first.text, []⟩] := by
  simp only [exec, h.start, h.stop]

theorem places_name (minor : Text) (name : Text) (t : List Entry) :
    places (exec v e t (.name minor name)) = places t := by
  apply places_update
  intro x
  exact ⟨rfl, rfl, rfl⟩

/-- A row adds one partition, and its other commands leave all numbers and bounds. -/
theorem places_commands {l : Layout} (h : Reads l r p) (t : List Entry) :
    places (run v e t (commands e r)) = places t ++ [(lowestFree t, p.start, p.stop)] := by
  have hmkpart : places (exec v e t (.mkpart r.start r.stop)) =
      places t ++ [(lowestFree t, p.start, p.stop)] := by
    simp [exec_mkpart h, places]
  rw [commands, run_append, places_set, ← hmkpart]
  simp only [run, List.foldl_cons]
  split
  · rw [List.foldl_cons, List.foldl_nil, places_name]
  · rfl

theorem Counted.append {x y : Text} {t' : List Entry} (h : Counted t)
    (hplaces : places t' = places t ++ [(t.length + 1, x, y)]) : Counted t' := by
  have hnumbers : ∀ t : List Entry, (places t).map Prod.fst = t.map Entry.number := by
    intro t
    simp [places]
  have hlength : t'.length = t.length + 1 := by
    have := congrArg List.length hplaces
    simpa [places] using this
  rw [Counted, ← hnumbers, hplaces, List.map_append, hnumbers, h, hlength, List.range'_concat]
  simp [Nat.add_comm]

/-- The partition that is made from a row. -/
def made (v : Version) (e : Shell a) (l : Layout) (p : Partition) : Entry :=
  let name := (e.echo p.name).filter fun c => c ≠ ' '
  ⟨p.number, p.start, p.stop,
    if name ≠ [] then (e.argument name).getD v.first.text else v.first.text,
    (listed ((flagsText p.flags).take (flagsWidth l))).filterMap v.flag⟩

/-- Only the partition that was added last is changed. -/
theorem update_last {minor : Text} {x : Entry} (h : words minor = [numeral x.number])
    (ht : Counted t) (hx : x.number = t.length + 1) (f : Entry → Entry) :
    update minor f (t ++ [x]) = t ++ [f x] := by
  rw [update_of_words h, List.map_append, List.map_singleton, if_pos rfl]
  congr 1
  conv_rhs => rw [← List.map_id t]
  apply List.map_congr_left
  intro y hy
  rw [if_neg, id]
  intro hnumber
  have hmem : y.number ∈ List.range' 1 t.length := by
    rw [← ht]
    exact List.mem_map_of_mem hy
  have := (List.mem_range'_1.mp hmem).2
  omega

theorem run_set {minor : Text} {x : Entry} {flags : List Text}
    (h : words minor = [numeral x.number]) (ht : Counted t) (hx : x.number = t.length + 1)
    (hflags : ∀ f ∈ flags, Plain f) :
    run v e (t ++ [x]) (flags.map (.set minor ·)) =
      t ++ [{ x with flags := x.flags ++ flags.filterMap v.flag }] := by
  induction flags generalizing x with
  | nil => simp [run]
  | cons f flags ih =>
    obtain ⟨hf, htail⟩ := List.forall_mem_cons.mp hflags
    have hset : exec v e (t ++ [x]) (.set minor f) =
        t ++ [{ x with flags := x.flags ++ (v.flag f).toList }] := by
      rw [exec, update_last h ht hx, e.argument_keeps f (a.plain hf), Option.bind_some]
    have hrest := ih (x := { x with flags := x.flags ++ (v.flag f).toList }) h hx htail
    have hall : x.flags ++ (f :: flags).filterMap v.flag =
        x.flags ++ (v.flag f).toList ++ flags.filterMap v.flag := by
      cases hflag : v.flag f <;> simp [hflag]
    rw [List.map_cons, hall, ← hrest, ← hset]
    rfl

theorem run_commands {l : Layout} (hr : Reads l r p) (ht : Counted t)
    (hp : p.number = t.length + 1) (hflags : Names p.flags) :
    run v e t (commands e r) = t ++ [made v e l p] := by
  obtain ⟨w, hw⟩ := hr.name
  have hecho : e.echo r.name = e.echo p.name := by
    rw [hw, Shell.echo, words_cell_alone, ← Shell.echo]
  have hsets : ∀ name, run v e (t ++ [⟨p.number, p.start, p.stop, name, []⟩])
      (((words (tr ',' ' ' (e.echo r.flags))).flatMap e.glob).map (.set r.minor ·)) =
        t ++ [⟨p.number, p.start, p.stop, name,
          (listed ((flagsText p.flags).take (flagsWidth l))).filterMap v.flag⟩] := by
    intro name
    rw [hr.flags, set_words e hflags]
    exact run_set hr.minor ht hp (plain_of_mem_listed hflags _)
  rw [commands, run_append, hecho]
  simp only [run, List.foldl_cons, exec_mkpart hr, ht.lowestFree, ← hp]
  by_cases hname : ((e.echo p.name).filter fun c => c ≠ ' ') = []
  · rw [if_neg (not_not.mpr hname), List.foldl_nil, made, hname, if_neg (not_not.mpr rfl)]
    exact hsets _
  · rw [if_pos hname, List.foldl_cons, List.foldl_nil, exec,
      update_last (x := ⟨p.number, p.start, p.stop, v.first.text, []⟩) hr.minor ht hp, made,
      if_pos hname]
    exact hsets _

/-- If the numbers go on one by one, each row makes its own partition. -/
theorem run_rows {l : Layout} {parts : List Partition} (ht : Counted t)
    (hparts : ∀ p ∈ parts, Fits l p ∧ e.printf (line l p) = line l p)
    (hnumbers : parts.map Partition.number = List.range' (t.length + 1) parts.length) :
    run v e t (parts.flatMap fun p => commands e (read l (e.printf (line l p)))) =
      t ++ parts.map (made v e l) := by
  induction parts generalizing t with
  | nil => simp [run]
  | cons p parts ih =>
    obtain ⟨⟨hfits, hprintf⟩, htail⟩ := List.forall_mem_cons.mp hparts
    rw [List.length_cons, List.range'_succ, List.map_cons, List.cons.injEq] at hnumbers
    have hrow : run v e t (commands e (read l (line l p))) = t ++ [made v e l p] :=
      run_commands (reads_line hfits) ht hnumbers.1 hfits.flag
    have hcounted : Counted (t ++ [made v e l p]) := by
      apply ht.append (x := p.start) (y := p.stop)
      simp [places, made, hnumbers.1]
    have hrest := ih hcounted htail (by simpa using hnumbers.2)
    rw [List.flatMap_cons, run_append, hprintf, hrow, hrest, List.append_assoc,
      List.map_cons, List.singleton_append]

end Rows

section Strict

/-- A shell that loses whatever it does not leave as it is. -/
def strict (a : Alone) : Shell a where
  printf t := if '%' ∈ t ∨ '\\' ∈ t then [] else t
  printf_plain t h h' := by simp [h, h']
  glob t := if a.keeps t then [t] else []
  glob_keeps t h := by simp [h]
  argument t := if a.keeps t then some t else none
  argument_keeps t h := by simp [h]

variable {a : Alone} {v : Version} {l : Layout} {t : List Entry} {p : Partition}

theorem strict_made (h : (made v (strict a) l p).name = p.name) :
    a.keeps p.name = true ∨ p.name = v.first.text := by
  rw [made] at h
  split at h
  · rw [strict] at h
    simp only at h
    split at h
    · rename_i hkeeps
      rw [Option.getD_some] at h
      rw [h] at hkeeps
      exact Or.inl hkeeps
    · exact Or.inr h.symm
  · exact Or.inr h.symm

/-- The rows that are read whole. -/
def Whole (l : Layout) (p : Partition) : Prop := '%' ∉ line l p ∧ '\\' ∉ line l p

instance : DecidablePred (Whole l) := fun _ => inferInstanceAs (Decidable (_ ∧ _))

theorem strict_printf (a : Alone) (l : Layout) (p : Partition) :
    (strict a).printf (line l p) = if Whole l p then line l p else [] := by
  by_cases hwhole : Whole l p
  · rw [if_pos hwhole, (strict a).printf_plain _ hwhole.1 hwhole.2]
  · have hspecial : '%' ∈ line l p ∨ '\\' ∈ line l p := by
      rw [Whole] at hwhole
      tauto
    rw [if_neg hwhole]
    exact if_pos hspecial

theorem commands_lost (l : Layout) : run v (strict a) t (commands (strict a) (read l [])) = t := by
  cases l <;> rfl

theorem places_rows {parts : List Partition} (ht : Counted t) (hparts : ∀ p ∈ parts, Fits l p) :
    let t' := run v (strict a) t
      (parts.flatMap fun p => commands (strict a) (read l ((strict a).printf (line l p))))
    Counted t' ∧ (places t').map Prod.snd = (places t).map Prod.snd ++
      (parts.filter fun p => Whole l p).map fun p => (p.start, p.stop) := by
  induction parts generalizing t with
  | nil => exact ⟨ht, by simp [run]⟩
  | cons p parts ih =>
    obtain ⟨hfits, htail⟩ := List.forall_mem_cons.mp hparts
    simp only [List.flatMap_cons, run_append, strict_printf a l p]
    by_cases hwhole : Whole l p
    · rw [if_pos hwhole]
      have hplaces : places (run v (strict a) t (commands (strict a) (read l (line l p)))) =
          places t ++ [(lowestFree t, p.start, p.stop)] := places_commands (reads_line hfits) t
      rw [ht.lowestFree] at hplaces
      obtain ⟨hcounted, hsnd⟩ := ih (ht.append hplaces) htail
      refine ⟨hcounted, ?_⟩
      rw [hsnd, hplaces]
      simp [hwhole]
    · rw [if_neg hwhole, commands_lost]
      simpa [hwhole] using ih ht htail

end Strict


namespace Listing

variable {v : Version} {k : Listing v} {t : List Entry} {p : Partition}

theorem find?_number {f : Partition → Entry} (hf : ∀ p, (f p).number = p.number)
    (hp : p ∈ k.parts) :
    (k.parts.map f).find? (fun x => x.number = p.number) = some (f p) := by
  have hfind : k.parts.find? (fun q => q.number = p.number) = some p := by
    cases h : k.parts.find? (fun q => q.number = p.number) with
    | none =>
      rw [List.find?_eq_none] at h
      simpa using h p hp
    | some q =>
      have hnumber : q.number = p.number := by simpa using List.find?_some h
      rw [List.inj_on_of_nodup_map k.numbers (List.mem_of_find?_eq_some h) hp hnumber]
  rw [List.find?_map]
  simp only [Function.comp_def, hf, hfind, Option.map_some]

theorem Same.exists_entry (h : k.Same t) (hp : p ∈ k.parts) :
    ∃ q ∈ t, q.number = p.number ∧ q.start = p.start ∧ q.stop = p.stop ∧ q.name = p.name ∧
      ∀ f, f ∈ p.flags ↔ f ∈ q.flags := by
  have hn := h p.number
  rw [entries, find?_number (fun _ => rfl) hp] at hn
  cases hq : t.find? (fun x => x.number = p.number) with
  | none => simp [hq] at hn
  | some q =>
    rw [hq] at hn
    obtain ⟨hstart, hstop, hname, hflags⟩ := hn
    have hnumber : q.number = p.number := by simpa using List.find?_some hq
    exact ⟨q, List.mem_of_find?_eq_some hq, hnumber, hstart.symm, hstop.symm, hname.symm, hflags⟩

theorem same_map {f : Partition → Entry}
    (hplaces : ∀ p, (f p).number = p.number ∧ (f p).start = p.start ∧ (f p).stop = p.stop)
    (hnames : ∀ p ∈ k.parts, (f p).name = p.name)
    (hflags : ∀ p ∈ k.parts, ∀ x, x ∈ p.flags ↔ x ∈ (f p).flags) : k.Same (k.parts.map f) := by
  intro n
  have hfind : ∀ g : Partition → Entry, (∀ p, (g p).number = p.number) →
      (k.parts.map g).find? (fun x => x.number = n) =
        (k.parts.find? fun p => p.number = n).map g := by
    intro g hg
    rw [List.find?_map]
    simp only [Function.comp_def, hg]
  rw [entries, hfind _ fun _ => rfl, hfind f fun p => (hplaces p).1]
  cases hp : k.parts.find? (fun p => p.number = n) with
  | none => trivial
  | some p =>
    have hmem := List.mem_of_find?_eq_some hp
    exact ⟨(hplaces p).2.1.symm, (hplaces p).2.2.symm, (hnames p hmem).symm, hflags p hmem⟩

/-- As many partitions are made as there were, with their bounds, so they have the numbers in the
order of the list. -/
theorem numbers_of_same (h : k.Same t) (ht : Counted t)
    (hbounds : (places t).map Prod.snd = (k.parts.filter fun p => Whole k.layout p).map
      fun p => (p.start, p.stop)) :
    (∀ p ∈ k.parts, Whole k.layout p) ∧
      k.parts.map Partition.number = List.range' 1 k.parts.length := by
  have hle : k.parts.length ≤ t.length := by
    have hsubset : k.parts.map Partition.number ⊆ t.map Entry.number := by
      intro n hn
      obtain ⟨p, hp, rfl⟩ := List.mem_map.mp hn
      obtain ⟨q, hq, hnumber, _⟩ := h.exists_entry hp
      exact List.mem_map.mpr ⟨q, hq, hnumber⟩
    simpa using (List.subperm_of_subset k.numbers hsubset).length_le
  have hlength : t.length = (k.parts.filter fun p => Whole k.layout p).length := by
    simpa [places] using congrArg List.length hbounds
  have hall : ∀ p ∈ k.parts, decide (Whole k.layout p) = true := by
    apply List.length_filter_eq_length_iff.mp
    have := List.length_filter_le (fun p => decide (Whole k.layout p)) k.parts
    omega
  rw [List.filter_eq_self.mpr hall] at hbounds hlength
  refine ⟨fun p hp => of_decide_eq_true (hall p hp), ?_⟩
  apply List.ext_getElem (by simp)
  intro i hi _
  rw [List.length_map] at hi
  obtain ⟨q, hq, hnumber, hstart, hstop, _⟩ := h.exists_entry (List.getElem_mem hi)
  obtain ⟨j, hj, rfl⟩ := List.mem_iff_getElem.mp hq
  have hcount : t[j].number = 1 + j := by
    have hget := List.getElem_of_eq ht (i := j) (by simpa using hj)
    simpa using hget
  have hplace : (t[j].start, t[j].stop) = (k.parts[j].start, k.parts[j].stop) := by
    have hget := List.getElem_of_eq hbounds (i := j) (by simpa [places] using hj)
    simpa [places] using hget
  have hij : j = i := by
    have hj' : j < k.parts.length := by omega
    have hparts : k.parts[j] = k.parts[i] := by
      apply List.inj_on_of_nodup_map k.bounds (List.getElem_mem hj') (List.getElem_mem hi)
      rw [← hplace, hstart, hstop]
    exact (k.bounds.of_map _).getElem_inj_iff.mp hparts
  subst hij
  simp [← hnumber, hcount]

end Listing

section Restored

variable {a : Alone} {v : Version} {e : Shell a} {l : Layout} {p : Partition}

theorem made_of_empty (h : p.name = []) (hfirst : v.first = .empty) :
    (made v e l p).name = p.name := by
  have hecho : e.echo p.name = [] := by
    rw [h]
    rfl
  rw [made, hecho, h, hfirst]
  rfl

theorem made_of_keeps (h : a.keeps p.name = true) : (made v e l p).name = p.name := by
  have hword := a.word h
  have hecho : e.echo p.name = p.name := by
    rw [echo_of_keeps e (by simpa [words_of_isWord hword] using h), words_of_isWord hword]
    simp
  have hfilter : p.name.filter (fun c => c ≠ ' ') = p.name := by
    apply List.filter_eq_self.mpr
    intro c hc
    have hblank : c ≠ ' ' := by
      rintro rfl
      exact hword.2.1 hc
    simpa using hblank
  simp only [made, hecho, hfilter]
  rw [if_pos hword.1, e.argument_keeps _ h, Option.getD_some]

/-- `printf` leaves a row as it is when nothing in the name is special to it. -/
theorem whole_line (hfits : Fits l p) (hpercent : '%' ∉ p.name) (hbackslash : '\\' ∉ p.name) :
    Whole l p :=
  ⟨notMem_line hfits (Or.inl rfl) hpercent, notMem_line hfits (Or.inr rfl) hbackslash⟩

theorem mem_line {c : Char} (h : c ∈ p.name) : c ∈ line l p := by
  apply List.mem_append_left
  cases l with
  | new =>
    apply List.mem_flatten.mpr
    exact ⟨cell 9 p.name, by simp [cells], List.mem_append_left _ h⟩
  | old =>
    apply List.mem_flatten.mpr
    exact ⟨cell 22 p.name, by simp [cells], List.mem_append_left _ h⟩

end Restored

theorem run_script (e : Shell a) (t : List Entry) (k : Listing v) :
    run v e t (script e k.file) = run v e [] (k.parts.flatMap fun p =>
      commands e (read k.layout (e.printf (line k.layout p)))) := by
  rw [script_eq]
  rfl

theorem Listing.mem_flags_iff (k : Listing v) (hp : p ∈ k.parts) :
    Readable v (flagsWidth k.layout) p.flags ↔ ∀ f, f ∈ p.flags ↔
      f ∈ (listed ((flagsText p.flags).take (flagsWidth k.layout))).filterMap v.flag :=
  readable_iff (k.fits p hp).flag (k.fits p hp).distinct (k.known p hp) _

/-- What a shell that changes all it may change restores shows what the table has to be like. -/
theorem Listing.Restored.readable {k : Listing v} (h : k.Restored a) :
    k.parts.map Partition.number = List.range' 1 k.parts.length ∧
      ∀ p ∈ k.parts, ((p.name = [] ∧ v.first = .empty) ∨ (a.keeps p.name = true ∧ '%' ∉ p.name)) ∧
        Readable v (flagsWidth k.layout) p.flags := by
  have hcounted : Counted [] := rfl
  have hsame := h (strict a) []
  rw [run_script] at hsame
  obtain ⟨ht, hbounds⟩ : Counted (run v (strict a) [] _) ∧ _ := places_rows hcounted k.fits
  obtain ⟨hwhole, hnumbers⟩ := Listing.numbers_of_same hsame ht (by simpa [places] using hbounds)
  refine ⟨hnumbers, ?_⟩
  intro p hp
  have hprintf : ∀ p ∈ k.parts, (strict a).printf (line k.layout p) = line k.layout p :=
    fun p hp => (strict a).printf_plain _ (hwhole p hp).1 (hwhole p hp).2
  rw [run_rows hcounted (fun p hp => ⟨k.fits p hp, hprintf p hp⟩) hnumbers,
    List.nil_append] at hsame
  obtain ⟨q, hq, hnumber, _, _, hname, hflags⟩ := hsame.exists_entry hp
  obtain ⟨p', hp', rfl⟩ := List.mem_map.mp hq
  have hp'p : p' = p := List.inj_on_of_nodup_map k.numbers hp' hp hnumber
  subst hp'p
  refine ⟨?_, (k.mem_flags_iff hp').mpr hflags⟩
  have hpercent : '%' ∉ p'.name := fun hmem => (hwhole p' hp).1 (mem_line hmem)
  rcases strict_made hname with hkeeps | hfirst
  · exact Or.inr ⟨hkeeps, hpercent⟩
  · cases hv : v.first with
    | empty => exact Or.inl ⟨by rw [hfirst, hv]; rfl, rfl⟩
    | primary =>
      refine Or.inr ⟨?_, hpercent⟩
      rw [hfirst, hv]
      exact a.plain (by decide)

theorem Listing.restored_of_readable {k : Listing v}
    (hnumbers : k.parts.map Partition.number = List.range' 1 k.parts.length)
    (hparts : ∀ p ∈ k.parts,
      ((p.name = [] ∧ v.first = .empty) ∨ (a.keeps p.name = true ∧ '%' ∉ p.name)) ∧
        Readable v (flagsWidth k.layout) p.flags) : k.Restored a := by
  intro e t
  have hcounted : Counted [] := rfl
  have hprintf : ∀ p ∈ k.parts, e.printf (line k.layout p) = line k.layout p := by
    intro p hp
    obtain ⟨hpercent, hbackslash⟩ : '%' ∉ p.name ∧ '\\' ∉ p.name := by
      rcases (hparts p hp).1 with ⟨hname, -⟩ | ⟨hkeeps, hpercent⟩
      · simp [hname]
      · exact ⟨hpercent, a.backslash hkeeps⟩
    have hwhole := whole_line (k.fits p hp) hpercent hbackslash
    exact e.printf_plain _ hwhole.1 hwhole.2
  have hmade : ∀ p ∈ k.parts, (made v e k.layout p).name = p.name := by
    intro p hp
    rcases (hparts p hp).1 with ⟨hname, hfirst⟩ | ⟨hkeeps, -⟩
    · exact made_of_empty hname hfirst
    · exact made_of_keeps hkeeps
  rw [run_script, run_rows hcounted (fun p hp => ⟨k.fits p hp, hprintf p hp⟩) hnumbers,
    List.nil_append]
  apply Listing.same_map (fun p => ⟨rfl, rfl, rfl⟩) hmade
  exact fun p hp => (k.mem_flags_iff hp).mp (hparts p hp).2

/-- The script makes the same partitions exactly if the numbers go from 1 without a gap in the order
of the list, every name is left as it is, and every list of flags is readable. -/
theorem restored_iff (a : Alone) (v : Version) (k : Listing v) :
    k.Restored a ↔ k.parts.map Partition.number = List.range' 1 k.parts.length ∧
      ∀ p ∈ k.parts, ((p.name = [] ∧ v.first = .empty) ∨ (a.keeps p.name = true ∧ '%' ∉ p.name)) ∧
        Readable v (flagsWidth k.layout) p.flags :=
  ⟨fun h => h.readable, fun h => Listing.restored_of_readable h.1 h.2⟩

/-- The shells leave nothing but plain texts as they are. -/
def plainOnly : Alone where
  keeps t := decide (Plain t)
  word h := (of_decide_eq_true h).isWord
  option h := (of_decide_eq_true h).isOption
  backslash h hmem := (of_decide_eq_true h).2.1 _ hmem (by decide)
  plain h := decide_eq_true h

/-- A `parted` that takes no abbreviations. -/
def exact : Version where
  first := .empty
  flag := some

/-- Two partitions, with a gap in their numbers. -/
def gap : Listing exact where
  layout := .new
  head := ["Model: ATA ST3500 (scsi)".toList, "Disk /dev/sda: 500GB".toList,
    "Partition Table: gpt".toList, [],
    "Number  Start   End     Size    File system  Name     Flags".toList]
  parts := [
    ⟨1, "17.4kB".toList, "100MB".toList, "100MB".toList, "ext3".toList, [], ["boot".toList]⟩,
    ⟨3, "200MB".toList, "300MB".toList, "100MB".toList, "ext3".toList, "data".toList, []⟩]
  heads := by decide +kernel
  layout_head := by decide +kernel
  numbers := by decide
  bounds := by decide
  fits := by
    simp only [List.forall_mem_cons]
    refine ⟨⟨by decide, ?_, ?_, by decide, by decide, by decide, by decide, by decide,
      by decide, by decide +kernel⟩, ⟨by decide, ?_, ?_, by decide, by decide, by decide,
      by decide, by decide, by decide, by decide +kernel⟩, by simp⟩ <;>
    exact ⟨⟨by decide, by decide, by decide⟩, by decide⟩
  known := fun _ _ _ _ => rfl

theorem gap_not_restored : ¬ gap.Restored plainOnly := by
  intro h
  have hthird : ((run exact (strict plainOnly) [] (script (strict plainOnly) gap.file)).find?
      fun p => p.number = 3).isNone = true := by decide +kernel
  have hsame := h (strict plainOnly) [] 3
  rw [Option.isNone_iff_eq_none.mp hthird] at hsame
  exact hsame

end Parted
