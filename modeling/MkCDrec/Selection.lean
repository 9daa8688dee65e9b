import Mathlib.Algebra.Group.Int.Defs
import MkCDrec.Lib.Reading
import MkCDrec.Lib.Words

/-!
# Menus

`selection` of `ansictrl.sh` reads lines until `[` finds one inside the range, and
hands it to `return`. The exit status that the callers take for the choice is what
`return` makes of the line: an integer modulo 256, a status of its own for a word
that is no number. `[` fails on such a word, and its failure ends the loop like a
choice does.
-/

namespace Selection

open ShellText Words Reading

/-- What differs between the shells and the directories that the menus run in:
pathname expansion of a word, `[` on more than one word, and the status of `return`
after `numeric argument required`. -/
structure Shell where
  glob : Text → List Text
  several : List Text → Nat → Nat → Bool
  usage : Nat
  usage_pos : 0 < usage
  usage_lt : usage < 256

def digits (s : Text) : Option Int :=
  if s ≠ [] ∧ s.all Char.isDigit then some (value s) else none

/-- An integer as it is typed. -/
def integer : Text → Option Int
  | '-' :: s => (digits s).map fun n => -n
  | '+' :: s => digits s
  | s => digits s

/-- The integers of 64 bits, which `[` and `return` take. -/
def number (w : Text) : Option Int := (integer w).filter fun n => -2 ^ 63 ≤ n ∧ n < 2 ^ 63

def wildcard (c : Char) : Bool := c = '*' || c = '?' || c = '['

variable (sh : Shell)

/-- The words of `${choice}` without quotes. -/
def expand (choice : Text) : List Text :=
  (words choice).flatMap fun w => if w.any wildcard then sh.glob w else [w]

/-- `[ ${choice} -lt ${lowend} -o ${choice} -gt ${highend} ]`. It fails on nothing and
on a word that is no number. -/
def outOfRange (lowend highend : Nat) : List Text → Bool
  | [] => false
  | [w] => (number w).elim false fun n => n < lowend || highend < n
  | ws => sh.several ws lowend highend

/-- What comes of a call: a status, or `return` has too many arguments, and the shell
drops the command at the top level that the call is part of. -/
inductive Ended
  | status (n : Nat)
  | dropped
  deriving DecidableEq

/-- `return` skips a first `--`. Without an argument it gives the status of the loop. -/
def argument : List Text → List Text
  | ['-', '-'] :: ws => ws
  | ws => ws

/-- `return ${choice}`. -/
def returned (ws : List Text) : Ended :=
  match argument ws with
  | [] => .status 0
  | w :: more =>
    match number w with
    | none => .status sh.usage
    | some n => if more = [] then .status (n % 256).toNat else .dropped

/-- The loop of `selection` with one line. -/
def tries (lowend highend : Nat) (_ : Unit) (choice : Text) : Except Ended Unit :=
  if outOfRange sh lowend highend (expand sh choice) then .ok ()
  else .error (returned sh (expand sh choice))

/-- `selection lowend-highend`. The lines are what `read` leaves in `choice`. -/
def selection (lowend highend : Nat) (lines : List Text) : Option (Ended × List Text) :=
  reads (tries sh lowend highend) () lines

theorem length_lt_of_selection {sh : Shell} {lowend highend : Nat} {lines later : List Text}
    {e : Ended} (h : selection sh lowend highend lines = some (e, later)) :
    later.length < lines.length :=
  length_lt_of_reads h

/-- The loop around a menu of `n` items. It goes on with the number in `ANS`; a
dropped command leaves there what the script had before. -/
def menu (n : Nat) (ans : Option Nat) (lines : List Text) : Option (Option Nat × List Text) :=
  match _h : selection sh 1 n lines with
  | none => none
  | some (.dropped, later) => some (ans, later)
  | some (.status s, later) =>
    if 0 < s ∧ s ≤ n then some (some s, later) else menu n (some s) later
termination_by lines.length
decreasing_by exact length_lt_of_selection _h

/-- The two menus of `clone-dsk.sh` and the three of `restore-fs.sh`, each with what
`ANS` holds before it as far as it is set. The menu of disks in `restore-fs.sh` stands
inside an `if` together with the assignment that reads `ANS`. -/
inductive Menu
  | sourceDisk
  | targetDisk (ans : Option Nat)
  | fileSystem
  | restoreDisk
  | targetPartition (ans : Option Nat)

def Menu.ans : Menu → Option Nat
  | sourceDisk => none
  | targetDisk ans => ans
  | fileSystem => none
  | restoreDisk => none
  | targetPartition ans => ans

/-- The swap menu takes any status. The result is `factor`, or nothing when the
script drops the command. -/
def swapFactor (lines : List Text) : Option (Option Nat × List Text) :=
  (selection sh 1 5 lines).map fun (e, later) =>
    match e with
    | .status choice => (some (choice + 1), later)
    | .dropped => (none, later)

/-- The number that a line consists of. -/
def typed (line : Text) : Option Int :=
  match words line with
  | [w] => integer w
  | _ => none

/-- The wait for an integer of the range. -/
def awaits (lowend highend : Nat) (_ : Unit) (line : Text) : Except Nat Unit :=
  match typed line with
  | none => .ok ()
  | some n => if lowend ≤ n ∧ n ≤ highend then .error n.toNat else .ok ()

/-- The first line typed that is an integer of the range. -/
def firstTyped (lowend highend : Nat) (lines : List Text) : Option (Nat × List Text) :=
  reads (awaits lowend highend) () lines

/-- The callers of `selection` get what the user typed. -/
def Selected (lowend highend : Nat) (lines : List Text) : Prop :=
  selection sh lowend highend lines =
    (firstTyped lowend highend lines).map fun (n, later) => (.status n, later)

/-- Among the lines read there is the number `k`. -/
def Typed (lines later : List Text) (k : Nat) : Prop :=
  ∃ read, lines = read ++ later ∧ ∃ line ∈ read, typed line = some k

/-- A menu goes on with no item but one whose number was typed. -/
def Chosen (n : Nat) (ans : Option Nat) (lines : List Text) : Prop :=
  ∀ k later, menu sh n ans lines = some (some k, later) → 0 < k → k ≤ n → Typed lines later k

/-- The swap menu goes on with no factor but the one of an item whose number was
typed. -/
def SwapChosen (lines : List Text) : Prop :=
  ∀ factor later, swapFactor sh lines = some (some factor, later) →
    ∃ k, 0 < k ∧ k ≤ 5 ∧ factor = k + 1 ∧ Typed lines later k

/-- An integer of the range that an exit status can hold. -/
def Plain (lowend highend : Nat) (line : Text) : Prop :=
  ∃ n : Nat, typed line = some (n : Int) ∧ lowend ≤ n ∧ n ≤ highend ∧ n < 256

/-- `selection` asks again. -/
def Refused (lowend highend : Nat) (line : Text) : Prop :=
  outOfRange sh lowend highend (expand sh line) = true

/-- A line that stands for an item without being its number: an integer that differs
from it by a multiple of 256, or no number, where the status of the failure is one of
an item. -/
def Misleads (n : Nat) (line : Text) : Prop :=
  ¬ Plain 1 n line ∧ ¬ Refused sh 1 n line ∧
    ∃ w more, argument (expand sh line) = w :: more ∧
      match number w with
      | none => sh.usage ≤ n
      | some x => more = [] ∧ 0 < x % 256 ∧ x % 256 ≤ n

/-- A line with a number and something behind it. -/
def Drops (n : Nat) (line : Text) : Prop :=
  ¬ Refused sh 1 n line ∧
    ∃ w v more x, argument (expand sh line) = w :: v :: more ∧ number w = some x

/-- The menu is left at the line. -/
def Leaves (n : Nat) (line : Text) : Prop := Plain 1 n line ∨ Misleads sh n line ∨ Drops sh n line

def IsItem (n : Nat) (ans : Option Nat) : Prop := ∃ k, ans = some k ∧ 0 < k ∧ k ≤ n

section Lines

variable {sh} {lowend highend n : Nat} {line : Text}

theorem isDigit_of_digits {s : Text} {x : Int} (h : digits s = some x) :
    s ≠ [] ∧ ∀ c ∈ s, c.isDigit = true := by
  unfold digits at h
  split at h
  · exact ⟨‹_ ∧ _›.1, List.all_eq_true.mp ‹_ ∧ _›.2⟩
  · cases h

/-- An integer is written with signs and digits only, the sign in front. -/
theorem integer_cases {w : Text} {x : Int} (h : integer w = some x) :
    ∃ s : Text, s ≠ [] ∧ (∀ c ∈ s, c.isDigit = true) ∧
      (w = s ∨ ∃ a, (a = '-' ∨ a = '+') ∧ w = a :: s) := by
  unfold integer at h
  split at h
  · obtain ⟨y, hy, -⟩ := Option.map_eq_some_iff.mp h
    obtain ⟨hne, hall⟩ := isDigit_of_digits hy
    exact ⟨_, hne, hall, .inr ⟨'-', .inl rfl, rfl⟩⟩
  · obtain ⟨hne, hall⟩ := isDigit_of_digits h
    exact ⟨_, hne, hall, .inr ⟨'+', .inr rfl, rfl⟩⟩
  · obtain ⟨hne, hall⟩ := isDigit_of_digits h
    exact ⟨_, hne, hall, .inl rfl⟩

theorem not_wildcard_of_integer {w : Text} {x : Int} (h : integer w = some x) :
    w.any wildcard = false := by
  have hdigit : ∀ c : Char, c.isDigit = true → wildcard c = false := by
    intro c hc
    by_contra hwild
    simp only [wildcard, Bool.or_eq_true, decide_eq_true_eq, Bool.not_eq_false] at hwild
    rcases hwild with (rfl | rfl) | rfl <;> exact absurd hc (by decide)
  obtain ⟨s, -, hall, hw⟩ := integer_cases h
  have hs : s.any wildcard = false := by
    rw [List.any_eq_false]
    intro c hc
    rw [hdigit c (hall c hc)]
    exact Bool.false_ne_true
  rcases hw with rfl | ⟨a, rfl | rfl, rfl⟩
  · exact hs
  · rw [List.any_cons, hs]
    rfl
  · rw [List.any_cons, hs]
    rfl

/-- A number that was typed reaches `[` and `return` as it is. -/
theorem expand_of_typed (sh : Shell) {x : Int} (h : typed line = some x) :
    ∃ w, integer w = some x ∧ expand sh line = [w] ∧ argument [w] = [w] := by
  unfold typed at h
  split at h
  · rename_i w hwords
    refine ⟨w, h, ?_, ?_⟩
    · rw [expand, hwords, List.flatMap_singleton, not_wildcard_of_integer h]
      rfl
    · have hdash : integer ['-', '-'] = none := by decide
      unfold argument
      split
      · rename_i heq
        obtain ⟨rfl, -⟩ := List.cons.inj heq
        rw [hdash] at h
        cases h
      · rfl
  · cases h

theorem number_of_integer {w : Text} {x : Int} (h : integer w = some x) :
    number w = if -2 ^ 63 ≤ x ∧ x < 2 ^ 63 then some x else none := by
  simp [number, h, Option.filter]

theorem refused_of_typed {x : Int} (h : typed line = some x) :
    Refused sh lowend highend line ↔
      (-2 ^ 63 ≤ x ∧ x < 2 ^ 63) ∧ (x < lowend ∨ highend < x) := by
  obtain ⟨w, hw, hexpand, -⟩ := expand_of_typed sh h
  rw [Refused, hexpand, outOfRange, number_of_integer hw]
  by_cases hfits : -2 ^ 63 ≤ x ∧ x < 2 ^ 63
  · rw [if_pos hfits, and_iff_right hfits]
    simp
  · rw [if_neg hfits]
    exact iff_of_false Bool.false_ne_true fun h => hfits h.1

theorem returned_of_typed {x : Int} (h : typed line = some x) :
    returned sh (expand sh line) =
      .status (if -2 ^ 63 ≤ x ∧ x < 2 ^ 63 then (x % 256).toNat else sh.usage) := by
  obtain ⟨w, hw, hexpand, hargument⟩ := expand_of_typed sh h
  rw [returned, hexpand, hargument]
  by_cases hfits : -2 ^ 63 ≤ x ∧ x < 2 ^ 63
  · simp only [number_of_integer hw, if_pos hfits, if_true]
  · simp only [number_of_integer hw, if_neg hfits]

theorem returned_lt {ws : List Text} {s : Nat} (h : returned sh ws = .status s) : s < 256 := by
  unfold returned at h
  split at h
  · obtain rfl := Ended.status.inj h
    decide
  · split at h
    · obtain rfl := Ended.status.inj h
      exact sh.usage_lt
    · split at h
      · obtain rfl := Ended.status.inj h
        omega
      · cases h

/-- An integer of the range ends the loop. -/
theorem not_refused_of_typed {x : Int} (h : typed line = some x) (hlow : lowend ≤ x)
    (hhigh : x ≤ highend) : ¬ Refused sh lowend highend line := by
  rw [refused_of_typed h]
  omega

theorem plain_iff : Plain lowend highend line ↔
    ∃ x : Nat, typed line = some (x : Int) ∧ lowend ≤ x ∧ x ≤ highend ∧
      returned sh (expand sh line) = .status x := by
  constructor
  · rintro ⟨x, hx, hlow, hhigh, hlt⟩
    refine ⟨x, hx, hlow, hhigh, ?_⟩
    rw [returned_of_typed hx, if_pos (by omega)]
    congr 1
    omega
  · rintro ⟨x, hx, hlow, hhigh, hstatus⟩
    exact ⟨x, hx, hlow, hhigh, returned_lt hstatus⟩

end Lines

section Select

variable {sh} {lowend highend : Nat} {line : Text} {lines before later : List Text} {e : Ended}
  {x : Nat}

theorem tries_eq_ok_iff :
    tries sh lowend highend () line = .ok () ↔ Refused sh lowend highend line := by
  unfold tries Refused
  split <;> simp [*]

theorem tries_eq_error_iff : tries sh lowend highend () line = .error e ↔
    ¬ Refused sh lowend highend line ∧ returned sh (expand sh line) = e := by
  unfold tries Refused
  split <;> simp [*]

theorem awaits_eq_error_iff : awaits lowend highend () line = .error x ↔
    typed line = some (x : Int) ∧ lowend ≤ x ∧ x ≤ highend := by
  unfold awaits
  split
  · simp [*]
  · rename_i n hn
    rw [hn]
    split
    · rename_i hrange
      rw [Except.error.injEq, Option.some.injEq]
      omega
    · rename_i hrange
      refine iff_of_false (by simp) ?_
      rintro ⟨heq, hlow, hhigh⟩
      obtain rfl := Option.some.inj heq
      omega

theorem awaits_of_refused (h : Refused sh lowend highend line) :
    awaits lowend highend () line = .ok () := by
  cases hline : awaits lowend highend () line with
  | ok => rfl
  | error x =>
    obtain ⟨hx, hlow, hhigh⟩ := awaits_eq_error_iff.mp hline
    exact absurd h (not_refused_of_typed hx (by omega) (by omega))

theorem selection_eq_some_iff :
    selection sh lowend highend lines = some (e, later) ↔
      ∃ before line, lines = before ++ line :: later ∧
        (∀ l ∈ before, Refused sh lowend highend l) ∧ ¬ Refused sh lowend highend line ∧
        returned sh (expand sh line) = e := by
  rw [selection]
  refine reads_unit_eq_some_iff.trans ?_
  simp only [tries_eq_ok_iff, tries_eq_error_iff]

theorem selection_eq_none_iff :
    selection sh lowend highend lines = none ↔ ∀ l ∈ lines, Refused sh lowend highend l := by
  rw [selection]
  refine reads_unit_eq_none_iff.trans ?_
  simp only [tries_eq_ok_iff]

/-- `selection` gives the first integer of the range that is typed if and only if the
line it stops at is one below 256. -/
theorem selected_iff (sh : Shell) (lowend highend : Nat) (lines : List Text) :
    Selected sh lowend highend lines ↔ ∀ before line later, lines = before ++ line :: later →
      (∀ l ∈ before, Refused sh lowend highend l) → ¬ Refused sh lowend highend line →
      Plain lowend highend line := by
  constructor
  · intro hselected before line later hsplit hbefore hline
    have hselection := selection_eq_some_iff.mpr ⟨before, line, hsplit, hbefore, hline, rfl⟩
    rw [hselected, Option.map_eq_some_iff] at hselection
    obtain ⟨⟨x, rest⟩, hfirst, heq⟩ := hselection
    obtain ⟨hstatus, rfl⟩ := Prod.mk.inj heq
    obtain ⟨before', line', hsplit', -, hstop⟩ := reads_unit_eq_some_iff.mp hfirst
    have hsame : line' = line := by
      rw [hsplit] at hsplit'
      exact (List.cons.inj (List.append_inj_right' hsplit' rfl)).1.symm
    rw [hsame] at hstop
    obtain ⟨hx, hlow, hhigh⟩ := awaits_eq_error_iff.mp hstop
    exact plain_iff.mpr ⟨x, hx, hlow, hhigh, hstatus.symm⟩
  · intro hplain
    unfold Selected
    cases hselection : selection sh lowend highend lines with
    | none =>
      have hfirst : firstTyped lowend highend lines = none := reads_unit_eq_none_iff.mpr fun l hl =>
        awaits_of_refused (selection_eq_none_iff.mp hselection l hl)
      rw [hfirst]
      rfl
    | some r =>
      obtain ⟨e, later⟩ := r
      obtain ⟨before, line, hsplit, hbefore, hline, rfl⟩ := selection_eq_some_iff.mp hselection
      obtain ⟨x, hx, hlow, hhigh, hstatus⟩ :=
        plain_iff.mp (hplain before line later hsplit hbefore hline)
      have hfirst : firstTyped lowend highend lines = some (x, later) :=
        reads_unit_eq_some_iff.mpr ⟨before, line, hsplit,
          fun l hl => awaits_of_refused (hbefore l hl), awaits_eq_error_iff.mpr ⟨hx, hlow, hhigh⟩⟩
      rw [hfirst, hstatus]
      rfl

end Select

/-- The two loops of a menu with one line. -/
def round (n : Nat) (ans : Option Nat) (line : Text) : Except (Option Nat) (Option Nat) :=
  if outOfRange sh 1 n (expand sh line) then .ok ans
  else match returned sh (expand sh line) with
    | .dropped => .error ans
    | .status s => if 0 < s ∧ s ≤ n then .error (some s) else .ok (some s)

section Menu

variable {sh} {n : Nat} {ans ans' : Option Nat} {line : Text} {lines before later : List Text}

theorem menu_eq (n : Nat) (ans : Option Nat) (lines : List Text) :
    menu sh n ans lines = match selection sh 1 n lines with
      | none => none
      | some (.dropped, later) => some (ans, later)
      | some (.status s, later) =>
        if 0 < s ∧ s ≤ n then some (some s, later) else menu sh n (some s) later := by
  rw [menu]
  split <;> simp only [*]

theorem menu_eq_reads (n : Nat) (lines : List Text) :
    ∀ ans, menu sh n ans lines = reads (round sh n) ans lines := by
  induction lines with
  | nil => intro ans; rw [menu]; rfl
  | cons line lines ih =>
    intro ans
    by_cases hrefused : outOfRange sh 1 n (expand sh line) = true
    · have hround : round sh n ans line = .ok ans := by rw [round, if_pos hrefused]
      have hselection : selection sh 1 n (line :: lines) = selection sh 1 n lines :=
        reads_of_ok (by rw [tries, if_pos hrefused]) lines
      rw [reads_of_ok hround, ← ih, menu_eq, hselection, ← menu_eq]
    · have hselection : selection sh 1 n (line :: lines) =
          some (returned sh (expand sh line), lines) :=
        reads_of_error (by rw [tries, if_neg hrefused]) lines
      rw [menu_eq, hselection, reads, round, if_neg hrefused]
      cases returned sh (expand sh line) with
      | dropped => rfl
      | status s =>
        dsimp only
        split
        · rfl
        · exact ih (some s)

theorem round_of_refused (h : Refused sh 1 n line) : round sh n ans line = .ok ans := if_pos h

theorem round_of_not_refused (h : ¬ Refused sh 1 n line) :
    round sh n ans line = match returned sh (expand sh line) with
      | .dropped => .error ans
      | .status s => if 0 < s ∧ s ≤ n then .error (some s) else .ok (some s) := if_neg h

theorem round_of_status {s : Nat} (hrefused : ¬ Refused sh 1 n line)
    (h : returned sh (expand sh line) = .status s) :
    round sh n ans line = if 0 < s ∧ s ≤ n then .error (some s) else .ok (some s) := by
  rw [round_of_not_refused hrefused, h]

theorem not_refused_of_plain (h : Plain 1 n line) : ¬ Refused sh 1 n line := by
  obtain ⟨k, hk, hlow, hhigh, -⟩ := h
  exact not_refused_of_typed hk (by omega) (by omega)

theorem round_of_plain (sh : Shell) (ans : Option Nat) (h : Plain 1 n line) :
    ∃ k : Nat, typed line = some (k : Int) ∧ round sh n ans line = .error (some k) := by
  obtain ⟨k, hk, hlow, hhigh, hstatus⟩ := plain_iff.mp h
  exact ⟨k, hk, by rw [round_of_status (not_refused_of_plain h) hstatus, if_pos ⟨hlow, hhigh⟩]⟩

theorem round_of_misleads (ans : Option Nat) (h : Misleads sh n line) :
    ∃ k, 0 < k ∧ k ≤ n ∧ k < 256 ∧ typed line ≠ some (k : Int) ∧
      round sh n ans line = .error (some k) := by
  obtain ⟨hplain, hrefused, w, more, hargument, hitem⟩ := h
  obtain ⟨k, hstatus, hpos, hle⟩ : ∃ k, returned sh (expand sh line) = .status k ∧ 0 < k ∧ k ≤ n := by
    cases hw : number w with
    | none =>
      rw [hw] at hitem
      exact ⟨sh.usage, by simp only [returned, hargument, hw], sh.usage_pos, hitem⟩
    | some x =>
      rw [hw] at hitem
      obtain ⟨rfl, hpos, hle⟩ := hitem
      exact ⟨(x % 256).toNat, by simp only [returned, hargument, hw, if_true], by omega, by omega⟩
  have hlt := returned_lt hstatus
  refine ⟨k, hpos, hle, hlt, ?_, by rw [round_of_status hrefused hstatus, if_pos ⟨hpos, hle⟩]⟩
  intro hk
  exact hplain ⟨k, hk, hpos, hle, hlt⟩

theorem returned_of_drops (h : Drops sh n line) : returned sh (expand sh line) = .dropped := by
  obtain ⟨-, w, v, more, x, hargument, hw⟩ := h
  simp only [returned, hargument, hw, if_neg (List.cons_ne_nil v more)]

theorem round_of_drops (ans : Option Nat) (h : Drops sh n line) :
    round sh n ans line = .error ans := by
  rw [round_of_not_refused h.1, returned_of_drops h]

/-- A line that is not refused gives a status, or drops the command. -/
theorem returned_cases (hrefused : ¬ Refused sh 1 n line) :
    (∃ s, returned sh (expand sh line) = .status s) ∨ Drops sh n line := by
  cases hargument : argument (expand sh line) with
  | nil => exact .inl ⟨0, by simp only [returned, hargument]⟩
  | cons w more =>
    cases hw : number w with
    | none => exact .inl ⟨sh.usage, by simp only [returned, hargument, hw]⟩
    | some x =>
      cases more with
      | nil => exact .inl ⟨(x % 256).toNat, by simp only [returned, hargument, hw, if_true]⟩
      | cons v more => exact .inr ⟨hrefused, w, v, more, x, hargument, hw⟩

/-- The status of an item comes from its number, or from a line that misleads. -/
theorem misleads_of_status {s : Nat} (hplain : ¬ Plain 1 n line) (hrefused : ¬ Refused sh 1 n line)
    (hstatus : returned sh (expand sh line) = .status s) (hpos : 0 < s) (hle : s ≤ n) :
    Misleads sh n line := by
  refine ⟨hplain, hrefused, ?_⟩
  cases hargument : argument (expand sh line) with
  | nil =>
    simp only [returned, hargument] at hstatus
    obtain rfl := Ended.status.inj hstatus
    exact absurd hpos (Nat.lt_irrefl 0)
  | cons w more =>
    refine ⟨w, more, rfl, ?_⟩
    simp only [returned, hargument] at hstatus
    cases hw : number w with
    | none =>
      rw [hw] at hstatus
      obtain rfl := Ended.status.inj hstatus
      exact hle
    | some x =>
      rw [hw] at hstatus
      dsimp only at hstatus
      split at hstatus
      · obtain rfl := Ended.status.inj hstatus
        exact ⟨‹_›, by omega, by omega⟩
      · cases hstatus

/-- A line that is neither refused nor leaves the menu puts something into `ANS` that
is no item. -/
theorem round_of_not_leaves (ans : Option Nat) (hrefused : ¬ Refused sh 1 n line)
    (h : ¬ Leaves sh n line) :
    ∃ s, ¬ IsItem n (some s) ∧ round sh n ans line = .ok (some s) := by
  obtain ⟨hplain, hmisleads, hdrops⟩ :
      ¬ Plain 1 n line ∧ ¬ Misleads sh n line ∧ ¬ Drops sh n line := by
    simpa [Leaves] using h
  obtain ⟨s, hstatus⟩ := (returned_cases hrefused).resolve_right hdrops
  have hitem : ¬ (0 < s ∧ s ≤ n) := fun hs =>
    hmisleads (misleads_of_status hplain hrefused hstatus hs.1 hs.2)
  refine ⟨s, ?_, by rw [round_of_status hrefused hstatus, if_neg hitem]⟩
  rintro ⟨k, hk, hbounds⟩
  obtain rfl := Option.some.inj hk
  exact hitem hbounds

theorem leaves_of_error {a : Option Nat} (h : round sh n ans line = .error a) : Leaves sh n line := by
  by_contra hleaves
  by_cases hrefused : Refused sh 1 n line
  · rw [round_of_refused hrefused] at h
    cases h
  · obtain ⟨s, -, hround⟩ := round_of_not_leaves ans hrefused hleaves
    rw [hround] at h
    cases h

theorem not_leaves_of_ok (h : round sh n ans line = .ok ans') : ¬ Leaves sh n line := by
  rintro (hplain | hmisleads | hdrops)
  · obtain ⟨k, -, hround⟩ := round_of_plain sh ans hplain
    rw [hround] at h
    cases h
  · obtain ⟨k, -, -, -, -, hround⟩ := round_of_misleads ans hmisleads
    rw [hround] at h
    cases h
  · rw [round_of_drops _ hdrops] at h
    cases h

/-- While the menu goes on, `ANS` is as before it, or it is no item any more. -/
theorem ans_of_rounds (ans : Option Nat) (hleaves : ∀ l ∈ before, ¬ Leaves sh n l) :
    ∃ ans', before.foldlM (round sh n) ans = .ok ans' ∧
      (ans' = ans ∧ (∀ l ∈ before, Refused sh 1 n l) ∨
        ¬ IsItem n ans' ∧ ∃ l ∈ before, ¬ Refused sh 1 n l) := by
  induction before generalizing ans with
  | nil => exact ⟨ans, rfl, .inl ⟨rfl, by simp⟩⟩
  | cons line before ih =>
    obtain ⟨hline, hbefore⟩ := List.forall_mem_cons.mp hleaves
    by_cases hrefused : Refused sh 1 n line
    · obtain ⟨ans', hgone, hans⟩ := ih ans hbefore
      refine ⟨ans', ?_, ?_⟩
      · rw [List.foldlM_cons, round_of_refused hrefused]
        exact hgone
      · rcases hans with ⟨heq, hall⟩ | ⟨hitem, l, hl, hnot⟩
        · exact .inl ⟨heq, List.forall_mem_cons.mpr ⟨hrefused, hall⟩⟩
        · exact .inr ⟨hitem, l, List.mem_cons_of_mem line hl, hnot⟩
    · obtain ⟨s, hs, hround⟩ := round_of_not_leaves ans hrefused hline
      obtain ⟨ans', hgone, hans⟩ := ih (some s) hbefore
      refine ⟨ans', ?_, .inr ⟨?_, line, List.mem_cons_self, hrefused⟩⟩
      · rw [List.foldlM_cons, hround]
        exact hgone
      · rcases hans with ⟨rfl, -⟩ | ⟨hitem, -⟩
        · exact hs
        · exact hitem

theorem not_leaves_of_rounds (h : before.foldlM (round sh n) ans = .ok ans') :
    ∀ l ∈ before, ¬ Leaves sh n l := by
  induction before generalizing ans with
  | nil => simp
  | cons line before ih =>
    rw [List.foldlM_cons] at h
    cases hround : round sh n ans line with
    | error a =>
      rw [hround] at h
      cases h
    | ok a =>
      rw [hround] at h
      exact List.forall_mem_cons.mpr ⟨not_leaves_of_ok hround, ih h⟩

/-- What a menu was left with, and at which line. -/
theorem menu_eq_some_iff {a : Option Nat} :
    menu sh n ans lines = some (a, later) ↔
      ∃ before line ans', lines = before ++ line :: later ∧
        before.foldlM (round sh n) ans = .ok ans' ∧ round sh n ans' line = .error a := by
  rw [menu_eq_reads]
  exact reads_eq_some_iff

theorem menu_of_rounds {a : Option Nat} (hgone : before.foldlM (round sh n) ans = .ok ans')
    (hround : round sh n ans' line = .error a) (later : List Text) :
    menu sh n ans (before ++ line :: later) = some (a, later) :=
  menu_eq_some_iff.mpr ⟨before, line, ans', rfl, hgone, hround⟩

theorem typed_append {k : Nat} (h : Typed (before ++ line :: later) later k) :
    typed line = some (k : Int) ∨ ∃ l ∈ before, typed l = some (k : Int) := by
  obtain ⟨read, hread, l, hl, hk⟩ := h
  have hsame : read = before ++ [line] := by
    have hsplit : read ++ later = (before ++ [line]) ++ later := by
      rw [← hread, List.append_assoc, List.singleton_append]
    exact List.append_cancel_right hsplit
  rw [hsame] at hl
  rcases List.mem_append.mp hl with hl | hl
  · exact .inr ⟨l, hl, hk⟩
  · exact .inl (List.mem_singleton.mp hl ▸ hk)

theorem typed_of_last {k : Nat} (h : typed line = some (k : Int)) (before later : List Text) :
    Typed (before ++ line :: later) later k :=
  ⟨before ++ [line], by simp, line, by simp, h⟩

theorem typed_ne_of_drops (h : Drops sh n line) (k : Int) : typed line ≠ some k := by
  intro hk
  obtain ⟨-, w, v, more, x, hargument, -⟩ := h
  obtain ⟨u, -, hexpand, hu⟩ := expand_of_typed sh hk
  rw [hexpand, hu] at hargument
  simp at hargument

/-- A menu goes on with the item that was typed if and only if it is left at a line
that does not mislead it, nor is dropped while `ANS` holds an item. -/
theorem chosen_iff (sh : Shell) (n : Nat) (ans : Option Nat) (lines : List Text) :
    Chosen sh n ans lines ↔ ∀ before line later, lines = before ++ line :: later →
      (∀ l ∈ before, ¬ Leaves sh n l) →
      ¬ Misleads sh n line ∧
        (Drops sh n line → IsItem n ans → ∃ l ∈ before, ¬ Refused sh 1 n l) := by
  constructor
  · rintro hchosen before line later rfl hleaves
    obtain ⟨ans', hgone, hans⟩ := ans_of_rounds ans hleaves
    constructor
    · intro hmisleads
      obtain ⟨k, hpos, hle, hlt, hline, hround⟩ := round_of_misleads ans' hmisleads
      have hmenu := menu_of_rounds hgone hround later
      rcases typed_append (hchosen k later hmenu hpos hle) with hk | ⟨l, hl, hk⟩
      · exact hline hk
      · exact hleaves l hl (.inl ⟨k, hk, hpos, hle, hlt⟩)
    · rintro hdrops ⟨k, hk, hpos, hle⟩
      rcases hans with ⟨rfl, hrefused⟩ | ⟨-, hexists⟩
      · have hround := round_of_drops ans' hdrops
        have hmenu := menu_of_rounds hgone hround later
        rw [hk] at hmenu hchosen
        rcases typed_append (hchosen k later hmenu hpos hle) with hline | ⟨l, hl, hline⟩
        · exact absurd hline (typed_ne_of_drops hdrops k)
        · exact absurd (hrefused l hl) (not_refused_of_typed hline (by omega) (by omega))
      · exact hexists
  · intro hcond k later hmenu hpos hle
    obtain ⟨before, line, ans', rfl, hgone, hround⟩ := menu_eq_some_iff.mp hmenu
    have hbefore := not_leaves_of_rounds hgone
    obtain ⟨hmisleads, hdrops⟩ := hcond before line later rfl hbefore
    rcases leaves_of_error hround with hplain | hmisled | hdropped
    · obtain ⟨x, hx, hstop⟩ := round_of_plain sh ans' hplain
      rw [hround] at hstop
      obtain rfl := Option.some.inj (Except.error.inj hstop)
      exact typed_of_last hx before later
    · exact absurd hmisled hmisleads
    · exfalso
      have hk := Except.error.inj (hround.symm.trans (round_of_drops _ hdropped))
      obtain ⟨ans'', hgone', hans⟩ := ans_of_rounds ans hbefore
      obtain rfl := Except.ok.inj (hgone.symm.trans hgone')
      rcases hans with ⟨rfl, hrefused⟩ | ⟨hitem, -⟩
      · obtain ⟨l, hl, hnot⟩ := hdrops hdropped ⟨k, hk.symm, hpos, hle⟩
        exact hnot (hrefused l hl)
      · exact hitem ⟨k, hk.symm, hpos, hle⟩

end Menu

section Swap

variable {sh} {line : Text} {lines before later : List Text}

theorem swapFactor_eq_some_iff {factor : Nat} :
    swapFactor sh lines = some (some factor, later) ↔
      ∃ choice, selection sh 1 5 lines = some (.status choice, later) ∧ factor = choice + 1 := by
  unfold swapFactor
  rw [Option.map_eq_some_iff]
  constructor
  · rintro ⟨⟨e, rest⟩, hselection, heq⟩
    cases e with
    | dropped => simp at heq
    | status choice =>
      obtain ⟨hfactor, rfl⟩ := Prod.mk.inj heq
      exact ⟨choice, hselection, (Option.some.inj hfactor).symm⟩
  · rintro ⟨choice, hselection, rfl⟩
    exact ⟨_, hselection, rfl⟩

/-- The factor is the one of the item that was typed if and only if the line that the
menu stops at is the number of an item, or dropped. -/
theorem swapChosen_iff (sh : Shell) (lines : List Text) :
    SwapChosen sh lines ↔ ∀ before line later, lines = before ++ line :: later →
      (∀ l ∈ before, Refused sh 1 5 l) → ¬ Refused sh 1 5 line →
      Plain 1 5 line ∨ Drops sh 5 line := by
  constructor
  · rintro hchosen before line later rfl hbefore hline
    rcases returned_cases hline with ⟨s, hstatus⟩ | hdrops
    · have hselection : selection sh 1 5 (before ++ line :: later) = some (.status s, later) :=
        selection_eq_some_iff.mpr ⟨before, line, rfl, hbefore, hline, hstatus⟩
      obtain ⟨k, hpos, hle, hfactor, htyped⟩ :=
        hchosen (s + 1) later (swapFactor_eq_some_iff.mpr ⟨s, hselection, rfl⟩)
      obtain rfl : s = k := by omega
      rcases typed_append htyped with hk | ⟨l, hl, hk⟩
      · exact .inl ⟨s, hk, hpos, hle, by omega⟩
      · exact absurd (hbefore l hl) (not_refused_of_typed hk (by omega) (by omega))
    · exact .inr hdrops
  · intro hcond factor later hswap
    obtain ⟨s, hselection, rfl⟩ := swapFactor_eq_some_iff.mp hswap
    obtain ⟨before, line, rfl, hbefore, hline, hstatus⟩ := selection_eq_some_iff.mp hselection
    rcases hcond before line later rfl hbefore hline with hplain | hdrops
    · obtain ⟨k, hk, hlow, hhigh, hreturned⟩ := plain_iff.mp hplain
      obtain rfl := Ended.status.inj (hstatus.symm.trans hreturned)
      exact ⟨s, hlow, hhigh, rfl, typed_of_last hk before later⟩
    · rw [returned_of_drops hdrops] at hstatus
      cases hstatus

end Swap

/-- The choice is what the user typed: in `selection` for every range, in the menus with
any number of items, and in the swap menu. -/
theorem choices_iff (sh : Shell) (lines : List Text) :
    (∀ lowend highend, Selected sh lowend highend lines ↔
      ∀ before line later, lines = before ++ line :: later →
        (∀ l ∈ before, Refused sh lowend highend l) → ¬ Refused sh lowend highend line →
        Plain lowend highend line) ∧
      (∀ (m : Menu) n, Chosen sh n m.ans lines ↔
        ∀ before line later, lines = before ++ line :: later →
          (∀ l ∈ before, ¬ Leaves sh n l) →
          ¬ Misleads sh n line ∧
            (Drops sh n line → IsItem n m.ans → ∃ l ∈ before, ¬ Refused sh 1 n l)) ∧
      (SwapChosen sh lines ↔ ∀ before line later, lines = before ++ line :: later →
        (∀ l ∈ before, Refused sh 1 5 l) → ¬ Refused sh 1 5 line →
        Plain 1 5 line ∨ Drops sh 5 line) :=
  ⟨fun lowend highend => selected_iff sh lowend highend lines,
    fun m n => chosen_iff sh n m.ans lines, swapChosen_iff sh lines⟩

/-- The shell of the rescue system, in a directory without files. -/
def bash : Shell where
  glob := fun w => [w]
  several := fun _ _ _ => false
  usage := 2
  usage_pos := by decide
  usage_lt := by decide

/-- A word that is no number takes the second item. -/
theorem word_takes_second : ¬ Selected bash 1 3 ["sdb".toList] ∧
    ¬ Chosen bash 3 Menu.sourceDisk.ans ["sdb".toList] ∧ ¬ SwapChosen bash ["sdb".toList] := by
  have hselection : selection bash 1 3 ["sdb".toList] = some (.status 2, []) := by decide
  have hswap : swapFactor bash ["sdb".toList] = some (some 3, []) := by decide
  have hmenu : menu bash 3 Menu.sourceDisk.ans ["sdb".toList] = some (some 2, []) := by
    rw [menu_eq, hselection]
    rfl
  have huntyped : ∀ k, ¬ Typed ["sdb".toList] [] k := by
    rintro k ⟨read, hread, line, hline, hk⟩
    rw [List.append_nil] at hread
    rw [← hread, List.mem_singleton] at hline
    have hnone : typed "sdb".toList = none := by decide
    rw [hline, hnone] at hk
    cases hk
  refine ⟨?_, ?_, ?_⟩
  · intro hselected
    have hfirst : firstTyped 1 3 ["sdb".toList] = none := by decide
    rw [Selected, hselection, hfirst] at hselected
    cases hselected
  · intro hchosen
    exact huntyped 2 (hchosen 2 [] hmenu (by decide) (by decide))
  · intro hchosen
    obtain ⟨k, -, -, -, htyped⟩ := hchosen 3 [] hswap
    exact huntyped k htyped

end Selection
