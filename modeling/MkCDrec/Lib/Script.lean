import Mathlib.Data.List.Basic
import Mathlib.Data.List.Flatten

/-!
# Scripts that count failures

A script calls commands and other scripts, adds their exit statuses up in a variable and
leaves when the variable is not zero. A script that is called is a process with variables of
its own, and only its exit status comes back.
-/

namespace Script

universe u v
variable {α : Type u} {γ : Type v}

/-- A line of a script that calls what is in `γ`. -/
inductive Line (γ : Type v)
  | call (c : γ)
  | echo
  /-- `rc=$((rc+$?))`. -/
  | count
  /-- `rc=0`. -/
  | clear
  /-- `if [ $rc -ne 0 ]; then exit 1; fi`. -/
  | check
  /-- `if [ $? -ne 0 ]; then exit 1; fi`. -/
  | checkLast

/-- The variables of a process, and what was run so far by all of them. -/
structure Shell (α : Type u) where
  rc : Nat
  status : Nat
  ran : List α

/-- What was run by the end of a script, and its exit status. -/
abbrev Ended (α : Type u) := List α × Nat

section Exec

variable (call : γ → List α → Ended α)

def step (s : Shell α) : Line γ → Except (Ended α) (Shell α)
  | .call c => .ok { s with ran := (call c s.ran).1, status := (call c s.ran).2 }
  | .echo => .ok { s with status := 0 }
  | .count => .ok { s with rc := s.rc + s.status, status := 0 }
  | .clear => .ok { s with rc := 0, status := 0 }
  | .check => if s.rc ≠ 0 then .error (s.ran, 1) else .ok { s with status := 0 }
  | .checkLast => if s.status ≠ 0 then .error (s.ran, 1) else .ok { s with status := 0 }

def exec : List (Line γ) → Shell α → Except (Ended α) (Shell α)
  | [], s => .ok s
  | l :: p, s =>
    match step call s l with
    | .ok s' => exec p s'
    | .error e => .error e

/-- At its end a script has the status of its last command. -/
def outcome : Except (Ended α) (Shell α) → Ended α
  | .ok s => (s.ran, s.status)
  | .error e => e

/-- A process for a script. -/
def run (p : List (Line γ)) (ran : List α) : Ended α := outcome (exec call p ⟨0, 0, ran⟩)

end Exec

/-- What the lines call. -/
def calls : List (Line γ) → List γ
  | [] => []
  | .call c :: p => c :: calls p
  | _ :: p => calls p

section Rules

variable {call : γ → List α → Ended α} {cmds : γ → List α} {p q : List (Line γ)} {s s' : Shell α}

theorem calls_append (p q : List (Line γ)) : calls (p ++ q) = calls p ++ calls q := by
  induction p with
  | nil => rfl
  | cons l p ih => cases l <;> simp [calls, ih]

theorem exec_append_of_ok (h : exec call p s = .ok s') : exec call (p ++ q) s = exec call q s' := by
  induction p generalizing s with
  | nil =>
    cases h
    rfl
  | cons l p ih =>
    rw [exec] at h
    rw [List.cons_append, exec]
    cases hstep : step call s l with
    | ok t =>
      rw [hstep] at h
      exact ih h
    | error e =>
      rw [hstep] at h
      cases h

theorem exec_append_of_error {e : Ended α} (h : exec call p s = .error e) :
    exec call (p ++ q) s = .error e := by
  induction p generalizing s with
  | nil => cases h
  | cons l p ih =>
    rw [exec] at h
    rw [List.cons_append, exec]
    cases hstep : step call s l with
    | ok t =>
      rw [hstep] at h
      exact ih h
    | error e' =>
      rw [hstep] at h
      exact h

/-- A script that never looks at its variables runs to its end. -/
theorem exec_of_unchecked (hcall : ∀ c ran, (call c ran).1 = ran ++ cmds c)
    (hp : ∀ l ∈ p, l ≠ .check ∧ l ≠ .checkLast) (s : Shell α) :
    ∃ s', exec call p s = .ok s' ∧ s'.ran = s.ran ++ (calls p).flatMap cmds := by
  induction p generalizing s with
  | nil => exact ⟨s, rfl, by simp [calls]⟩
  | cons l p ih =>
    obtain ⟨hl, htail⟩ := List.forall_mem_cons.mp hp
    cases l with
    | call c =>
      obtain ⟨s', hs', hran⟩ := ih htail ⟨s.rc, (call c s.ran).2, (call c s.ran).1⟩
      refine ⟨s', hs', ?_⟩
      simp [hran, hcall, calls]
    | echo => exact ih htail ⟨s.rc, 0, s.ran⟩
    | count => exact ih htail ⟨s.rc + s.status, 0, s.ran⟩
    | clear => exact ih htail ⟨0, 0, s.ran⟩
    | check => exact absurd rfl hl.1
    | checkLast => exact absurd rfl hl.2

/-- A script that never counts runs to its end too, for what it calls cannot count for it. -/
theorem exec_of_uncounted (hcall : ∀ c ran, (call c ran).1 = ran ++ cmds c)
    (hp : ∀ l ∈ p, l ≠ .count ∧ l ≠ .checkLast) (hrc : s.rc = 0) :
    ∃ s', exec call p s = .ok s' ∧ s'.rc = 0 ∧ s'.ran = s.ran ++ (calls p).flatMap cmds := by
  induction p generalizing s with
  | nil => exact ⟨s, rfl, hrc, by simp [calls]⟩
  | cons l p ih =>
    obtain ⟨hl, htail⟩ := List.forall_mem_cons.mp hp
    cases l with
    | call c =>
      obtain ⟨s', hs', hrc', hran⟩ := ih (s := ⟨s.rc, (call c s.ran).2, (call c s.ran).1⟩) htail hrc
      refine ⟨s', hs', hrc', ?_⟩
      simp [hran, hcall, calls]
    | echo => exact ih (s := ⟨s.rc, 0, s.ran⟩) htail hrc
    | count => exact absurd rfl hl.1
    | clear => exact ih (s := ⟨0, 0, s.ran⟩) htail rfl
    | check =>
      obtain ⟨s', hs', hend⟩ := ih (s := ⟨s.rc, 0, s.ran⟩) htail hrc
      refine ⟨s', ?_, hend⟩
      rw [exec, step, if_neg (not_not_intro hrc)]
      exact hs'
    | checkLast => exact absurd rfl hl.2

/-- Where every call is checked, the first failure is the end. -/
theorem exec_of_checked (hcall : ∀ c ran, (call c ran).1 = ran ++ cmds c) (cs : List γ)
    (s : Shell α) :
    (∃ s', exec call (cs.flatMap fun c => [.call c, .checkLast]) s = .ok s' ∧ s'.rc = s.rc ∧
      s'.ran = s.ran ++ cs.flatMap cmds ∧
      ∀ before c after, cs = before ++ c :: after →
        (call c (s.ran ++ before.flatMap cmds)).2 = 0) ∨
    ∃ before c after, cs = before ++ c :: after ∧
      (call c (s.ran ++ before.flatMap cmds)).2 ≠ 0 ∧
      exec call (cs.flatMap fun c => [.call c, .checkLast]) s =
        .error (s.ran ++ (before ++ [c]).flatMap cmds, 1) := by
  induction cs generalizing s with
  | nil =>
    left
    refine ⟨s, rfl, rfl, by simp, ?_⟩
    intro before c after h
    simp at h
  | cons c cs ih =>
    by_cases hstatus : (call c s.ran).2 = 0
    · have hnext : exec call ((c :: cs).flatMap fun c => [.call c, .checkLast]) s =
          exec call (cs.flatMap fun c => [.call c, .checkLast]) ⟨s.rc, 0, s.ran ++ cmds c⟩ := by
        simp [exec, step, hstatus, hcall]
      rcases ih ⟨s.rc, 0, s.ran ++ cmds c⟩ with ⟨s', hs', hrc, hran, hall⟩ |
        ⟨before, d, after, rfl, hd, herror⟩
      · left
        refine ⟨s', hnext.trans hs', hrc, by simp [hran], ?_⟩
        intro before d after h
        cases before with
        | nil =>
          obtain ⟨rfl, rfl⟩ := List.cons.inj h
          simpa using hstatus
        | cons b before =>
          obtain ⟨rfl, rfl⟩ := List.cons.inj h
          simpa using hall before d after rfl
      · right
        refine ⟨c :: before, d, after, rfl, by simpa using hd, ?_⟩
        rw [hnext, herror]
        simp
    · right
      refine ⟨[], c, cs, rfl, by simpa using hstatus, ?_⟩
      simp [exec, step, hstatus, hcall]

end Rules

end Script
