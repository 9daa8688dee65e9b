import Mathlib.Data.List.Basic

/-!
# Writes at keys

A store has a value at every key, and each write changes the value at one key. What a run of
writes leaves at a key depends on the writes there only.
-/

namespace Updates

universe u v w
variable {ι : Type u} {α : Type v} {ω : Type w} [DecidableEq ι]

/-- Where a write goes, and what it makes of the value there. -/
structure Writer (ι : Type u) (α : Type v) (ω : Type w) where
  key : ω → ι
  effect : ω → α → α

namespace Writer

variable (W : Writer ι α ω)

def apply (m : ι → α) (x : ω) : ι → α := fun i => if W.key x = i then W.effect x (m i) else m i

def run (m : ι → α) (xs : List ω) : ι → α := xs.foldl W.apply m

variable {W} {m : ι → α} {xs ys : List ω} {i : ι} {f : α → α}

@[simp] theorem run_nil : W.run m [] = m := rfl

@[simp] theorem run_cons (x : ω) : W.run m (x :: xs) = W.run (W.apply m x) xs := rfl

theorem run_append : W.run m (xs ++ ys) = W.run (W.run m xs) ys := List.foldl_append

theorem apply_self (x : ω) : W.apply m x (W.key x) = W.effect x (m (W.key x)) := if_pos rfl

theorem apply_other {x : ω} (h : W.key x ≠ i) : W.apply m x i = m i := if_neg h

/-- A key without a write keeps its value. -/
theorem run_of_untouched (h : ∀ x ∈ xs, W.key x ≠ i) : W.run m xs i = m i := by
  induction xs generalizing m with
  | nil => rfl
  | cons x xs ih =>
    obtain ⟨hx, hxs⟩ := List.forall_mem_cons.mp h
    rw [run_cons, ih hxs, apply_other hx]

/-- What every write at a key preserves. -/
theorem run_invariant {P : α → Prop} (hstep : ∀ x ∈ xs, W.key x = i → ∀ a, P a → P (W.effect x a))
    (h : P (m i)) : P (W.run m xs i) := by
  induction xs generalizing m with
  | nil => exact h
  | cons x xs ih =>
    obtain ⟨hx, hxs⟩ := List.forall_mem_cons.mp hstep
    rw [run_cons]
    apply ih hxs
    by_cases hkey : W.key x = i
    · rw [← hkey, apply_self, hkey]
      exact hx hkey _ h
    · rw [apply_other hkey]
      exact h

theorem run_of_fixed {b : α} (hfixed : ∀ x ∈ xs, W.key x = i → W.effect x b = b) (h : m i = b) :
    W.run m xs i = b := by
  refine run_invariant (P := fun a => a = b) ?_ h
  rintro x hx hkey a rfl
  exact hfixed x hx hkey

/-- Writes that do the same at a key, and no more the second time, or nothing. -/
theorem run_of_same (hsame : ∀ x ∈ xs, W.key x = i → W.effect x = f ∨ W.effect x = id)
    (hagain : ∀ a, f (f a) = f a) (h : ∃ x ∈ xs, W.key x = i ∧ W.effect x = f) :
    W.run m xs i = f (m i) := by
  induction xs generalizing m with
  | nil =>
    obtain ⟨x, hx, _⟩ := h
    cases hx
  | cons x xs ih =>
    obtain ⟨hx, hxs⟩ := List.forall_mem_cons.mp hsame
    rw [run_cons]
    by_cases hlater : ∃ y ∈ xs, W.key y = i ∧ W.effect y = f
    · rw [ih hxs hlater]
      by_cases hkey : W.key x = i
      · rw [← hkey, apply_self, hkey]
        rcases hx hkey with heff | heff
        · rw [heff, hagain]
        · rw [heff, id_eq]
      · rw [apply_other hkey]
    · obtain ⟨y, hy, hkey, heff⟩ := h
      obtain rfl : y = x := by
        rcases List.mem_cons.mp hy with rfl | hy
        · rfl
        · exact absurd ⟨y, hy, hkey, heff⟩ hlater
      apply run_of_fixed
      · intro z hz hkeyz
        rcases hxs z hz hkeyz with hz' | hz'
        · exact absurd ⟨z, hz, hkeyz, hz'⟩ hlater
        · rw [hz', id_eq]
      · rw [← hkey, apply_self, heff]

/-- What one write at a key brings about, and no other one there undoes. -/
theorem run_establishes {P : α → Prop}
    (hstep : ∀ x ∈ xs, W.key x = i → ∀ a, P a → P (W.effect x a))
    (h : ∃ x ∈ xs, W.key x = i ∧ ∀ a, P (W.effect x a)) : P (W.run m xs i) := by
  obtain ⟨x, hx, hkey, hconst⟩ := h
  obtain ⟨pre, post, rfl⟩ := List.append_of_mem hx
  rw [run_append, run_cons]
  apply run_invariant fun y hy => hstep y (by simp [hy])
  rw [← hkey, apply_self]
  exact hconst _

/-- A write that leaves nothing of the old value, among others that do not change the new one. -/
theorem run_of_reset {b : α} (hfixed : ∀ x ∈ xs, W.key x = i → W.effect x b = b)
    (h : ∃ x ∈ xs, W.key x = i ∧ ∀ a, W.effect x a = b) : W.run m xs i = b := by
  refine run_establishes (P := fun a => a = b) ?_ h
  rintro x hx hkey a rfl
  exact hfixed x hx hkey

variable {sets : ω → Prop} {val : ω → α}

/-- Where each write sets a value or does nothing, one that sets it is the last of these. -/
theorem run_of_set (hidle : ∀ x ∈ xs, W.key x = i → ¬ sets x → ∀ a, W.effect x a = a)
    (hset : ∀ x ∈ xs, W.key x = i → sets x → ∀ a, W.effect x a = val x)
    (h : ∃ x ∈ xs, W.key x = i ∧ sets x) :
    ∃ x ∈ xs, W.key x = i ∧ sets x ∧ W.run m xs i = val x := by
  induction xs generalizing m with
  | nil =>
    obtain ⟨x, hx, _⟩ := h
    cases hx
  | cons x xs ih =>
    obtain ⟨_, hidles⟩ := List.forall_mem_cons.mp hidle
    obtain ⟨hsetx, hsetxs⟩ := List.forall_mem_cons.mp hset
    rw [run_cons]
    by_cases hlater : ∃ y ∈ xs, W.key y = i ∧ sets y
    · obtain ⟨y, hy, hkey, hsets, hval⟩ := ih hidles hsetxs hlater
      exact ⟨y, List.mem_cons_of_mem _ hy, hkey, hsets, hval⟩
    · obtain ⟨y, hy, hkey, hsets⟩ := h
      obtain rfl : y = x := by
        rcases List.mem_cons.mp hy with rfl | hy
        · rfl
        · exact absurd ⟨y, hy, hkey, hsets⟩ hlater
      refine ⟨y, List.mem_cons_self, hkey, hsets, ?_⟩
      apply run_of_fixed
      · intro z hz hkeyz
        exact hidles z hz hkeyz (fun hsetsz => hlater ⟨z, hz, hkeyz, hsetsz⟩) _
      · rw [← hkey, apply_self, hsetx hkey hsets]

/-- What a write sets stays exactly if no later write sets something there, where those that
might set something else. -/
theorem run_eq_iff (sets : ω → Prop) (val : ω → α) {x : ω}
    (hidle : ∀ y ∈ ys, W.key y = i → ¬ sets y → ∀ a, W.effect y a = a)
    (hset : ∀ y ∈ x :: ys, W.key y = i → sets y → ∀ a, W.effect y a = val y)
    (hkey : W.key x = i) (hx : sets x)
    (hne : ∀ y ∈ ys, W.key y = i → sets y → val y ≠ val x) :
    W.run m (xs ++ x :: ys) i = val x ↔ ∀ y ∈ ys, W.key y = i → ¬ sets y := by
  obtain ⟨hsetx, hsety⟩ := List.forall_mem_cons.mp hset
  rw [run_append, run_cons]
  constructor
  · intro hval y hy hkeyy hsetsy
    obtain ⟨z, hz, hkeyz, hsetsz, hlast⟩ := run_of_set hidle hsety ⟨y, hy, hkeyy, hsetsy⟩
    exact hne z hz hkeyz hsetsz (hlast.symm.trans hval)
  · intro hnone
    apply run_of_fixed
    · exact fun y hy hkeyy => hidle y hy hkeyy (hnone y hy hkeyy) _
    · rw [← hkey, apply_self, hsetx hkey hx]

end Writer

end Updates
