import Mathlib.Data.List.Basic

/-!
# Cutting a list at fixed sizes

`Cuts m cap s ps t` says that `s` is cut into the pieces `ps` and the rest `t`:
the first piece holds `cap` elements, each later one `m`, and the rest is
shorter than the piece that would have come next. An input that ends exactly
on a cut leaves the empty rest.
-/

namespace Cutting

universe u
variable {α : Type u} {m cap : Nat} {s t : List α} {ps : List (List α)}

inductive Cuts (m : Nat) : Nat → List α → List (List α) → List α → Prop
  | tail {cap : Nat} {s : List α} (short : s.length < cap) : Cuts m cap s [] s
  | cut {cap : Nat} {s t : List α} {ps : List (List α)} (full : cap ≤ s.length)
      (rest : Cuts m m (s.drop cap) ps t) : Cuts m cap s (s.take cap :: ps) t

/-- Cutting loses, duplicates and reorders nothing. -/
theorem Cuts.flatten (h : Cuts m cap s ps t) : ps.flatten ++ t = s := by
  induction h with
  | tail => rfl
  | cut _ _ ih => rw [List.flatten_cons, List.append_assoc, ih, List.take_append_drop]

theorem exists_cuts (hm : 0 < m) (cap : Nat) (s : List α) :
    ∃ ps t, Cuts m cap s ps t := by
  -- the first cut may take nothing; every later one shortens the list
  have later : ∀ n (s : List α), s.length ≤ n → ∃ ps t, Cuts m m s ps t := by
    intro n
    induction n with
    | zero => intro s hs; exact ⟨[], s, .tail (by omega)⟩
    | succ n ih =>
      intro s hs
      by_cases hshort : s.length < m
      · exact ⟨[], s, .tail hshort⟩
      · obtain ⟨ps, t, h⟩ := ih (s.drop m) (by rw [List.length_drop]; omega)
        exact ⟨_, t, .cut (by omega) h⟩
  by_cases hshort : s.length < cap
  · exact ⟨[], s, .tail hshort⟩
  · obtain ⟨ps, t, h⟩ := later _ (s.drop cap) (Nat.le_refl _)
    exact ⟨_, t, .cut (by omega) h⟩

/-- Reading `k` elements ahead, fewer than the next piece needs, shortens that
piece and changes nothing else. -/
theorem Cuts.advance {k : Nat} (h : Cuts m cap s ps t) (hk : k < cap) (hs : k ≤ s.length) :
    (ps = [] ∧ t = s ∧ Cuts m (cap - k) (s.drop k) [] (s.drop k)) ∨
      ∃ p qs, ps = p :: qs ∧ p.take k = s.take k ∧
        Cuts m (cap - k) (s.drop k) (p.drop k :: qs) t := by
  cases h with
  | tail short =>
    exact Or.inl ⟨rfl, rfl, .tail (by rw [List.length_drop]; omega)⟩
  | @cut _ _ _ qs full rest =>
    refine Or.inr ⟨_, qs, rfl, ?_, ?_⟩
    · rw [List.take_take, Nat.min_eq_left (by omega)]
    · have hdrop : (s.take cap).drop k = (s.drop k).take (cap - k) := List.drop_take
      have hskip : (s.drop k).drop (cap - k) = s.drop cap := by
        rw [List.drop_drop]
        congr 1
        omega
      rw [hdrop]
      exact .cut (by rw [List.length_drop]; omega) (hskip ▸ rest)

theorem flatten_map_sublist {f : List α → List α} (hf : ∀ p ∈ ps, (f p).Sublist p) :
    (ps.map f).flatten.Sublist ps.flatten := by
  induction ps with
  | nil => exact List.Sublist.refl _
  | cons p ps ih =>
    obtain ⟨hp, hps⟩ := List.forall_mem_cons.mp hf
    exact hp.append (ih hps)

/-- Pieces that may be shortened make up the same list exactly if none is. -/
theorem flatten_map_eq_iff {f : List α → List α} (hf : ∀ p ∈ ps, (f p).Sublist p) :
    (ps.map f).flatten = ps.flatten ↔ ∀ p ∈ ps, f p = p := by
  induction ps with
  | nil => simp
  | cons p ps ih =>
    obtain ⟨hp, hps⟩ := List.forall_mem_cons.mp hf
    rw [List.map_cons, List.flatten_cons, List.flatten_cons, List.forall_mem_cons, ← ih hps]
    constructor
    · intro h
      -- neither part can make up for what the other one lost
      have hlen := congrArg List.length h
      have hfirst := hp.length_le
      have hrest := (flatten_map_sublist hps).length_le
      rw [List.length_append, List.length_append] at hlen
      exact List.append_inj h (by omega)
    · rintro ⟨hhead, htail⟩
      rw [hhead, htail]

end Cutting
