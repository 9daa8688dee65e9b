import Mathlib.Algebra.GroupWithZero.Nat
import Mathlib.Data.List.AList

/-!
# Directories as finite maps

A directory is a finite map from names to contents in which no name occurs
twice. The operations are those of a shell: `mv`, `touch` and the removal of
the names a pattern selects. Sizes are sums over the entries, so they do not
depend on the order in which the entries were written.
-/

namespace Directory

universe u v
variable {κ : Type u} {β : Type v} [DecidableEq κ]

/-- A directory: names without repetition, each with its content. -/
abbrev Dir (κ : Type u) (β : Type v) := AList (fun _ : κ => β)

/-- Keep the entries whose name satisfies `p`. -/
def restrict (p : κ → Bool) (d : Dir κ β) : Dir κ β :=
  ⟨d.entries.filter (fun e => p e.1), d.nodupKeys.sublist List.filter_sublist⟩

/-- `mv a b`: the content of `a`, if there is one, becomes that of `b`. -/
def move (a b : κ) (d : Dir κ β) : Dir κ β :=
  match d.lookup a with
  | some x => (d.erase a).insert b x
  | none => d

/-- `touch a`: an existing entry keeps its content. -/
def touch (a : κ) (empty : β) (d : Dir κ β) : Dir κ β :=
  match d.lookup a with
  | some _ => d
  | none => d.insert a empty

/-- Change the content of `a`, if there is one, in place. -/
def modify (a : κ) (f : β → β) (d : Dir κ β) : Dir κ β where
  entries := d.entries.map fun e => if e.1 = a then ⟨e.1, f e.2⟩ else e
  nodupKeys := by
    have hkeys : (d.entries.map fun e => if e.1 = a then ⟨e.1, f e.2⟩ else e).keys
        = d.entries.keys := by
      simp only [List.keys, List.map_map]
      apply List.map_congr_left
      intro e _
      by_cases h : e.1 = a <;> simp [h]
    rw [List.NodupKeys, hkeys]
    exact d.nodupKeys

/-- The sum of the weights of the entries. -/
def total (f : κ → β → Nat) (d : Dir κ β) : Nat := (d.entries.map fun e => f e.1 e.2).sum

theorem keys_modify (a : κ) (f : β → β) (d : Dir κ β) : (modify a f d).keys = d.keys := by
  simp only [modify, AList.keys, List.keys, List.map_map]
  apply List.map_congr_left
  intro e _
  by_cases h : e.1 = a <;> simp [h]

theorem modify_id (a : κ) (d : Dir κ β) : modify a id d = d := by
  apply AList.ext
  simp [modify]

theorem modify_modify (a : κ) (f g : β → β) (d : Dir κ β) :
    modify a g (modify a f d) = modify a (g ∘ f) d := by
  apply AList.ext
  simp only [modify, List.map_map]
  apply List.map_congr_left
  intro e _
  by_cases h : e.1 = a <;> simp [h]

theorem lookup_modify (a b : κ) (f : β → β) (d : Dir κ β) :
    (modify a f d).lookup b = if b = a then (d.lookup a).map f else d.lookup b := by
  ext x
  rw [← Option.mem_def, AList.mem_lookup_iff]
  by_cases hb : b = a
  · subst hb
    simp only [modify, List.mem_map, if_pos, Option.map_eq_some_iff]
    constructor
    · rintro ⟨e, he, hx⟩
      by_cases h : e.1 = b
      · subst h
        simp only [if_pos, Sigma.mk.injEq, heq_eq_eq, true_and] at hx
        exact ⟨e.2, AList.mem_lookup_iff.mpr he, hx⟩
      · rw [if_neg h] at hx
        exact absurd (congrArg Sigma.fst hx) h
    · rintro ⟨y, hy, rfl⟩
      exact ⟨⟨b, y⟩, AList.mem_lookup_iff.mp hy, by simp⟩
  · rw [if_neg hb, ← Option.mem_def, AList.mem_lookup_iff]
    simp only [modify, List.mem_map]
    constructor
    · rintro ⟨e, he, hx⟩
      by_cases h : e.1 = a
      · rw [if_pos h] at hx
        exact absurd ((congrArg Sigma.fst hx).symm.trans h) hb
      · rw [if_neg h] at hx
        exact hx ▸ he
    · intro he
      exact ⟨_, he, if_neg hb⟩

theorem mem_modify {f : β → β} {a b : κ} {d : Dir κ β} : b ∈ modify a f d ↔ b ∈ d := by
  rw [← AList.lookup_isSome, ← AList.lookup_isSome, lookup_modify]
  by_cases h : b = a
  · subst h; simp
  · rw [if_neg h]

theorem lookup_restrict (p : κ → Bool) (d : Dir κ β) (a : κ) :
    (restrict p d).lookup a = if p a then d.lookup a else none := by
  by_cases hp : p a
  · rw [if_pos hp]
    ext x
    rw [Option.mem_def.symm, Option.mem_def.symm, AList.mem_lookup_iff, AList.mem_lookup_iff]
    simp [restrict, hp]
  · rw [if_neg hp, AList.lookup_eq_none]
    simp [restrict, AList.mem_mk, List.keys, hp]

theorem lookup_insert_if (a b : κ) (x : β) (d : Dir κ β) :
    (d.insert a x).lookup b = if b = a then some x else d.lookup b := by
  by_cases h : b = a
  · subst h; simp
  · simp [h, AList.lookup_insert_ne h]

theorem lookup_move {a b : κ} {d : Dir κ β} {x : β} (hx : d.lookup a = some x) (c : κ) :
    (move a b d).lookup c =
      if c = b then some x else if c = a then none else d.lookup c := by
  simp only [move, hx, lookup_insert_if]
  by_cases hb : c = b
  · simp [hb]
  · by_cases ha : c = a
    · subst ha; simp [hb]
    · simp [hb, ha, AList.lookup_erase_ne ha]

theorem lookup_move_other {a b c : κ} (ha : c ≠ a) (hb : c ≠ b) (d : Dir κ β) :
    (move a b d).lookup c = d.lookup c := by
  cases hx : d.lookup a with
  | none => simp [move, hx]
  | some x => simp [lookup_move hx, ha, hb]

theorem mem_move {a b c : κ} {d : Dir κ β} (hx : c ∈ move a b d) : c = b ∨ c ∈ d := by
  cases hlook : d.lookup a with
  | none => exact .inr (by simpa [move, hlook] using hx)
  | some y =>
    rw [← AList.lookup_isSome, lookup_move hlook] at hx
    split at hx
    · exact .inl (by assumption)
    · split at hx
      · cases hx
      · exact .inr (AList.lookup_isSome.mp hx)

theorem lookup_touch (a b : κ) (e : β) (d : Dir κ β) :
    (touch a e d).lookup b = if b = a then some ((d.lookup a).getD e) else d.lookup b := by
  cases hx : d.lookup a with
  | none => simp [touch, hx, lookup_insert_if]
  | some x =>
    by_cases h : b = a
    · subst h; simp [touch, hx]
    · simp [touch, hx, h]

theorem lookup_touch_other {a b : κ} (h : b ≠ a) (e : β) (d : Dir κ β) :
    (touch a e d).lookup b = d.lookup b := by
  rw [lookup_touch, if_neg h]

theorem mem_touch {a b : κ} {e : β} {d : Dir κ β} : b ∈ touch a e d ↔ b = a ∨ b ∈ d := by
  rw [← AList.lookup_isSome, ← AList.lookup_isSome, lookup_touch]
  by_cases h : b = a
  · simp [h]
  · simp [h]

theorem keys_insert_of_notMem {a : κ} {d : Dir κ β} (ha : a ∉ d) (x : β) :
    (d.insert a x).keys = a :: d.keys := by
  have ha : a ∉ d.keys := ha
  rw [AList.keys_insert, List.erase_of_not_mem ha]

/-- An insertion moves the name to the front and keeps the others in their order. -/
theorem filter_keys_insert (a : κ) (x : β) (d : Dir κ β) :
    (d.insert a x).keys.filter (· ≠ a) = d.keys.filter (· ≠ a) := by
  have hnodup : d.keys.Nodup := d.nodupKeys
  rw [AList.keys_insert, List.filter_cons_of_neg (by simp), hnodup.erase_eq_filter,
    List.filter_filter]
  apply List.filter_congr
  intro b _
  by_cases hb : b = a <;> simp [hb]

section Sizes

variable {f : κ → β → Nat} {a b : κ} {n : Nat} (d : Dir κ β)

theorem total_erase (f : κ → β → Nat) (a : κ) :
    total f (d.erase a) + (d.lookup a).elim 0 (f a) = total f d := by
  have hlist : ∀ l : List (Sigma fun _ : κ => β),
      ((l.kerase a).map fun e => f e.1 e.2).sum + (l.dlookup a).elim 0 (f a) =
        (l.map fun e => f e.1 e.2).sum := by
    intro l
    induction l with
    | nil => rfl
    | cons e l ih =>
      obtain ⟨c, x⟩ := e
      by_cases h : a = c
      · subst h
        simp [List.dlookup_cons_eq, Nat.add_comm]
      · rw [List.dlookup_cons_ne _ _ h, List.kerase_cons_ne h, List.map_cons, List.map_cons,
          List.sum_cons, List.sum_cons, ← ih]
        omega
  exact hlist d.entries

theorem total_insert (f : κ → β → Nat) (a : κ) (x : β) :
    total f (d.insert a x) + (d.lookup a).elim 0 (f a) = total f d + f a x := by
  have herase := total_erase d f a
  have hinsert : total f (d.insert a x) = f a x + total f (d.erase a) := by
    simp only [total, AList.entries_insert, List.map_cons, List.sum_cons]
    rfl
  omega

theorem total_insert_le (f : κ → β → Nat) (a : κ) (x : β) :
    total f (d.insert a x) ≤ total f d + f a x := by
  have := total_insert d f a x
  omega

theorem total_touch_le {e : β} (he : f a e = 0) : total f (touch a e d) ≤ total f d := by
  rw [touch]
  split
  · exact Nat.le_refl _
  · have := total_insert_le d f a e
    omega

theorem total_move_le (hab : ∀ x, f b x ≤ f a x) : total f (move a b d) ≤ total f d := by
  rw [move]
  split
  · rename_i x hx
    have herase := total_erase d f a
    have hinsert := total_insert_le (d.erase a) f b x
    have := hab x
    rw [hx] at herase
    simp only [Option.elim_some] at herase
    omega
  · exact Nat.le_refl _

theorem total_modify_le {g : β → β} (hg : ∀ x, f a (g x) ≤ f a x + n) :
    total f (modify a g d) ≤ total f d + n := by
  have hnot : ∀ l : List (Sigma fun _ : κ => β), a ∉ l.keys →
      (l.map fun e => if e.1 = a then (⟨e.1, g e.2⟩ : Sigma fun _ : κ => β) else e) = l := by
    intro l hl
    refine (List.map_congr_left fun e he => if_neg ?_).trans (List.map_id l)
    rintro rfl
    exact hl (List.mem_keys_of_mem he)
  have hlist : ∀ l : List (Sigma fun _ : κ => β), l.NodupKeys →
      ((l.map fun e => if e.1 = a then (⟨e.1, g e.2⟩ : Sigma fun _ : κ => β) else e).map
        fun e => f e.1 e.2).sum ≤ (l.map fun e => f e.1 e.2).sum + n := by
    intro l
    induction l with
    | nil => simp
    | cons e l ih =>
      intro hnodup
      rw [List.nodupKeys_cons] at hnodup
      simp only [List.map_cons, List.sum_cons]
      by_cases h : e.1 = a
      · rw [if_pos h, hnot l (h ▸ hnodup.1)]
        have := hg e.2
        simp only [h] at this ⊢
        omega
      · rw [if_neg h]
        have := ih hnodup.2
        omega
  exact hlist d.entries d.nodupKeys

omit [DecidableEq κ] in
theorem total_restrict (f : κ → β → Nat) (p : κ → Bool) :
    total f (restrict p d) = total (fun a x => if p a then f a x else 0) d := by
  have hlist : ∀ l : List (Sigma fun _ : κ => β),
      ((l.filter fun e => p e.1).map fun e => f e.1 e.2).sum =
        (l.map fun e => if p e.1 then f e.1 e.2 else 0).sum := by
    intro l
    induction l with
    | nil => rfl
    | cons e l ih =>
      cases h : p e.1 with
      | true => simp [h, ih]
      | false => simp [h, ih]
  exact hlist d.entries

omit [DecidableEq κ] in
theorem total_mono {g : κ → β → Nat} (h : ∀ a x, f a x ≤ g a x) : total f d ≤ total g d := by
  simp only [total]
  induction d.entries with
  | nil => simp
  | cons e l ih =>
    have := h e.1 e.2
    simp only [List.map_cons, List.sum_cons]
    omega

end Sizes

end Directory
