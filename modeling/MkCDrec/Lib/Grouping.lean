import Mathlib.Algebra.GroupWithZero.Nat
import Mathlib.Data.List.Count
import Mathlib.Data.List.Nodup
import Mathlib.Data.List.Range
import Mathlib.Order.Lattice

/-!
# Working through a table in groups

A loop over keys handles, for every key, the entries that belong to it. The index of an
entry says how often it is handled and when.
-/

namespace Grouping

variable {κ ι : Type*}

/-- The entries up to the first one that ends a loop, and that one too. -/
def upTo (stop : κ → Bool) : List κ → List κ
  | [] => []
  | k :: l => if stop k then [k] else k :: upTo stop l

/-- An entry is handled once if exactly one key handles it. -/
theorem count_flatMap_eq_one_iff [DecidableEq ι] {keys : List κ} {group : κ → List ι}
    (hkeys : keys.Nodup) (hgroup : ∀ k ∈ keys, (group k).Nodup) (i : ι) :
    (keys.flatMap group).count i = 1 ↔ ∃! k, k ∈ keys ∧ i ∈ group k := by
  induction keys with
  | nil => simp
  | cons k keys ih =>
    obtain ⟨hk, hkeys⟩ := List.nodup_cons.mp hkeys
    obtain ⟨hhead, hgroup⟩ := List.forall_mem_cons.mp hgroup
    specialize ih hkeys hgroup
    rw [List.flatMap_cons, List.count_append]
    by_cases hi : i ∈ group k
    · rw [List.count_eq_one_of_mem hhead hi]
      constructor
      · intro hcount
        have hnone : i ∉ keys.flatMap group := List.count_eq_zero.mp (by omega)
        refine ⟨k, ⟨List.mem_cons_self, hi⟩, ?_⟩
        rintro k' ⟨hk', hi'⟩
        rcases List.mem_cons.mp hk' with rfl | hk'
        · rfl
        · exact absurd (List.mem_flatMap.mpr ⟨k', hk', hi'⟩) hnone
      · intro hone
        have hnone : i ∉ keys.flatMap group := by
          intro hmem
          obtain ⟨k', hk', hi'⟩ := List.mem_flatMap.mp hmem
          have heq := hone.unique ⟨List.mem_cons_of_mem _ hk', hi'⟩ ⟨List.mem_cons_self, hi⟩
          exact hk (heq ▸ hk')
        rw [List.count_eq_zero.mpr hnone]
    · rw [List.count_eq_zero.mpr hi, Nat.zero_add, ih]
      refine existsUnique_congr fun k' => ?_
      constructor
      · rintro ⟨hk', hi'⟩
        exact ⟨List.mem_cons_of_mem _ hk', hi'⟩
      · rintro ⟨hk', hi'⟩
        rcases List.mem_cons.mp hk' with rfl | hk'
        · exact absurd hi' hi
        · exact ⟨hk', hi'⟩

/-- In a list with increasing keys, `takeWhile` keeps what has no failure at or before
its key. -/
theorem mem_takeWhile_iff {l : List κ} {p : κ → Bool} {key : κ → ℕ}
    (hkey : (l.map key).Pairwise (· < ·)) {a : κ} :
    a ∈ l.takeWhile p ↔ a ∈ l ∧ ∀ b ∈ l, key b ≤ key a → p b = true := by
  induction l with
  | nil => simp
  | cons c l ih =>
    obtain ⟨hlt, hkey⟩ := List.pairwise_cons.mp hkey
    have hlt : ∀ b ∈ l, key c < key b := fun b hb => hlt _ (List.mem_map_of_mem hb)
    by_cases hc : p c = true
    · rw [List.takeWhile_cons_of_pos hc, List.mem_cons, ih hkey]
      constructor
      · rintro (rfl | ⟨ha, hall⟩)
        · refine ⟨List.mem_cons_self, fun b hb hle => ?_⟩
          rcases List.mem_cons.mp hb with rfl | hb
          · exact hc
          · exact absurd (hlt b hb) hle.not_gt
        · exact ⟨List.mem_cons_of_mem _ ha, List.forall_mem_cons.mpr ⟨fun _ => hc, hall⟩⟩
      · rintro ⟨ha, hall⟩
        rcases List.mem_cons.mp ha with rfl | ha
        · exact Or.inl rfl
        · exact Or.inr ⟨ha, (List.forall_mem_cons.mp hall).2⟩
    · rw [List.takeWhile_cons_of_neg hc]
      refine iff_of_false (List.not_mem_nil) ?_
      rintro ⟨ha, hall⟩
      refine hc (hall c List.mem_cons_self ?_)
      rcases List.mem_cons.mp ha with rfl | ha
      · exact le_refl _
      · exact (hlt a ha).le

/-- A sequence of indices counts from zero if it increases and leaves no gap. -/
theorem eq_range_iff {l : List ℕ} :
    l = List.range l.length ↔ l.Pairwise (· < ·) ∧ ∀ j ∈ l, ∀ i < j, i ∈ l := by
  constructor
  · intro h
    rw [h]
    refine ⟨List.pairwise_lt_range, fun j hj i hi => ?_⟩
    exact List.mem_range.mpr (hi.trans (List.mem_range.mp hj))
  · rintro ⟨hlt, hgap⟩
    induction l using List.reverseRecOn with
    | nil => rfl
    | append_singleton l a ih =>
      obtain ⟨hl, _, ha⟩ := List.pairwise_append.mp hlt
      have hlast : ∀ i ∈ l, i < a := fun i hi => ha i hi a (List.mem_singleton_self a)
      have hmem : ∀ i, i < a → i ∈ l := by
        intro i hi
        rcases List.mem_append.mp (hgap a (by simp) i hi) with h | h
        · exact h
        · exact absurd (List.mem_singleton.mp h) hi.ne
      have hrange : l = List.range l.length := by
        refine ih hl fun j hj i hi => hmem i (hi.trans (hlast j hj))
      have hiff : ∀ i, i < l.length ↔ i < a := by
        intro i
        rw [← List.mem_range, ← hrange]
        exact ⟨hlast i, hmem i⟩
      have hlen : a = l.length := by
        have hle := (hiff a).not.mpr (lt_irrefl a)
        have hge := (hiff l.length).not.mp (lt_irrefl _)
        omega
      rw [List.length_append, List.length_singleton, List.range_succ, ← hrange, hlen]

/-- Entries that stand at their own places. -/
theorem zipIdx_eq_iff (l : List ℕ) : ∀ n,
    (∀ p ∈ l.zipIdx n, p.1 = p.2) ↔ l = List.range' n l.length := by
  induction l with
  | nil => simp
  | cons a l ih =>
    intro n
    rw [List.zipIdx_cons, List.forall_mem_cons, ih, List.length_cons, List.range'_succ,
      List.cons.injEq]

section Classes

variable {κ : Type*} [LinearOrder κ] {keys : List κ} {k : κ} {i : ℕ}

/-- The places of the entries with a key. -/
def positions (keys : List κ) (k : κ) : List ℕ := (keys.zipIdx.filter fun p => p.1 = k).map Prod.snd

theorem mem_positions : i ∈ positions keys k ↔ keys[i]? = some k := by
  simp only [positions, List.mem_map, List.mem_filter, decide_eq_true_eq]
  constructor
  · rintro ⟨⟨a, j⟩, ⟨hp, rfl⟩, rfl⟩
    exact List.mem_zipIdx_iff_getElem?.mp hp
  · intro h
    exact ⟨(k, i), ⟨List.mem_zipIdx_iff_getElem?.mpr h, rfl⟩, rfl⟩

theorem length_positions (keys : List κ) (k : κ) : (positions keys k).length = keys.count k := by
  have hfst : keys.count k = (keys.zipIdx.map Prod.fst).count k := by rw [List.zipIdx_map_fst]
  rw [hfst, List.count, List.countP_map, List.countP_eq_length_filter, positions, List.length_map]
  rfl

/-- In an ordered list the entries with a key stand together, behind those with a smaller one. -/
theorem positions_of_sorted (hsorted : keys.Pairwise (· ≤ ·)) (k : κ) (n : ℕ) :
    ((keys.zipIdx n).filter fun p => p.1 = k).map Prod.snd =
      List.range' (n + keys.countP (· < k)) (keys.count k) := by
  induction keys generalizing n with
  | nil => rfl
  | cons a keys ih =>
    obtain ⟨hle, hsorted⟩ := List.pairwise_cons.mp hsorted
    rcases lt_trichotomy a k with hlt | rfl | hgt
    · rw [List.zipIdx_cons, List.filter_cons_of_neg (by simp [hlt.ne]), ih hsorted,
        List.countP_cons_of_pos (by simp [hlt]), List.count_cons_of_ne hlt.ne]
      congr 1
      omega
    · have hnone : keys.countP (· < a) = 0 := by
        rw [List.countP_eq_zero]
        intro b hb
        simpa using hle b hb
      rw [List.zipIdx_cons, List.filter_cons_of_pos (by simp), List.map_cons, ih hsorted,
        List.countP_cons_of_neg (by simp), List.count_cons_self, hnone, List.range'_succ]
      simp
    · have hnone : keys.count k = 0 := by
        rw [List.count_eq_zero]
        intro hk
        exact absurd (hle k hk) (not_le_of_gt hgt)
      rw [List.zipIdx_cons, List.filter_cons_of_neg (by simp [hgt.ne']), ih hsorted,
        List.count_cons_of_ne hgt.ne', hnone]
      rfl

theorem countP_add_count_le {a b : κ} (hab : a < b) (keys : List κ) :
    keys.countP (· < a) + keys.count a ≤ keys.countP (· < b) := by
  induction keys with
  | nil => simp
  | cons c keys ih =>
    simp only [List.countP_cons, List.count_cons, decide_eq_true_eq, beq_iff_eq]
    by_cases hca : c < a
    · rw [if_pos hca, if_pos (hca.trans hab), if_neg hca.ne]
      omega
    · by_cases heq : c = a
      · subst heq
        rw [if_neg hca, if_pos rfl, if_pos hab]
        omega
      · rw [if_neg hca, if_neg heq]
        omega

/-- The entries with each key stand together, behind as many as have a smaller key, only if the
list is ordered. -/
theorem positions_eq_range_iff :
    (∀ k, positions keys k = List.range' (keys.countP (· < k)) (keys.count k)) ↔
      keys.Pairwise (· ≤ ·) := by
  constructor
  · intro h
    rw [List.pairwise_iff_getElem]
    intro i j hi hj hij
    by_contra hle
    have hlt := lt_of_not_ge hle
    have hbig : i ∈ positions keys keys[i] := mem_positions.mpr (List.getElem?_eq_getElem hi)
    have hsmall : j ∈ positions keys keys[j] := mem_positions.mpr (List.getElem?_eq_getElem hj)
    rw [h, List.mem_range'_1] at hbig hsmall
    have hcount := countP_add_count_le hlt keys
    omega
  · intro hsorted k
    rw [positions, positions_of_sorted hsorted k 0, Nat.zero_add]

end Classes

theorem countP_lt_succ (keys : List ℕ) (k : ℕ) :
    keys.countP (· < k + 1) = keys.countP (· < k) + keys.count k := by
  induction keys with
  | nil => rfl
  | cons a keys ih =>
    simp only [List.countP_cons, List.count_cons, ih, decide_eq_true_eq, beq_iff_eq]
    split_ifs <;> omega

theorem sum_count (keys : List ℕ) (k : ℕ) :
    ((List.range k).map fun j => keys.count j).sum = keys.countP (· < k) := by
  induction k with
  | zero => simp
  | succ k ih =>
    rw [List.range_succ, List.map_append, List.sum_append, ih, List.map_singleton,
      List.sum_singleton, countP_lt_succ]

/-- What stands before an entry of a list without repetition. -/
theorem takeWhile_ne [DecidableEq κ] {l : List κ} (hnodup : l.Nodup) {k : ℕ} {a : κ}
    (h : l[k]? = some a) : (l.takeWhile fun b => b ≠ a) = l.take k := by
  induction l generalizing k with
  | nil => cases h
  | cons b l ih =>
    obtain ⟨hb, hnodup⟩ := List.nodup_cons.mp hnodup
    cases k with
    | zero =>
      obtain rfl := Option.some.inj h
      rw [List.takeWhile_cons_of_neg (by simp), List.take_zero]
    | succ k =>
      have hne : b ≠ a := fun heq => hb (heq ▸ List.mem_of_getElem? h)
      rw [List.takeWhile_cons_of_pos (by simpa using hne), ih hnodup h, List.take_succ_cons]

end Grouping
