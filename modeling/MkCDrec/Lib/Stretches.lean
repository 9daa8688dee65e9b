import Mathlib.Algebra.BigOperators.Group.List.Basic
import Mathlib.Algebra.GroupWithZero.Nat
import Mathlib.Order.Interval.Finset.Nat

/-!
# Stretches of a range

A stretch has a start and a length. Stretches without common points that lie in a range are
together no longer than the range.
-/

namespace Stretches

variable {α : Type} (start length : α → Nat)

def Disjoint (x y : α) : Prop :=
  length x = 0 ∨ length y = 0 ∨ start x + length x ≤ start y ∨ start y + length y ≤ start x

theorem sum_length_le_card {l : List α} (hdisjoint : l.Pairwise (Disjoint start length))
    (S : Finset Nat) (hsub : ∀ x ∈ l, Finset.Ico (start x) (start x + length x) ⊆ S) :
    (l.map length).sum ≤ S.card := by
  induction l generalizing S with
  | nil => simp
  | cons x l ih =>
    obtain ⟨hx, hl⟩ := List.pairwise_cons.1 hdisjoint
    have hhead := hsub x List.mem_cons_self
    have hrest := ih hl (S \ Finset.Ico (start x) (start x + length x)) fun y hy n hn => by
      rw [Finset.mem_sdiff]
      refine ⟨hsub y (List.mem_cons_of_mem _ hy) hn, ?_⟩
      have hapart := hx y hy
      simp only [Disjoint] at hapart
      simp only [Finset.mem_Ico] at hn ⊢
      omega
    have hle := Finset.card_le_card hhead
    rw [Finset.card_sdiff_of_subset hhead] at hrest
    rw [Nat.card_Ico] at hrest hle
    simp only [List.map_cons, List.sum_cons]
    omega

theorem sum_length_le {l : List α} (hdisjoint : l.Pairwise (Disjoint start length))
    (lo hi : Nat) (hinside : ∀ x ∈ l, length x ≠ 0 → lo ≤ start x ∧ start x + length x ≤ hi) :
    (l.map length).sum ≤ hi - lo := by
  have hcard := sum_length_le_card start length hdisjoint (Finset.Ico lo hi) fun x hx n hn => by
    simp only [Finset.mem_Ico] at hn ⊢
    have := hinside x hx (by omega)
    omega
  rwa [Nat.card_Ico] at hcard

end Stretches
