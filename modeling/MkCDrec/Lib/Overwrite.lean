import Mathlib.Data.List.TakeDrop

/-!
# Reading and overwriting a part of a list

What is read at a place that was overwritten is what was put there, and the rest is left as
it was.
-/

namespace Overwrite

variable {α : Type}

/-- `read` of at most `n` elements from a place on. -/
def readAt (l : List α) (pos n : Nat) : List α := (l.drop pos).take n

def overwrite (pos : Nat) (new l : List α) : List α :=
  l.take pos ++ (new ++ l.drop (pos + new.length))

section Parts

variable {l new new' : List α} {pos pos' n i k : Nat}

theorem getElem?_readAt (l : List α) (pos n i : Nat) :
    (readAt l pos n)[i]? = if i < n then l[pos + i]? else none := by
  rw [readAt, List.getElem?_take, List.getElem?_drop]

theorem length_readAt (l : List α) (pos n : Nat) :
    (readAt l pos n).length = min n (l.length - pos) := by
  rw [readAt, List.length_take, List.length_drop]

/-- A part, and what follows it. -/
theorem drop_take_eq_append (h : pos + n ≤ k) :
    (l.take k).drop pos = readAt l pos n ++ (l.take k).drop (pos + (readAt l pos n).length) := by
  apply List.ext_getElem?
  intro i
  rw [List.getElem?_append, length_readAt, getElem?_readAt]
  simp only [List.getElem?_drop, List.getElem?_take]
  by_cases hi : i < min n (l.length - pos)
  · rw [if_pos hi, if_pos (by omega), if_pos (by omega)]
  · rw [if_neg hi]
    by_cases hlen : l.length ≤ pos + i
    · rw [List.getElem?_eq_none hlen, ite_self, List.getElem?_eq_none (by omega), ite_self]
    · have hmin : min n (l.length - pos) = n := by omega
      rw [hmin, show pos + n + (i - n) = pos + i by omega]

theorem drop_eq_append (l : List α) (pos n : Nat) :
    l.drop pos = readAt l pos n ++ l.drop (pos + (readAt l pos n).length) := by
  have hall : l.take (pos + n + l.length) = l := List.take_of_length_le (by omega)
  have happend := drop_take_eq_append (l := l) (Nat.le_add_right (pos + n) l.length)
  rwa [hall] at happend

theorem length_overwrite (h : pos + new.length ≤ l.length) :
    (overwrite pos new l).length = l.length := by
  simp only [overwrite, List.length_append, List.length_take, List.length_drop]
  omega

theorem getElem?_overwrite (h : pos + new.length ≤ l.length) (i : Nat) :
    (overwrite pos new l)[i]? =
      if pos ≤ i ∧ i < pos + new.length then new[i - pos]? else l[i]? := by
  have hpos : (l.take pos).length = pos := by rw [List.length_take]; omega
  rw [overwrite, List.getElem?_append, hpos, List.getElem?_append, List.getElem?_take,
    List.getElem?_drop]
  by_cases hlt : i < pos
  · rw [if_pos hlt, if_pos hlt, if_neg (by omega)]
  · rw [if_neg hlt]
    by_cases hin : i - pos < new.length
    · rw [if_pos hin, if_pos (by omega)]
    · rw [if_neg hin, if_neg (by omega), show pos + new.length + (i - pos - new.length) = i by omega]

theorem overwrite_readAt (h : pos + n ≤ l.length) : overwrite pos (readAt l pos n) l = l := by
  have hlen : (readAt l pos n).length = n := by rw [length_readAt]; omega
  apply List.ext_getElem?
  intro i
  rw [getElem?_overwrite (by omega), hlen, getElem?_readAt]
  split
  · rw [if_pos (by omega), show pos + (i - pos) = i by omega]
  · rfl

theorem overwrite_zero (h : new.length = l.length) : overwrite 0 new l = new := by
  rw [overwrite, List.take_zero, List.nil_append, Nat.zero_add, h, List.drop_length, List.append_nil]

/-- A shorter text at the same place leaves the end of the longer one. -/
theorem overwrite_overwrite (hle : new'.length ≤ new.length) (h : pos + new.length ≤ l.length) :
    overwrite pos new' (overwrite pos new l) = overwrite pos (overwrite 0 new' new) l := by
  have hlen : (overwrite 0 new' new).length = new.length := length_overwrite (by omega)
  apply List.ext_getElem?
  intro i
  rw [getElem?_overwrite (by rw [length_overwrite h]; omega), getElem?_overwrite h,
    getElem?_overwrite (by omega), hlen, getElem?_overwrite (by omega)]
  by_cases hin : pos ≤ i ∧ i < pos + new.length
  · rw [if_pos hin, if_pos hin]
    by_cases hin' : i < pos + new'.length
    · rw [if_pos ⟨hin.1, hin'⟩, if_pos (by omega), Nat.sub_zero]
    · rw [if_neg (by omega), if_neg (by omega)]
  · rw [if_neg (by omega), if_neg hin, if_neg hin]

/-- A part that is read beside the overwritten one. -/
theorem readAt_overwrite_of_disjoint (h : pos + new.length ≤ l.length)
    (hdisjoint : ∀ i < n, pos' + i < l.length → pos' + i < pos ∨ pos + new.length ≤ pos' + i) :
    readAt (overwrite pos new l) pos' n = readAt l pos' n := by
  apply List.ext_getElem?
  intro i
  rw [getElem?_readAt, getElem?_readAt, getElem?_overwrite h]
  by_cases hi : i < n
  · rw [if_pos hi, if_pos hi]
    by_cases hlen : pos' + i < l.length
    · rw [if_neg (by have := hdisjoint i hi hlen; omega)]
    · rw [if_neg (by omega)]
  · rw [if_neg hi, if_neg hi]

/-- A part that holds the overwritten one. -/
theorem overwrite_readAt_eq (h : pos + new.length ≤ l.length) (hpos : pos' ≤ pos)
    (hn : pos + new.length ≤ pos' + n) :
    overwrite (pos - pos') new (readAt l pos' n) = readAt (overwrite pos new l) pos' n := by
  have hlen := length_readAt l pos' n
  apply List.ext_getElem?
  intro i
  rw [getElem?_readAt, getElem?_overwrite h, getElem?_overwrite (by omega), getElem?_readAt]
  by_cases hi : i < n
  · rw [if_pos hi, if_pos hi]
    by_cases hin : pos ≤ pos' + i ∧ pos' + i < pos + new.length
    · rw [if_pos hin, if_pos (by omega), show i - (pos - pos') = pos' + i - pos by omega]
    · rw [if_neg hin, if_neg (by omega)]
  · rw [if_neg hi, if_neg hi, if_neg (by omega)]

end Parts

end Overwrite
