import MkCDrec.Lib.Overwrite

/-!
# Taking in a stream block by block

A state takes in whole blocks of `n` elements, and what does not fill a block waits for more.
A buffer of `n` cells holds what waits at its front, and whatever was there before behind it.
-/

namespace Blocks

open Overwrite

universe v
variable {α : Type} {σ : Type v}

def absorb (n : Nat) (compress : σ → List α → σ) (s : σ) (xs : List α) : σ × List α :=
  if _ : 0 < n ∧ n ≤ xs.length then absorb n compress (compress s (xs.take n)) (xs.drop n)
  else (s, xs)
termination_by xs.length
decreasing_by
  rw [List.length_drop]
  omega

section Absorbing

variable {n : Nat} {compress : σ → List α → σ} {s : σ} {xs ys : List α}

theorem absorb_of_lt (h : xs.length < n) : absorb n compress s xs = (s, xs) := by
  rw [absorb, dif_neg (by omega)]

theorem absorb_block (hn : 0 < n) (hxs : xs.length = n) :
    absorb n compress s (xs ++ ys) = absorb n compress (compress s xs) ys := by
  rw [absorb, dif_pos ⟨hn, by rw [List.length_append]; omega⟩, List.take_left' hxs,
    List.drop_left' hxs]

/-- What is taken in later follows what waits. -/
theorem absorb_append (hn : 0 < n) (s : σ) (xs ys : List α) :
    absorb n compress s (xs ++ ys) =
      absorb n compress (absorb n compress s xs).1 ((absorb n compress s xs).2 ++ ys) := by
  fun_induction absorb n compress s xs with
  | case1 s xs h ih =>
    have hlen : (xs.take n).length = n := List.length_take_of_le h.2
    calc absorb n compress s (xs ++ ys)
        = absorb n compress s (xs.take n ++ (xs.drop n ++ ys)) := by
          rw [← List.append_assoc, List.take_append_drop]
      _ = _ := by rw [absorb_block hn hlen, ih]
  | case2 s xs h => rfl

end Absorbing

/-- A state and a buffer stand for all that was taken in. -/
structure Holds (n : Nat) (compress : σ → List α → σ) (init : σ) (m : List α) (s : σ)
    (buf : List α) : Prop where
  state : (absorb n compress init m).1 = s
  length : buf.length = n
  rest : buf.take (m.length % n) = (absorb n compress init m).2

namespace Holds

variable {n : Nat} {compress : σ → List α → σ} {init s : σ} {m c buf buf' : List α}

theorem nil (hn : 0 < n) (hbuf : buf.length = n) : Holds n compress init [] init buf where
  state := by rw [absorb_of_lt (by rwa [List.length_nil])]
  length := hbuf
  rest := by rw [absorb_of_lt (by rwa [List.length_nil]), List.length_nil, Nat.zero_mod,
    List.take_zero]

theorem absorb_eq (h : Holds n compress init m s buf) :
    absorb n compress init m = (s, buf.take (m.length % n)) :=
  Prod.ext h.state h.rest.symm

/-- The front of a buffer, after more was put behind it. -/
theorem take_overwrite {pos : Nat} (h : pos + c.length ≤ buf.length) :
    (overwrite pos c buf).take (pos + c.length) = buf.take pos ++ c := by
  have hpos : (buf.take pos).length = pos := List.length_take_of_le (by omega)
  rw [overwrite, ← List.append_assoc, List.take_left' (by rw [List.length_append, hpos])]

variable {pos : Nat}

/-- What does not fill the block. -/
theorem store (hn : 0 < n) (h : Holds n compress init m s buf) (hpos : m.length % n = pos)
    (hc : pos + c.length < n) : Holds n compress init (m ++ c) s (overwrite pos c buf) := by
  have hfits : pos + c.length ≤ buf.length := by rw [h.length]; omega
  have hfront : (buf.take pos).length = pos := List.length_take_of_le (by omega)
  have hall : absorb n compress init (m ++ c) = (s, buf.take pos ++ c) := by
    rw [absorb_append hn, h.absorb_eq, hpos, absorb_of_lt (by rwa [List.length_append, hfront])]
  have hlen : (m ++ c).length % n = pos + c.length := by
    rw [List.length_append, ← Nat.mod_add_mod, hpos, Nat.mod_eq_of_lt hc]
  refine ⟨by rw [hall], by rw [length_overwrite hfits, h.length], ?_⟩
  rw [hlen, hall, take_overwrite hfits]

/-- What fills the block; the buffer is free for anything. -/
theorem fill (hn : 0 < n) (h : Holds n compress init m s buf) (hpos : m.length % n = pos)
    (hc : pos + c.length = n) (hbuf' : buf'.length = n) :
    Holds n compress init (m ++ c) (compress s (overwrite pos c buf)) buf' := by
  have hfits : pos + c.length ≤ buf.length := by rw [h.length]; omega
  have hfront : (buf.take pos).length = pos := List.length_take_of_le (by omega)
  have hblock : overwrite pos c buf = buf.take pos ++ c := by
    have hlen : (overwrite pos c buf).length = n := by rw [length_overwrite hfits, h.length]
    rw [← take_overwrite hfits, hc, List.take_of_length_le (Nat.le_of_eq hlen)]
  have hall : absorb n compress init (m ++ c) = (compress s (overwrite pos c buf), []) := by
    have hfull : (buf.take pos ++ c).length = n := by rw [List.length_append, hfront, hc]
    rw [absorb_append hn, h.absorb_eq, hpos, hblock, ← List.append_nil (buf.take pos ++ c),
      absorb_block hn hfull, absorb_of_lt hn, List.append_nil]
  have hlen : (m ++ c).length % n = 0 := by
    rw [List.length_append, ← Nat.mod_add_mod, hpos, hc, Nat.mod_self]
  refine ⟨by rw [hall], hbuf', ?_⟩
  rw [hlen, hall, List.take_zero]

end Holds

end Blocks
