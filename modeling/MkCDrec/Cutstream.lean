import Mathlib.Tactic.Common
import MkCDrec.Lib.Cutting
import MkCDrec.Lib.ShellText

/-!
# `cutstream`

`filepipe` copies its input to the destination file in steps of at most
`MAXIOSIZE` bytes and, whenever the capacity is reached, changes volumes: it
writes the volume number to its file, runs the image maker without looking at
its status and opens the destination again. What it asks of the system around
it is a parameter, so the cut points are settled here once and for all.
-/

namespace Cutstream

open Cutting ShellText

universe u

/-- The system around `filepipe`. `fwrite` goes to the open destination,
`putVolno` and `reopen` are the two calls of `fopen` that can fail. -/
structure Host (W : Type u) where
  fwrite : Bytes → W → W
  putVolno : Nat → W → Option W
  system : W → W
  reopen : W → Option W
  fwrite_nil : ∀ w, fwrite [] w = w
  fwrite_append : ∀ a b w, fwrite b (fwrite a w) = fwrite (a ++ b) w

/-- How a run of `cutstream` can end early: with an exit status, or by an
`fread` whose size has become negative. -/
inductive Exit (W : Type u) where
  | code (status : Nat) (world : W)
  | undefined (world : W)
  | outOfFuel (world : W)

/-- The local variables of `filepipe`, its unread input and the world. -/
structure Pipe (W : Type u) where
  input : Bytes
  eof : Bool
  capacity : Int
  i : Int
  volno : Nat
  world : W

variable {W : Type u} (h : Host W) (maxcdsize : Nat)

def maxIOSize : Nat := 4096

/-- The change of volumes at a cut. -/
def changeVolume (volno : Nat) (w : W) : Except (Exit W) W :=
  match h.putVolno volno w with
  | none => .error (.code 1 w)
  | some w =>
    -- the status of `system(prg)` is not looked at
    match h.reopen (h.system w) with
    | none => .error (.code 10 (h.system w))
    | some w => .ok w

/-- One round of `while (!feof(ifp))`. -/
def step (p : Pipe W) : Except (Exit W) (Pipe W) :=
  let trialReadSize := min (maxIOSize : Int) (p.capacity - p.i)
  if trialReadSize < 0 then
    .error (.undefined p.world)
  else
    let data := p.input.take trialReadSize.toNat
    let i := p.i + data.length
    let w := h.fwrite data p.world
    let p := { p with
      input := p.input.drop trialReadSize.toNat
      eof := decide (data.length < trialReadSize.toNat)
      i := i
      world := w }
    if i = p.capacity then
      match changeVolume h (p.volno + 1) w with
      | .error e => .error e
      | .ok w => .ok { p with
          volno := p.volno + 1, world := w, capacity := maxcdsize * 1024, i := 0 }
    else
      .ok p

def loop : Nat → Pipe W → Except (Exit W) (Pipe W)
  | fuel, p =>
    if p.eof then .ok p
    else match fuel with
      | 0 => .error (.outOfFuel p.world)
      | fuel + 1 =>
        match step h maxcdsize p with
        | .error e => .error e
        | .ok p => loop fuel p

/-- `filepipe`, entered with `CAPACITY` in Kb and the volume number in its
file. Sizes are below 2 ^ 53 Kb, so that their bytes are a `long long`. -/
def filepipe (fuel : Nat) (capacity : Int) (volno : Nat) (input : Bytes) (w : W) :
    Except (Exit W) (Pipe W) :=
  loop h maxcdsize fuel
    { input, eof := false, capacity := capacity * 1024, i := 0, volno, world := w }

/-- A negative `CAPACITY` becomes a huge size for `fread`. -/
theorem filepipe_negative {fuel volno : Nat} {capacity : Int} {input : Bytes} {w : W}
    (hneg : capacity < 0) : filepipe h maxcdsize (fuel + 1) capacity volno input w =
      .error (.undefined w) := by
  have htrial : min (maxIOSize : Int) (capacity * 1024 - 0) < 0 := by omega
  simp only [filepipe, loop, step, htrial, if_true]
  rfl

/-- What the cuts amount to: write a piece, change volumes, go on. -/
def cutAll : Nat → List Bytes → W → Except (Exit W) W
  | _, [], w => .ok w
  | volno, p :: ps, w =>
    match changeVolume h (volno + 1) (h.fwrite p w) with
    | .error e => .error e
    | .ok w => cutAll (volno + 1) ps w

/-- Bytes written before the next cut may be counted to the piece that the cut
completes. -/
theorem cutAll_fwrite (volno : Nat) (a p : Bytes) (ps : List Bytes) (w : W) :
    cutAll h volno (p :: ps) (h.fwrite a w) = cutAll h volno ((a ++ p) :: ps) w := by
  simp only [cutAll, h.fwrite_append]

section Steps

variable {h maxcdsize} {p : Pipe W} {cap : Nat}

/-- A step that does not reach the capacity: it reads something, or it meets
the end of the input and copies what is left. -/
theorem step_copy (hcap : p.capacity - p.i = cap) (hlt : p.input.length < cap ∨ maxIOSize < cap) :
    step h maxcdsize p = .ok { p with
      input := p.input.drop (min maxIOSize cap)
      eof := decide (p.input.length < min maxIOSize cap)
      i := p.i + (min (min maxIOSize cap) p.input.length : Nat)
      world := h.fwrite (p.input.take (min maxIOSize cap)) p.world } := by
  have htrial : min (maxIOSize : Int) (p.capacity - p.i) = (min maxIOSize cap : Nat) := by
    rw [hcap]
    omega
  have hnot : ¬ p.i + ((min (min maxIOSize cap) p.input.length : Nat) : Int) = p.capacity := by
    omega
  simp only [step, htrial, Int.toNat_natCast, List.length_take]
  rw [if_neg (by omega), if_neg hnot]
  congr 2
  rw [decide_eq_decide]
  omega

/-- A step that reaches the capacity. -/
theorem step_cut (hcap : p.capacity - p.i = cap) (hle : cap ≤ p.input.length)
    (hio : cap ≤ maxIOSize) :
    step h maxcdsize p =
      match changeVolume h (p.volno + 1) (h.fwrite (p.input.take cap) p.world) with
      | .error e => .error e
      | .ok w => .ok {
          input := p.input.drop cap, eof := false, capacity := maxcdsize * 1024,
          i := 0, volno := p.volno + 1, world := w } := by
  have htrial : min (maxIOSize : Int) (p.capacity - p.i) = cap := by
    rw [hcap]
    omega
  have hlen : min cap p.input.length = cap := Nat.min_eq_left hle
  have hreach : p.i + (cap : Int) = p.capacity := by omega
  simp only [step, htrial, Int.toNat_natCast, List.length_take, hlen]
  rw [if_neg (by omega), if_pos hreach]
  simp

/-- Everything a step can do: copy `n` bytes at most, or copy exactly the `n` that
were missing and change volumes. -/
theorem step_cases {q : Pipe W} (hstep : step h maxcdsize p = .ok q) :
    ∃ n : Nat, (n : Int) = min (maxIOSize : Int) (p.capacity - p.i) ∧
      q.input = p.input.drop n ∧ q.eof = decide (p.input.length < n) ∧
      ((p.i + (min n p.input.length : Nat) ≠ p.capacity ∧ q.volno = p.volno ∧
          q.capacity = p.capacity ∧ q.i = p.i + (min n p.input.length : Nat) ∧
          q.world = h.fwrite (p.input.take n) p.world) ∨
        (p.capacity - p.i = n ∧ n ≤ p.input.length ∧ q.volno = p.volno + 1 ∧
          q.capacity = maxcdsize * 1024 ∧ q.i = 0 ∧
          changeVolume h (p.volno + 1) (h.fwrite (p.input.take n) p.world) = .ok q.world)) := by
  by_cases hneg : min (maxIOSize : Int) (p.capacity - p.i) < 0
  · simp only [step, hneg, if_true] at hstep
    cases hstep
  · obtain ⟨n, hn⟩ := Int.eq_ofNat_of_zero_le (Int.not_lt.mp hneg)
    have heof : decide (min n p.input.length < n) = decide (p.input.length < n) := by
      rw [decide_eq_decide]
      omega
    refine ⟨n, hn.symm, ?_⟩
    simp only [step, hn, Int.toNat_natCast, List.length_take] at hstep
    rw [if_neg (by omega)] at hstep
    by_cases hreach : p.i + ((min n p.input.length : Nat) : Int) = p.capacity
    · rw [if_pos hreach] at hstep
      have hmax : (maxIOSize : Int) = 4096 := rfl
      have hle : n ≤ p.input.length := by omega
      split at hstep
      · cases hstep
      · rename_i w hchange
        obtain rfl := Except.ok.inj hstep
        exact ⟨rfl, heof, .inr ⟨by omega, hle, rfl, rfl, rfl, hchange⟩⟩
    · rw [if_neg hreach] at hstep
      obtain rfl := Except.ok.inj hstep
      exact ⟨rfl, heof, .inl ⟨hreach, rfl, rfl, rfl, rfl⟩⟩

end Steps

/-- The states at the head of the loop in a run all of whose rounds start in a
state that satisfies `good`. -/
inductive Reaches (good : Pipe W → Prop) (start : Pipe W) : Pipe W → Prop
  | start : Reaches good start start
  | round {p q : Pipe W} (reached : Reaches good start p) (going : p.eof = false) (ok : good p)
      (next : step h maxcdsize p = .ok q) : Reaches good start q

/-- An invariant of the rounds holds throughout a run. -/
theorem Reaches.invariant {good : Pipe W → Prop} {start p : Pipe W} (inv : Pipe W → Prop)
    (hstart : inv start)
    (hround : ∀ p q, inv p → good p → step h maxcdsize p = .ok q → inv q)
    (hp : Reaches h maxcdsize good start p) : inv p := by
  induction hp with
  | start => exact hstart
  | round _ _ ok next ih => exact hround _ _ ih ok next

/-- `filepipe` writes the pieces of its input, changing volumes after each, and
then the rest. The number of rounds is bounded by the length of the input. -/
theorem loop_eq_cutAll (fuel : Nat) {cap : Nat} {ps : List Bytes} {t : Bytes}
    (hm : ps ≠ [] → 0 < maxcdsize) (p : Pipe W) (heof : p.eof = false)
    (hcap : p.capacity - p.i = cap) (hcuts : Cuts (maxcdsize * 1024) cap p.input ps t)
    (hfuel : p.input.length + (if cap = 0 then 2 else 1) ≤ fuel) :
    (loop h maxcdsize fuel p).map (fun q => (q.volno, q.world)) =
      (cutAll h p.volno ps p.world).map fun w => (p.volno + ps.length, h.fwrite t w) := by
  induction fuel generalizing p cap ps t with
  | zero => split at hfuel <;> omega
  | succ fuel ih =>
    rw [loop, if_neg (by simp [heof])]
    by_cases hcopy : p.input.length < cap ∨ maxIOSize < cap
    · rw [step_copy hcap hcopy]
      by_cases hend : p.input.length < min maxIOSize cap
      · -- the last, short read
        have hps : ps = [] ∧ t = p.input := by
          cases hcuts with
          | tail => exact ⟨rfl, rfl⟩
          | cut full => omega
        obtain ⟨rfl, rfl⟩ := hps
        have htake : p.input.take (min maxIOSize cap) = p.input :=
          List.take_of_length_le (by omega)
        cases fuel <;> simp [loop, hend, htake, cutAll, Except.map]
      · have hpos : 0 < min maxIOSize cap := by
          have : 0 < maxIOSize := by decide
          omega
        have hbound : (p.input.drop (min maxIOSize cap)).length +
            (if cap - min maxIOSize cap = 0 then 2 else 1) ≤ fuel := by
          rw [List.length_drop]
          split at hfuel <;> split <;> omega
        have hroom : (p.capacity - (p.i + (min (min maxIOSize cap) p.input.length : Nat))) =
            ((cap - min maxIOSize cap : Nat) : Int) := by
          omega
        have hnot : decide (p.input.length < min maxIOSize cap) = false := by
          simpa using hend
        rcases hcuts.advance (k := min maxIOSize cap) (by omega) (by omega) with
          ⟨rfl, rfl, hrest⟩ | ⟨q, qs, rfl, hq, hrest⟩
        · rw [ih hm _ hnot hroom hrest hbound]
          simp only [cutAll, Except.map, h.fwrite_append, List.take_append_drop]
        · rw [ih (fun _ => hm (List.cons_ne_nil _ _)) _ hnot hroom hrest hbound, ← hq,
            cutAll_fwrite, List.take_append_drop]
          rfl
    · obtain ⟨full, hio⟩ : cap ≤ p.input.length ∧ cap ≤ maxIOSize := by omega
      cases hcuts with
      | tail short => omega
      | @cut _ _ _ ps _ rest =>
        have hpos : 0 < maxcdsize := hm (List.cons_ne_nil _ _)
        rw [step_cut hcap full hio]
        simp only [cutAll]
        cases changeVolume h (p.volno + 1) (h.fwrite (p.input.take cap) p.world) with
        | error e => rfl
        | ok w =>
          have hbound : (p.input.drop cap).length +
              (if maxcdsize * 1024 = 0 then 2 else 1) ≤ fuel := by
            rw [List.length_drop]
            split at hfuel <;> split <;> omega
          have hlen : p.volno + (p.input.take cap :: ps).length = p.volno + 1 + ps.length := by
            simp only [List.length_cons]
            omega
          simp only [hlen]
          exact ih (fun _ => hpos) _ rfl (by simp) rest hbound

theorem filepipe_eq_cutAll (volno : Nat) {capacity fuel : Nat} {s t : Bytes} {ps : List Bytes}
    (hm : ps ≠ [] → 0 < maxcdsize) (hcuts : Cuts (maxcdsize * 1024) (capacity * 1024) s ps t)
    (hfuel : s.length + 2 ≤ fuel) (w : W) :
    (filepipe h maxcdsize fuel capacity volno s w).map (fun q => (q.volno, q.world)) =
      (cutAll h volno ps w).map fun w => (volno + ps.length, h.fwrite t w) := by
  rw [filepipe]
  refine loop_eq_cutAll h maxcdsize fuel hm _ rfl ?_ hcuts ?_
  · simp
  · split <;> (simp only; omega)

end Cutstream
