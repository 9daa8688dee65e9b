import MkCDrec.Parts

/-!
# The byte counters of `cutstream`

`filepipe` counts the bytes since the last cut in `i` and those before it in `total`, to
report their sum at the end. Both hide variables of the same names outside of the function;
the inner `total` is a `long int`, has no initial value, and is printed as an `int`. The
counter `i` never exceeds the capacity, so it stays within a `long long`.
-/

namespace Accounting

open ShellText Cutting Cutstream Parts Machine
open Copying (Opens)

/-- The width of a `long int`. -/
inductive DataModel
  | ilp32
  | lp64

def DataModel.long : DataModel → Int → Int
  | .ilp32, x => Int.bmod x (2 ^ 32)
  | .lp64, x => Int.bmod x (2 ^ 64)

structure Counted where
  pipe : Pipe Log
  total : Int

section Rounds

variable (m : DataModel) (opens : Opens) (maxcdsize : Nat)

/-- One round of the loop, or its end. -/
def round (p : Counted) : Except (Option (Exit Log)) Counted :=
  if p.pipe.eof then .error none
  else
    match Cutstream.step (host opens) maxcdsize p.pipe with
    | .error e => .error (some e)
    | .ok q =>
      let i := p.pipe.i + (p.pipe.input.length - q.input.length : Nat)
      .ok { pipe := q, total := if i = p.pipe.capacity then m.long (p.total + i) else p.total }

/-- `filepipe` at its start; `garbage` is what happens to be in `total`. -/
def start (garbage : Int) (capacity volno : Nat) (input : Bytes) : Counted where
  pipe := { input, eof := false, capacity := capacity * 1024, i := 0, volno, world := fresh volno }
  total := m.long garbage

/-- `%d` of the last `total + i`. -/
def reported (p : Counted) : Int := Int.bmod (m.long (p.total + p.pipe.i)) (2 ^ 32)

/-- After each round of a run the counters are right, and so is the report. -/
structure Accounted (garbage : Int) (capacity volno : Nat) (input : Bytes) : Prop where
  read : ∀ p q, Reaches (round m opens maxcdsize) (start m garbage capacity volno input) p →
    round m opens maxcdsize p = .ok q →
      q.total + q.pipe.i = (input.length - q.pipe.input.length : Nat)
  written : ∀ p q, Reaches (round m opens maxcdsize) (start m garbage capacity volno input) p →
    round m opens maxcdsize p = .ok q → q.pipe.i = q.pipe.world.current.length
  reported : ∀ q,
    StopsIn (round m opens maxcdsize) (start m garbage capacity volno input) q none →
      reported m q = input.length

end Rounds

section Long

variable {m : DataModel} {x y : Int}

theorem long_add_long (m : DataModel) (x y : Int) : m.long (m.long x + y) = m.long (x + y) := by
  cases m with
  | ilp32 => exact Int.bmod_add_bmod
  | lp64 => exact Int.bmod_add_bmod

theorem long_of_lt (m : DataModel) (hle : 0 ≤ x) (hlt : x < 2 ^ 31) : m.long x = x := by
  cases m with
  | ilp32 => exact Int.bmod_eq_of_le (by omega) (by omega)
  | lp64 => exact Int.bmod_eq_of_le (by omega) (by omega)

/-- What is added to a count that comes out right was nothing. -/
theorem long_eq_zero (h : m.long (x + y) = y) : m.long x = 0 := by
  have hback := long_add_long m (x + y) (-y)
  rw [h, Int.add_neg_cancel_right, Int.add_right_neg] at hback
  rw [← hback, long_of_lt m (Int.le_refl 0) (by decide)]

end Long

section Invariant

variable {m : DataModel} {opens : Opens} {maxcdsize : Nat} {garbage : Int} {capacity volno : Nat}
  {input : Bytes} {p q : Counted}

/-- The bytes before the last cut. -/
def past (input : Bytes) (p : Counted) : Int :=
  (input.length - p.pipe.input.length : Nat) - p.pipe.i

/-- What every round keeps: `i` counts the open part, and `total` what is before it, on top
of what was in it at the start. -/
structure Inv (m : DataModel) (garbage : Int) (input : Bytes) (p : Counted) : Prop where
  stale : p.pipe.world.stale = false
  bounds : 0 ≤ p.pipe.i ∧ p.pipe.i ≤ p.pipe.capacity
  read : p.pipe.i + p.pipe.input.length ≤ input.length
  written : p.pipe.i = p.pipe.world.current.length
  total : p.total = m.long (garbage + past input p)
  eof : p.pipe.eof = true → p.pipe.input = []

theorem inv_start : Inv m garbage input (start m garbage capacity volno input) where
  stale := rfl
  bounds := ⟨Int.le_refl 0, by simp only [start]; omega⟩
  read := by simp [start]
  written := rfl
  total := by simp [start, past]
  eof := fun h => nomatch h

/-- A round is a step of `filepipe`, and the counting. -/
theorem round_eq_ok (h : round m opens maxcdsize p = .ok q) :
    p.pipe.eof = false ∧ Cutstream.step (host opens) maxcdsize p.pipe = .ok q.pipe ∧
      q.total =
        if p.pipe.i + (p.pipe.input.length - q.pipe.input.length : Nat) = p.pipe.capacity then
          m.long (p.total + (p.pipe.i + (p.pipe.input.length - q.pipe.input.length : Nat)))
        else p.total := by
  rw [round] at h
  split at h
  · cases h
  · rename_i heof
    split at h
    · cases h
    · rename_i s hs
      obtain rfl := Except.ok.inj h
      exact ⟨Bool.eq_false_iff.mpr heof, hs, rfl⟩

theorem inv_round (hp : Inv m garbage input p) (h : round m opens maxcdsize p = .ok q) :
    Inv m garbage input q := by
  obtain ⟨_, hstep, htotal⟩ := round_eq_ok h
  obtain ⟨n, hn, hinput, heof, hcase⟩ := step_cases hstep
  obtain ⟨hi, hcapacity⟩ := hp.bounds
  have hread := hp.read
  have hrest : q.pipe.input.length = p.pipe.input.length - n := by rw [hinput, List.length_drop]
  have hend : q.pipe.eof = true → q.pipe.input = [] := by
    intro hq
    rw [heof, decide_eq_true_eq] at hq
    rw [hinput]
    exact List.drop_eq_nil_of_le (Nat.le_of_lt hq)
  rcases hcase with ⟨hmore, _, hsame, hcount, hworld⟩ |
    ⟨hfull, hle, _, hnext, hzero, hchange⟩
  · rw [if_neg (by omega)] at htotal
    rw [fwrite_open hp.stale] at hworld
    refine ⟨by rw [hworld]; exact hp.stale, by omega, by omega, ?_, ?_, hend⟩
    · rw [hcount, hworld, hp.written, List.length_append, List.length_take]
      push_cast
      rfl
    · have hpast : past input q = past input p := by
        simp only [past]
        omega
      rw [htotal, hp.total, hpast]
  · rw [if_pos (by omega)] at htotal
    have hworld := changeVolume_ok hchange
    refine ⟨by rw [hworld]; rfl, by omega, by omega, ?_, ?_, hend⟩
    · rw [hzero, hworld]
      rfl
    · have hpast : past input q =
          past input p + (p.pipe.i + (p.pipe.input.length - q.pipe.input.length : Nat)) := by
        simp only [past]
        omega
      rw [htotal, hp.total, long_add_long, hpast, Int.add_assoc]

theorem inv_of_reaches
    (h : Reaches (round m opens maxcdsize) (start m garbage capacity volno input) p) :
    Inv m garbage input p :=
  h.invariant (fun _ _ => inv_round) inv_start

end Invariant

section Runs

variable {m : DataModel} {maxcdsize : Nat} {garbage : Int} {capacity volno : Nat} {input : Bytes}
  {p : Counted}

theorem round_of_step {q : Pipe Log} (heof : p.pipe.eof = false)
    (hstep : Cutstream.step (host healthy) maxcdsize p.pipe = .ok q) :
    ∃ total, round m healthy maxcdsize p = .ok ⟨q, total⟩ := by
  rw [round, if_neg (by simp [heof]), hstep]
  exact ⟨_, rfl⟩

/-- The rounds up to the next cut. -/
theorem reaches_cut (maxcdsize c : Nat) (hcap : p.pipe.capacity - p.pipe.i = c)
    (hle : c ≤ p.pipe.input.length) (heof : p.pipe.eof = false) :
    ∃ p' q, Reaches (round m healthy maxcdsize) p p' ∧ round m healthy maxcdsize p' = .ok q ∧
      q.pipe.i = 0 ∧ q.pipe.input.length + c = p.pipe.input.length := by
  induction c using Nat.strongRecOn generalizing p with
  | ind c ih =>
    have hmax : maxIOSize = 4096 := rfl
    by_cases hio : c ≤ maxIOSize
    · have hstep : step (host healthy) maxcdsize _ = _ := step_cut hcap hle hio
      rw [changeVolume_healthy] at hstep
      obtain ⟨total, hround⟩ := round_of_step (m := m) heof hstep
      refine ⟨p, _, Reaches.refl, hround, rfl, ?_⟩
      rw [List.length_drop]
      omega
    · have hstep : step (host healthy) maxcdsize _ = _ := step_copy hcap
        (Or.inr (Nat.not_le.mp hio))
      obtain ⟨total, hround⟩ := round_of_step (m := m) heof hstep
      obtain ⟨p', q, hreach, hlast, hzero, hlen⟩ := ih (c - maxIOSize) (by omega)
        (p := { total, pipe := { p.pipe with
          input := p.pipe.input.drop (min maxIOSize c)
          eof := decide (p.pipe.input.length < min maxIOSize c)
          i := p.pipe.i + (min (min maxIOSize c) p.pipe.input.length : Nat)
          world := (host healthy).fwrite (p.pipe.input.take (min maxIOSize c)) p.pipe.world } })
        (by simp only; omega) (by simp only [List.length_drop]; omega)
        (by simp only [decide_eq_false_iff_not]; omega)
      simp only [List.length_drop] at hlen
      exact ⟨p', q, Reaches.head hround hreach, hlast, hzero, by omega⟩

/-- Where `filepipe` returns the rounds come to their end. -/
theorem stops_of_loop {fuel : Nat} {q : Pipe Log}
    (h : Cutstream.loop (host healthy) maxcdsize fuel p.pipe = .ok q) :
    ∃ r, StopsIn (round m healthy maxcdsize) p r none := by
  induction fuel generalizing p with
  | zero =>
    rw [loop] at h
    split at h
    · rename_i heof
      exact ⟨p, Reaches.refl, by rw [round, if_pos heof]⟩
    · cases h
  | succ fuel ih =>
    rw [loop] at h
    split at h
    · rename_i heof
      exact ⟨p, Reaches.refl, by rw [round, if_pos heof]⟩
    · rename_i heof
      cases hstep : Cutstream.step (host healthy) maxcdsize p.pipe with
      | error e =>
        rw [hstep] at h
        cases h
      | ok s =>
        rw [hstep] at h
        obtain ⟨total, hround⟩ := round_of_step (m := m) (Bool.eq_false_iff.mpr heof) hstep
        obtain ⟨r, hreach, hstop⟩ := ih (p := ⟨s, total⟩) h
        exact ⟨r, Reaches.head hround hreach, hstop⟩

/-- With files that can be opened `filepipe` returns, if there is room after a cut. -/
theorem stops_of_start (m : DataModel) (garbage : Int) (volno : Nat)
    (hroom : input.length < capacity * 1024 ∨ 0 < maxcdsize) :
    ∃ q, StopsIn (round m healthy maxcdsize) (start m garbage capacity volno input) q none := by
  obtain ⟨ps, t, hcuts, hm⟩ : ∃ ps t,
      Cuts (maxcdsize * 1024) (capacity * 1024) input ps t ∧ (ps ≠ [] → 0 < maxcdsize) := by
    rcases hroom with hshort | hpos
    · exact ⟨[], input, .tail hshort, fun h => absurd rfl h⟩
    · obtain ⟨ps, t, hcuts⟩ := exists_cuts (m := maxcdsize * 1024) (by omega) (capacity * 1024)
        input
      exact ⟨ps, t, hcuts, fun _ => hpos⟩
  have hpipe := filepipe_eq_cutAll (host healthy) maxcdsize volno hm hcuts (Nat.le_refl _)
    (fresh volno)
  obtain ⟨w, hw, _⟩ := cutAll_open ps volno (w := fresh volno) rfl rfl
  rw [hw] at hpipe
  cases hrun : filepipe (host healthy) maxcdsize (input.length + 2) capacity volno input
      (fresh volno) with
  | error e =>
    rw [hrun] at hpipe
    cases hpipe
  | ok q => exact stops_of_loop (p := start m garbage capacity volno input) hrun

end Runs

section Endless

variable {m : DataModel} {opens : Opens} {garbage : Int} {capacity volno : Nat} {input : Bytes}
  {p q : Counted}

/-- Without capacity after the first cut: the run is before it, or cuts for ever. -/
structure Endless (capacity : Nat) (input : Bytes) (p : Counted) : Prop where
  eof : p.pipe.eof = false
  phase : past input p = 0 ∧ p.pipe.capacity = capacity * 1024 ∧
      p.pipe.capacity ≤ p.pipe.i + p.pipe.input.length ∨
    past input p = capacity * 1024 ∧ p.pipe.capacity = 0 ∧ p.pipe.i = 0

theorem endless_start (hlong : capacity * 1024 ≤ input.length) :
    Endless capacity input (start m garbage capacity volno input) := by
  refine ⟨rfl, Or.inl ⟨by simp [start, past], rfl, ?_⟩⟩
  simp only [start]
  omega

theorem endless_round (hinv : Inv m garbage input p) (hp : Endless capacity input p)
    (h : round m opens 0 p = .ok q) : Endless capacity input q := by
  obtain ⟨_, hstep, _⟩ := round_eq_ok h
  obtain ⟨n, hn, hinput, heof, hcase⟩ := step_cases hstep
  have hphase := hp.phase
  have hread := hinv.read
  obtain ⟨hi, hcapacity⟩ := hinv.bounds
  have hmax : (maxIOSize : Int) = 4096 := rfl
  have hrest : q.pipe.input.length = p.pipe.input.length - n := by rw [hinput, List.length_drop]
  simp only [past] at hphase
  refine ⟨?_, ?_⟩
  · rw [heof, decide_eq_false_iff_not]
    omega
  · simp only [past]
    rcases hcase with ⟨hmore, _, hsame, hcount, _⟩ | ⟨hfull, hle, _, hnext, hzero, _⟩
    · omega
    · omega

theorem endless_of_reaches (hlong : capacity * 1024 ≤ input.length)
    (h : Reaches (round m opens 0) (start m garbage capacity volno input) p) :
    Endless capacity input p := by
  have hall : Inv m garbage input p ∧ Endless capacity input p :=
    Reaches.invariant (P := fun p => Inv m garbage input p ∧ Endless capacity input p)
      (fun p q hp hround => ⟨inv_round hp.1 hround, endless_round hp.1 hp.2 hround⟩) h
      ⟨inv_start, endless_start hlong⟩
  exact hall.2

end Endless

section Results

variable {m : DataModel} {opens : Opens} {maxcdsize : Nat} {garbage : Int} {capacity volno : Nat}
  {input : Bytes} {p : Counted}

/-- Where the bytes before the last cut are counted right the sum is. -/
theorem read_of_past (hp : Inv m garbage input p) (hgarbage : m.long garbage = 0)
    (hpast : m.long (past input p) = past input p) :
    p.total + p.pipe.i = (input.length - p.pipe.input.length : Nat) := by
  rw [hp.total, ← long_add_long, hgarbage, Int.zero_add, hpast, past, Int.sub_add_cancel]

theorem past_bounds (hp : Inv m garbage input p) :
    0 ≤ past input p ∧ past input p ≤ input.length := by
  have hread := hp.read
  have hi := hp.bounds.1
  rw [past]
  omega

theorem accounted_of_short (hgarbage : m.long garbage = 0) (hshort : input.length < 2 ^ 31) :
    Accounted m opens maxcdsize garbage capacity volno input := by
  have hread : ∀ p, Inv m garbage input p →
      p.total + p.pipe.i = (input.length - p.pipe.input.length : Nat) := by
    intro p hp
    obtain ⟨hpos, hle⟩ := past_bounds hp
    exact read_of_past hp hgarbage (long_of_lt m hpos (by omega))
  refine ⟨?_, ?_, ?_⟩
  · intro p q hreach hround
    exact hread q (inv_round (inv_of_reaches hreach) hround)
  · intro p q hreach hround
    exact (inv_round (inv_of_reaches hreach) hround).written
  · rintro q ⟨hreach, hstop⟩
    have hq := inv_of_reaches hreach
    have hinput : q.pipe.input = [] := by
      rw [round] at hstop
      split at hstop
      · rename_i heof
        exact hq.eof heof
      · split at hstop
        · cases hstop
        · cases hstop
    have hsum := hread q hq
    rw [hinput, List.length_nil, Nat.sub_zero] at hsum
    rw [reported, hsum, long_of_lt m (by omega) (by omega)]
    exact Int.bmod_eq_of_le (by omega) (by omega)

theorem accounted_of_endless (hgarbage : m.long garbage = 0)
    (hlong : capacity * 1024 ≤ input.length)
    (hkept : m.long (capacity * 1024 : Nat) = (capacity * 1024 : Nat)) :
    Accounted m opens 0 garbage capacity volno input := by
  refine ⟨?_, ?_, ?_⟩
  · intro p q hreach hround
    have hp := inv_of_reaches hreach
    have hq := inv_round hp hround
    have hphase := (endless_round hp (endless_of_reaches hlong hreach) hround).phase
    refine read_of_past hq hgarbage ?_
    rcases hphase with ⟨hzero, _⟩ | ⟨hcut, _⟩
    · rw [hzero, long_of_lt m (Int.le_refl 0) (by decide)]
    · have hcast : (capacity : Int) * 1024 = (capacity * 1024 : Nat) := by omega
      rw [hcut, hcast]
      exact hkept
  · intro p q hreach hround
    exact (inv_round (inv_of_reaches hreach) hround).written
  · rintro q ⟨hreach, hstop⟩
    have heof := (endless_of_reaches hlong hreach).eof
    rw [round, if_neg (by simp [heof])] at hstop
    split at hstop
    · cases hstop
    · cases hstop

/-- There is a first round. -/
theorem exists_round (m : DataModel) (maxcdsize : Nat) (garbage : Int) (capacity volno : Nat)
    (input : Bytes) :
    ∃ q, round m healthy maxcdsize (start m garbage capacity volno input) = .ok q := by
  have hcap : (start m garbage capacity volno input).pipe.capacity -
      (start m garbage capacity volno input).pipe.i = (capacity * 1024 : Nat) := by
    simp only [start]
    omega
  by_cases hcopy : input.length < capacity * 1024 ∨ maxIOSize < capacity * 1024
  · obtain ⟨total, hround⟩ := round_of_step (m := m)
      (p := start m garbage capacity volno input) rfl (step_copy hcap hcopy)
    exact ⟨_, hround⟩
  · have hstep : step (host healthy) maxcdsize _ = _ := step_cut hcap (by
      simp only [start]
      omega) (by omega)
    rw [changeVolume_healthy] at hstep
    obtain ⟨total, hround⟩ := round_of_step (m := m)
      (p := start m garbage capacity volno input) rfl hstep
    exact ⟨_, hround⟩

/-- The accounts are right for all results of `fopen` just if `total` happens to begin with
nought and the stream is short enough for an `int` (or never comes to its end, and the first
part is short enough for a `long int`). -/
theorem accounted_iff (m : DataModel) (maxcdsize : Nat) (garbage : Int) (capacity volno : Nat)
    (input : Bytes) :
    (∀ opens, Accounted m opens maxcdsize garbage capacity volno input) ↔
      m.long garbage = 0 ∧ (input.length < 2 ^ 31 ∨ maxcdsize = 0 ∧
        capacity * 1024 ≤ input.length ∧
          m.long (capacity * 1024 : Nat) = (capacity * 1024 : Nat)) := by
  constructor
  · intro hall
    have hright := hall healthy
    have hgarbage : m.long garbage = 0 := by
      obtain ⟨q, hround⟩ := exists_round m maxcdsize garbage capacity volno input
      have hread := hright.read _ q Reaches.refl hround
      rw [(inv_round inv_start hround).total] at hread
      refine long_eq_zero (y := past input q) ?_
      rw [past] at hread ⊢
      omega
    refine ⟨hgarbage, ?_⟩
    by_cases hroom : input.length < capacity * 1024 ∨ 0 < maxcdsize
    · left
      obtain ⟨q, hstop⟩ := stops_of_start m garbage volno hroom
      have hreport := hright.reported q hstop
      have hlt : reported m q < 2 ^ 31 := by
        rw [reported]
        exact Int.bmod_lt (by decide)
      omega
    · right
      obtain ⟨p, q, hreach, hround, hzero, hlen⟩ := reaches_cut (m := m)
        (p := start m garbage capacity volno input) maxcdsize (capacity * 1024)
        (by simp only [start]; omega) (by simp only [start]; omega) rfl
      have hread := hright.read p q hreach hround
      have hq := inv_round (inv_of_reaches hreach) hround
      simp only [start] at hlen
      have hpast : past input q = (capacity * 1024 : Nat) := by
        rw [past]
        omega
      refine ⟨by omega, by omega, ?_⟩
      rw [hq.total, hpast, ← long_add_long, hgarbage, Int.zero_add] at hread
      omega
  · rintro ⟨hgarbage, hshort | ⟨rfl, hlong, hkept⟩⟩ opens
    · exact accounted_of_short hgarbage hshort
    · exact accounted_of_endless hgarbage hlong hkept

/-- An empty stream, with 1 in `total` before the first round. -/
theorem garbage_reported : ¬ ∀ (m : DataModel) (opens : Opens) (maxcdsize : Nat) (garbage : Int)
    (capacity volno : Nat) (input : Bytes), 0 < maxcdsize →
      Accounted m opens maxcdsize garbage capacity volno input := by
  intro hall
  obtain ⟨q, hround⟩ := exists_round .lp64 665600 1 665600 0 []
  have hread := (hall .lp64 healthy 665600 1 665600 0 [] (by decide)).read _ q Reaches.refl hround
  have hq := inv_round inv_start hround
  have hbounds := past_bounds hq
  have hi := hq.bounds.1
  rw [hq.total] at hread
  have hzero : past [] q = 0 := by
    simp only [List.length_nil] at hbounds
    omega
  rw [hzero] at hread
  simp only [past, List.length_nil] at hzero hread
  have hone : DataModel.long .lp64 (1 + 0) = 1 := by decide
  omega

end Results

end Accounting
