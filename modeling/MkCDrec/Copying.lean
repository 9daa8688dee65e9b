import Mathlib.Algebra.Group.Int.Defs
import Mathlib.Algebra.Group.Nat.Defs
import MkCDrec.Lib.CopyLoop
import MkCDrec.Cutstream

/-!
# The copy loops of `cutstream` and `pastestream`

`filepipe` of `pastestream` copies a stream; that of `cutstream` counts the bytes on the way
and changes volumes when the capacity is reached. Here are the calls of `fread` and `fwrite`
one by one, with their errors, and the sizes as `long long`; what happens at a cut is in
`Cutstream`.
-/

namespace Copying

open ShellText CopyLoop Machine
open Cutstream (maxIOSize)

/-- Kb to bytes, as a `long long`. -/
def kbytes (n : Int) : Int := Int.bmod (n * 1024) (2 ^ 64)

/-- How `filepipe` of `cutstream` stops without returning: a negative size for `fread`, or
`exit` with a status. -/
inductive Stop
  | undefined
  | exit (status : Nat)
deriving DecidableEq

/-- The counters of `filepipe`; `total` counts the bytes before the last cut. -/
structure Counters where
  capacity : Int
  i : Int
  total : Int
  volumes : Nat

/-- What the calls of `fopen` at the cuts return: for the file with the volume number, and
for the destination. -/
abbrev Opens := Nat → Bool × Bool

def cutstreamLoop (maxcdsize : Int) (opens : Opens) : Loop Counters Stop where
  request := fun c =>
    let trialReadSize := min (maxIOSize : Int) (c.capacity - c.i)
    if trialReadSize < 0 then .error .undefined else .ok trialReadSize.toNat
  after := fun c numRead =>
    let i := c.i + numRead
    if i = c.capacity then
      if !(opens c.volumes).1 then .error (.exit 1)
      else if !(opens c.volumes).2 then .error (.exit 10)
      else .ok ⟨kbytes maxcdsize, 0, c.total + i, c.volumes + 1⟩
    else .ok { c with i := i }

def pastestreamLoop : Loop Unit Empty where
  request := fun _ => .ok maxIOSize
  after := fun c _ => .ok c

section Cutstream

variable (capacity maxcdsize : Int) (opens : Opens) (r : Results) (input : Bytes)

/-- `filepipe` of `cutstream` at its start, with `CAPACITY` in Kb. -/
def cutstreamStart : State UInt8 Counters := enter input ⟨kbytes capacity, 0, 0, 0⟩

def CutstreamReaches : State UInt8 Counters → Prop :=
  Reaches (step (cutstreamLoop maxcdsize opens) r) (cutstreamStart capacity input)

/-- The sizes of all requests, and the bytes since the last cut. -/
structure Bounded (p : State UInt8 Counters) : Prop where
  request : p.pending = none → p.eof = false →
    ∃ n, (cutstreamLoop maxcdsize opens).request p.ctrl = .ok n ∧ n ≤ maxIOSize
  written : (p.out.length : Int) - p.ctrl.total ≤ p.ctrl.capacity

/-- The loop returns, and then everything is written, or `cutstream` reports an error. -/
def CutstreamEnds : Prop :=
  ∃ q o, StopsIn (step (cutstreamLoop maxcdsize opens) r) (cutstreamStart capacity input) q o ∧
    (o = none ∧ q.out = input ∨ ∃ status, o = some (.exit status) ∧ status ≠ 0)

end Cutstream

def PastestreamEnds (r : Results) (input : Bytes) : Prop :=
  ∃ q o, StopsIn (step pastestreamLoop r) (enter input ()) q o ∧ o = none ∧ q.out = input

section Rounds

variable {capacity maxcdsize : Int} {opens : Opens} {r : Results} {input : Bytes}
  {p q : State UInt8 Counters}

theorem request_of_lt (maxcdsize : Int) (opens : Opens) {c : Counters} (h : c.i ≤ c.capacity) :
    (cutstreamLoop maxcdsize opens).request c =
      .ok (min (maxIOSize : Int) (c.capacity - c.i)).toNat := by
  have hmax : maxIOSize = 4096 := rfl
  simp only [cutstreamLoop]
  rw [if_neg (by omega)]

/-- A part that does not reach the capacity. -/
theorem after_of_lt {c : Counters} {n : Nat} (h : c.i + n < c.capacity) :
    (cutstreamLoop maxcdsize opens).after c n = .ok { c with i := c.i + n } := by
  simp only [cutstreamLoop]
  rw [if_neg (by omega)]

theorem after_of_eq {c : Counters} {n : Nat} (h : c.i + n = c.capacity) :
    (cutstreamLoop maxcdsize opens).after c n =
      if !(opens c.volumes).1 then .error (.exit 1)
      else if !(opens c.volumes).2 then .error (.exit 10)
      else .ok ⟨kbytes maxcdsize, 0, c.total + (c.i + n), c.volumes + 1⟩ := by
  simp only [cutstreamLoop]
  rw [if_pos h]

theorem request_le {c : Counters} {n : Nat}
    (h : (cutstreamLoop maxcdsize opens).request c = .ok n) : n ≤ maxIOSize := by
  simp only [cutstreamLoop] at h
  split at h
  · cases h
  · obtain rfl := Except.ok.inj h
    omega

/-- The rounds up to the next cut, or up to the end of the input. -/
theorem reaches_piece (maxcdsize : Int) (opens : Opens) (hfair : r.Fair)
    (hpending : p.pending = none) (heof : p.eof = false) (hi : p.ctrl.i < p.ctrl.capacity) :
    ((p.input.length : Int) < p.ctrl.capacity - p.ctrl.i →
      Ends (step (cutstreamLoop maxcdsize opens) r) p) ∧
    (p.ctrl.capacity - p.ctrl.i ≤ p.input.length →
      ∃ q, Reaches (step (cutstreamLoop maxcdsize opens) r) p q ∧ q.pending = some [] ∧
        q.eof = false ∧ q.ctrl.i + q.numRead = q.ctrl.capacity ∧
        q.input.length < p.input.length) := by
  induction hlen : p.input.length using Nat.strongRecOn generalizing p with
  | ind len ih =>
    have hmax : maxIOSize = 4096 := rfl
    have hrequest : (cutstreamLoop maxcdsize opens).request p.ctrl =
        .ok (min (maxIOSize : Int) (p.ctrl.capacity - p.ctrl.i)).toNat :=
      request_of_lt maxcdsize opens (Int.le_of_lt hi)
    have hidle : (cutstreamLoop maxcdsize opens).after p.ctrl 0 = .ok p.ctrl := by
      rw [after_of_lt (by omega)]
      simp
    obtain ⟨q, hreach, hq, hctrl, hle, hinput, hend, hsome⟩ :=
      reaches_round hfair hpending heof hrequest (by omega) hidle
    have hrest : q.input.length = p.input.length - q.numRead := by rw [hinput, List.length_drop]
    by_cases hfull : q.ctrl.i + q.numRead = q.ctrl.capacity
    · rw [hctrl] at hfull
      refine ⟨fun hshort => by omega, fun _ => ⟨q, hreach, hq, ?_, by rwa [hctrl], by omega⟩⟩
      rw [Bool.eq_false_iff]
      intro htrue
      have hshort := (hend htrue).2
      omega
    · have hlt : q.ctrl.i + q.numRead < q.ctrl.capacity := by
        rw [hctrl] at hfull ⊢
        omega
      have hnext := step_after (l := cutstreamLoop maxcdsize opens) (r := r) hq
      rw [after_of_lt hlt] at hnext
      rcases Bool.eq_false_or_eq_true q.eof with htrue | hfalse
      · have hstop : step (cutstreamLoop maxcdsize opens) r
            { q with pending := none, ctrl := { q.ctrl with i := q.ctrl.i + q.numRead } } =
              .error none := by
          simp only [step, htrue, if_true]
        have hall := (hend htrue).1
        rw [hctrl] at hlt
        refine ⟨fun _ => ⟨_, _, hreach.trans (Reaches.head hnext Reaches.refl), hstop⟩, ?_⟩
        intro hlong
        omega
      · have hpos : 0 < q.numRead := by simpa [hfalse] using hsome
        have hsmaller : q.input.length < len := by omega
        obtain ⟨hends, hcut⟩ := ih q.input.length hsmaller
          (p := { q with pending := none, ctrl := { q.ctrl with i := q.ctrl.i + q.numRead } })
          rfl hfalse hlt rfl
        simp only [hctrl] at hends hcut
        refine ⟨?_, ?_⟩
        · intro hshort
          refine ends_of_reaches (hreach.trans (Reaches.head hnext Reaches.refl)) ?_
          simp only [hctrl]
          exact hends (by omega)
        · intro hlong
          obtain ⟨s, hs, hspending, hseof, hsfull, hslen⟩ := hcut (by omega)
          refine ⟨s, hreach.trans (Reaches.head hnext ?_), hspending, hseof, hsfull, by omega⟩
          simpa only [hctrl] using hs

end Rounds

section Bounds

variable {capacity maxcdsize : Int} {opens : Opens} {r : Results} {input : Bytes}
  {p q : State UInt8 Counters}

/-- Where the counters stand. The last field is what a cut needs: the next capacity, unless
there is no cut. -/
structure Within (maxcdsize : Int) (input : Bytes) (p : State UInt8 Counters) : Prop where
  whole : Whole input p
  i : 0 ≤ p.ctrl.i
  head : p.pending = none →
    p.ctrl.i ≤ p.ctrl.capacity ∧ (p.out.length : Int) = p.ctrl.total + p.ctrl.i
  part : ∀ data, p.pending = some data → p.ctrl.i + p.numRead ≤ p.ctrl.capacity ∧
    (p.out.length : Int) + data.length = p.ctrl.total + p.ctrl.i + p.numRead
  next : 0 < kbytes maxcdsize ∨ p.ctrl.total = 0 ∧ (input.length : Int) < p.ctrl.capacity

theorem within_start (hcapacity : 0 ≤ kbytes capacity)
    (hmax : (input.length : Int) < kbytes capacity ∨ 0 < kbytes maxcdsize) :
    Within maxcdsize input (cutstreamStart capacity input) where
  whole := whole_enter input _
  i := Int.le_refl 0
  head := fun _ => ⟨hcapacity, rfl⟩
  part := fun _ h => nomatch h
  next := by
    rcases hmax with hshort | hpos
    · exact Or.inr ⟨rfl, hshort⟩
    · exact Or.inl hpos

theorem within_read {n : Nat} (hp : Within maxcdsize input p) (hpending : p.pending = none)
    (hrequest : (cutstreamLoop maxcdsize opens).request p.ctrl = .ok n)
    (hwhole : Whole input { p with
      input := p.input.drop (upTo (r.fread p.reads) (min n p.input.length))
      eof := p.input.length < n && (r.fread p.reads).all fun k => p.input.length < k
      pending := some (p.input.take (upTo (r.fread p.reads) (min n p.input.length)))
      numRead := upTo (r.fread p.reads) (min n p.input.length)
      reads := p.reads + 1 }) :
    Within maxcdsize input { p with
      input := p.input.drop (upTo (r.fread p.reads) (min n p.input.length))
      eof := p.input.length < n && (r.fread p.reads).all fun k => p.input.length < k
      pending := some (p.input.take (upTo (r.fread p.reads) (min n p.input.length)))
      numRead := upTo (r.fread p.reads) (min n p.input.length)
      reads := p.reads + 1 } := by
  obtain ⟨hi, hout⟩ := hp.head hpending
  rw [request_of_lt maxcdsize opens hi] at hrequest
  have hn := Except.ok.inj hrequest
  have hgot := upTo_le (r.fread p.reads) (min n p.input.length)
  generalize upTo (r.fread p.reads) (min n p.input.length) = got at *
  refine ⟨hwhole, hp.i, (fun h => nomatch h), ?_, hp.next⟩
  rintro data ⟨⟩
  simp only [List.length_take]
  constructor
  · omega
  · omega

/-- After a part that fills the volume there is another capacity; the input does not end
before it in the case that there is none. -/
theorem within_after (r : Results) {ctrl : Counters} (hp : Within maxcdsize input p)
    (hpending : p.pending = some [])
    (hafter : (cutstreamLoop maxcdsize opens).after p.ctrl p.numRead = .ok ctrl) :
    Within maxcdsize input { p with pending := none, ctrl := ctrl } := by
  obtain ⟨hle, hout⟩ := hp.part [] hpending
  have hwhole : Whole input { p with pending := none, ctrl := ctrl } :=
    whole_step hp.whole (l := cutstreamLoop maxcdsize opens) (r := r) (by
      rw [step_after hpending, hafter])
  have hi := hp.i
  rw [List.length_nil, Int.natCast_zero, Int.add_zero] at hout
  by_cases hfull : p.ctrl.i + p.numRead = p.ctrl.capacity
  · have hnext : 0 < kbytes maxcdsize := by
      rcases hp.next with hpos | ⟨htotal, hshort⟩
      · exact hpos
      · have hparts := congrArg List.length hp.whole.parts
        rw [List.length_append, List.length_append] at hparts
        omega
    rw [after_of_eq hfull] at hafter
    split at hafter
    · cases hafter
    split at hafter
    · cases hafter
    obtain rfl := Except.ok.inj hafter
    refine ⟨hwhole, Int.le_refl 0, fun _ => ⟨Int.le_of_lt hnext, ?_⟩, (fun _ h => nomatch h),
      Or.inl hnext⟩
    simp only
    omega
  · rw [after_of_lt (by omega)] at hafter
    obtain rfl := Except.ok.inj hafter
    refine ⟨hwhole, ?_, fun _ => ⟨hle, ?_⟩, (fun _ h => nomatch h), hp.next⟩
    · simp only
      omega
    · simp only
      omega

theorem within_step (hp : Within maxcdsize input p)
    (h : step (cutstreamLoop maxcdsize opens) r p = .ok q) : Within maxcdsize input q := by
  have hwhole := whole_step hp.whole h
  rcases step_cases h with ⟨n, hpending, _, hrequest, rfl⟩ | ⟨ctrl, hpending, hafter, rfl⟩ |
    ⟨data, hpending, _, rfl⟩
  · exact within_read hp hpending hrequest hwhole
  · exact within_after r hp hpending hafter
  · obtain ⟨hle, hout⟩ := hp.part data hpending
    have hput := upTo_le (r.fwrite p.writes) data.length
    refine ⟨hwhole, hp.i, (fun h => nomatch h), ?_, hp.next⟩
    rintro rest ⟨⟩
    refine ⟨hle, ?_⟩
    simp only [List.length_append, List.length_take, List.length_drop]
    omega

theorem within_of_reaches (hcapacity : 0 ≤ kbytes capacity)
    (hmax : (input.length : Int) < kbytes capacity ∨ 0 < kbytes maxcdsize)
    (h : CutstreamReaches capacity maxcdsize opens r input p) : Within maxcdsize input p :=
  Reaches.invariant (fun _ _ => within_step) h (within_start hcapacity hmax)

theorem bounded_of_within (hp : Within maxcdsize input p) : Bounded maxcdsize opens p := by
  constructor
  · intro hpending _
    have hrequest := request_of_lt maxcdsize opens (hp.head hpending).1
    exact ⟨_, hrequest, request_le hrequest⟩
  · cases hpending : p.pending with
    | none =>
      obtain ⟨hle, hout⟩ := hp.head hpending
      omega
    | some data =>
      obtain ⟨hle, hout⟩ := hp.part data hpending
      omega

/-- Within the bounds the loop stops at the end of the input, or with an error status. -/
theorem outcome_of_within {o : Option Stop} (hp : Within maxcdsize input p)
    (h : step (cutstreamLoop maxcdsize opens) r p = .error o) :
    o = none ∧ p.out = input ∨ ∃ status, o = some (.exit status) ∧ status ≠ 0 := by
  rcases stop_cases h with ⟨_, _, rfl⟩ | ⟨e, rfl, ⟨hpending, hrequest⟩ | ⟨_, hafter⟩⟩
  · exact Or.inl ⟨rfl, out_of_returns hp.whole h⟩
  · rw [request_of_lt maxcdsize opens (hp.head hpending).1] at hrequest
    cases hrequest
  · right
    simp only [cutstreamLoop] at hafter
    split at hafter
    · split at hafter
      · exact ⟨1, congrArg some (Except.error.inj hafter).symm, Nat.one_ne_zero⟩
      · split at hafter
        · exact ⟨10, congrArg some (Except.error.inj hafter).symm, by decide⟩
        · cases hafter
    · cases hafter

end Bounds

section Ends

variable {capacity maxcdsize : Int} {opens : Opens} {r : Results} {input : Bytes}
  {p q : State UInt8 Counters}

/-- At a cut the loop stops, or goes on with the capacity of the next volume. -/
theorem cut_cases (maxcdsize : Int) (opens : Opens) (r : Results) (hpending : p.pending = some [])
    (hfull : p.ctrl.i + p.numRead = p.ctrl.capacity) :
    Ends (step (cutstreamLoop maxcdsize opens) r) p ∨
      step (cutstreamLoop maxcdsize opens) r p = .ok { p with
        pending := none
        ctrl := ⟨kbytes maxcdsize, 0, p.ctrl.total + (p.ctrl.i + p.numRead),
          p.ctrl.volumes + 1⟩ } := by
  have hnext := step_after (l := cutstreamLoop maxcdsize opens) (r := r) hpending
  rw [after_of_eq hfull] at hnext
  by_cases hvolno : (opens p.ctrl.volumes).1 = true
  · by_cases hdst : (opens p.ctrl.volumes).2 = true
    · right
      simpa [hvolno, hdst] using hnext
    · left
      exact ⟨p, some (.exit 10), Reaches.refl, by simpa [hvolno, hdst] using hnext⟩
  · left
    exact ⟨p, some (.exit 1), Reaches.refl, by simpa [hvolno] using hnext⟩

theorem ends_of_pos (hfair : r.Fair) (hmax : 0 < kbytes maxcdsize) (hpending : p.pending = none)
    (heof : p.eof = false) (hi : p.ctrl.i < p.ctrl.capacity) :
    Ends (step (cutstreamLoop maxcdsize opens) r) p := by
  refine ends_of_measure (fun p => p.input.length)
    (P := fun p => p.pending = none ∧ p.eof = false ∧ p.ctrl.i < p.ctrl.capacity) ?_
    ⟨hpending, heof, hi⟩
  rintro p ⟨hpending, heof, hi⟩
  obtain ⟨hends, hcut⟩ :=
    reaches_piece maxcdsize opens hfair hpending heof hi
  by_cases hshort : (p.input.length : Int) < p.ctrl.capacity - p.ctrl.i
  · exact Or.inl (hends hshort)
  · obtain ⟨q, hreach, hqpending, hqeof, hfull, hlen⟩ := hcut (by omega)
    rcases cut_cases maxcdsize opens r hqpending hfull with
      hstop | hnext
    · exact Or.inl (ends_of_reaches hreach hstop)
    · exact Or.inr ⟨_, hreach.trans (Reaches.head hnext Reaches.refl), ⟨rfl, hqeof, hmax⟩, hlen⟩

/-- With no capacity left at all the first thing is a cut. -/
theorem reaches_cut_of_full (maxcdsize : Int) (opens : Opens) (r : Results)
    (hpending : p.pending = none) (heof : p.eof = false) (hfull : p.ctrl.i = p.ctrl.capacity) :
    ∃ reads, step (cutstreamLoop maxcdsize opens) r p =
      .ok { p with pending := some [], numRead := 0, reads := reads } := by
  have hrequest : (cutstreamLoop maxcdsize opens).request p.ctrl = .ok 0 := by
    have hmax : maxIOSize = 4096 := rfl
    rw [request_of_lt maxcdsize opens (Int.le_of_eq hfull)]
    congr 1
    omega
  refine ⟨p.reads + 1, ?_⟩
  rw [step_read hpending heof hrequest]
  have hnone : upTo (r.fread p.reads) 0 = 0 := Nat.le_zero.mp (upTo_le _ 0)
  simp [hnone, heof]

theorem cutstreamEnds_of_fair (hfair : r.Fair) (hcapacity : 0 ≤ kbytes capacity)
    (hmax : (input.length : Int) < kbytes capacity ∨ 0 < kbytes maxcdsize) :
    CutstreamEnds capacity maxcdsize opens r input := by
  have hends : Ends (step (cutstreamLoop maxcdsize opens) r) (cutstreamStart capacity input) := by
    rcases Int.lt_or_eq_of_le hcapacity with hpos | hzero
    · rcases hmax with hshort | hmax
      · refine (reaches_piece maxcdsize opens hfair rfl rfl hpos).1 ?_
        simp only [cutstreamStart, enter]
        omega
      · exact ends_of_pos hfair hmax rfl rfl hpos
    · have hmax : 0 < kbytes maxcdsize := by
        rcases hmax with hshort | hmax
        · omega
        · exact hmax
      obtain ⟨reads, hnext⟩ := reaches_cut_of_full maxcdsize opens r
        (p := cutstreamStart capacity input) rfl rfl hzero
      refine ends_of_reaches (Reaches.head hnext Reaches.refl) ?_
      rcases cut_cases maxcdsize opens r
        (p := { cutstreamStart capacity input with pending := some [], numRead := 0, reads := reads })
        rfl (by rw [Int.natCast_zero, Int.add_zero]; exact hzero) with hstop | hcut
      · exact hstop
      · refine ends_of_reaches (Reaches.head hcut Reaches.refl) ?_
        exact ends_of_pos hfair hmax rfl rfl hmax
  obtain ⟨q, o, hreach, hstop⟩ := hends
  exact ⟨q, o, ⟨hreach, hstop⟩,
    outcome_of_within (within_of_reaches hcapacity hmax hreach) hstop⟩

end Ends

section Failing

variable {capacity maxcdsize : Int} {opens : Opens} {r : Results} {input : Bytes}
  {p q : State UInt8 Counters}

/-- The loop does not come to an end that the program accounts for. -/
def NoEnd (maxcdsize : Int) (opens : Opens) (r : Results) (p : State UInt8 Counters) : Prop :=
  ∀ q o, StopsIn (step (cutstreamLoop maxcdsize opens) r) p q o → o = some .undefined

/-- A negative capacity goes into `fread` as it is. -/
theorem noEnd_of_neg (hpending : p.pending = none) (heof : p.eof = false)
    (hneg : p.ctrl.capacity < p.ctrl.i) : NoEnd maxcdsize opens r p := by
  intro q o hstop
  have hnow : step (cutstreamLoop maxcdsize opens) r p = .error (some .undefined) := by
    have hrequest : (cutstreamLoop maxcdsize opens).request p.ctrl = .error .undefined := by
      simp only [cutstreamLoop]
      rw [if_pos (by omega)]
    simp only [step, hpending, heof, hrequest]
    rfl
  obtain ⟨hreach, hstop⟩ := hstop
  rcases Relation.ReflTransGen.cases_head hreach with rfl | ⟨s, hs, _⟩
  · rw [hnow] at hstop
    exact (Except.error.inj hstop).symm
  · rw [hnow] at hs
    cases hs

/-- Without capacity on the next volume there is one cut after another. -/
theorem noEnd_of_zero (hzero : kbytes maxcdsize = 0) (hopens : ∀ n, opens n = (true, true))
    (hpending : p.pending = none) (heof : p.eof = false) (hi : p.ctrl.i = 0)
    (hcapacity : p.ctrl.capacity = 0) : NoEnd maxcdsize opens r p := by
  intro q o hstop
  have hends : Ends (step (cutstreamLoop maxcdsize opens) r) p := ⟨q, o, hstop⟩
  refine absurd hends ?_
  refine not_ends_of_invariant (p := p) (P := fun p : State UInt8 Counters => p.eof = false ∧
    p.ctrl.i = 0 ∧ p.ctrl.capacity = 0 ∧
      (p.pending = none ∨ p.pending = some [] ∧ p.numRead = 0)) ?_
    ⟨heof, hi, hcapacity, Or.inl hpending⟩
  rintro p ⟨heof, hi, hcapacity, hpending | ⟨hpending, hnumRead⟩⟩
  · have hfull := hi.trans hcapacity.symm
    obtain ⟨reads, hnext⟩ := reaches_cut_of_full maxcdsize opens r hpending heof hfull
    exact ⟨_, hnext, heof, hi, hcapacity, Or.inr ⟨rfl, rfl⟩⟩
  · have hfull : p.ctrl.i + p.numRead = p.ctrl.capacity := by
      rw [hi, hnumRead, hcapacity]
      rfl
    have hnext : step (cutstreamLoop maxcdsize opens) r p = .ok { p with
        pending := none
        ctrl := ⟨kbytes maxcdsize, 0, p.ctrl.total + (p.ctrl.i + p.numRead),
          p.ctrl.volumes + 1⟩ } := by
      rw [step_after hpending, after_of_eq hfull, hopens]
      rfl
    exact ⟨_, hnext, heof, rfl, hzero, Or.inl rfl⟩

theorem noEnd_of_reaches (h : Reaches (step (cutstreamLoop maxcdsize opens) r) p q)
    (hq : NoEnd maxcdsize opens r q) : NoEnd maxcdsize opens r p :=
  fun _ _ hstop => hq _ _ (h.stopsIn hstop)

theorem not_cutstreamEnds_of_noEnd
    (h : NoEnd maxcdsize opens r (cutstreamStart capacity input)) :
    ¬ CutstreamEnds capacity maxcdsize opens r input := by
  rintro ⟨q, o, hstop, ⟨hnone, _⟩ | ⟨status, hexit, _⟩⟩
  · rw [h q o hstop] at hnone
    cases hnone
  · rw [h q o hstop] at hexit
    cases hexit

/-- Where there is a cut, and no capacity after it, the loop does not come to its end. -/
theorem noEnd_of_cut (hfair : r.Fair) (hopens : ∀ n, opens n = (true, true))
    (hcapacity : 0 ≤ kbytes capacity) (hlong : kbytes capacity ≤ input.length)
    (hmax : kbytes maxcdsize ≤ 0) :
    NoEnd maxcdsize opens r (cutstreamStart capacity input) := by
  have hcut : ∃ q, CutstreamReaches capacity maxcdsize opens r input q ∧ q.pending = some [] ∧
      q.eof = false ∧ q.ctrl.i + q.numRead = q.ctrl.capacity := by
    rcases Int.lt_or_eq_of_le hcapacity with hpos | hzero
    · obtain ⟨q, hreach, hpending, heof, hfull, _⟩ :=
        (reaches_piece maxcdsize opens
          (p := cutstreamStart capacity input) hfair rfl rfl hpos).2 (by
            simp only [cutstreamStart, enter]
            omega)
      exact ⟨q, hreach, hpending, heof, hfull⟩
    · obtain ⟨reads, hnext⟩ := reaches_cut_of_full maxcdsize opens r
        (p := cutstreamStart capacity input) rfl rfl hzero
      refine ⟨_, Reaches.head hnext Reaches.refl, rfl, rfl, ?_⟩
      rw [Int.natCast_zero, Int.add_zero]
      exact hzero
  obtain ⟨q, hreach, hpending, heof, hfull⟩ := hcut
  have hnext : step (cutstreamLoop maxcdsize opens) r q = .ok { q with
      pending := none
      ctrl := ⟨kbytes maxcdsize, 0, q.ctrl.total + (q.ctrl.i + q.numRead),
        q.ctrl.volumes + 1⟩ } := by
    rw [step_after hpending, after_of_eq hfull, hopens]
    rfl
  refine noEnd_of_reaches (hreach.trans (Reaches.head hnext Reaches.refl)) ?_
  rcases Int.lt_or_eq_of_le hmax with hneg | hzero
  · exact noEnd_of_neg rfl heof hneg
  · exact noEnd_of_zero hzero hopens rfl heof rfl hzero

end Failing

section Filepipe

universe u

variable {W : Type u} {h : Cutstream.Host W} {maxcdsize : Nat} {p p' : Cutstream.Pipe W}
  {q : State UInt8 Counters}

/-- Up to 2 ^ 53 Kb the bytes are those of the `long long`. -/
theorem kbytes_eq {n : Int} (hn : 0 ≤ n) (hbound : n < 2 ^ 53) : kbytes n = n * 1024 := by
  rw [kbytes, Int.bmod_def]
  omega

/-- The same place in `filepipe` as `Cutstream` has it, at the head of the loop. -/
structure Matches (p : Cutstream.Pipe W) (q : State UInt8 Counters) : Prop where
  pending : q.pending = none
  input : q.input = p.input
  eof : q.eof = p.eof
  capacity : q.ctrl.capacity = p.capacity
  i : q.ctrl.i = p.i

/-- Without faults the calls of a round do what the round does in `Cutstream`. -/
theorem matches_step (hbound : maxcdsize < 2 ^ 53) (heof : p.eof = false) (hq : Matches p q)
    (hstep : Cutstream.step h maxcdsize p = .ok p') :
    ∃ q', Reaches (step (cutstreamLoop maxcdsize fun _ => (true, true)) Results.healthy) q q' ∧
      Matches p' q' := by
  obtain ⟨hpending, hinput, hqeof, hcapacity, hi⟩ := hq
  have hmax : kbytes maxcdsize = maxcdsize * 1024 := kbytes_eq (by omega) (by omega)
  obtain ⟨n, hn, hinput', heof', hcases⟩ := Cutstream.step_cases hstep
  have hrequest : (cutstreamLoop maxcdsize fun _ => (true, true)).request q.ctrl = .ok n := by
    simp only [cutstreamLoop, hcapacity, hi, ← hn]
    rw [if_neg (by omega), Int.toNat_natCast]
  have hread := step_read (r := Results.healthy) hpending (hqeof.trans heof) hrequest
  have hnone : Results.healthy.fread q.reads = none := rfl
  rw [hnone] at hread
  simp only [upTo, Option.elim_none, Option.all_none, Bool.and_true] at hread
  obtain ⟨writes, hwritten⟩ := reaches_written
    (l := cutstreamLoop maxcdsize fun _ => (true, true)) Results.fair_healthy.fwrite
    (p := { q with
      input := q.input.drop (min n q.input.length)
      eof := decide (q.input.length < n)
      pending := some (q.input.take (min n q.input.length))
      numRead := min n q.input.length
      reads := q.reads + 1 }) rfl
  have hdrop : q.input.drop (min n q.input.length) = p'.input := by
    rw [hinput', hinput]
    rcases Nat.le_total n p.input.length with hle | hle
    · rw [Nat.min_eq_left hle]
    · rw [Nat.min_eq_right hle, List.drop_length, List.drop_eq_nil_of_le hle]
  have hround : ∀ ctrl, (cutstreamLoop maxcdsize fun _ => (true, true)).after q.ctrl
      (min n q.input.length) = .ok ctrl → ctrl.capacity = p'.capacity → ctrl.i = p'.i →
      ∃ q', Reaches (step (cutstreamLoop maxcdsize fun _ => (true, true)) Results.healthy) q q' ∧
        Matches p' q' := by
    intro ctrl hafter hcapacity' hi'
    have hback := step_after (l := cutstreamLoop maxcdsize fun _ => (true, true))
      (r := Results.healthy) (p := { q with
        input := q.input.drop (min n q.input.length)
        eof := decide (q.input.length < n)
        pending := some []
        numRead := min n q.input.length
        reads := q.reads + 1
        out := q.out ++ q.input.take (min n q.input.length)
        writes := writes }) rfl
    simp only [hafter] at hback
    refine ⟨_, Reaches.head hread (hwritten.trans (Reaches.head hback Reaches.refl)), ?_⟩
    exact ⟨rfl, hdrop, by rw [heof', hinput], hcapacity', hi'⟩
  rcases hcases with ⟨hne, _, hcapacity', hi', _⟩ | ⟨hfull, hle, _, hcapacity', hi', _⟩
  · refine hround { q.ctrl with i := q.ctrl.i + (min n q.input.length : Nat) } ?_ ?_ ?_
    · simp only [cutstreamLoop, hi, hcapacity, hinput]
      rw [if_neg hne]
    · simp only [hcapacity, hcapacity']
    · simp only [hi, hi', hinput]
  · refine hround ⟨kbytes maxcdsize, 0, q.ctrl.total + (q.ctrl.i + (min n q.input.length : Nat)),
      q.ctrl.volumes + 1⟩ ?_ ?_ hi'.symm
    · apply after_of_eq
      rw [hi, hcapacity, hinput, Nat.min_eq_left hle]
      omega
    · simp only [hmax, hcapacity']

/-- Where `filepipe` of `Cutstream` returns, the calls without faults come to the same end. -/
theorem matches_loop (hbound : maxcdsize < 2 ^ 53) {fuel : Nat} (hq : Matches p q)
    (hloop : Cutstream.loop h maxcdsize fuel p = .ok p') :
    ∃ q', StopsIn (step (cutstreamLoop maxcdsize fun _ => (true, true)) Results.healthy) q q'
      none ∧ Matches p' q' := by
  induction fuel generalizing p q with
  | zero =>
    rw [Cutstream.loop] at hloop
    split at hloop
    · rename_i heof
      obtain rfl := Except.ok.inj hloop
      exact ⟨q, ⟨Reaches.refl, by simp [step, hq.pending, hq.eof, heof]⟩, hq⟩
    · cases hloop
  | succ fuel ih =>
    rw [Cutstream.loop] at hloop
    split at hloop
    · rename_i heof
      obtain rfl := Except.ok.inj hloop
      exact ⟨q, ⟨Reaches.refl, by simp [step, hq.pending, hq.eof, heof]⟩, hq⟩
    · rename_i heof
      cases hround : Cutstream.step h maxcdsize p with
      | error e => simp [hround] at hloop
      | ok p₁ =>
        simp only [hround] at hloop
        obtain ⟨q₁, hreach, hq₁⟩ := matches_step hbound (Bool.eq_false_iff.mpr heof) hq hround
        obtain ⟨q', hstops, hq'⟩ := ih hq₁ hloop
        exact ⟨q', ⟨hreach.trans hstops.1, hstops.2⟩, hq'⟩

theorem matches_filepipe (hbound : maxcdsize < 2 ^ 53) {fuel volno : Nat} {capacity : Int}
    {input : Bytes} {w : W} (hcapacity : 0 ≤ capacity) (hlarge : capacity < 2 ^ 53)
    (hrun : Cutstream.filepipe h maxcdsize fuel capacity volno input w = .ok p') :
    ∃ q', StopsIn (step (cutstreamLoop maxcdsize fun _ => (true, true)) Results.healthy)
      (cutstreamStart capacity input) q' none ∧ Matches p' q' := by
  refine matches_loop hbound ?_ hrun
  exact ⟨rfl, rfl, rfl, kbytes_eq hcapacity hlarge, rfl⟩

end Filepipe

section Results

variable {capacity maxcdsize : Int} {r : Results} {input : Bytes}

/-- The bounds of `filepipe`: no capacity below zero at the start, and none of zero or less
for the volumes after the first where the input does not end on it. -/
theorem bounded_and_ends_iff (capacity maxcdsize : Int) (input : Bytes) :
    (∀ opens r,
      (∀ p, CutstreamReaches capacity maxcdsize opens r input p → Bounded maxcdsize opens p) ∧
        (r.Fair → CutstreamEnds capacity maxcdsize opens r input)) ↔
      0 ≤ kbytes capacity ∧ ((input.length : Int) < kbytes capacity ∨ 0 < kbytes maxcdsize) := by
  constructor
  · intro hall
    have hcapacity : 0 ≤ kbytes capacity := by
      by_contra hneg
      obtain ⟨hbounded, _⟩ := hall (fun _ => (true, true)) Results.healthy
      obtain ⟨n, hrequest, _⟩ := (hbounded _ Reaches.refl).request rfl rfl
      simp only [cutstreamLoop, cutstreamStart, enter] at hrequest
      split at hrequest
      · cases hrequest
      · omega
    refine ⟨hcapacity, ?_⟩
    by_contra hnone
    push Not at hnone
    obtain ⟨hlong, hmax⟩ := hnone
    refine not_cutstreamEnds_of_noEnd ?_
      ((hall (fun _ => (true, true)) Results.healthy).2 Results.fair_healthy)
    exact noEnd_of_cut Results.fair_healthy (fun _ => rfl) hcapacity hlong hmax
  · rintro ⟨hcapacity, hmax⟩ opens r
    refine ⟨?_, ?_⟩
    · intro p hreach
      exact bounded_of_within (within_of_reaches hcapacity hmax hreach)
    · intro hfair
      exact cutstreamEnds_of_fair hfair hcapacity hmax

/-- `tar-it.sh` warns about a capacity below zero and goes on. -/
theorem negative_capacity : ¬ ∀ capacity maxcdsize input, 1 ≤ maxcdsize → ∀ opens r,
    (∀ p, CutstreamReaches capacity maxcdsize opens r input p → Bounded maxcdsize opens p) ∧
      (r.Fair → CutstreamEnds capacity maxcdsize opens r input) := by
  intro hall
  obtain ⟨hbounded, _⟩ :=
    hall (-1) 665600 [65] (by decide) (fun _ => (true, true)) Results.healthy
  obtain ⟨n, hrequest, _⟩ := (hbounded _ Reaches.refl).request rfl rfl
  have hundefined : (cutstreamLoop 665600 fun _ => (true, true)).request
      (cutstreamStart (-1) [65]).ctrl = .error .undefined := by decide
  rw [hundefined] at hrequest
  cases hrequest

/-- When all files can be opened `cutstream` returns, or does not stop in a known way. -/
theorem returns_of_ends (h : CutstreamEnds capacity maxcdsize (fun _ => (true, true)) r input) :
    ∃ q, StopsIn (step (cutstreamLoop maxcdsize fun _ => (true, true)) r)
      (cutstreamStart capacity input) q none := by
  obtain ⟨q, o, hstop, ⟨rfl, _⟩ | ⟨status, rfl, _⟩⟩ := h
  · exact ⟨q, hstop⟩
  · rcases stop_cases hstop.2 with ⟨_, _, hnone⟩ | ⟨e, he, ⟨_, hrequest⟩ | ⟨_, hafter⟩⟩
    · cases hnone
    · obtain rfl := Option.some.inj he
      simp only [cutstreamLoop] at hrequest
      split at hrequest
      · cases hrequest
      · cases hrequest
    · obtain rfl := Option.some.inj he
      simp only [cutstreamLoop] at hafter
      split at hafter
      · simp at hafter
      · cases hafter

theorem pastestreamEnds_of_fair (hfair : r.Fair) (input : Bytes) : PastestreamEnds r input := by
  have hends : Ends (step pastestreamLoop r) (enter input ()) := by
    refine ends_of_measure (fun p => p.input.length)
      (P := fun p : State UInt8 Unit => p.pending = none) ?_ rfl
    intro p hpending
    rcases Bool.eq_false_or_eq_true p.eof with heof | heof
    · refine Or.inl ⟨p, none, Reaches.refl, ?_⟩
      simp [step, hpending, heof]
    · obtain ⟨q, hreach, hq, _, hle, hinput, hend, hsome⟩ :=
        reaches_round (l := pastestreamLoop) (n := maxIOSize) hfair hpending heof rfl (by decide) rfl
      have hnext := step_after (l := pastestreamLoop) (r := r) hq
      have hstep := hreach.trans (Reaches.head hnext Reaches.refl)
      rcases Bool.eq_false_or_eq_true q.eof with htrue | hfalse
      · refine Or.inl (ends_of_reaches hstep ⟨_, none, Reaches.refl, ?_⟩)
        simp only [step, htrue, if_true]
      · have hpos : 0 < q.numRead := by simpa [hfalse] using hsome
        refine Or.inr ⟨_, hstep, rfl, ?_⟩
        simp only [hinput, List.length_drop]
        omega
  obtain ⟨q, o, hreach, hstop⟩ := hends
  have hwhole : Whole input q :=
    hreach.invariant (fun _ _ => whole_step) (whole_enter input ())
  rcases o with _ | e
  · exact ⟨q, none, ⟨hreach, hstop⟩, rfl, out_of_returns hwhole hstop⟩
  · cases e

theorem fair_of_cutstreamEnds
    (hends : ∀ input, CutstreamEnds capacity maxcdsize (fun _ => (true, true)) r input) :
    r.Fair := by
  refine fair_of_returns (α := UInt8) (l := cutstreamLoop maxcdsize fun _ => (true, true))
    (fun _ _ => request_le) ⟨kbytes capacity, 0, 0, 0⟩ ?_
  intro n
  exact ⟨List.replicate n 0, by simp, returns_of_ends (hends _)⟩

theorem fair_of_pastestreamEnds (hends : ∀ input, PastestreamEnds r input) : r.Fair := by
  refine fair_of_returns (α := UInt8) (l := pastestreamLoop) (m := maxIOSize) ?_ () ?_
  · rintro _ n ⟨⟩
    exact Nat.le_refl _
  · intro n
    obtain ⟨q, o, hstop, rfl, _⟩ := hends (List.replicate n 0)
    exact ⟨List.replicate n 0, by simp, q, hstop⟩

/-- Both loops come to an end on every input exactly when neither `fread` nor `fwrite` gets
nothing done for good; the error flags are not looked at before the end. -/
theorem ends_iff_fair (capacity maxcdsize : Int) (r : Results) :
    ((∀ opens input, CutstreamEnds capacity maxcdsize opens r input) ↔
      0 ≤ kbytes capacity ∧ 0 < kbytes maxcdsize ∧ r.Fair) ∧
    ((∀ input, PastestreamEnds r input) ↔ r.Fair) := by
  refine ⟨⟨?_, ?_⟩, ⟨fair_of_pastestreamEnds, fun hfair => pastestreamEnds_of_fair hfair⟩⟩
  · intro hends
    have hfair : r.Fair := fair_of_cutstreamEnds fun input => hends (fun _ => (true, true)) input
    have hcapacity : 0 ≤ kbytes capacity := by
      by_contra hneg
      refine not_cutstreamEnds_of_noEnd (noEnd_of_neg rfl rfl ?_) (hends (fun _ => (true, true)) [])
      exact Int.not_le.mp hneg
    refine ⟨hcapacity, ?_, hfair⟩
    by_contra hmax
    refine not_cutstreamEnds_of_noEnd ?_
      (hends (fun _ => (true, true)) (List.replicate (kbytes capacity).toNat 0))
    refine noEnd_of_cut hfair (fun _ => rfl) hcapacity ?_ (Int.not_lt.mp hmax)
    rw [List.length_replicate]
    omega
  · rintro ⟨hcapacity, hmax, hfair⟩ opens input
    exact cutstreamEnds_of_fair hfair hcapacity (Or.inr hmax)

end Results

end Copying
