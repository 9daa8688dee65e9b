import Mathlib.Data.List.TakeDrop
import Mathlib.Tactic.ByContra
import MkCDrec.Lib.Machine

/-!
# Copying under faults

A loop reads a part of its input, writes it in as many calls as it takes, and does something
of its own before it reads the next part. Every call may come to an error after some items.
The loop looks at the end of the input only.
-/

namespace CopyLoop

open Machine

universe u v w
variable {α : Type u} {σ : Type v} {ω : Type w}

/-- The results of the calls: the number of items after which there is an error, if there
is one. -/
structure Results where
  fread : Nat → Option Nat
  fwrite : Nat → Option Nat

/-- No call meets an error. -/
def Results.healthy : Results := ⟨fun _ => none, fun _ => none⟩

/-- Neither kind of call gets nothing done for good. -/
structure Results.Fair (r : Results) : Prop where
  fread : ∀ N, ∃ j, N ≤ j ∧ r.fread j ≠ some 0
  fwrite : ∀ N, ∃ j, N ≤ j ∧ r.fwrite j ≠ some 0

theorem Results.fair_healthy : Results.healthy.Fair where
  fread := fun N => ⟨N, Nat.le_refl N, by simp [Results.healthy]⟩
  fwrite := fun N => ⟨N, Nat.le_refl N, by simp [Results.healthy]⟩

/-- What a call gets through of `n` items. -/
def upTo (fault : Option Nat) (n : Nat) : Nat := fault.elim n fun k => min k n

/-- The size of the next request, and what is done after a part was written. -/
structure Loop (σ : Type v) (ω : Type w) where
  request : σ → Except ω Nat
  after : σ → Nat → Except ω σ

structure State (α : Type u) (σ : Type v) where
  input : List α
  eof : Bool
  /-- What is read and not yet written; none at the head of the loop. -/
  pending : Option (List α)
  numRead : Nat
  out : List α
  reads : Nat
  writes : Nat
  ctrl : σ

def enter (input : List α) (ctrl : σ) : State α σ :=
  { input, eof := false, pending := none, numRead := 0, out := [], reads := 0, writes := 0, ctrl }

variable (l : Loop σ ω) (r : Results)

/-- The next call; the loop returns where it stops without an outcome. -/
def step (p : State α σ) : Except (Option ω) (State α σ) :=
  match p.pending with
  | none =>
    if p.eof then .error none
    else
      match l.request p.ctrl with
      | .error o => .error (some o)
      | .ok n =>
        let numRead := upTo (r.fread p.reads) (min n p.input.length)
        .ok { p with
          input := p.input.drop numRead
          eof := p.input.length < n && (r.fread p.reads).all fun k => p.input.length < k
          pending := some (p.input.take numRead)
          numRead := numRead
          reads := p.reads + 1 }
  | some [] =>
    match l.after p.ctrl p.numRead with
    | .error o => .error (some o)
    | .ok ctrl => .ok { p with pending := none, ctrl := ctrl }
  | some (b :: data) =>
    let n := upTo (r.fwrite p.writes) (b :: data).length
    .ok { p with
      pending := some ((b :: data).drop n)
      out := p.out ++ (b :: data).take n
      writes := p.writes + 1 }

theorem upTo_le (fault : Option Nat) (n : Nat) : upTo fault n ≤ n := by
  cases fault with
  | none => exact Nat.le_refl n
  | some k => exact Nat.min_le_right k n

theorem upTo_pos {fault : Option Nat} {n : Nat} (hfault : fault ≠ some 0) (hn : 0 < n) :
    0 < upTo fault n := by
  cases fault with
  | none => exact hn
  | some k =>
    have hk : k ≠ 0 := fun h => hfault (congrArg some h)
    exact Nat.lt_min.mpr ⟨Nat.pos_of_ne_zero hk, hn⟩

section Steps

variable {l r} {p q : State α σ}

/-- Everything a step that does not stop can do. -/
theorem step_cases (h : step l r p = .ok q) :
    (∃ n, p.pending = none ∧ p.eof = false ∧ l.request p.ctrl = .ok n ∧
      q = { p with
        input := p.input.drop (upTo (r.fread p.reads) (min n p.input.length))
        eof := p.input.length < n && (r.fread p.reads).all fun k => p.input.length < k
        pending := some (p.input.take (upTo (r.fread p.reads) (min n p.input.length)))
        numRead := upTo (r.fread p.reads) (min n p.input.length)
        reads := p.reads + 1 }) ∨
    (∃ ctrl, p.pending = some [] ∧ l.after p.ctrl p.numRead = .ok ctrl ∧
      q = { p with pending := none, ctrl := ctrl }) ∨
    ∃ data, p.pending = some data ∧ data ≠ [] ∧
      q = { p with
        pending := some (data.drop (upTo (r.fwrite p.writes) data.length))
        out := p.out ++ data.take (upTo (r.fwrite p.writes) data.length)
        writes := p.writes + 1 } := by
  rw [step] at h
  split at h
  · rename_i hpending
    split at h
    · cases h
    · rename_i heof
      split at h
      · cases h
      · rename_i n hrequest
        exact Or.inl ⟨n, hpending, Bool.eq_false_iff.mpr heof, hrequest, (Except.ok.inj h).symm⟩
  · rename_i hpending
    split at h
    · cases h
    · rename_i ctrl hafter
      exact Or.inr (Or.inl ⟨ctrl, hpending, hafter, (Except.ok.inj h).symm⟩)
  · rename_i b data hpending
    exact Or.inr (Or.inr ⟨b :: data, hpending, List.cons_ne_nil _ _, (Except.ok.inj h).symm⟩)

/-- A step that stops. -/
theorem stop_cases {o : Option ω} (h : step l r p = .error o) :
    (p.pending = none ∧ p.eof = true ∧ o = none) ∨ ∃ e, o = some e ∧
      (p.pending = none ∧ l.request p.ctrl = .error e ∨
        p.pending = some [] ∧ l.after p.ctrl p.numRead = .error e) := by
  rw [step] at h
  split at h
  · rename_i hpending
    split at h
    · rename_i heof
      exact Or.inl ⟨hpending, heof, (Except.error.inj h).symm⟩
    · split at h
      · rename_i e hrequest
        exact Or.inr ⟨e, (Except.error.inj h).symm, Or.inl ⟨hpending, hrequest⟩⟩
      · cases h
  · rename_i hpending
    split at h
    · rename_i e hafter
      exact Or.inr ⟨e, (Except.error.inj h).symm, Or.inr ⟨hpending, hafter⟩⟩
    · cases h
  · cases h

/-- Nothing is lost: what is written, what is held and what is not read make up the input,
and the end of the input is met after all of it. -/
structure Whole (whole : List α) (p : State α σ) : Prop where
  parts : p.out ++ (p.pending.getD [] ++ p.input) = whole
  eof : p.eof = true → p.input = []

theorem whole_enter (input : List α) (ctrl : σ) : Whole input (enter input ctrl) :=
  ⟨rfl, fun h => nomatch h⟩

theorem whole_step {whole : List α} (hp : Whole whole p) (h : step l r p = .ok q) :
    Whole whole q := by
  obtain ⟨hparts, heof⟩ := hp
  rcases step_cases h with ⟨n, hpending, _, _, rfl⟩ | ⟨ctrl, hpending, _, rfl⟩ |
    ⟨data, hpending, _, rfl⟩
  · refine ⟨?_, ?_⟩
    · simpa [hpending] using hparts
    · intro hend
      simp only [Bool.and_eq_true, decide_eq_true_eq] at hend
      obtain ⟨hlt, hfault⟩ := hend
      simp only [List.drop_eq_nil_iff]
      cases hread : r.fread p.reads with
      | none => simp [upTo, Nat.le_of_lt hlt]
      | some k =>
        simp only [hread, Option.all_some, decide_eq_true_eq] at hfault
        simp only [upTo, Option.elim_some]
        omega
  · exact ⟨by simpa [hpending] using hparts, heof⟩
  · refine ⟨?_, heof⟩
    simp only [Option.getD_some]
    rw [List.append_assoc, ← List.append_assoc (List.take _ data), List.take_append_drop]
    simpa [hpending] using hparts

/-- Where the loop returns everything is written. -/
theorem out_of_returns {whole : List α} (hp : Whole whole p) (h : step l r p = .error none) :
    p.out = whole := by
  rcases stop_cases h with ⟨hpending, heof, _⟩ | ⟨e, he, _⟩
  · have hparts := hp.parts
    simpa [hpending, hp.eof heof] using hparts
  · cases he

end Steps

section Progress

variable {l r} {p : State α σ} {data : List α}

theorem step_write (hpending : p.pending = some data) (hdata : data ≠ []) :
    step l r p = .ok { p with
      pending := some (data.drop (upTo (r.fwrite p.writes) data.length))
      out := p.out ++ data.take (upTo (r.fwrite p.writes) data.length)
      writes := p.writes + 1 } := by
  obtain ⟨b, rest, rfl⟩ := List.exists_cons_of_ne_nil hdata
  rw [step, hpending]

theorem written_of_ready {len : Nat}
    (ih : ∀ k < len, ∀ {p : State α σ} {data : List α}, p.pending = some data → data.length = k →
      ∃ writes, Reaches (step l r) p
        { p with pending := some [], out := p.out ++ data, writes := writes })
    (hpending : p.pending = some data) (hdata : data ≠ []) (hlen : data.length = len)
    (hready : r.fwrite p.writes ≠ some 0) :
    ∃ writes, Reaches (step l r) p
      { p with pending := some [], out := p.out ++ data, writes := writes } := by
  have hnext := step_write (l := l) (r := r) hpending hdata
  have hpos := List.length_pos_iff.mpr hdata
  have hn := upTo_pos hready hpos
  generalize upTo (r.fwrite p.writes) data.length = n at hnext hn
  have hlt : (data.drop n).length < len := by
    rw [List.length_drop]
    omega
  obtain ⟨writes, hreach⟩ := ih _ hlt
    (p := { p with pending := some (data.drop n), out := p.out ++ data.take n,
                   writes := p.writes + 1 }) rfl rfl
  refine ⟨writes, Reaches.head hnext ?_⟩
  simpa using hreach

/-- The calls of `fwrite` for one part. -/
theorem reaches_written (hfair : ∀ N, ∃ j, N ≤ j ∧ r.fwrite j ≠ some 0)
    (hpending : p.pending = some data) :
    ∃ writes, Reaches (step l r) p
      { p with pending := some [], out := p.out ++ data, writes := writes } := by
  induction hlen : data.length using Nat.strongRecOn generalizing p data with
  | ind len ih =>
    by_cases hdata : data = []
    · subst hdata
      refine ⟨p.writes, ?_⟩
      rw [List.append_nil, ← hpending]
      exact Reaches.refl
    · obtain ⟨j, hj, hready⟩ := hfair p.writes
      -- the calls before the one that gets something written
      obtain ⟨d, rfl⟩ := Nat.exists_eq_add_of_le hj
      clear hj
      induction d generalizing p with
      | zero => exact written_of_ready ih hpending hdata hlen hready
      | succ d ihd =>
        by_cases hnow : r.fwrite p.writes = some 0
        · have hnext := step_write (l := l) (r := r) hpending hdata
          rw [hnow] at hnext
          simp only [upTo, Option.elim_some, Nat.zero_min, List.drop_zero, List.take_zero,
            List.append_nil] at hnext
          obtain ⟨writes, hreach⟩ := ihd
            (p := { p with pending := some data, writes := p.writes + 1 }) rfl
            (by rw [Nat.add_assoc, Nat.add_comm 1 d]; exact hready)
          exact ⟨writes, Reaches.head hnext hreach⟩
        · exact written_of_ready ih hpending hdata hlen hnow

theorem step_read {n : Nat} (hpending : p.pending = none) (heof : p.eof = false)
    (hrequest : l.request p.ctrl = .ok n) :
    step l r p = .ok { p with
      input := p.input.drop (upTo (r.fread p.reads) (min n p.input.length))
      eof := p.input.length < n && (r.fread p.reads).all fun k => p.input.length < k
      pending := some (p.input.take (upTo (r.fread p.reads) (min n p.input.length)))
      numRead := upTo (r.fread p.reads) (min n p.input.length)
      reads := p.reads + 1 } := by
  simp only [step, hpending, heof, hrequest]
  rfl

theorem step_after (hpending : p.pending = some []) :
    step l r p = match l.after p.ctrl p.numRead with
      | .error o => .error (some o)
      | .ok ctrl => .ok { p with pending := none, ctrl := ctrl } := by
  rw [step, hpending]

/-- A call that is not stopped at once reads something, or meets the end. -/
theorem round_of_ready (hfair : r.Fair) {n : Nat} (hpending : p.pending = none)
    (heof : p.eof = false) (hrequest : l.request p.ctrl = .ok n) (hn : 0 < n)
    (hready : r.fread p.reads ≠ some 0) :
    ∃ q, Reaches (step l r) p q ∧ q.pending = some [] ∧ q.ctrl = p.ctrl ∧
      q.numRead ≤ min n p.input.length ∧ q.input = p.input.drop q.numRead ∧
      (q.eof = true → p.input.length = q.numRead ∧ q.numRead < n) ∧
      (q.eof = true ∨ 0 < q.numRead) := by
  have hnext := step_read (r := r) hpending heof hrequest
  obtain ⟨writes, hreach⟩ := reaches_written (l := l) (r := r) hfair.fwrite
    (p := { p with
      input := p.input.drop (upTo (r.fread p.reads) (min n p.input.length))
      eof := p.input.length < n && (r.fread p.reads).all fun k => p.input.length < k
      pending := some (p.input.take (upTo (r.fread p.reads) (min n p.input.length)))
      numRead := upTo (r.fread p.reads) (min n p.input.length)
      reads := p.reads + 1 }) rfl
  refine ⟨_, Reaches.head hnext hreach, rfl, rfl, upTo_le _ _, rfl, ?_, ?_⟩
  · intro hend
    simp only [Bool.and_eq_true, decide_eq_true_eq] at hend
    obtain ⟨hlt, hfault⟩ := hend
    have hall : upTo (r.fread p.reads) (min n p.input.length) = p.input.length := by
      cases hread : r.fread p.reads with
      | none => exact Nat.min_eq_right (Nat.le_of_lt hlt)
      | some k =>
        simp only [hread, Option.all_some, decide_eq_true_eq] at hfault
        simp only [upTo, Option.elim_some]
        omega
    exact ⟨hall.symm, Nat.lt_of_le_of_lt (Nat.le_of_eq hall) hlt⟩
  · by_cases hinput : p.input = []
    · left
      cases hread : r.fread p.reads with
      | none => simp [hinput, hn]
      | some k =>
        have hk : k ≠ 0 := fun h => hready (by rw [hread, h])
        simp [hinput, hn, Nat.pos_of_ne_zero hk]
    · exact Or.inr (upTo_pos hready (Nat.lt_min.mpr ⟨hn, List.length_pos_iff.mpr hinput⟩))

/-- From the head of the loop to the end of a part that is not empty, or to the end of the
input. Until then the loop does nothing but try again. -/
theorem reaches_round (hfair : r.Fair) {n : Nat} (hpending : p.pending = none)
    (heof : p.eof = false) (hrequest : l.request p.ctrl = .ok n) (hn : 0 < n)
    (hidle : l.after p.ctrl 0 = .ok p.ctrl) :
    ∃ q, Reaches (step l r) p q ∧ q.pending = some [] ∧ q.ctrl = p.ctrl ∧
      q.numRead ≤ min n p.input.length ∧ q.input = p.input.drop q.numRead ∧
      (q.eof = true → p.input.length = q.numRead ∧ q.numRead < n) ∧
      (q.eof = true ∨ 0 < q.numRead) := by
  obtain ⟨j, hj, hready⟩ := hfair.fread p.reads
  obtain ⟨d, rfl⟩ := Nat.exists_eq_add_of_le hj
  clear hj
  induction d generalizing p with
  | zero => exact round_of_ready hfair hpending heof hrequest hn hready
  | succ d ihd =>
    by_cases hnow : r.fread p.reads = some 0
    · have hread := step_read (r := r) hpending heof hrequest
      rw [hnow] at hread
      simp only [upTo, Option.elim_some, Nat.zero_min, List.drop_zero, List.take_zero,
        Option.all_some, Nat.not_lt_zero, decide_false, Bool.and_false] at hread
      have hback := step_after (l := l) (r := r)
        (p := { p with eof := false, pending := some [], numRead := 0, reads := p.reads + 1 }) rfl
      simp only [hidle] at hback
      obtain ⟨q, hreach, hq⟩ := ihd
        (p := { p with eof := false, pending := none, numRead := 0, reads := p.reads + 1 })
        rfl rfl hrequest hidle (by rw [Nat.add_assoc, Nat.add_comm 1 d]; exact hready)
      exact ⟨q, Reaches.head hread (Reaches.head hback hreach), hq⟩
    · exact round_of_ready hfair hpending heof hrequest hn hnow

end Progress

section Starving

variable {l r} {p q : State α σ} {whole : List α} {m N : Nat}

/-- What was read in calls for `m` items at most, if the calls from the `N`th on read
nothing. -/
theorem length_le_of_reads (hrequest : ∀ c n, l.request c = .ok n → n ≤ m)
    (hstuck : ∀ j, N ≤ j → r.fread j = some 0) {ctrl : σ}
    (h : Reaches (step l r) (enter whole ctrl) p) :
    whole.length ≤ p.input.length + m * min p.reads N := by
  refine Reaches.invariant (P := fun p => whole.length ≤ p.input.length + m * min p.reads N)
    ?_ h (Nat.le_add_right _ _)
  intro p q hp hnext
  rcases step_cases hnext with ⟨n, _, _, hn, rfl⟩ | ⟨ctrl, _, _, rfl⟩ | ⟨data, _, _, rfl⟩
  · have hle := hrequest _ _ hn
    have hgot := upTo_le (r.fread p.reads) (min n p.input.length)
    simp only [List.length_drop]
    by_cases hN : N ≤ p.reads
    · simp only [hstuck _ hN, upTo, Option.elim_some, Nat.zero_min, Nat.sub_zero]
      rw [Nat.min_eq_right hN] at hp
      rwa [Nat.min_eq_right (Nat.le_succ_of_le hN)]
    · have hbefore : min p.reads N = p.reads := Nat.min_eq_left (by omega)
      have hafter : min (p.reads + 1) N = p.reads + 1 := Nat.min_eq_left (by omega)
      rw [hbefore] at hp
      rw [hafter, Nat.mul_succ]
      omega
  · exact hp
  · exact hp

theorem length_le_of_writes (hrequest : ∀ c n, l.request c = .ok n → n ≤ m)
    (hstuck : ∀ j, N ≤ j → r.fwrite j = some 0) {ctrl : σ}
    (h : Reaches (step l r) (enter whole ctrl) p) :
    p.out.length ≤ m * min p.writes N := by
  have hall := Reaches.invariant (P := fun p : State α σ => p.out.length ≤ m * min p.writes N ∧
    ∀ data, p.pending = some data → data.length ≤ m) ?_ h ⟨Nat.zero_le _, fun _ hd => nomatch hd⟩
  · exact hall.1
  intro p q hp hnext
  obtain ⟨hout, hdata⟩ := hp
  rcases step_cases hnext with ⟨n, _, _, hn, rfl⟩ | ⟨ctrl, _, _, rfl⟩ | ⟨data, hpending, _, rfl⟩
  · refine ⟨hout, ?_⟩
    rintro data ⟨⟩
    have hle := hrequest _ _ hn
    have hgot := upTo_le (r.fread p.reads) (min n p.input.length)
    rw [List.length_take]
    omega
  · exact ⟨hout, fun _ hd => nomatch hd⟩
  · have hle := hdata _ hpending
    have hput := upTo_le (r.fwrite p.writes) data.length
    refine ⟨?_, ?_⟩
    · simp only [List.length_append, List.length_take]
      by_cases hN : N ≤ p.writes
      · simp only [hstuck _ hN, upTo, Option.elim_some, Nat.zero_min, Nat.add_zero]
        rw [Nat.min_eq_right hN] at hout
        rwa [Nat.min_eq_right (Nat.le_succ_of_le hN)]
      · have hbefore : min p.writes N = p.writes := Nat.min_eq_left (by omega)
        have hafter : min (p.writes + 1) N = p.writes + 1 := Nat.min_eq_left (by omega)
        rw [hbefore] at hout
        rw [hafter, Nat.mul_succ]
        omega
    · rintro rest ⟨⟩
      rw [List.length_drop]
      omega

/-- A loop that returns on inputs of every length has fair results. -/
theorem fair_of_returns (hrequest : ∀ c n, l.request c = .ok n → n ≤ m) (ctrl : σ)
    (hreturns : ∀ n, ∃ whole : List α, n ≤ whole.length ∧
      ∃ q, StopsIn (step l r) (enter whole ctrl) q none) : r.Fair := by
  constructor
  · intro N
    by_contra hnone
    push Not at hnone
    obtain ⟨whole, hlen, q, hreach, hstop⟩ := hreturns (m * N + 1)
    have hwhole : Whole whole q := hreach.invariant (fun _ _ => whole_step) (whole_enter whole ctrl)
    have hle := length_le_of_reads hrequest hnone hreach
    have hmul := Nat.mul_le_mul_left m (Nat.min_le_right q.reads N)
    have hinput : q.input = [] := by
      rcases stop_cases hstop with ⟨_, heof, _⟩ | ⟨e, he, _⟩
      · exact hwhole.eof heof
      · cases he
    rw [hinput, List.length_nil] at hle
    omega
  · intro N
    by_contra hnone
    push Not at hnone
    obtain ⟨whole, hlen, q, hreach, hstop⟩ := hreturns (m * N + 1)
    have hwhole : Whole whole q := hreach.invariant (fun _ _ => whole_step) (whole_enter whole ctrl)
    have hle := length_le_of_writes hrequest hnone hreach
    have hmul := Nat.mul_le_mul_left m (Nat.min_le_right q.writes N)
    rw [out_of_returns hwhole hstop] at hle
    omega

end Starving

end CopyLoop
