import MkCDrec.Copying

/-!
# What `fwrite` took and what is written

`fwrite` takes bytes into a buffer, and what is still there is written when the stream is
closed. `cutstream` closes its output at every cut, and `main` goes on with the pointer to
the first stream. Both programs look at the error flag before their output is closed for the
last time, and at no status of `fclose`.
-/

namespace Buffers

open ShellText CopyLoop Machine Copying
open Cutstream (maxIOSize)

/-- The results of `fread` and `fwrite`; whether all that `fwrite` took for the output stream
with a number comes to its file, though a call may fail and something may be left for the end;
and whether `fopen` at a cut gives the address of the stream that was closed. -/
structure Stdio where
  results : Results
  kept : Nat → Bool
  again : Bool

/-- A call of `fwrite` in the run takes less than it is given, which sets the error flag. -/
def Failed {σ ω : Type} (l : Loop σ ω) (r : Results) (start : State UInt8 σ) (here : σ → Prop) :
    Prop :=
  ∃ p data, Reaches (step l r) start p ∧ here p.ctrl ∧ p.pending = some data ∧
    upTo (r.fwrite p.writes) data.length < data.length

section Programs

variable (capacity maxcdsize : Int) (opens : Opens) (s : Stdio) (input : Bytes)

/-- The bytes that were taken for an output stream. -/
def taken (c : Counters) (n : Nat) : Int :=
  if n < c.volumes then if n = 0 then kbytes capacity else kbytes maxcdsize else c.i

/-- `main` of `cutstream` after `filepipe` has returned: `ferror` and `fclose` of the stream
that `main` opened, which a cut has closed. -/
inductive CutstreamMain (q : State UInt8 Counters) : Stop → Prop
  | stale (hcut : q.ctrl.volumes ≠ 0) (hother : s.again = false) : CutstreamMain q .undefined
  | error (hdst : q.ctrl.volumes = 0 ∨ s.again = true)
      (hflag : Failed (cutstreamLoop maxcdsize opens) s.results (cutstreamStart capacity input)
        fun c => c.volumes = q.ctrl.volumes) : CutstreamMain q (.exit 2)
  | done (hdst : q.ctrl.volumes = 0 ∨ s.again = true)
      (hflag : ¬ Failed (cutstreamLoop maxcdsize opens) s.results (cutstreamStart capacity input)
        fun c => c.volumes = q.ctrl.volumes) : CutstreamMain q (.exit 0)

/-- `cutstream` comes to its end in a state of `filepipe`. -/
def CutstreamStops (q : State UInt8 Counters) (o : Stop) : Prop :=
  StopsIn (step (cutstreamLoop maxcdsize opens) s.results) (cutstreamStart capacity input) q
      (some o) ∨
    StopsIn (step (cutstreamLoop maxcdsize opens) s.results) (cutstreamStart capacity input) q
      none ∧ CutstreamMain capacity maxcdsize opens s input q o

/-- `cutstream` ends, and reports an error or has written all bytes in order. -/
def CutstreamAccounts : Prop :=
  ∃ q status, CutstreamStops capacity maxcdsize opens s input q (.exit status) ∧
    (status ≠ 0 ∨ q.out = input ∧
      ∀ n ≤ q.ctrl.volumes, 0 < taken capacity maxcdsize q.ctrl n → s.kept n = true)

/-- `main` of `pastestream` after `filepipe` has returned. -/
inductive PastestreamMain : Nat → Prop
  | error (hflag : Failed pastestreamLoop s.results (enter input ()) fun _ => True) :
      PastestreamMain 2
  | done (hflag : ¬ Failed pastestreamLoop s.results (enter input ()) fun _ => True) :
      PastestreamMain 0

/-- `pastestream` ends, and reports an error or has written all bytes in order. -/
def PastestreamAccounts : Prop :=
  ∃ q status, StopsIn (step pastestreamLoop s.results) (enter input ()) q none ∧
    PastestreamMain s input status ∧
      (status ≠ 0 ∨ q.out = input ∧ (input ≠ [] → s.kept 0 = true))

end Programs

section Volumes

variable {capacity maxcdsize : Int} {opens : Opens} {r : Results} {input : Bytes}
  {p q : State UInt8 Counters}

/-- The counters after some cuts. -/
structure Placed (capacity maxcdsize : Int) (p : State UInt8 Counters) : Prop where
  total : p.ctrl.total = if p.ctrl.volumes = 0 then 0
    else kbytes capacity + (p.ctrl.volumes - 1) * kbytes maxcdsize
  capacity : p.ctrl.capacity = if p.ctrl.volumes = 0 then kbytes capacity else kbytes maxcdsize
  le : p.ctrl.total ≤ p.out.length
  less : p.pending = none → p.eof = true → p.ctrl.i < p.ctrl.capacity

theorem placed_start (capacity maxcdsize : Int) (input : Bytes) :
    Placed capacity maxcdsize (cutstreamStart capacity input) where
  total := rfl
  capacity := rfl
  le := Int.le_refl 0
  less := fun _ h => nomatch h

theorem placed_step (hmax : 0 < kbytes maxcdsize) (hwithin : Within maxcdsize input p)
    (hp : Placed capacity maxcdsize p)
    (h : step (cutstreamLoop maxcdsize opens) r p = .ok q) : Placed capacity maxcdsize q := by
  rcases step_cases h with ⟨n, _, _, _, rfl⟩ | ⟨ctrl, hpending, hafter, rfl⟩ | ⟨data, _, _, rfl⟩
  · exact ⟨hp.total, hp.capacity, hp.le, fun hnone => nomatch hnone⟩
  · obtain ⟨hle, hout⟩ := hwithin.part [] hpending
    rw [List.length_nil, Int.natCast_zero, Int.add_zero] at hout
    by_cases hfull : p.ctrl.i + p.numRead = p.ctrl.capacity
    · rw [after_of_eq hfull] at hafter
      split at hafter
      · cases hafter
      split at hafter
      · cases hafter
      obtain rfl := Except.ok.inj hafter
      refine ⟨?_, rfl, ?_, fun _ _ => hmax⟩
      · have htotal := hp.total
        have hcapacity := hp.capacity
        have hcount : ((p.ctrl.volumes + 1 : Nat) : Int) - 1 = p.ctrl.volumes := by omega
        simp only [Nat.add_eq_zero_iff, Nat.one_ne_zero, and_false, if_false]
        rw [htotal, hfull, hcapacity, hcount]
        by_cases hfirst : p.ctrl.volumes = 0
        · simp [hfirst]
        · simp only [if_neg hfirst, Int.sub_mul]
          omega
      · simp only
        omega
    · rw [after_of_lt (by omega)] at hafter
      obtain rfl := Except.ok.inj hafter
      refine ⟨hp.total, hp.capacity, hp.le, fun _ _ => ?_⟩
      simp only
      omega
  · refine ⟨hp.total, hp.capacity, ?_, fun hnone => nomatch hnone⟩
    have hle := hp.le
    simp only [List.length_append]
    omega

theorem placed_of_reaches (hcapacity : 0 ≤ kbytes capacity) (hmax : 0 < kbytes maxcdsize)
    (h : CutstreamReaches capacity maxcdsize opens r input p) : Placed capacity maxcdsize p := by
  have hboth := Reaches.invariant
    (P := fun p => Within maxcdsize input p ∧ Placed capacity maxcdsize p)
    (fun p q hp hnext => ⟨within_step hp.1 hnext, placed_step hmax hp.1 hp.2 hnext⟩) h
    ⟨within_start hcapacity (Or.inr hmax), placed_start capacity maxcdsize input⟩
  exact hboth.2

/-- An input that fills a volume is cut behind it, and nothing comes to the next one. -/
theorem placed_full (hcapacity : 0 ≤ kbytes capacity) (hmax : 0 < kbytes maxcdsize) {n : Nat}
    (hlen : (input.length : Int) = kbytes capacity + n * kbytes maxcdsize)
    (h : StopsIn (step (cutstreamLoop maxcdsize opens) r) (cutstreamStart capacity input) q none) :
    q.ctrl.volumes = n + 1 ∧ q.ctrl.i = 0 := by
  have hwithin := within_of_reaches hcapacity (Or.inr hmax) h.1
  have hplaced := placed_of_reaches hcapacity hmax h.1
  obtain ⟨hpending, heof, _⟩ | ⟨_, he, _⟩ := stop_cases h.2
  · have hout := (hwithin.head hpending).2
    rw [out_of_returns hwithin.whole h.2, hlen] at hout
    have hi := hwithin.i
    have hless := hplaced.less hpending heof
    have htotal := hplaced.total
    have hnonneg : 0 ≤ (n : Int) * kbytes maxcdsize :=
      Int.mul_nonneg (Int.natCast_nonneg n) (Int.le_of_lt hmax)
    rw [hplaced.capacity] at hless
    by_cases hfirst : q.ctrl.volumes = 0
    · rw [if_pos hfirst] at hless htotal
      omega
    · rw [if_neg hfirst] at hless htotal
      have heq : ((q.ctrl.volumes : Int) - 1 - n) * kbytes maxcdsize + q.ctrl.i = 0 := by
        rw [Int.sub_mul]
        omega
      have hmul : ∀ a b : Int, a ≤ b → a * kbytes maxcdsize ≤ b * kbytes maxcdsize :=
        fun a b hab => Int.mul_le_mul_of_nonneg_right hab (Int.le_of_lt hmax)
      have hcount : (q.ctrl.volumes : Int) - 1 - n = 0 := by
        rcases Int.lt_trichotomy ((q.ctrl.volumes : Int) - 1 - n) 0 with hlt | hzero | hgt
        · have hle := hmul ((q.ctrl.volumes : Int) - 1 - n) (-1) (by omega)
          omega
        · exact hzero
        · have hle := hmul 1 ((q.ctrl.volumes : Int) - 1 - n) (by omega)
          omega
      rw [hcount] at heq
      omega
  · cases he

/-- No call of `fwrite` fails on a volume that nothing comes to. -/
theorem not_failed_of_full (hcapacity : 0 ≤ kbytes capacity) (hmax : 0 < kbytes maxcdsize)
    {v : Nat} (hv : v ≠ 0)
    (hlen : (input.length : Int) = kbytes capacity + (v - 1) * kbytes maxcdsize) :
    ¬ Failed (cutstreamLoop maxcdsize opens) r (cutstreamStart capacity input)
      fun c => c.volumes = v := by
  rintro ⟨p, data, hreach, rfl, hpending, hfault⟩
  have hwithin := within_of_reaches hcapacity (Or.inr hmax) hreach
  have hplaced := placed_of_reaches hcapacity hmax hreach
  have hle := hplaced.le
  rw [hplaced.total, if_neg hv, ← hlen] at hle
  have hparts := congrArg List.length hwithin.whole.parts
  simp only [hpending, Option.getD_some, List.length_append] at hparts
  have hnone : data.length = 0 := by omega
  omega

end Volumes

section Accounts

variable {capacity maxcdsize : Int} {opens : Opens} {s : Stdio} {input : Bytes}
  {q : State UInt8 Counters}

theorem status_ne_zero {o : Nat}
    (h : StopsIn (step (cutstreamLoop maxcdsize opens) s.results) (cutstreamStart capacity input) q
      (some (.exit o))) : o ≠ 0 := by
  rcases stop_cases h.2 with ⟨_, _, hnone⟩ | ⟨e, he, ⟨_, hrequest⟩ | ⟨_, hafter⟩⟩
  · cases hnone
  · obtain rfl := Option.some.inj he
    simp only [cutstreamLoop] at hrequest
    split at hrequest
    · cases hrequest
    · cases hrequest
  · obtain rfl := Option.some.inj he
    simp only [cutstreamLoop] at hafter
    split at hafter
    · split at hafter
      · cases hafter
        decide
      · split at hafter
        · cases hafter
          decide
        · cases hafter
    · cases hafter

/-- A program that accounts for its input ends. -/
theorem CutstreamAccounts.ends (h : CutstreamAccounts capacity maxcdsize opens s input) :
    CutstreamEnds capacity maxcdsize opens s.results input := by
  obtain ⟨q, status, hstops | ⟨hstops, _⟩, _⟩ := h
  · exact ⟨q, _, hstops, Or.inr ⟨status, rfl, status_ne_zero hstops⟩⟩
  · have hwhole : Whole input q :=
      hstops.1.invariant (fun _ _ => whole_step) (whole_enter input _)
    exact ⟨q, none, hstops, Or.inl ⟨rfl, out_of_returns hwhole hstops.2⟩⟩

theorem PastestreamAccounts.ends (h : PastestreamAccounts s input) :
    PastestreamEnds s.results input := by
  obtain ⟨q, _, hstops, _⟩ := h
  have hwhole : Whole input q := hstops.1.invariant (fun _ _ => whole_step) (whole_enter input _)
  exact ⟨q, none, hstops, rfl, out_of_returns hwhole hstops.2⟩

/-- Where all files can be opened, `filepipe` returns and `main` has the last word. -/
theorem CutstreamAccounts.main
    (h : CutstreamAccounts capacity maxcdsize (fun _ => (true, true)) s input) :
    ∃ q status, StopsIn (step (cutstreamLoop maxcdsize fun _ => (true, true)) s.results)
        (cutstreamStart capacity input) q none ∧
      CutstreamMain capacity maxcdsize (fun _ => (true, true)) s input q (.exit status) ∧
      (status ≠ 0 ∨ q.out = input ∧
        ∀ n ≤ q.ctrl.volumes, 0 < taken capacity maxcdsize q.ctrl n → s.kept n = true) := by
  obtain ⟨q', hreturns⟩ := returns_of_ends h.ends
  obtain ⟨q, status, hstops | ⟨hstops, hmain⟩, hwritten⟩ := h
  · cases (hstops.unique hreturns).2
  · exact ⟨q, status, hstops, hmain, hwritten⟩

theorem cutstreamAccounts_of_ends (hagain : s.again = true)
    (hkept : ∀ n, (n = 0 → 0 < kbytes capacity) → s.kept n = true)
    (hcapacity : 0 ≤ kbytes capacity) (hmax : 0 < kbytes maxcdsize)
    (h : CutstreamEnds capacity maxcdsize opens s.results input) :
    CutstreamAccounts capacity maxcdsize opens s input := by
  obtain ⟨q, o, hstops, ⟨rfl, hout⟩ | ⟨status, rfl, hstatus⟩⟩ := h
  · by_cases hflag : Failed (cutstreamLoop maxcdsize opens) s.results
        (cutstreamStart capacity input) fun c => c.volumes = q.ctrl.volumes
    · exact ⟨q, 2, Or.inr ⟨hstops, .error (Or.inr hagain) hflag⟩, Or.inl (by decide)⟩
    · refine ⟨q, 0, Or.inr ⟨hstops, .done (Or.inr hagain) hflag⟩, Or.inr ⟨hout, ?_⟩⟩
      intro n hn htaken
      apply hkept
      rintro rfl
      rw [taken] at htaken
      by_cases hfirst : 0 < q.ctrl.volumes
      · rwa [if_pos hfirst, if_pos rfl] at htaken
      · rw [if_neg hfirst] at htaken
        have hplaced := placed_of_reaches hcapacity hmax hstops.1
        obtain ⟨hpending, heof, _⟩ | ⟨_, he, _⟩ := stop_cases hstops.2
        · have hless := hplaced.less hpending heof
          rw [hplaced.capacity, if_pos (by omega)] at hless
          omega
        · cases he
  · exact ⟨q, status, Or.inl hstops, Or.inl hstatus⟩

theorem again_of_accounts (hcapacity : 0 ≤ kbytes capacity) (hmax : 0 < kbytes maxcdsize)
    (h : ∀ input, CutstreamAccounts capacity maxcdsize (fun _ => (true, true)) s input) :
    s.again = true := by
  have hlen : ((List.replicate (kbytes capacity).toNat (0 : UInt8)).length : Int) =
      kbytes capacity + (0 : Nat) * kbytes maxcdsize := by
    rw [List.length_replicate]
    omega
  obtain ⟨q, status, hstops, hmain, _⟩ := (h _).main
  obtain ⟨hvolumes, _⟩ := placed_full hcapacity hmax hlen hstops
  cases hmain with
  | error hdst hflag => exact hdst.resolve_left (by omega)
  | done hdst hflag => exact hdst.resolve_left (by omega)

/-- What is lost of a volume that was cut is not reported. -/
theorem kept_of_accounts (hcapacity : 0 ≤ kbytes capacity) (hmax : 0 < kbytes maxcdsize)
    (h : ∀ input, CutstreamAccounts capacity maxcdsize (fun _ => (true, true)) s input) {n : Nat}
    (hn : n = 0 → 0 < kbytes capacity) : s.kept n = true := by
  have hnonneg : 0 ≤ (n : Int) * kbytes maxcdsize :=
    Int.mul_nonneg (Int.natCast_nonneg n) (Int.le_of_lt hmax)
  have hlen : ((List.replicate (kbytes capacity + n * kbytes maxcdsize).toNat
      (0 : UInt8)).length : Int) = kbytes capacity + n * kbytes maxcdsize := by
    rw [List.length_replicate]
    omega
  obtain ⟨q, status, hstops, hmain, hwritten⟩ := (h _).main
  obtain ⟨hvolumes, _⟩ := placed_full hcapacity hmax hlen hstops
  have hflag : ¬ Failed (cutstreamLoop maxcdsize fun _ => (true, true)) s.results
      (cutstreamStart capacity _) fun c => c.volumes = q.ctrl.volumes :=
    not_failed_of_full hcapacity hmax (hvolumes.trans_ne (Nat.succ_ne_zero n))
      (by rw [hlen, hvolumes]; simp)
  have hstatus : status = 0 := by
    cases hmain with
    | error _ hset => exact absurd hset hflag
    | done _ _ => rfl
  obtain ⟨_, hkept⟩ := hwritten.resolve_left (not_not.mpr hstatus)
  apply hkept n (by omega)
  rw [taken, if_pos (by omega)]
  by_cases hfirst : n = 0
  · rw [if_pos hfirst]
    exact hn hfirst
  · rwa [if_neg hfirst]

end Accounts

section Pastestream

variable {s : Stdio} {input : Bytes}

/-- If the first call of `fwrite` gets nothing done, the flag is set before anything is written. -/
theorem failed_of_first (hnever : s.results.fwrite 0 = some 0) {q : State UInt8 Unit}
    (h : Reaches (step pastestreamLoop s.results) (enter input ()) q) (hout : q.out ≠ []) :
    Failed pastestreamLoop s.results (enter input ()) fun _ => True := by
  have hrun := h.invariant
    (P := fun p => Reaches (step pastestreamLoop s.results) (enter input ()) p ∧
      (p.writes = 0 ∧ p.out = [] ∨
        Failed pastestreamLoop s.results (enter input ()) fun _ => True)) ?_
    ⟨Reaches.refl, Or.inl ⟨rfl, rfl⟩⟩
  · exact hrun.2.resolve_left fun hnone => hout hnone.2
  rintro p q ⟨hreach, hp⟩ hnext
  refine ⟨hreach.trans (Reaches.head hnext Reaches.refl), ?_⟩
  rcases hp with hp | hflag
  · rcases step_cases hnext with ⟨n, _, _, _, rfl⟩ | ⟨ctrl, _, _, rfl⟩ | ⟨data, hpending, hdata, rfl⟩
    · exact Or.inl hp
    · exact Or.inl hp
    · refine Or.inr ⟨p, data, hreach, trivial, hpending, ?_⟩
      rw [hp.1, hnever]
      exact List.length_pos_iff.mpr hdata
  · exact Or.inr hflag

/-- Of an input of one byte the first call of `fwrite` that does anything takes everything. -/
theorem not_failed_of_byte (b : UInt8) (hfirst : s.results.fwrite 0 ≠ some 0) :
    ¬ Failed pastestreamLoop s.results (enter [b] ()) fun _ => True := by
  rintro ⟨p, data, hreach, _, hpending, hfault⟩
  have hrun := hreach.invariant
    (P := fun p => Whole [b] p ∧ (p.writes = 0 ∨ p.out ≠ [])) ?_ ⟨whole_enter [b] (), Or.inl rfl⟩
  · have hdata : data ≠ [] := by
      rintro rfl
      simp at hfault
    have hlen := congrArg List.length hrun.1.parts
    simp only [hpending, Option.getD_some, List.length_append, List.length_singleton] at hlen
    have hpos := List.length_pos_iff.mpr hdata
    rcases hrun.2 with hwrites | hout
    · rw [hwrites] at hfault
      have hsome := upTo_pos hfirst hpos
      omega
    · have houtpos := List.length_pos_iff.mpr hout
      omega
  rintro p q ⟨hwhole, hp⟩ hnext
  refine ⟨whole_step hwhole hnext, ?_⟩
  rcases step_cases hnext with ⟨n, _, _, _, rfl⟩ | ⟨ctrl, _, _, rfl⟩ | ⟨data, _, hdata, rfl⟩
  · exact hp
  · exact hp
  · right
    rcases hp with hwrites | hout
    · have hsome := upTo_pos hfirst (List.length_pos_iff.mpr hdata)
      rw [hwrites]
      apply List.append_ne_nil_of_right_ne_nil
      rw [← List.length_pos_iff, List.length_take]
      exact Nat.lt_min.mpr ⟨hsome, List.length_pos_iff.mpr hdata⟩
    · exact List.append_ne_nil_of_left_ne_nil hout _

theorem pastestreamAccounts_of_ends (hkept : s.kept 0 = true ∨ s.results.fwrite 0 = some 0)
    (h : PastestreamEnds s.results input) : PastestreamAccounts s input := by
  obtain ⟨q, o, hstops, rfl, hout⟩ := h
  by_cases hflag : Failed pastestreamLoop s.results (enter input ()) fun _ => True
  · exact ⟨q, 2, hstops, .error hflag, Or.inl (by decide)⟩
  · refine ⟨q, 0, hstops, .done hflag, Or.inr ⟨hout, ?_⟩⟩
    intro hinput
    apply hkept.resolve_right
    intro hnever
    exact hflag (failed_of_first hnever hstops.1 (by rwa [hout]))

/-- What is lost at the end is not reported, if no call has failed before. -/
theorem kept_of_pastestream (h : ∀ input, PastestreamAccounts s input) :
    s.kept 0 = true ∨ s.results.fwrite 0 = some 0 := by
  by_cases hnever : s.results.fwrite 0 = some 0
  · exact Or.inr hnever
  · left
    obtain ⟨q, status, hstops, hmain, hwritten⟩ := h [0]
    have hflag := not_failed_of_byte 0 hnever
    have hstatus : status = 0 := by
      cases hmain with
      | error hset => exact absurd hset hflag
      | done _ => rfl
    exact (hwritten.resolve_left (not_not.mpr hstatus)).2 (List.cons_ne_nil _ _)

end Pastestream

/-- Both programs account for every input exactly if neither `fread` nor `fwrite` gets nothing
done for good, and all that `fwrite` took is written in the end: `pastestream` reports something
else only if its first call of `fwrite` fails. -/
theorem written_or_reported_iff (capacity maxcdsize : Int) (s : Stdio) :
    ((∀ opens input, CutstreamAccounts capacity maxcdsize opens s input) ↔
      0 ≤ kbytes capacity ∧ 0 < kbytes maxcdsize ∧ s.results.Fair ∧ s.again = true ∧
        ∀ n, (n = 0 → 0 < kbytes capacity) → s.kept n = true) ∧
    ((∀ input, PastestreamAccounts s input) ↔
      s.results.Fair ∧ (s.kept 0 = true ∨ s.results.fwrite 0 = some 0)) := by
  obtain ⟨hcutstream, hpastestream⟩ := ends_iff_fair capacity maxcdsize s.results
  refine ⟨⟨?_, ?_⟩, ⟨?_, ?_⟩⟩
  · intro h
    obtain ⟨hcapacity, hmax, hfair⟩ := hcutstream.mp fun opens input => (h opens input).ends
    exact ⟨hcapacity, hmax, hfair, again_of_accounts hcapacity hmax (h _),
      fun n hn => kept_of_accounts hcapacity hmax (h _) hn⟩
  · rintro ⟨hcapacity, hmax, hfair, hagain, hkept⟩ opens input
    exact cutstreamAccounts_of_ends hagain hkept hcapacity hmax
      (hcutstream.mpr ⟨hcapacity, hmax, hfair⟩ opens input)
  · intro h
    exact ⟨hpastestream.mp fun input => (h input).ends, kept_of_pastestream h⟩
  · rintro ⟨hfair, hkept⟩ input
    exact pastestreamAccounts_of_ends hkept (hpastestream.mpr hfair input)

/-- One byte, a read error that does not go away in `cutstream`, and a full disk in
`pastestream`. -/
theorem stuck_forever :
    ¬ CutstreamAccounts 665600 665600 (fun _ => (true, true))
        ⟨⟨fun _ => some 0, fun _ => none⟩, fun _ => true, true⟩ [65] ∧
      ¬ PastestreamAccounts ⟨⟨fun _ => none, fun _ => some 0⟩, fun _ => true, true⟩ [65] := by
  constructor
  · intro haccounts
    obtain ⟨q, hreach, hstop⟩ := returns_of_ends haccounts.ends
    have hle := length_le_of_reads (N := 0) (fun _ _ => request_le) (fun _ _ => rfl) hreach
    have hwhole : Whole [65] q := hreach.invariant (fun _ _ => whole_step) (whole_enter [65] _)
    rcases stop_cases hstop with ⟨_, heof, _⟩ | ⟨e, he, _⟩
    · rw [hwhole.eof heof] at hle
      simp at hle
    · cases he
  · intro haccounts
    obtain ⟨q, o, ⟨hreach, hstop⟩, rfl, hout⟩ := haccounts.ends
    have hle := length_le_of_writes (l := pastestreamLoop) (m := maxIOSize) (N := 0)
      (fun _ _ h => Nat.le_of_eq (Except.ok.inj h).symm) (fun _ _ => rfl) hreach
    rw [hout] at hle
    simp at hle

end Buffers
