import MkCDrec.Backup

/-!
# `tar-it.sh` to CD

One job is a line of `To_Backup`: its stream goes through `cutstream`, its log is
compressed into `ISOFS_DIR`. After the last job the script marks the directory
with `LAST_CD`, counts one more volume if there was a cut, and makes the last
image itself.
-/

namespace TarIt

open Directory ShellText SplitFile MakeIso Backup Cutstream Cutting

/-- A line of `To_Backup`: the name and the bytes of its archive, and for `tar` the
name and the content of its log. -/
structure Job where
  destination : Text
  stream : Bytes
  log : Option (Text × Bytes)

def gzSuffix : Text := ".gz".toList

/-- `mv` of the log to `ISOFS_DIR` and `gzip`. -/
def storeLog (c : Config) (j : Job) (w : World) : World :=
  match j.log with
  | some (name, content) =>
    { w with isofs := w.isofs.insert (name ++ gzSuffix) (c.gzip content) }
  | none => w

/-- `CAPACITY`, the room that `du` leaves on the volume in Kb. -/
def capacityLeft (du : Files → Nat) (maxcdsize : Nat) (w : World) : Int :=
  (maxcdsize : Int) - du w.isofs

def runJob (c : Config) (outcome : Nat → Outcome) (du : Files → Nat) (maxcdsize : Nat) (j : Job)
    (w : World) : Except (Exit World) World :=
  match cutstream c j.destination outcome maxcdsize (j.stream.length + 2)
      (capacityLeft du maxcdsize w) j.stream w with
  | .ok q => .ok (storeLog c j q.world)
  -- the exit status of `cutstream` is not looked at
  | .error (.code _ w) => .ok (storeLog c j w)
  | .error e => .error e

def runJobs (c : Config) (outcome : Nat → Outcome) (du : Files → Nat) (maxcdsize : Nat) :
    List Job → World → Except (Exit World) World
  | [], w => .ok w
  | j :: jobs, w =>
    (runJob c outcome du maxcdsize j w).bind (runJobs c outcome du maxcdsize jobs)

/-- The state in which the last image is made. -/
def closeSet (w : World) : World :=
  { w with
    isofs := touch lastCd [] w.isofs
    volno := if 0 < w.volno then w.volno + 1 else 0 }

/-- The last image; `DONE` was only set in the subshell of the jobs. -/
def lastVolume (c : Config) (outcome : Nat → Outcome) (w : World) : World :=
  (makeISO9660 c false [] (outcome (closeSet w).volno) (closeSet w)).1

def tarIt (c : Config) (outcome : Nat → Outcome) (du : Files → Nat) (maxcdsize : Nat)
    (jobs : List Job) (w : World) : Except (Exit World) World :=
  match runJobs c outcome du maxcdsize jobs w with
  | .error e => .error e
  | .ok w => .ok (lastVolume c outcome w)

/-- The names that a job writes into `ISOFS_DIR` are names of archives and logs. -/
structure Job.Plain (c : Config) (j : Job) : Prop where
  archive : ArchiveName c j.destination
  log : ∀ l ∈ j.log, isMarker (l.1 ++ gzSuffix) = false ∧ l.1 ++ gzSuffix ≠ lastCd

section Runs

variable {c : Config} {outcome : Nat → Outcome} {du : Files → Nat} {maxcdsize : Nat}

/-- The world in which a job leaves off, however its `cutstream` ended. -/
inductive Leaves (c : Config) (outcome : Nat → Outcome) (j : Job) (w : World) (ps : List Bytes)
    (t : Bytes) : World → Prop
  | done {w₁ : World}
      (run : cutAll (host c j.destination outcome) w.volno ps
        { w with isofs := w.isofs.insert j.destination [] } = .ok w₁) :
      Leaves c outcome j w ps t (storeLog c j ((host c j.destination outcome).fwrite t w₁))
  | failed {w₁ : World} {status : Nat}
      (run : cutAll (host c j.destination outcome) w.volno ps
        { w with isofs := w.isofs.insert j.destination [] } = .error (.code status w₁)) :
      Leaves c outcome j w ps t (storeLog c j w₁)

theorem cutAll_error {h : Host World} {ps : List Bytes} {e : Exit World} :
    ∀ {n : Nat} {w : World}, cutAll h n ps w = .error e → ∃ status w', e = .code status w' := by
  induction ps with
  | nil => intro n w hrun; cases hrun
  | cons p ps ih =>
    intro n w hrun
    rw [cutAll] at hrun
    split at hrun
    · rename_i e' hchange
      obtain rfl := Except.error.inj hrun
      rw [changeVolume] at hchange
      split at hchange
      · exact ⟨_, _, (Except.error.inj hchange).symm⟩
      · split at hchange
        · exact ⟨_, _, (Except.error.inj hchange).symm⟩
        · cases hchange
    · exact ih hrun

/-- A job whose capacity is not negative cuts its stream, and ends either after its
last piece or at a failing `fopen`. -/
theorem runJob_leaves {j : Job} {w w' : World} (hm : 0 < maxcdsize)
    (hrun : runJob c outcome du maxcdsize j w = .ok w') :
    ∃ (capacity : Nat) (ps : List Bytes) (t : Bytes), capacityLeft du maxcdsize w = capacity ∧
      Cuts (maxcdsize * 1024) (capacity * 1024) j.stream ps t ∧ Leaves c outcome j w ps t w' := by
  by_cases hcap : 0 ≤ capacityLeft du maxcdsize w
  · obtain ⟨capacity, hcapacity⟩ := Int.eq_ofNat_of_zero_le hcap
    obtain ⟨ps, t, hcuts⟩ := exists_cuts (m := maxcdsize * 1024) (by omega) (capacity * 1024)
      j.stream
    have hpipe := filepipe_eq_cutAll (host c j.destination outcome) maxcdsize w.volno (fun _ => hm)
      hcuts (Nat.le_refl _) { w with isofs := w.isofs.insert j.destination [] }
    rw [runJob, cutstream, hcapacity] at hrun
    refine ⟨capacity, ps, t, hcapacity, hcuts, ?_⟩
    cases hcut : cutAll (host c j.destination outcome) w.volno ps
        { w with isofs := w.isofs.insert j.destination [] } with
    | ok w₁ =>
      rw [hcut] at hpipe
      split at hrun
      · rename_i q hq
        rw [hq] at hpipe
        obtain rfl := Except.ok.inj hrun
        rw [(Prod.mk.inj (Except.ok.inj hpipe)).2]
        exact .done hcut
      · rename_i hq
        rw [hq] at hpipe
        cases hpipe
      · rename_i hq
        rw [hq] at hpipe
        cases hpipe
    | error e =>
      obtain ⟨status, w₁, rfl⟩ := cutAll_error hcut
      rw [hcut] at hpipe
      split at hrun
      · rename_i q hq
        rw [hq] at hpipe
        cases hpipe
      · rename_i status' w₂ hq
        rw [hq] at hpipe
        obtain rfl := Except.ok.inj hrun
        obtain ⟨rfl, rfl⟩ := Exit.code.inj (Except.error.inj hpipe)
        exact .failed hcut
      · cases hrun
  · -- the first `fread` gets a negative size
    rw [runJob, cutstream, filepipe_negative _ _ (Int.not_le.mp hcap)] at hrun
    cases hrun

/-- What opening, writing and making an image at a cut preserve, the cuts of a
stream preserve, also when they end at a failing `fopen`. The first argument of the
invariant is the room left on the volume. -/
theorem cutAll_invariant (inv : Nat → World → Prop) {destination : Text} {m : Nat}
    (hopen : ∀ r w, inv r w → inv r { w with isofs := w.isofs.insert destination [] })
    (hwrite : ∀ r w b, inv (r + b.length) w → inv r ((host c destination outcome).fwrite b w))
    (hmake : ∀ w, inv 0 w → inv m (makeISO9660 c true destination (outcome (w.volno + 1))
      { w with volno := w.volno + 1 }).1) {cap : Nat} {s t : Bytes} {ps : List Bytes}
    (cuts : Cuts m cap s ps t) :
    ∀ (n : Nat) (w : World), w.volno = n → inv cap w →
      (∀ w', cutAll (host c destination outcome) n ps w = .ok w' →
        ∃ r, inv (r + t.length) w') ∧
      ∀ status w', cutAll (host c destination outcome) n ps w = .error (.code status w') →
        ∃ r, inv r w' := by
  induction cuts with
  | @tail cap s short =>
    intro n w _ h
    constructor
    · intro w' hw'
      obtain rfl := Except.ok.inj hw'
      refine ⟨cap - s.length, ?_⟩
      rwa [Nat.sub_add_cancel (Nat.le_of_lt short)]
    · intro status w' hw'
      cases hw'
  | @cut cap s t ps full _ ih =>
    intro n w hn h
    subst hn
    have hwritten : inv 0 ((host c destination outcome).fwrite (s.take cap) w) := by
      refine hwrite 0 w _ ?_
      rwa [Nat.zero_add, List.length_take, Nat.min_eq_left full]
    have hmade := hmake _ hwritten
    have hvol : ((host c destination outcome).fwrite (s.take cap) w).volno = w.volno := rfl
    rw [hvol] at hmade
    simp only [cutAll]
    rcases changeVolume_cases c destination outcome (w.volno + 1)
      ((host c destination outcome).fwrite (s.take cap) w) with hc | hc | hc
    · rw [hc]
      constructor
      · intro _ hw'
        cases hw'
      · intro status w' hw'
        obtain ⟨_, rfl⟩ := Exit.code.inj (Except.error.inj hw')
        exact ⟨0, hwritten⟩
    · rw [hc]
      constructor
      · intro _ hw'
        cases hw'
      · intro status w' hw'
        obtain ⟨_, rfl⟩ := Exit.code.inj (Except.error.inj hw')
        exact ⟨m, hmade⟩
    · rw [hc]
      exact ih (w.volno + 1) _ (makeISO9660_volno ..) (hopen _ _ hmade)

/-- The same for a whole job, whose log comes last. -/
theorem runJob_invariant (inv : Nat → World → Prop) (out : World → Prop) {j : Job} {w w' : World}
    (hm : 0 < maxcdsize)
    (hopen : ∀ r w, inv r w → inv r { w with isofs := w.isofs.insert j.destination [] })
    (hwrite : ∀ r w b, inv (r + b.length) w → inv r ((host c j.destination outcome).fwrite b w))
    (hmake : ∀ w, inv 0 w → inv (maxcdsize * 1024) (makeISO9660 c true j.destination
      (outcome (w.volno + 1)) { w with volno := w.volno + 1 }).1)
    (hstore : ∀ r w, inv r w → out (storeLog c j w))
    (hstart : ∀ capacity : Nat, capacityLeft du maxcdsize w = capacity → inv (capacity * 1024) w)
    (hrun : runJob c outcome du maxcdsize j w = .ok w') : out w' := by
  obtain ⟨capacity, ps, t, hcapacity, hcuts, hleaves⟩ := runJob_leaves hm hrun
  obtain ⟨hok, herror⟩ := cutAll_invariant inv hopen hwrite hmake hcuts w.volno
    { w with isofs := w.isofs.insert j.destination [] } rfl (hopen _ _ (hstart _ hcapacity))
  cases hleaves with
  | done run =>
    obtain ⟨r, h⟩ := hok _ run
    exact hstore r _ (hwrite r _ _ h)
  | failed run =>
    obtain ⟨r, h⟩ := herror _ _ run
    exact hstore r _ h

theorem storeLog_invariant (inv : World → Prop) {j : Job} {w : World} (h : inv w)
    (hlog : ∀ l ∈ j.log, inv { w with isofs := w.isofs.insert (l.1 ++ gzSuffix) (c.gzip l.2) }) :
    inv (storeLog c j w) := by
  rw [storeLog]
  split
  · rename_i name content hsome
    exact hlog (name, content) hsome
  · exact h

theorem runJobs_cons {j : Job} {jobs : List Job} {w w' : World}
    (hrun : runJobs c outcome du maxcdsize (j :: jobs) w = .ok w') :
    ∃ w₁, runJob c outcome du maxcdsize j w = .ok w₁ ∧
      runJobs c outcome du maxcdsize jobs w₁ = .ok w' := by
  change (runJob c outcome du maxcdsize j w).bind _ = _ at hrun
  cases hfirst : runJob c outcome du maxcdsize j w with
  | error e =>
    rw [hfirst] at hrun
    cases hrun
  | ok w₁ =>
    rw [hfirst] at hrun
    exact ⟨w₁, rfl, hrun⟩

theorem runJobs_append {pre post : List Job} {w w' : World}
    (hrun : runJobs c outcome du maxcdsize (pre ++ post) w = .ok w') :
    ∃ w₁, runJobs c outcome du maxcdsize pre w = .ok w₁ ∧
      runJobs c outcome du maxcdsize post w₁ = .ok w' := by
  induction pre generalizing w with
  | nil => exact ⟨w, rfl, hrun⟩
  | cons j pre ih =>
    obtain ⟨w₁, hfirst, hrun⟩ := runJobs_cons hrun
    obtain ⟨w₂, hpre, hpost⟩ := ih hrun
    refine ⟨w₂, ?_, hpost⟩
    change (runJob c outcome du maxcdsize j w).bind _ = _
    rw [hfirst]
    exact hpre

/-- What every job preserves holds after a list of jobs. -/
theorem runJobs_invariant (inv : World → Prop) {jobs : List Job} {w w' : World} (hstart : inv w)
    (hjob : ∀ j ∈ jobs, ∀ w w', inv w → runJob c outcome du maxcdsize j w = .ok w' → inv w')
    (hrun : runJobs c outcome du maxcdsize jobs w = .ok w') : inv w' := by
  induction jobs generalizing w with
  | nil =>
    obtain rfl := Except.ok.inj hrun
    exact hstart
  | cons j jobs ih =>
    obtain ⟨w₁, hfirst, hrun⟩ := runJobs_cons hrun
    exact ih (hjob j List.mem_cons_self w w₁ hstart hfirst)
      (fun k hk => hjob k (List.mem_cons_of_mem _ hk)) hrun

end Runs

end TarIt
