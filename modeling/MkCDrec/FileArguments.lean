import MkCDrec.Parts

/-!
# `cutstream` with files as arguments

`main` calls `filepipe` once for each file. Every call takes the whole `CAPACITY` again, and
the stream that `main` hands over is closed as soon as an earlier call has come to a cut. The
calls are followed up to where `main` closes the destination, which is the same for files and
for the standard input.
-/

namespace FileArguments

open ShellText Cutting Cutstream Parts
open Copying (Opens)

section Main

variable (opens : Opens) (maxcdsize capacity : Nat)

/-- A call of `filepipe` with the stream of `main`. -/
def pipeFile (f : Bytes) (w : Log) : Except (Exit Log) Log :=
  (filepipe (host opens) maxcdsize (f.length + 2) capacity w.volno f
    { w with stale := decide (w.parts ≠ []) }).map fun q => q.world

def copyFiles : List Bytes → Log → Except (Exit Log) Log
  | [], w => .ok w
  | f :: files, w =>
    match pipeFile opens maxcdsize capacity f w with
    | .error e => .error e
    | .ok w => copyFiles files w

/-- `main`, with the contents of the files that are its arguments. -/
def cutstream (files : List Bytes) (stdin : Bytes) (volno : Nat) : Except (Exit Log) Log :=
  if files = [] then pipeFile opens maxcdsize capacity stdin (fresh volno)
  else copyFiles opens maxcdsize capacity files (fresh volno)

end Main

/-- What can be seen of a run: the status of `exit`, the parts, the calls of the image maker
and whether the behaviour is undefined. -/
structure Made where
  status : Option Nat
  parts : List Bytes
  calls : Nat
  undefined : Bool
deriving DecidableEq

def made : Except (Exit Log) Log → Made
  | .ok w => ⟨none, w.parts ++ [w.current], w.parts.length, w.undefined⟩
  | .error (.code status w) => ⟨some status, w.parts ++ [w.current], w.parts.length, w.undefined⟩
  | .error (.undefined w) => ⟨none, w.parts ++ [w.current], w.parts.length, true⟩
  | .error (.outOfFuel w) => ⟨none, w.parts ++ [w.current], w.parts.length, true⟩

/-- No part exceeds its capacity. -/
def Within (cap m : Nat) : List Bytes → Prop
  | [] => True
  | p :: ps => p.length ≤ cap ∧ ∀ q ∈ ps, q.length ≤ m

/-- The files behave as one stream. -/
structure AsJoined (opens : Opens) (maxcdsize capacity volno : Nat) (files : List Bytes) :
    Prop where
  same : made (cutstream opens maxcdsize capacity files [] volno) =
    made (cutstream opens maxcdsize capacity [] files.flatten volno)
  within : Within (capacity * 1024) (maxcdsize * 1024)
    (made (cutstream opens maxcdsize capacity files [] volno)).parts

section Pipe

variable {opens : Opens} {maxcdsize capacity volno : Nat} {f s t : Bytes} {ps : List Bytes}
  {w : Log}

theorem pipeFile_eq (hm : ps ≠ [] → 0 < maxcdsize)
    (hcuts : Cuts (maxcdsize * 1024) (capacity * 1024) f ps t) :
    pipeFile opens maxcdsize capacity f w =
      (cutAll (host opens) w.volno ps { w with stale := decide (w.parts ≠ []) }).map
        fun w => (host opens).fwrite t w := by
  have hpipe := filepipe_eq_cutAll (host opens) maxcdsize w.volno hm hcuts (Nat.le_refl _)
    { w with stale := decide (w.parts ≠ []) }
  rw [pipeFile]
  cases hrun : filepipe (host opens) maxcdsize (f.length + 2) capacity w.volno f
      { w with stale := decide (w.parts ≠ []) } with
  | error e =>
    rw [hrun] at hpipe
    cases hall : cutAll (host opens) w.volno ps { w with stale := decide (w.parts ≠ []) } with
    | error e' =>
      rw [hall] at hpipe
      exact congrArg Except.error (Except.error.inj hpipe)
    | ok w' =>
      rw [hall] at hpipe
      cases hpipe
  | ok q =>
    rw [hrun] at hpipe
    cases hall : cutAll (host opens) w.volno ps { w with stale := decide (w.parts ≠ []) } with
    | error e' =>
      rw [hall] at hpipe
      cases hpipe
    | ok w' =>
      rw [hall] at hpipe
      exact congrArg Except.ok (Prod.mk.inj (Except.ok.inj hpipe)).2

/-- The first stream. -/
theorem pipeFile_fresh (hm : ps ≠ [] → 0 < maxcdsize)
    (hcuts : Cuts (maxcdsize * 1024) (capacity * 1024) s ps t) :
    pipeFile opens maxcdsize capacity s (fresh volno) =
      (cutAll (host opens) volno ps (fresh volno)).map fun w => (host opens).fwrite t w :=
  pipeFile_eq hm hcuts

/-- A file without a cut. -/
theorem pipeFile_short (hshort : f.length < capacity * 1024) :
    pipeFile opens maxcdsize capacity f w =
      .ok ((host opens).fwrite f { w with stale := decide (w.parts ≠ []) }) := by
  rw [pipeFile_eq (fun h => absurd rfl h) (.tail hshort)]
  rfl

theorem pipeFile_nil (hpos : 0 < capacity) :
    pipeFile opens maxcdsize capacity [] w = .ok { w with stale := decide (w.parts ≠ []) } := by
  rw [pipeFile_short (by rw [List.length_nil]; omega), (host opens).fwrite_nil]

theorem pipeFile_nil_fresh (hpos : 0 < capacity) :
    pipeFile opens maxcdsize capacity [] (fresh volno) = .ok (fresh volno) :=
  pipeFile_nil hpos

/-- The parts that a stream is cut into, up to a file that cannot be opened. -/
theorem within_cutAll (opens : Opens) {cap m : Nat} (hcuts : Cuts m cap s ps t) (volno : Nat)
    {w : Log} (hstale : w.stale = false) (hcurrent : w.current = []) :
    ∃ parts, (made ((cutAll (host opens) volno ps w).map fun w => (host opens).fwrite t w)).parts =
      w.parts ++ parts ∧ Within cap m parts := by
  induction hcuts generalizing volno w with
  | tail short =>
    refine ⟨[_], ?_, Nat.le_of_lt short, fun q hq => nomatch hq⟩
    rw [cutAll, Except.map, fwrite_open hstale, hcurrent]
    rfl
  | @cut cap s t ps full rest ih =>
    have hlen : (s.take cap).length = cap := by rw [List.length_take, Nat.min_eq_left full]
    rw [cutAll, fwrite_open hstale, hcurrent, List.nil_append]
    rcases changeVolume_cases opens (volno + 1) { w with current := s.take cap } with
      ⟨_, heq⟩ | ⟨_, _, heq⟩ | ⟨_, _, heq⟩
    · rw [heq]
      exact ⟨[s.take cap], rfl, Nat.le_of_eq hlen, fun q hq => nomatch hq⟩
    · rw [heq]
      refine ⟨[s.take cap, []], ?_, Nat.le_of_eq hlen, ?_⟩
      · exact List.append_assoc ..
      · intro q hq
        rw [List.mem_singleton.mp hq]
        exact Nat.zero_le m
    · rw [heq]
      obtain ⟨parts, hparts, hwithin⟩ :=
        ih (volno + 1) (w := ({ w with current := s.take cap } : Log).cut (volno + 1)) rfl rfl
      refine ⟨s.take cap :: parts, ?_, Nat.le_of_eq hlen, ?_⟩
      · rw [hparts, Log.cut, List.append_assoc, List.singleton_append]
      · cases parts with
        | nil => exact fun q hq => nomatch hq
        | cons p parts =>
          intro q hq
          rcases List.mem_cons.mp hq with rfl | hq
          · exact hwithin.1
          · exact hwithin.2 q hq

theorem within_pipeFile (hm : 0 < maxcdsize) (s : Bytes) :
    Within (capacity * 1024) (maxcdsize * 1024)
      (made (pipeFile opens maxcdsize capacity s (fresh volno))).parts := by
  obtain ⟨ps, t, hcuts⟩ := exists_cuts (m := maxcdsize * 1024) (by omega) (capacity * 1024) s
  obtain ⟨parts, hparts, hwithin⟩ := within_cutAll opens hcuts volno (w := fresh volno)
    rfl rfl
  rw [pipeFile_fresh (fun _ => hm) hcuts, hparts]
  exact hwithin

end Pipe

section Joined

variable {opens : Opens} {maxcdsize capacity volno : Nat} {files : List Bytes} {w : Log}

theorem copyFiles_of_ok {f : Bytes} {v : Log} (h : pipeFile opens maxcdsize capacity f w = .ok v) :
    copyFiles opens maxcdsize capacity (f :: files) w =
      copyFiles opens maxcdsize capacity files v := by
  rw [copyFiles, h]

theorem copyFiles_of_error {f : Bytes} {e : Exit Log}
    (h : pipeFile opens maxcdsize capacity f w = .error e) :
    copyFiles opens maxcdsize capacity (f :: files) w = .error e := by
  rw [copyFiles, h]

theorem copyFiles_singleton (f : Bytes) (w : Log) :
    copyFiles opens maxcdsize capacity [f] w = pipeFile opens maxcdsize capacity f w := by
  cases hf : pipeFile opens maxcdsize capacity f w with
  | error e => exact copyFiles_of_error hf
  | ok v => exact copyFiles_of_ok hf

theorem length_le_flatten {f : Bytes} (hf : f ∈ files) : f.length ≤ files.flatten.length :=
  (List.sublist_flatten_of_mem hf).length_le

/-- Files that fill one part together. -/
theorem copyFiles_short (hshort : ∀ f ∈ files, f.length < capacity * 1024)
    (hparts : w.parts = []) (hstale : w.stale = false) :
    copyFiles opens maxcdsize capacity files w =
      .ok { w with current := w.current ++ files.flatten } := by
  induction files generalizing w with
  | nil =>
    rw [List.flatten_nil, List.append_nil]
    rfl
  | cons f files ih =>
    have hsame : { w with stale := decide (w.parts ≠ []) } = w := by
      have hclosed : decide (w.parts ≠ []) = w.stale := by simp [hparts, hstale]
      rw [hclosed]
    have hpipe : pipeFile opens maxcdsize capacity f w =
        .ok { w with current := w.current ++ f } := by
      rw [pipeFile_short (hshort f List.mem_cons_self), hsame, fwrite_open hstale]
    rw [copyFiles_of_ok hpipe]
    refine (ih (w := { w with current := w.current ++ f })
      (fun g hg => hshort g (List.mem_cons_of_mem f hg)) hparts hstale).trans ?_
    rw [List.flatten_cons, List.append_assoc]

/-- Empty files. -/
theorem made_copyFiles_nil (hpos : 0 < capacity) (hempty : ∀ f ∈ files, f = []) :
    made (copyFiles opens maxcdsize capacity files w) = made (.ok w) := by
  induction files generalizing w with
  | nil => rfl
  | cons f files ih =>
    rw [hempty f List.mem_cons_self, copyFiles_of_ok (pipeFile_nil hpos)]
    exact (ih fun g hg => hempty g (List.mem_cons_of_mem f hg)).trans rfl

/-- One file and empty ones. -/
theorem made_copyFiles_single (hpos : 0 < capacity)
    (hsingle : (files.filter fun f => f ≠ []).length ≤ 1) :
    made (copyFiles opens maxcdsize capacity files (fresh volno)) =
      made (pipeFile opens maxcdsize capacity files.flatten (fresh volno)) := by
  induction files with
  | nil =>
    rw [List.flatten_nil, pipeFile_nil_fresh hpos]
    rfl
  | cons f files ih =>
    by_cases hf : f = []
    · subst hf
      rw [copyFiles_of_ok (pipeFile_nil_fresh hpos), List.flatten_cons, List.nil_append]
      exact ih hsingle
    · have hempty : ∀ g ∈ files, g = [] := by
        rw [List.filter_cons_of_pos (by simpa using hf), List.length_cons] at hsingle
        have hnone := List.eq_nil_of_length_eq_zero (Nat.le_zero.mp (Nat.le_of_succ_le_succ hsingle))
        intro g hg
        by_contra hne
        have hmem : g ∈ files.filter fun f => f ≠ [] :=
          List.mem_filter.mpr ⟨hg, by simpa using hne⟩
        rw [hnone] at hmem
        cases hmem
      rw [List.flatten_cons, List.flatten_eq_nil_iff.mpr hempty, List.append_nil]
      cases hpipe : pipeFile opens maxcdsize capacity f (fresh volno) with
      | error e => rw [copyFiles_of_error hpipe]
      | ok w =>
        rw [copyFiles_of_ok hpipe]
        exact made_copyFiles_nil hpos hempty

end Joined

section Healthy

variable {maxcdsize capacity volno : Nat} {f : Bytes} {files : List Bytes} {w : Log}

/-- Everything a call of `filepipe` can do if all files can be opened: go on with the open
part, or finish it and others. On a closed stream it must not do anything. -/
theorem pipeFile_healthy (hm : 0 < maxcdsize) (capacity : Nat) (f : Bytes) (w : Log) :
    ∃ w', pipeFile healthy maxcdsize capacity f w = .ok w' ∧
      (w.undefined = true ∨ w.parts ≠ [] ∧ (f ≠ [] ∨ capacity = 0) → w'.undefined = true) ∧
      (w.parts = [] → w'.undefined = w.undefined ∧
        (f.length < capacity * 1024 → w'.parts = [] ∧ w'.current = w.current ++ f) ∧
        (capacity * 1024 ≤ f.length →
          ∃ ps, w'.parts = (w.current ++ f.take (capacity * 1024)) :: ps)) ∧
      (∀ p qs, w.parts = p :: qs → ∃ rs, w'.parts = p :: rs) := by
  by_cases hshort : f.length < capacity * 1024
  · obtain ⟨hparts', _, hundefined'⟩ :=
      fwrite_kept healthy f { w with stale := decide (w.parts ≠ []) }
    refine ⟨_, pipeFile_short hshort, ?_, ?_, ?_⟩
    · rintro (hundefined | ⟨hparts, hf | hzero⟩)
      · rw [hundefined', hundefined, Bool.true_or]
      · rw [hundefined']
        simp [hparts, hf]
      · omega
    · intro hparts
      rw [fwrite_open (by simp [hparts])]
      exact ⟨rfl, fun _ => ⟨hparts, rfl⟩, fun hle => by omega⟩
    · intro p qs hparts
      exact ⟨qs, hparts'.trans hparts⟩
  · obtain ⟨ps, t, hcuts⟩ := exists_cuts (m := maxcdsize * 1024) (by omega) (capacity * 1024) f
    rw [pipeFile_eq (fun _ => hm) hcuts]
    cases hcuts with
    | tail short => exact absurd short hshort
    | @cut _ _ _ ps full rest =>
      obtain ⟨hkept, hstale', hundefined'⟩ := fwrite_kept healthy (f.take (capacity * 1024))
        { w with stale := decide (w.parts ≠ []) }
      obtain ⟨w', hrun, hparts', _, hstale, hundefined⟩ := cutAll_healthy w.volno
        (f.take (capacity * 1024)) ps { w with stale := decide (w.parts ≠ []) }
      rw [hkept] at hparts'
      rw [hundefined', hstale'] at hundefined
      refine ⟨{ w' with current := w'.current ++ t }, ?_, ?_, ?_, ?_⟩
      · rw [hrun, ← fwrite_open hstale]
        rfl
      · rintro (hbefore | ⟨hparts, _⟩)
        · simp [hundefined, hbefore]
        · simp [hundefined, hparts]
      · intro hparts
        rw [fwrite_open (by simp [hparts])] at hparts'
        refine ⟨by simp [hundefined, hparts], fun hlt => absurd hlt hshort, fun _ => ⟨ps, ?_⟩⟩
        simpa [hparts] using hparts'
      · intro p qs hparts
        rw [hparts] at hparts'
        exact ⟨_, hparts'⟩

/-- What a call has finished or broken stays so. -/
theorem copyFiles_healthy (hm : 0 < maxcdsize) (capacity : Nat) (files : List Bytes) (w : Log) :
    ∃ w', copyFiles healthy maxcdsize capacity files w = .ok w' ∧
      (w.undefined = true → w'.undefined = true) ∧
      (∀ p qs, w.parts = p :: qs → ∃ rs, w'.parts = p :: rs) := by
  induction files generalizing w with
  | nil => exact ⟨w, rfl, id, fun p qs hparts => ⟨qs, hparts⟩⟩
  | cons f files ih =>
    obtain ⟨v, hv, hundefined, _, hkept⟩ := pipeFile_healthy hm capacity f w
    obtain ⟨w', hrun, hlater, hkept'⟩ := ih v
    refine ⟨w', (copyFiles_of_ok hv).trans hrun, fun h => hlater (hundefined (Or.inl h)), ?_⟩
    intro p qs hparts
    obtain ⟨rs, hrs⟩ := hkept p qs hparts
    exact hkept' p rs hrs

/-- After a cut the stream may not be used any more. -/
theorem undefined_of_cut (hm : 0 < maxcdsize) (hparts : w.parts ≠ [])
    (hused : ∃ f ∈ files, f ≠ [] ∨ capacity = 0) {w' : Log}
    (hrun : copyFiles healthy maxcdsize capacity files w = .ok w') : w'.undefined = true := by
  induction files generalizing w with
  | nil => obtain ⟨f, hf, _⟩ := hused; cases hf
  | cons f files ih =>
    obtain ⟨v, hv, hundefined, _, hkept⟩ := pipeFile_healthy hm capacity f w
    rw [copyFiles_of_ok hv] at hrun
    by_cases hf : f ≠ [] ∨ capacity = 0
    · obtain ⟨w'', hrun', hlater, _⟩ := copyFiles_healthy hm capacity files v
      obtain rfl := Except.ok.inj (hrun'.symm.trans hrun)
      exact hlater (hundefined (Or.inr ⟨hparts, hf⟩))
    · obtain ⟨p, qs, hpq⟩ := List.exists_cons_of_ne_nil hparts
      obtain ⟨rs, hrs⟩ := hkept p qs hpq
      refine ih (w := v) (by simp [hrs]) ?_ hrun
      obtain ⟨g, hg, hgused⟩ := hused
      rcases List.mem_cons.mp hg with rfl | hg
      · exact absurd hgused hf
      · exact ⟨g, hg, hgused⟩

/-- With something in the open part the next cut comes too late. -/
theorem long_of_rest (hm : 0 < maxcdsize) (hparts : w.parts = []) (hcurrent : w.current ≠ [])
    {w' : Log} (hrun : copyFiles healthy maxcdsize capacity files w = .ok w') :
    w'.parts = [] ∨ ∃ p rs, w'.parts = p :: rs ∧ capacity * 1024 < p.length := by
  induction files generalizing w with
  | nil =>
    obtain rfl := Except.ok.inj hrun
    exact Or.inl hparts
  | cons f files ih =>
    obtain ⟨v, hv, _, hopen, _⟩ := pipeFile_healthy hm capacity f w
    obtain ⟨_, hshort, hlong⟩ := hopen hparts
    rw [copyFiles_of_ok hv] at hrun
    by_cases hlt : f.length < capacity * 1024
    · obtain ⟨hvparts, hvcurrent⟩ := hshort hlt
      refine ih hvparts ?_ hrun
      rw [hvcurrent]
      exact List.append_ne_nil_of_left_ne_nil hcurrent f
    · right
      obtain ⟨ps, hps⟩ := hlong (Nat.not_lt.mp hlt)
      obtain ⟨w'', hrun', _, hkept⟩ := copyFiles_healthy hm capacity files v
      obtain rfl := Except.ok.inj (hrun'.symm.trans hrun)
      obtain ⟨rs, hrs⟩ := hkept _ ps hps
      refine ⟨_, rs, hrs, ?_⟩
      have hpos := List.length_pos_iff.mpr hcurrent
      rw [List.length_append, List.length_take]
      omega

/-- Two files with something in them. -/
theorem wrong_of_two (hm : 0 < maxcdsize) (hpos : 0 < capacity)
    (htwo : 2 ≤ (files.filter fun f => f ≠ []).length) {w' : Log}
    (hrun : copyFiles healthy maxcdsize capacity files (fresh volno) = .ok w') :
    w'.undefined = true ∨ w'.parts = [] ∨
      ∃ p rs, w'.parts = p :: rs ∧ capacity * 1024 < p.length := by
  induction files with
  | nil => simp at htwo
  | cons f files ih =>
    by_cases hf : f = []
    · subst hf
      rw [copyFiles_of_ok (pipeFile_nil_fresh hpos)] at hrun
      exact ih htwo hrun
    · rw [List.filter_cons_of_pos (by simpa using hf), List.length_cons] at htwo
      obtain ⟨v, hv, _, hopen, _⟩ := pipeFile_healthy hm capacity f (fresh volno)
      obtain ⟨_, hshort, hlong⟩ := hopen rfl
      rw [copyFiles_of_ok hv] at hrun
      by_cases hlt : f.length < capacity * 1024
      · obtain ⟨hvparts, hvcurrent⟩ := hshort hlt
        refine Or.inr (long_of_rest hm hvparts ?_ hrun)
        rw [hvcurrent]
        exact List.append_ne_nil_of_right_ne_nil _ hf
      · left
        obtain ⟨ps, hps⟩ := hlong (Nat.not_lt.mp hlt)
        obtain ⟨g, hg⟩ := List.exists_mem_of_length_pos
          (show 0 < (files.filter fun f => f ≠ []).length by omega)
        obtain ⟨hgmem, hgne⟩ := List.mem_filter.mp hg
        exact undefined_of_cut hm (by simp [hps]) ⟨g, hgmem, Or.inl (by simpa using hgne)⟩ hrun

/-- One stream is cut at its capacity. -/
theorem made_stream (hm : 0 < maxcdsize) (capacity volno : Nat) (s : Bytes) :
    (made (pipeFile healthy maxcdsize capacity s (fresh volno))).undefined = false ∧
      (capacity * 1024 ≤ s.length →
        ∃ p rs, (made (pipeFile healthy maxcdsize capacity s (fresh volno))).parts = p :: rs ∧
          p.length = capacity * 1024 ∧
          0 < (made (pipeFile healthy maxcdsize capacity s (fresh volno))).calls) := by
  obtain ⟨ps, t, hcuts⟩ := exists_cuts (m := maxcdsize * 1024) (by omega) (capacity * 1024) s
  obtain ⟨w', hrun, hparts, _, hstale, hundefined⟩ := cutAll_open ps volno (w := fresh volno) rfl rfl
  rw [pipeFile_fresh (fun _ => hm) hcuts, hrun, Except.map, fwrite_open hstale]
  refine ⟨hundefined, fun hle => ?_⟩
  cases hcuts with
  | tail short => omega
  | @cut _ _ _ ps full rest =>
    have hfirst : w'.parts = s.take (capacity * 1024) :: ps := hparts
    simp only [made, hfirst]
    refine ⟨_, _, List.cons_append, ?_, ?_⟩
    · rw [List.length_take, Nat.min_eq_left full]
    · rw [List.length_cons]
      exact Nat.succ_pos _

end Healthy

section Results

variable {opens : Opens} {maxcdsize capacity volno : Nat} {files : List Bytes}

theorem cutstream_stdin (s : Bytes) : cutstream opens maxcdsize capacity [] s volno =
    pipeFile opens maxcdsize capacity s (fresh volno) := if_pos rfl

/-- What the files have to be for a run that is as that of the one stream. -/
theorem asJoined_of (hm : 0 < maxcdsize)
    (h : files.length ≤ 1 ∨ 0 < capacity ∧ (files.flatten.length < capacity * 1024 ∨
      (files.filter fun f => f ≠ []).length ≤ 1)) :
    AsJoined opens maxcdsize capacity volno files := by
  have hsame : made (cutstream opens maxcdsize capacity files [] volno) =
      made (pipeFile opens maxcdsize capacity files.flatten (fresh volno)) := by
    match files with
    | [] => rfl
    | [f] =>
      rw [cutstream, if_neg (List.cons_ne_nil _ _), copyFiles_singleton, List.flatten_singleton]
    | f :: g :: rest =>
      rw [cutstream, if_neg (List.cons_ne_nil _ _)]
      rcases h with hlen | ⟨hpos, hshort | hsingle⟩
      · simp at hlen
      · rw [copyFiles_short (fun a ha => Nat.lt_of_le_of_lt (length_le_flatten ha) hshort) rfl rfl,
          pipeFile_short hshort, fwrite_open rfl]
        rfl
      · exact made_copyFiles_single hpos hsingle
  refine ⟨by rw [cutstream_stdin, hsame], ?_⟩
  rw [hsame]
  exact within_pipeFile hm files.flatten

/-- The files behave as one stream, whatever can be opened, just if there is one file at most,
or there is room for something and the files fill no part or only one of them is not empty. -/
theorem asJoined_iff (hm : 0 < maxcdsize) (capacity volno : Nat) (files : List Bytes) :
    (∀ opens, AsJoined opens maxcdsize capacity volno files) ↔
      files.length ≤ 1 ∨ 0 < capacity ∧ (files.flatten.length < capacity * 1024 ∨
        (files.filter fun f => f ≠ []).length ≤ 1) := by
  constructor
  · intro hall
    by_contra hnot
    obtain ⟨hlen, hroom⟩ := not_or.mp hnot
    have hsame := (hall healthy).same
    have hne : files ≠ [] := by
      rintro rfl
      simp at hlen
    rw [cutstream_stdin, cutstream, if_neg hne] at hsame
    obtain ⟨hdefined, hcut⟩ := made_stream hm capacity volno files.flatten
    obtain ⟨w', hrun, _⟩ := copyFiles_healthy hm capacity files (fresh volno)
    rw [hrun] at hsame
    rw [← hsame] at hdefined hcut
    by_cases hpos : 0 < capacity
    · obtain ⟨hlong, htwo⟩ := not_or.mp (fun h => hroom ⟨hpos, h⟩)
      obtain ⟨p, rs, hparts, hplen, hcalls⟩ := hcut (Nat.not_lt.mp hlong)
      simp only [made] at hdefined hparts hcalls
      rcases wrong_of_two hm hpos (Nat.not_le.mp htwo) hrun with
        hundefined | hnone | ⟨q, qs, hq, hqlen⟩
      · rw [hundefined] at hdefined
        cases hdefined
      · simp [hnone] at hcalls
      · rw [hq, List.cons_append] at hparts
        obtain rfl := (List.cons.inj hparts).1
        omega
    · match files with
      | [] => exact hne rfl
      | [f] => simp at hlen
      | f :: g :: rest =>
        obtain ⟨v, hv, _, hopen, _⟩ := pipeFile_healthy hm capacity f (fresh volno)
        obtain ⟨ps, hps⟩ := (hopen rfl).2.2 (by omega)
        rw [copyFiles_of_ok hv] at hrun
        have hundefined := undefined_of_cut hm (w := v) (by simp [hps])
          ⟨g, List.mem_cons_self, Or.inr (by omega)⟩ hrun
        simp only [made] at hdefined
        rw [hundefined] at hdefined
        cases hdefined
  · intro h opens
    exact asJoined_of hm h

/-- Two files of one byte each, with room for 1 Kb. -/
theorem asJoined_two_bytes : AsJoined healthy 1 1 0 [[1], [2]] :=
  (asJoined_iff (by decide) 1 0 [[1], [2]]).mpr (Or.inr ⟨by decide, Or.inl (by decide)⟩) healthy

/-- Two files of 600 bytes, which make one part of 1200. -/
theorem capacity_taken_twice : ¬ ∀ (opens : Opens) (maxcdsize capacity volno : Nat)
    (files : List Bytes), 0 < maxcdsize → AsJoined opens maxcdsize capacity volno files := by
  intro hall
  have hsame := (hall healthy 1 1 0 [List.replicate 600 7, List.replicate 600 8] (by decide)).same
  revert hsame
  decide +kernel

end Results

end FileArguments
