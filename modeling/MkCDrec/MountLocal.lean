import MkCDrec.Lib.Mounting
import MkCDrec.Lib.Paths
import MkCDrec.Table

/-!
# Mounting everything for another backup program

`MountLocalFileSystems` mounts the file systems of `To_Restore` below `/mnt/local`, in the order
in which `sort -k 2,2` puts the lines. A `mount` with status 1 ends the loop, one with another
status is passed over.
-/

namespace MountLocal

open ShellText Table Paths Mounting

def localfs : Text := "/mnt/local".toList

/-- `sort -k 2,2`; the whole lines are compared last. -/
def sortLe (l l' : Line) : Bool :=
  if l.fs = l'.fs then strcoll l.text l'.text else strcoll ('\t' :: l.fs) ('\t' :: l'.fs)

def sorted (table : List Line) : List Line := table.insertionSort fun l l' => sortLe l l'

/-- `${LOCALFS}${Fs}`. -/
def point (l : Line) : Path := names (localfs ++ l.fs)

/-- The loop, with the status of each `mount`; the last mount stands first. -/
def mountLoop (status : Line → Nat) : List Line → List (Path × Text) → List (Path × Text)
  | [], mounts => mounts
  | l :: lines, mounts =>
    match status l with
    | 0 => mountLoop status lines ((point l, l.dev) :: mounts)
    | 1 => mounts
    | _ => mountLoop status lines mounts

def mountLocalFileSystems (status : Line → Nat) (table : List Line) : List (Path × Text) :=
  mountLoop status (sorted table) []

/-- The mounts of the system that was saved, in the order in which they were made. -/
def original (boot : List Line) : List (Path × Text) :=
  boot.reverse.map fun l => (names l.fs, l.dev)

/-- A mount point as `mount` prints it. -/
def Normal (t : Text) : Prop := t = '/' :: ['/'].intercalate (names t)

instance (t : Text) : Decidable (Normal t) :=
  inferInstanceAs (Decidable (t = '/' :: ['/'].intercalate (names t)))

section Names

variable {s t : Text}

theorem names_append_slash (s t : Text) : names (s ++ '/' :: t) = names s ++ names t := by
  rw [names, List.splitOn_append_cons_self, List.filter_append]
  rfl

theorem names_slash (t : Text) : names ('/' :: t) = names t := names_append_slash [] t

theorem Normal.names_localfs (h : Normal t) : names (localfs ++ t) = names localfs ++ names t := by
  rw [h, names_append_slash, names_slash]

theorem intercalate_prefix {p q : Path} (h : p <+: q) :
    ['/'].intercalate p <+: ['/'].intercalate q := by
  induction p generalizing q with
  | nil => exact List.nil_prefix
  | cons n p ih =>
    obtain ⟨q, rfl⟩ := h
    cases p with
    | nil =>
      cases q with
      | nil => exact List.prefix_rfl
      | cons m q =>
        rw [List.cons_append, List.nil_append, List.intercalate_cons_cons, List.append_assoc]
        simp
    | cons m p =>
      rw [List.cons_append, List.cons_append, List.intercalate_cons_cons,
        List.intercalate_cons_cons, List.prefix_append_right_inj]
      exact ih (List.prefix_append (m :: p) q)

/-- A directory above another one stands before it. -/
theorem Normal.prefix_of_names (hs : Normal s) (ht : Normal t) (h : names s <+: names t) :
    s <+: t := by
  rw [hs, ht, List.cons_prefix_cons]
  exact ⟨rfl, intercalate_prefix h⟩

theorem strcoll_of_starts (h : s <+: t) : strcoll s t = true := by
  obtain ⟨t, rfl⟩ := h
  induction s with
  | nil => rfl
  | cons c s ih => simp [strcoll, ih]

end Names

section Sorting

variable {l l' : Line} {table : List Line}

theorem sortLe_iff : sortLe l l' = true ↔
    (l.fs ≠ l'.fs ∧ strcoll l.fs l'.fs = true) ∨ (l.fs = l'.fs ∧ strcoll l.text l'.text = true) := by
  rw [sortLe]
  by_cases h : l.fs = l'.fs
  · simp [h]
  · simp [h, strcoll]

theorem strcoll_of_sortLe (h : sortLe l l' = true) : strcoll l.fs l'.fs = true := by
  rcases sortLe_iff.mp h with h | h
  · exact h.2
  · rw [h.1]
    exact (strcoll_total _ _).elim id id

theorem sortLe_total (l l' : Line) : sortLe l l' = true ∨ sortLe l' l = true := by
  simp only [sortLe_iff]
  by_cases h : l.fs = l'.fs
  · rcases strcoll_total l.text l'.text with ht | ht
    · exact Or.inl (Or.inr ⟨h, ht⟩)
    · exact Or.inr (Or.inr ⟨h.symm, ht⟩)
  · rcases strcoll_total l.fs l'.fs with ht | ht
    · exact Or.inl (Or.inl ⟨h, ht⟩)
    · exact Or.inr (Or.inl ⟨Ne.symm h, ht⟩)

theorem sortLe_trans {l₁ l₂ l₃ : Line} (h : sortLe l₁ l₂ = true) (h' : sortLe l₂ l₃ = true) :
    sortLe l₁ l₃ = true := by
  have hfs := strcoll_trans (strcoll_of_sortLe h) (strcoll_of_sortLe h')
  rw [sortLe_iff]
  by_cases heq : l₁.fs = l₃.fs
  · refine Or.inr ⟨heq, ?_⟩
    -- then the one between is the same as well
    have hmid : l₁.fs = l₂.fs :=
      strcoll_antisymm (strcoll_of_sortLe h) (heq ▸ strcoll_of_sortLe h')
    rcases sortLe_iff.mp h with h | h
    · exact absurd hmid h.1
    · rcases sortLe_iff.mp h' with h' | h'
      · exact absurd (hmid.symm.trans heq) h'.1
      · exact strcoll_trans h.2 h'.2
  · exact Or.inl ⟨heq, hfs⟩

theorem perm_sorted (table : List Line) : (sorted table).Perm table := List.perm_insertionSort _ _

theorem pairwise_sorted (table : List Line) :
    (sorted table).Pairwise fun l l' => sortLe l l' = true := by
  have : Std.Total fun l l' : Line => sortLe l l' = true := ⟨sortLe_total⟩
  have : IsTrans Line fun l l' => sortLe l l' = true := ⟨fun _ _ _ => sortLe_trans⟩
  exact List.pairwise_insertionSort _ _

end Sorting

section Loop

variable {status : Line → Nat} {lines boot table : List Line} {l : Line}

/-- The lines whose `mount` succeeds, before one that ends the loop. -/
def mounted (status : Line → Nat) (lines : List Line) : List Line :=
  (lines.takeWhile fun l => status l ≠ 1).filter fun l => status l = 0

theorem mountLoop_eq (status : Line → Nat) (lines : List Line) (mounts : List (Path × Text)) :
    mountLoop status lines mounts =
      (mounted status lines).reverse.map (fun l => (point l, l.dev)) ++ mounts := by
  induction lines generalizing mounts with
  | nil => rfl
  | cons l lines ih =>
    rw [mountLoop]
    split
    · rename_i h
      simp [ih, mounted, h]
    · rename_i h
      simp [mounted, h]
    · rename_i h0 h1
      have hne0 : ¬ status l = 0 := h0
      have hne1 : ¬ status l = 1 := h1
      simp [ih, mounted, hne0, hne1]

/-- What is mounted of the lines behind one. -/
theorem mounted_cons (status : Line → Nat) (l : Line) (lines : List Line) :
    mounted status (l :: lines) =
      if status l = 1 then [] else
        if status l = 0 then l :: mounted status lines else mounted status lines := by
  by_cases h1 : status l = 1
  · simp [mounted, h1]
  · by_cases h0 : status l = 0
    · simp [mounted, h0]
    · simp [mounted, h0, h1]

theorem mem_mounted (hsorted : lines.Pairwise fun l l' => sortLe l l' = true)
    (hfs : lines.Pairwise fun l l' => l.fs ≠ l'.fs) (hl : l ∈ lines) :
    l ∈ mounted status lines ↔ status l = 0 ∧
      ∀ l' ∈ lines, l'.fs ≠ l.fs → strcoll l'.fs l.fs = true → status l' ≠ 1 := by
  induction lines with
  | nil => cases hl
  | cons first lines ih =>
    obtain ⟨hfirst, hrest⟩ := List.pairwise_cons.mp hsorted
    obtain ⟨hne, hnerest⟩ := List.pairwise_cons.mp hfs
    rw [mounted_cons]
    rcases List.mem_cons.mp hl with rfl | hl
    · -- nothing stands before the first line
      have hlater : ∀ l' ∈ l :: lines, l'.fs ≠ l.fs → ¬ strcoll l'.fs l.fs = true := by
        intro l' hl' hne' hle
        rcases List.mem_cons.mp hl' with rfl | hl'
        · exact hne' rfl
        · exact hne' (strcoll_antisymm hle (strcoll_of_sortLe (hfirst l' hl')))
      constructor
      · intro hmem
        by_cases h1 : status l = 1
        · rw [if_pos h1] at hmem
          cases hmem
        · by_cases h0 : status l = 0
          · exact ⟨h0, fun l' hl' hne' hle => absurd hle (hlater l' hl' hne')⟩
          · rw [if_neg h1, if_neg h0] at hmem
            have hin : l ∈ lines := (List.takeWhile_sublist _).subset (List.mem_filter.mp hmem).1
            exact absurd rfl (hne l hin)
      · rintro ⟨h0, _⟩
        rw [if_neg (by omega), if_pos h0]
        exact List.mem_cons_self
    · have hbefore : first.fs ≠ l.fs ∧ strcoll first.fs l.fs = true :=
        ⟨hne l hl, strcoll_of_sortLe (hfirst l hl)⟩
      have hother : l ≠ first := fun h => hbefore.1 (congrArg Line.fs h.symm)
      rw [List.forall_mem_cons]
      by_cases h1 : status first = 1
      · rw [if_pos h1]
        refine iff_of_false List.not_mem_nil ?_
        rintro ⟨_, hfirst1, _⟩
        exact hfirst1 hbefore.1 hbefore.2 h1
      · have hmem : l ∈ (if status first = 0 then first :: mounted status lines
            else mounted status lines) ↔ l ∈ mounted status lines := by
          split
          · rw [List.mem_cons, or_iff_right hother]
          · rfl
        rw [if_neg h1, hmem, ih hrest hnerest hl]
        exact and_congr_right fun _ => (and_iff_right fun _ _ => h1).symm

/-- Nothing that is mounted later hides what is mounted. -/
theorem unhidden_mounted (hnormal : ∀ l ∈ lines, Normal l.fs)
    (hsorted : lines.Pairwise fun l l' => sortLe l l' = true)
    (hfs : lines.Pairwise fun l l' => l.fs ≠ l'.fs) :
    Unhidden (((mounted status lines).reverse.map fun l => (point l, l.dev)).map Prod.fst) := by
  have hsub : (mounted status lines).Sublist lines :=
    List.filter_sublist.trans (List.takeWhile_sublist _)
  rw [Unhidden, List.map_map, List.pairwise_map, List.pairwise_reverse]
  refine ((hsorted.and hfs).sublist hsub).imp_of_mem ?_
  rintro l l' hl hl' ⟨hle, hne⟩ hprefix
  have hn := hnormal l (hsub.subset hl)
  have hn' := hnormal l' (hsub.subset hl')
  have hnames : names l'.fs <+: names l.fs := by
    change names (localfs ++ l'.fs) <+: names (localfs ++ l.fs) at hprefix
    rwa [hn.names_localfs, hn'.names_localfs, List.prefix_append_right_inj] at hprefix
  exact hne (strcoll_antisymm (strcoll_of_sortLe hle)
    (strcoll_of_starts (hn'.prefix_of_names hn hnames)))

end Loop

/-- A system whose mounts hide nothing, and the lines of `To_Restore` in any order. -/
structure System where
  boot : List Line
  table : List Line
  perm : table.Perm boot
  normal : ∀ l ∈ boot, Normal l.fs
  unhidden : Unhidden ((original boot).map Prod.fst)
  devices : (boot.map Line.dev).Nodup

namespace System

variable (s : System)

theorem fs_ne : s.boot.Pairwise fun l l' => l.fs ≠ l'.fs := by
  have h := s.unhidden
  rw [Unhidden, original, List.map_map, List.pairwise_map, List.pairwise_reverse] at h
  refine h.imp ?_
  intro l l' hnot heq
  apply hnot
  change names l'.fs <+: names l.fs
  rw [heq]

theorem eq_of_dev {l l' : Line} (hl : l ∈ s.boot) (hl' : l' ∈ s.boot) (h : l.dev = l'.dev) :
    l = l' := List.inj_on_of_nodup_map s.devices hl hl' h

/-- A path is found where it was exactly if its file system could be mounted, and no `mount` of one
that is sorted before it had status 1. -/
theorem located_iff (status : Line → Nat) {l : Line} (hl : l ∈ s.boot) {path rest : Path}
    (hplace : locate (original s.boot) path = some (l.dev, rest)) :
    locate (mountLocalFileSystems status s.table) (names localfs ++ path) = some (l.dev, rest) ↔
      status l = 0 ∧
        ∀ l' ∈ s.boot, l'.fs ≠ l.fs → strcoll l'.fs l.fs = true → status l' ≠ 1 := by
  have hperm : (sorted s.table).Perm s.boot := (perm_sorted s.table).trans s.perm
  have hfs : (sorted s.table).Pairwise fun l l' => l.fs ≠ l'.fs :=
    (hperm.pairwise_iff fun h => Ne.symm h).mpr s.fs_ne
  have hmem : l ∈ mounted status (sorted s.table) ↔ _ :=
    mem_mounted (pairwise_sorted s.table) hfs (hperm.mem_iff.mpr hl)
  simp only [hperm.mem_iff] at hmem
  have hhid : Unhidden (((mounted status (sorted s.table)).reverse.map
      fun l => (point l, l.dev)).map Prod.fst) :=
    unhidden_mounted (fun l hl => s.normal l (hperm.mem_iff.mp hl)) (pairwise_sorted s.table) hfs
  -- where it was, the path lay on the file system of `l`
  have howner : Deepest (original s.boot) path (names l.fs, l.dev) ∧
      path.drop (names l.fs).length = rest := by
    obtain ⟨m, hdeepest, hdev, hrest⟩ := (locate_eq_some_iff s.unhidden).mp hplace
    obtain ⟨l₀, hl₀, rfl⟩ := List.mem_map.mp hdeepest.mem
    obtain rfl := s.eq_of_dev (List.mem_reverse.mp hl₀) hl hdev
    exact ⟨hdeepest, hrest⟩
  have hin : ∀ l' ∈ mounted status (sorted s.table), l' ∈ s.boot := by
    intro l' hl'
    exact hperm.mem_iff.mp ((List.takeWhile_sublist _).subset (List.mem_filter.mp hl').1)
  have hpoint : ∀ l' ∈ s.boot, point l' = names localfs ++ names l'.fs := fun l' hl' =>
    (s.normal l' hl').names_localfs
  rw [← hmem, mountLocalFileSystems, mountLoop_eq, List.append_nil, locate_eq_some_iff hhid]
  constructor
  · rintro ⟨m, hdeepest, hdev, _⟩
    obtain ⟨l₁, hl₁, rfl⟩ := List.mem_map.mp hdeepest.mem
    rw [List.mem_reverse] at hl₁
    obtain rfl := s.eq_of_dev (hin l₁ hl₁) hl hdev
    exact hl₁
  · intro hl₁
    refine ⟨(point l, l.dev), ⟨?_, ?_, ?_⟩, rfl, ?_⟩
    · exact List.mem_map_of_mem (List.mem_reverse.mpr hl₁)
    · rw [hpoint l hl, List.prefix_append_right_inj]
      exact howner.1.above
    · intro m hm habove
      obtain ⟨l', hl', rfl⟩ := List.mem_map.mp hm
      have hboot := hin l' (List.mem_reverse.mp hl')
      rw [hpoint l' hboot, List.prefix_append_right_inj] at habove
      rw [hpoint l' hboot, hpoint l hl, List.prefix_append_right_inj]
      exact howner.1.deepest (names l'.fs, l'.dev)
        (List.mem_map.mpr ⟨l', List.mem_reverse.mpr hboot, rfl⟩) habove
    · rw [hpoint l hl, List.length_append, List.drop_append, List.drop_eq_nil_of_le (by omega),
        List.nil_append, Nat.add_sub_cancel_left, howner.2]

end System

def rootLine : Line := ⟨"/dev/sda1".toList, ['/'], "ext3".toList, []⟩

def usrLine : Line := ⟨"/dev/sda2".toList, "/usr".toList, "ext3".toList, []⟩

def localLine : Line := ⟨"/dev/sdb1".toList, "/usr/local".toList, "ext3".toList, []⟩

theorem three_lines : (∀ l ∈ [rootLine, usrLine, localLine], Normal l.fs) ∧
    Unhidden ((original [rootLine, usrLine, localLine]).map Prod.fst) ∧
    ([rootLine, usrLine, localLine].map Line.dev).Nodup := by decide

/-- `/usr/local` stands in `To_Restore` before the file system it is mounted on. -/
def threeDisks : System where
  boot := [rootLine, usrLine, localLine]
  table := [localLine, usrLine, rootLine]
  perm := List.reverse_perm [rootLine, usrLine, localLine]
  normal := three_lines.1
  unhidden := three_lines.2.1
  devices := three_lines.2.2

def usrFails (l : Line) : Nat := if l = usrLine then 32 else 0

/-- After `/usr` could not be mounted, what belongs there is put elsewhere. -/
theorem not_located_usr :
    locate (mountLocalFileSystems usrFails threeDisks.table)
        (names localfs ++ ["usr".toList, "lib".toList]) ≠ some ("sda2".toList, ["lib".toList]) := by
  intro h
  have hstatus := ((threeDisks.located_iff usrFails (l := usrLine) (by decide) (by decide)).mp h).1
  exact absurd hstatus (by decide)

end MountLocal
