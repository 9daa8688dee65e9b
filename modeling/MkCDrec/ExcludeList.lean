import Mathlib.Data.List.DropRight
import MkCDrec.Lib.Columns
import MkCDrec.Lib.Paths

/-!
# The exclude list of `tar`

`Build_exclude_list` collects absolute paths, one on a line, and makes a pattern of every word
for a `tar` that runs in `Fs`: it takes the text of `Fs` off the beginning and puts a point
before the slash that is then the first character.
-/

namespace ExcludeList

open ShellText Paths Words Columns

/-- A line of `mount`. -/
structure Mount where
  device : Text
  point : Text
  fsType : Text
  options : Text
deriving DecidableEq

def Mount.line (m : Mount) : Text :=
  m.device ++ " on ".toList ++ m.point ++ " type ".toList ++ m.fsType ++ " (".toList ++ m.options ++
    ")".toList

/-- `awk '{print $k}'`. -/
def Mount.field (m : Mount) (k : Nat) : Text := (words m.line).getD (k - 1) []

/-- What `Build_exclude_list` reads. -/
structure Job where
  fs : Text
  dev : Text
  tape : Bool
  destinationPath : Text
  isofsDir : Text
  rootfs : Text
  excludeList : Text
  mounts : List Mount

namespace Job

variable (j : Job)

/-- `mount | egrep -v "..|${Dev}"`. -/
def mountsWithout (ws : List Text) : List Mount :=
  j.mounts.filter fun m => !(ws ++ [j.dev]).any fun w => contains w m.line

/-- What a loop over the third words of these lines runs through. -/
def pointsWithout (ws : List Text) : List Text :=
  ((j.mountsWithout ws).map fun m => m.field 3).filter fun w => w ≠ []

/-- `mount | grep ${exc}` leaves one line of type `nfs`. -/
def isNfs (exc : Text) : Bool :=
  ((j.mounts.filter fun m => contains exc m.line).map fun m => m.field 5).rdropWhile
    (fun w => w = []) = ["nfs".toList]

/-- The lines of `exclude_list`. -/
def file : List Text :=
  (if j.tape then [] else [echo j.destinationPath]) ++
    ["/proc/kcore".toList, echo j.isofsDir, echo j.rootfs] ++
    (words (echo j.excludeList)).map echo ++
    ((j.pointsWithout ["proc".toList, "devfs".toList, "devpts".toList]).filter j.isNfs).map
      (· ++ ['/']) ++
    if j.fs = ['/'] then (j.pointsWithout ["devfs".toList, "devpts".toList]).map (· ++ ['/'])
    else []

/-- `sed -e "s;^${Fs};;"`. -/
def strip (fs l : Text) : Text := if beginsWith fs l then l.drop fs.length else l

/-- `sed -e 's;^/\(.*\)$;\./\1;'`. -/
def relative : Text → Text
  | '/' :: q => '.' :: '/' :: q
  | l => l

/-- What `${_Fs}.exclude_list` has for a word of `exclude_list`. -/
def pattern (i : Text) : Text :=
  if j.fs = ['/'] then relative (echo i) else relative (strip j.fs (echo i))

/-- `tar` leaves out the file below `Fs`. -/
def leftOut (m : Path) : Prop := ∃ i ∈ j.file.flatMap words, excludes (j.pattern i) m

/-- The absolute paths that are to be excluded. -/
def excluded : List Text :=
  [j.destinationPath, j.isofsDir, j.rootfs] ++ words j.excludeList ++
    (j.mounts.filter fun m => m.fsType = "nfs".toList).map Mount.point ++
    if j.fs = ['/'] then (j.mounts.map Mount.point).filter fun p => p ≠ ['/'] else []

/-- Exactly the files at and below excluded paths are left out. -/
def Exact : Prop :=
  ∀ m, Valid m → (j.leftOut m ↔ ∃ e ∈ j.excluded, names e <+: names j.fs ++ m)

/-- The words of the settings. -/
def settings : List Text :=
  (if j.tape then [] else words j.destinationPath) ++ words j.isofsDir ++ words j.rootfs ++
    words j.excludeList

/-- The paths that are taken for absolute ones. -/
inductive Listed : Text → Prop
  | setting {w : Text} (mem : w ∈ j.settings) (plain : isOption w = false) : Listed w
  | kcore : Listed "/proc/kcore".toList
  | nfs {w : Text} (mem : w ∈ j.pointsWithout ["proc".toList, "devfs".toList, "devpts".toList])
      (nfs : j.isNfs w = true) : Listed (w ++ ['/'])
  | mounted {w : Text} (mem : w ∈ j.pointsWithout ["devfs".toList, "devpts".toList])
      (root : j.fs = ['/']) : Listed (w ++ ['/'])

/-- What a path has behind the text of `Fs`. -/
def rest (w : Text) : Text := if j.fs = ['/'] then w else strip j.fs w

def Rooted (r q : Text) : Prop := r = '/' :: q ∨ r = '.' :: '/' :: q

/-- A path that is listed is taken for this one below `Fs`. -/
def Place (q : Text) : Prop := ∃ w, j.Listed w ∧ Rooted (j.rest w) q

/-- No listed path is taken for one below `Fs` that is not excluded, and if something without
a slash is left of one, then `Fs` itself is excluded. Excluded paths below `Fs` are reached by
listed ones, and where `Fs` is excluded, one is taken for `Fs`. -/
structure Aligned : Prop where
  rooted : ∀ q, j.Place q → ∃ e ∈ j.excluded, names e <+: names j.fs ++ names q
  loose : ∀ w, j.Listed w → j.rest w ≠ [] → (∀ q, ¬ Rooted (j.rest w) q) →
    ∃ e ∈ j.excluded, names e <+: names j.fs
  below : ∀ e ∈ j.excluded, names j.fs <+: names e →
    ∃ q, j.Place q ∧ names j.fs ++ names q <+: names e
  whole : ∀ e ∈ j.excluded, names e <+: names j.fs → ∃ q, j.Place q ∧ names q = []

variable {j} {w r q : Text} {m : Path}

theorem mem_words_echo (hw : isOption w = false) (s : Text) : w ∈ words (echo s) ↔ w ∈ words s := by
  rw [words_echo]
  constructor
  · intro hmem
    exact (List.dropWhile_sublist isOption).subset hmem
  · intro hmem
    rw [← List.takeWhile_append_dropWhile (p := isOption) (l := words s)] at hmem
    rcases List.mem_append.mp hmem with htake | hdrop
    · have hoption := List.mem_takeWhile_imp htake
      rw [hw] at hoption
      cases hoption
    · exact hdrop

theorem isWord_of_mem_pointsWithout {ws : List Text} (h : w ∈ j.pointsWithout ws) : IsWord w := by
  obtain ⟨hmem, hne⟩ := List.mem_filter.mp h
  obtain ⟨m, _, rfl⟩ := List.mem_map.mp hmem
  have hne : m.field 3 ≠ [] := by simpa using hne
  rw [Mount.field] at hne ⊢
  rw [List.getD_eq_getElem?_getD] at hne ⊢
  cases hword : (words m.line)[3 - 1]? with
  | none =>
    rw [hword] at hne
    exact absurd rfl hne
  | some v => exact mem_words (List.mem_of_getElem? hword)

/-- A slash behind a word makes a word that is no option. -/
theorem slash_word (h : IsWord w) : IsWord (w ++ ['/']) ∧ isOption (w ++ ['/']) = false := by
  obtain ⟨hne, hblank, htab⟩ := h
  refine ⟨⟨by simp, by simp [hblank], by simp [htab]⟩, ?_⟩
  exact isOption_eq_false (d := '/') (by decide) (by simp)

theorem mem_words_slash {ws : List Text} (h : ∀ v ∈ ws, IsWord v) :
    w ∈ (ws.map (· ++ ['/'])).flatMap words ↔ ∃ v ∈ ws, v ++ ['/'] = w := by
  rw [List.mem_flatMap]
  constructor
  · rintro ⟨l, hl, hw⟩
    obtain ⟨v, hv, rfl⟩ := List.mem_map.mp hl
    rw [words_of_isWord (slash_word (h v hv)).1, List.mem_singleton] at hw
    exact ⟨v, hv, hw.symm⟩
  · rintro ⟨v, hv, rfl⟩
    refine ⟨v ++ ['/'], List.mem_map_of_mem hv, ?_⟩
    rw [words_of_isWord (slash_word (h v hv)).1]
    exact List.mem_singleton_self _

theorem mem_words_map_echo (hw : isOption w = false) (s : Text) :
    w ∈ ((words (echo s)).map echo).flatMap words ↔ w ∈ words s := by
  rw [← mem_words_echo hw, List.mem_flatMap]
  constructor
  · rintro ⟨l, hl, hmem⟩
    obtain ⟨v, hv, rfl⟩ := List.mem_map.mp hl
    rw [mem_words_echo hw, words_of_isWord (mem_words hv), List.mem_singleton] at hmem
    rwa [hmem]
  · intro hmem
    refine ⟨echo w, List.mem_map_of_mem hmem, ?_⟩
    rw [mem_words_echo hw, words_of_isWord (mem_words hmem)]
    exact List.mem_singleton_self w

theorem mem_settings (hw : isOption w = false) : w ∈ j.settings ↔
    w ∈ (if j.tape then [] else [echo j.destinationPath]).flatMap words ∨
      w ∈ words (echo j.isofsDir) ∨ w ∈ words (echo j.rootfs) ∨
      w ∈ ((words (echo j.excludeList)).map echo).flatMap words := by
  rw [mem_words_map_echo hw, mem_words_echo hw, mem_words_echo hw, settings]
  cases j.tape <;> simp [mem_words_echo hw]

theorem mem_words_file : w ∈ j.file.flatMap words ↔
    w ∈ (if j.tape then [] else [echo j.destinationPath]).flatMap words ∨
      w ∈ words "/proc/kcore".toList ∨ w ∈ words (echo j.isofsDir) ∨ w ∈ words (echo j.rootfs) ∨
      w ∈ ((words (echo j.excludeList)).map echo).flatMap words ∨
      w ∈ (((j.pointsWithout ["proc".toList, "devfs".toList, "devpts".toList]).filter j.isNfs).map
        (· ++ ['/'])).flatMap words ∨
      w ∈ (if j.fs = ['/'] then
        (j.pointsWithout ["devfs".toList, "devpts".toList]).map (· ++ ['/']) else []).flatMap words := by
  rw [file]
  generalize "/proc/kcore".toList = kcore
  simp only [List.flatMap_append, List.mem_append, List.flatMap_cons, List.flatMap_nil,
    List.append_nil, or_assoc]

/-- The words of the file that are no options are the listed paths. -/
theorem listed_iff (hw : isOption w = false) : w ∈ j.file.flatMap words ↔ j.Listed w := by
  have hkcore : w ∈ words "/proc/kcore".toList ↔ w = "/proc/kcore".toList := by
    rw [words_of_isWord ⟨by decide, by decide, by decide⟩, List.mem_singleton]
  have hnfs : w ∈ (((j.pointsWithout ["proc".toList, "devfs".toList, "devpts".toList]).filter
      j.isNfs).map (· ++ ['/'])).flatMap words ↔ _ :=
    mem_words_slash fun v hv => isWord_of_mem_pointsWithout (List.mem_filter.mp hv).1
  have hmounted : w ∈ (if j.fs = ['/'] then (j.pointsWithout ["devfs".toList,
      "devpts".toList]).map (· ++ ['/']) else []).flatMap words ↔
      j.fs = ['/'] ∧ ∃ v ∈ j.pointsWithout ["devfs".toList, "devpts".toList], v ++ ['/'] = w := by
    by_cases hfs : j.fs = ['/']
    · rw [if_pos hfs, and_iff_right hfs]
      exact mem_words_slash fun v hv => isWord_of_mem_pointsWithout hv
    · rw [if_neg hfs]
      simp [hfs]
  rw [mem_words_file, hkcore, hnfs, hmounted]
  constructor
  · rintro (h | rfl | h | h | h | ⟨v, hv, rfl⟩ | ⟨hfs, v, hv, rfl⟩)
    · exact Listed.setting ((mem_settings hw).mpr (Or.inl h)) hw
    · exact Listed.kcore
    · exact Listed.setting ((mem_settings hw).mpr (Or.inr (Or.inl h))) hw
    · exact Listed.setting ((mem_settings hw).mpr (Or.inr (Or.inr (Or.inl h)))) hw
    · exact Listed.setting ((mem_settings hw).mpr (Or.inr (Or.inr (Or.inr h)))) hw
    · obtain ⟨hv, hnfs⟩ := List.mem_filter.mp hv
      exact Listed.nfs hv hnfs
    · exact Listed.mounted hv hfs
  · intro h
    cases h with
    | setting mem _ =>
      rcases (mem_settings hw).mp mem with h | h | h | h
      · exact Or.inl h
      · exact Or.inr (Or.inr (Or.inl h))
      · exact Or.inr (Or.inr (Or.inr (Or.inl h)))
      · exact Or.inr (Or.inr (Or.inr (Or.inr (Or.inl h))))
    | kcore => exact Or.inr (Or.inl rfl)
    | nfs mem nfs =>
      have hmem := List.mem_filter.mpr ⟨mem, nfs⟩
      exact Or.inr (Or.inr (Or.inr (Or.inr (Or.inr (Or.inl ⟨_, hmem, rfl⟩)))))
    | mounted mem root =>
      exact Or.inr (Or.inr (Or.inr (Or.inr (Or.inr (Or.inr ⟨root, _, mem, rfl⟩)))))

theorem Listed.isOption_eq (h : j.Listed w) : isOption w = false := by
  cases h with
  | setting mem plain => exact plain
  | kcore => decide
  | nfs mem nfs => exact (slash_word (isWord_of_mem_pointsWithout mem)).2
  | mounted mem root => exact (slash_word (isWord_of_mem_pointsWithout mem)).2

theorem excludes_relative_of_rooted (h : Rooted r q) :
    excludes (relative r) m ↔ names q <+: m := by
  rcases h with rfl | rfl <;> simp [relative, excludes]

/-- A pattern without a point is for files in every directory. -/
theorem excludes_relative_of_loose (hne : r ≠ []) (h : ∀ q, ¬ Rooted r q) :
    excludes (relative r) m ↔ ∃ t, t <:+ m ∧ names r <+: t := by
  have hrelative : relative r = r := by
    fun_cases relative r with
    | case1 q => exact absurd (Or.inl rfl) (h q)
    | case2 => rfl
  rw [hrelative]
  fun_cases excludes r m with
  | case1 => exact absurd rfl hne
  | case2 q => exact absurd (Or.inr rfl) (h q)
  | case3 => simp

theorem pattern_eq (hw : IsWord w) (hplain : isOption w = false) :
    j.pattern w = relative (j.rest w) := by
  have hecho : echo w = w := by
    rw [echo, words_of_isWord hw, List.dropWhile_cons_of_neg (by simp [hplain])]
    simp
  rw [pattern, rest, hecho, apply_ite relative]

/-- Nothing is made of a word that `echo` takes for an option. -/
theorem pattern_of_isOption (hw : IsWord w) (hoption : isOption w = true) : j.pattern w = [] := by
  have hecho : echo w = [] := by
    rw [echo, words_of_isWord hw, List.dropWhile_cons_of_pos hoption]
    rfl
  have hstrip : strip j.fs [] = [] := by simp [strip]
  rw [pattern, hecho, hstrip, ite_self]
  rfl

theorem leftOut_iff : j.leftOut m ↔ (∃ q, j.Place q ∧ names q <+: m) ∨
    ∃ w, j.Listed w ∧ j.rest w ≠ [] ∧ (∀ q, ¬ Rooted (j.rest w) q) ∧
      ∃ t, t <:+ m ∧ names (j.rest w) <+: t := by
  constructor
  · rintro ⟨w, hmem, hout⟩
    obtain ⟨l, _, hl⟩ := List.mem_flatMap.mp hmem
    have hw : IsWord w := mem_words hl
    cases hplain : isOption w with
    | true =>
      rw [pattern_of_isOption hw hplain] at hout
      cases hout
    | false =>
      rw [pattern_eq hw hplain] at hout
      have hlisted := (listed_iff hplain).mp hmem
      by_cases hrooted : ∃ q, Rooted (j.rest w) q
      · obtain ⟨q, hq⟩ := hrooted
        exact Or.inl ⟨q, ⟨w, hlisted, hq⟩, (excludes_relative_of_rooted hq).mp hout⟩
      · push Not at hrooted
        have hne : j.rest w ≠ [] := by
          intro hnil
          rw [hnil] at hout
          cases hout
        exact Or.inr ⟨w, hlisted, hne, hrooted, (excludes_relative_of_loose hne hrooted).mp hout⟩
  · have hout : ∀ w, j.Listed w → excludes (relative (j.rest w)) m → j.leftOut m := by
      intro w hlisted h
      have hmem := (listed_iff hlisted.isOption_eq).mpr hlisted
      obtain ⟨l, _, hl⟩ := List.mem_flatMap.mp hmem
      exact ⟨w, hmem, by rwa [pattern_eq (mem_words hl) hlisted.isOption_eq]⟩
    rintro (⟨q, ⟨w, hlisted, hq⟩, hpre⟩ | ⟨w, hlisted, hne, hloose, ht⟩)
    · exact hout w hlisted ((excludes_relative_of_rooted hq).mpr hpre)
    · exact hout w hlisted ((excludes_relative_of_loose hne hloose).mpr ht)

/-- A text without a slash before it has a name. -/
theorem names_ne_nil (hne : r ≠ []) (h : ∀ q, ¬ Rooted r q) : names r ≠ [] := by
  obtain ⟨c, s, rfl⟩ := List.exists_cons_of_ne_nil hne
  have hc : c ≠ '/' := by
    rintro rfl
    exact h s (Or.inl rfl)
  obtain ⟨t, ts, hts⟩ := List.exists_cons_of_ne_nil (List.splitOn_ne_nil '/' s)
  rw [names, List.splitOn_cons_eq_if_modifyHead, hts]
  simp [hc]

theorem Aligned.excluded_of_leftOut (h : j.Aligned) (hm : j.leftOut m) :
    ∃ e ∈ j.excluded, names e <+: names j.fs ++ m := by
  rcases leftOut_iff.mp hm with ⟨q, hq, hpre⟩ | ⟨w, hw, hne, hloose, _⟩
  · obtain ⟨e, he, hqe⟩ := h.rooted q hq
    exact ⟨e, he, hqe.trans ((List.prefix_append_right_inj _).mpr hpre)⟩
  · obtain ⟨e, he, hfs⟩ := h.loose w hw hne hloose
    exact ⟨e, he, hfs.trans (List.prefix_append ..)⟩

theorem Aligned.leftOut_of_excluded (h : j.Aligned) {e : Text} (he : e ∈ j.excluded)
    (hpre : names e <+: names j.fs ++ m) : j.leftOut m := by
  rw [leftOut_iff]
  rcases List.prefix_or_prefix_of_prefix hpre (List.prefix_append ..) with hfs | hfs
  · obtain ⟨q, hq, hnil⟩ := h.whole e he hfs
    exact Or.inl ⟨q, hq, hnil ▸ List.nil_prefix⟩
  · obtain ⟨q, hq, hqe⟩ := h.below e he hfs
    exact Or.inl ⟨q, hq, (List.prefix_append_right_inj _).mp (hqe.trans hpre)⟩

/-- Where exactly the excluded files are left out, those with a name of their own show what
the listed paths are taken for. -/
theorem Exact.aligned (h : j.Exact) : j.Aligned := by
  have hrooted : ∀ q, j.Place q → ∃ e ∈ j.excluded, names e <+: names j.fs ++ names q := by
    intro q hq
    exact (h (names q) (valid_names q)).mp (leftOut_iff.mpr (Or.inl ⟨q, hq, List.prefix_rfl⟩))
  have hloose : ∀ w, j.Listed w → j.rest w ≠ [] → (∀ q, ¬ Rooted (j.rest w) q) →
      ∃ e ∈ j.excluded, names e <+: names j.fs := by
    intro w hw hne hw'
    obtain ⟨n, hn, hfresh⟩ := exists_fresh (j.excluded.map names)
    have hvalid : Valid (n :: names (j.rest w)) := by
      intro x hx
      rcases List.mem_cons.mp hx with rfl | hx
      · exact hn
      · exact valid_names _ x hx
    have hout : j.leftOut (n :: names (j.rest w)) :=
      leftOut_iff.mpr (Or.inr ⟨w, hw, hne, hw', _, List.suffix_cons n _, List.prefix_rfl⟩)
    obtain ⟨e, he, hpre⟩ := (h _ hvalid).mp hout
    exact ⟨e, he, prefix_of_notMem hpre (hfresh _ (List.mem_map_of_mem he))⟩
  have hwhole : ∀ e ∈ j.excluded, names e <+: names j.fs → ∃ q, j.Place q ∧ names q = [] := by
    intro e he hfs
    have hpre : names e <+: names j.fs ++ [] := by rwa [List.append_nil]
    rcases leftOut_iff.mp ((h [] (by simp [Valid])).mpr ⟨e, he, hpre⟩) with
      ⟨q, hq, hnil⟩ | ⟨w, _, hne, hw, t, ht, hnil⟩
    · exact ⟨q, hq, List.prefix_nil.mp hnil⟩
    · obtain rfl := List.suffix_nil.mp ht
      exact absurd (List.prefix_nil.mp hnil) (names_ne_nil hne hw)
  refine ⟨hrooted, hloose, ?_, hwhole⟩
  rintro e he ⟨m, hm⟩
  have hvalid : Valid m := fun x hx => valid_names e x (hm ▸ List.mem_append_right _ hx)
  rcases leftOut_iff.mp ((h m hvalid).mpr ⟨e, he, hm ▸ List.prefix_rfl⟩) with
    ⟨q, hq, hpre⟩ | ⟨w, hw, hne, hw', _⟩
  · exact ⟨q, hq, hm ▸ (List.prefix_append_right_inj _).mpr hpre⟩
  · obtain ⟨e', he', hfs⟩ := hloose w hw hne hw'
    obtain ⟨q, hq, hnil⟩ := hwhole e' he' hfs
    exact ⟨q, hq, by rw [hnil, List.append_nil]; exact ⟨m, hm⟩⟩

/-- The files that are left out are exactly the excluded ones just if the listed paths and the
excluded ones are aligned. -/
theorem exact_iff (j : Job) : j.Exact ↔ j.Aligned := by
  constructor
  · exact Exact.aligned
  · intro h m _
    constructor
    · intro hm
      exact h.excluded_of_leftOut hm
    · rintro ⟨e, he, hpre⟩
      exact h.leftOut_of_excluded he hpre

/-- The file systems `/` and `/home`, and `/home` is backed up without `/tmp`. -/
def home : Job where
  fs := "/home".toList
  dev := "hda3".toList
  tape := false
  destinationPath := "/home/backup".toList
  isofsDir := "/var/isofs".toList
  rootfs := "/var/rootfs".toList
  excludeList := "/tmp".toList
  mounts :=
    [⟨"/dev/hda1".toList, "/".toList, "ext3".toList, "rw".toList⟩,
      ⟨"/dev/hda3".toList, "/home".toList, "ext3".toList, "rw".toList⟩]

/-- A directory `/home/tmp` is left out though only `/tmp` is excluded. -/
theorem home_tmp_left_out : ¬ ∀ j : Job, j.Exact := by
  intro h
  have hout : home.leftOut ["tmp".toList] := ⟨"/tmp".toList, by decide, by decide⟩
  have hvalid : Valid ["tmp".toList] := by simp [Valid]
  obtain ⟨e, he, hpre⟩ := (h home _ hvalid).1 hout
  revert e
  decide

end Job

end ExcludeList
