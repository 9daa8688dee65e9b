import Mathlib.Data.List.Infix

/-!
# File systems mounted on each other

A place is a directory of a mounted file system, and one file system can be mounted on it.
A path is walked name by name, and at each place the walk goes on in what is mounted there.
Where a path ends depends on what was mounted last on a directory above it.
-/

namespace Mounting

universe u v
variable {ν : Type u} {δ : Type v} [DecidableEq ν]

/-- The number of a file system, in the order in which they were mounted, and a directory of it.
The number of the one that was there before all is zero. -/
abbrev Place (ν : Type u) := Nat × List ν

/-- The places that are mounted on, the last one first. -/
abbrev Table (ν : Type u) := List (Place ν)

/-- What is mounted on a place, and on that, and so on. -/
def follow : Table ν → Place ν → Place ν
  | [], q => q
  | p :: older, q => if follow older q = p then (older.length + 1, []) else follow older q

def walk (t : Table ν) (path : List ν) : Place ν :=
  path.foldl (fun q n => follow t (q.1, q.2 ++ [n])) (follow t (0, []))

/-- A file system is mounted on a path. -/
def mount (t : Table ν) (path : List ν) : Table ν := walk t path :: t

/-- The table after mounts on these paths, the last one first. -/
def table (paths : List (List ν)) : Table ν := paths.foldr (fun path t => mount t path) []

/-- The last path that was mounted on and is above another one, and what is below it. -/
def covering (paths : List (List ν)) (path : List ν) : Place ν :=
  match paths with
  | [] => (0, path)
  | p :: older =>
    if p <+: path then (older.length + 1, path.drop p.length) else covering older path

section Walking

variable {paths : List (List ν)} {path path' : List ν}

theorem length_table (paths : List (List ν)) : (table paths).length = paths.length := by
  induction paths with
  | nil => rfl
  | cons p older ih => exact congrArg (· + 1) ih

theorem walk_append (t : Table ν) (path : List ν) (n : ν) :
    walk t (path ++ [n]) = follow t ((walk t path).1, (walk t path).2 ++ [n]) := by
  rw [walk, List.foldl_append]
  rfl

theorem covering_le (paths : List (List ν)) (path : List ν) :
    (covering paths path).1 ≤ paths.length := by
  induction paths with
  | nil => exact Nat.le_refl 0
  | cons p older ih =>
    rw [covering]
    split
    · exact Nat.le_refl _
    · exact Nat.le_succ_of_le ih

/-- No two paths end in the same place. -/
theorem covering_injective (h : covering paths path = covering paths path') : path = path' := by
  induction paths with
  | nil => exact (Prod.mk.injEq ..).mp h |>.2
  | cons p older ih =>
    have hle := covering_le older path
    have hle' := covering_le older path'
    simp only [covering] at h
    by_cases hp : p <+: path
    · by_cases hp' : p <+: path'
      · rw [if_pos hp, if_pos hp', Prod.mk.injEq] at h
        calc path = p ++ path.drop p.length := List.prefix_append_drop hp
          _ = p ++ path'.drop p.length := by rw [h.2]
          _ = path' := (List.prefix_append_drop hp').symm
      · rw [if_pos hp, if_neg hp'] at h
        have hnum := congrArg Prod.fst h
        dsimp only at hnum
        omega
    · by_cases hp' : p <+: path'
      · rw [if_neg hp, if_pos hp'] at h
        have hnum := congrArg Prod.fst h
        dsimp only at hnum
        omega
      · rw [if_neg hp, if_neg hp'] at h
        exact ih h

/-- A walk through a file system on which nothing is mounted yet. -/
theorem follow_of_lt {t : Table ν} (h : ∀ q ∈ t, q.1 < n) (dir : List ν) :
    follow t (n, dir) = (n, dir) := by
  induction t with
  | nil => rfl
  | cons p older ih =>
    obtain ⟨hp, holder⟩ := List.forall_mem_cons.mp h
    have hne : (n, dir) ≠ p := by
      rintro rfl
      exact Nat.lt_irrefl n hp
    rw [follow, ih holder, if_neg hne]

/-- The walk ends where the last path above mounted says. -/
theorem walk_table (paths : List (List ν)) :
    (∀ path, walk (table paths) path = covering paths path) ∧
      ∀ q ∈ table paths, q.1 < paths.length + 1 := by
  induction paths with
  | nil =>
    refine ⟨?_, by simp [table]⟩
    intro path
    induction path using List.reverseRecOn with
    | nil => rfl
    | append_singleton path n ih => rw [walk_append, ih]; rfl
  | cons p older ih =>
    obtain ⟨hwalk, hbound⟩ := ih
    have htable : table (p :: older) = walk (table older) p :: table older := rfl
    have hlt : ∀ q ∈ table (p :: older), q.1 < older.length + 1 := by
      intro q hq
      rw [htable, List.mem_cons] at hq
      rcases hq with rfl | hq
      · rw [hwalk]
        exact Nat.lt_succ_of_le (covering_le older p)
      · exact hbound q hq
    refine ⟨?_, fun q hq => Nat.lt_succ_of_lt (hlt q hq)⟩
    have hfollow : ∀ q, follow (table (p :: older)) q =
        if follow (table older) q = covering older p then (older.length + 1, [])
        else follow (table older) q := by
      intro q
      rw [htable, follow, length_table, hwalk]
    intro path
    induction path using List.reverseRecOn with
    | nil =>
      have hstart : follow (table older) (0, []) = covering older [] := hwalk []
      change follow (table (p :: older)) (0, []) = _
      rw [hfollow, hstart, covering]
      by_cases hnil : p = []
      · rw [if_pos (by rw [hnil]), if_pos (by rw [hnil]), List.drop_nil]
      · rw [if_neg fun h => hnil (covering_injective h).symm,
          if_neg fun h => hnil (List.prefix_nil.mp h)]
    | append_singleton path n ihpath =>
      rw [walk_append, ihpath]
      by_cases hp : p <+: path
      · -- inside of the new file system, on which nothing is mounted
        have hin : covering (p :: older) path = (older.length + 1, path.drop p.length) := by
          rw [covering, if_pos hp]
        rw [hin, follow_of_lt hlt, covering, if_pos (hp.trans (List.prefix_append path [n])),
          List.drop_append_of_le_length hp.length_le]
      · have hout : covering (p :: older) path = covering older path := by rw [covering, if_neg hp]
        have hnext : follow (table older) ((covering older path).1, (covering older path).2 ++ [n]) =
            covering older (path ++ [n]) := by rw [← hwalk, ← hwalk, walk_append]
        rw [hout, hfollow, hnext, covering]
        by_cases heq : path ++ [n] = p
        · rw [if_pos (by rw [heq]), if_pos (by rw [heq]), ← heq, List.drop_length]
        · have hnot : ¬ p <+: path ++ [n] := by
            rw [List.prefix_concat_iff]
            rintro (h | h)
            · exact heq h.symm
            · exact hp h
          rw [if_neg fun h => heq (covering_injective h), if_neg hnot]

end Walking

/-- The device on which a path is found, and its path there; the last mount stands first. -/
def locate (mounts : List (List ν × δ)) (path : List ν) : Option (δ × List ν) :=
  let q := walk (table (mounts.map Prod.fst)) path
  if q.1 = 0 then none else (mounts[mounts.length - q.1]?).map fun m => (m.2, q.2)

/-- No mount hides a directory that was mounted on before. -/
def Unhidden (paths : List (List ν)) : Prop := paths.Pairwise fun p p' => ¬ p <+: p'

instance (paths : List (List ν)) : Decidable (Unhidden paths) :=
  inferInstanceAs (Decidable (paths.Pairwise fun p p' => ¬ p <+: p'))

/-- Of all mounts above a path the one that is nearest to it. -/
structure Deepest (mounts : List (List ν × δ)) (path : List ν) (m : List ν × δ) : Prop where
  mem : m ∈ mounts
  above : m.1 <+: path
  deepest : ∀ m' ∈ mounts, m'.1 <+: path → m'.1 <+: m.1

section Locating

variable {mounts mounts' : List (List ν × δ)} {path : List ν} {m : List ν × δ}

theorem locate_eq_find (mounts : List (List ν × δ)) (path : List ν) :
    locate mounts path =
      (mounts.find? fun m => m.1 <+: path).map fun m => (m.2, path.drop m.1.length) := by
  rw [locate, (walk_table _).1]
  induction mounts with
  | nil => rfl
  | cons m older ih =>
    have hlen : (older.map Prod.fst).length = older.length := List.length_map ..
    rw [List.map_cons, covering]
    by_cases hm : m.1 <+: path
    · rw [if_pos hm]
      simp [hlen, hm]
    · have hfind : (m :: older).find? (fun m => m.1 <+: path) =
          older.find? fun m => m.1 <+: path := by simp [hm]
      rw [if_neg hm, hfind, ← ih]
      have hle := covering_le (older.map Prod.fst) path
      rw [hlen] at hle
      by_cases hzero : (covering (older.map Prod.fst) path).1 = 0
      · rw [if_pos hzero, if_pos hzero]
      · have hindex : (m :: older).length - (covering (older.map Prod.fst) path).1 =
            older.length - (covering (older.map Prod.fst) path).1 + 1 := by
          rw [List.length_cons]
          omega
        rw [if_neg hzero, if_neg hzero, hindex, List.getElem?_cons_succ]

/-- Where nothing is hidden, a path is found on the mount that is nearest to it. -/
theorem find_eq_some_iff (h : Unhidden (mounts.map Prod.fst)) :
    (mounts.find? fun m => m.1 <+: path) = some m ↔ Deepest mounts path m := by
  rw [List.find?_eq_some_iff_append]
  constructor
  · rintro ⟨hm, newer, older, rfl, hnewer⟩
    refine ⟨by simp, of_decide_eq_true hm, ?_⟩
    intro m' hm' habove
    rcases List.mem_append.mp hm' with hin | hin
    · exact absurd habove (by simpa using hnewer m' hin)
    · rcases List.mem_cons.mp hin with rfl | hin
      · exact List.prefix_rfl
      · rw [List.map_append, List.map_cons, Unhidden, List.pairwise_append,
          List.pairwise_cons] at h
        have hnot := h.2.1.1 m'.1 (List.mem_map_of_mem hin)
        exact (List.prefix_or_prefix_of_prefix habove (of_decide_eq_true hm)).resolve_right hnot
  · intro hdeepest
    obtain ⟨newer, older, rfl⟩ := List.append_of_mem hdeepest.mem
    refine ⟨decide_eq_true hdeepest.above, newer, older, rfl, ?_⟩
    intro m' hin
    rw [List.map_append, List.map_cons, Unhidden, List.pairwise_append] at h
    have hnot := h.2.2 m'.1 (List.mem_map_of_mem hin) m.1 List.mem_cons_self
    have habove : ¬ m'.1 <+: path := fun habove =>
      hnot (hdeepest.deepest m' (List.mem_append_left _ hin) habove)
    simpa using habove

theorem locate_eq_some_iff (h : Unhidden (mounts.map Prod.fst)) {d : δ} {rest : List ν} :
    locate mounts path = some (d, rest) ↔
      ∃ m, Deepest mounts path m ∧ m.2 = d ∧ path.drop m.1.length = rest := by
  rw [locate_eq_find, Option.map_eq_some_iff]
  simp only [find_eq_some_iff h, Prod.mk.injEq]

end Locating

end Mounting
