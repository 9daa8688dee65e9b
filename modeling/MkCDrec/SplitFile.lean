import Mathlib.Data.List.Perm.Subperm
import MkCDrec.Lib.Directory
import MkCDrec.Lib.ShellText

/-!
# Over-long files on an image

ISO9660 cannot hold files of 2 Gb, so `makeISO9660.sh` replaces every file of
more than 1900000 Kb by an empty one and its parts `.part0`, `.part1`, …, and
`restore_split_file` probes for the parts until one is missing. `Stored` says
that a directory holds a content under a name in either form.
-/

namespace SplitFile

open Directory ShellText

/-- The regular files below a directory, by their path from it. -/
abbrev Files := Dir Text Bytes

def partName (name : Text) (n : Nat) : Text := name ++ ".part".toList ++ numeral n

def blockSize : Nat := 1024

/-- What the successive runs of `dd` copy, `count` blocks each. `skip` counts blocks, so it rounds
down. -/
def parts (count : Nat) (data : Bytes) : Nat → Nat → List Bytes
  | 0, _ => []
  | fuel + 1, bytesRead =>
    if bytesRead < data.length then
      (data.drop (bytesRead / blockSize * blockSize)).take (blockSize * count) ::
        parts count data fuel (blockSize * count + bytesRead)
    else
      []

def writeParts (name : Text) : Nat → List Bytes → Files → Files
  | _, [], d => d
  | n, p :: ps, d => writeParts name (n + 1) ps (d.insert (partName name n) p)

/-- The file itself stays, emptied. -/
def splitFile (maxFileSize : Nat) (name : Text) (d : Files) : Files :=
  match d.lookup name with
  | some data =>
    (writeParts name 0 (parts (maxFileSize / blockSize) data data.length 0) d).insert name []
  | none => d

/-- `find -size +1900000k`, which rounds sizes up to whole Kb. -/
def tooBig (data : Bytes) : Bool := decide (1900000 < (data.length + 1023) / 1024)

def maxPartSize : Nat := 1073741824

def splitFiles (gs : List Text) (d : Files) : Files :=
  gs.foldl (fun d g => splitFile maxPartSize g d) d

def splitAll (d : Files) : Files :=
  splitFiles ((d.entries.filter fun e => tooBig e.2).map Sigma.fst) d

/-- What is left of a file under its own name. -/
def unsplit (data : Bytes) : Bytes := if tooBig data then [] else data

/-- The parts that `restore_split_file` finds from `.part$i` on. -/
def joinParts (d : Files) (name : Text) : Nat → Nat → Bytes
  | 0, _ => []
  | fuel + 1, i =>
    match d.lookup (partName name i) with
    | some b => b ++ joinParts d name fuel (i + 1)
    | none => []

/-- What `restore_split_file` writes to its stdout for one file. -/
def cat (d : Files) (name : Text) : Bytes :=
  match d.lookup (partName name 0) with
  | some _ => joinParts d name d.entries.length 0
  | none => (d.lookup name).getD []

/-- The bytes of the files whose name satisfies `p`. -/
def sizeOn (p : Text → Bool) (d : Files) : Nat :=
  total (fun x b => if p x then b.length else 0) d

/-- The bytes of all files. -/
def size (d : Files) : Nat := sizeOn (fun _ => true) d

theorem partName_injective {a b : Text} {m n : Nat} (h : partName a m = partName b n) :
    a = b ∧ m = n := by
  have hdigits : ∀ (x : Text) (k : Nat),
      (partName x k).reverse.takeWhile Char.isDigit = (numeral k).reverse := by
    intro x k
    have hall : ∀ c ∈ (numeral k).reverse, c.isDigit = true := by
      intro c hc
      exact isDigit_of_mem_numeral (List.mem_reverse.mp hc)
    simp only [partName, List.reverse_append]
    rw [List.takeWhile_append_of_pos hall]
    have hstop : ((".part".toList).reverse ++ x.reverse).takeWhile Char.isDigit = [] := rfl
    rw [hstop, List.append_nil]
  have hnum : (numeral m).reverse = (numeral n).reverse := by
    rw [← hdigits a m, ← hdigits b n, h]
  obtain rfl : m = n := numeral_injective (List.reverse_injective hnum)
  exact ⟨List.append_cancel_right (List.append_cancel_right h), rfl⟩

theorem partName_ne_self (name : Text) (n : Nat) : partName name n ≠ name := by
  intro h
  have hlen := congrArg List.length h
  simp [partName] at hlen

/-- The names under which `name` may be stored. -/
def Owns (name x : Text) : Prop := x = name ∨ ∃ n, x = partName name n

/-- The directory holds `data` under `name`, whole or in parts. -/
inductive Stored (d : Files) (name : Text) (data : Bytes) : Prop
  | whole (file : d.lookup name = some data)
      (noParts : ∀ n, d.lookup (partName name n) = none)
  | split (ps : List Bytes) (nonempty : ps ≠ []) (content : ps.flatten = data)
      (small : ∀ p ∈ ps, tooBig p = false) (file : d.lookup name = some [])
      (byPart : ∀ n, d.lookup (partName name n) = ps[n]?)

theorem Stored.congr {d d' : Files} {name : Text} {data : Bytes} (h : Stored d name data)
    (same : ∀ x, Owns name x → d'.lookup x = d.lookup x) : Stored d' name data := by
  cases h with
  | whole file noParts =>
    exact .whole ((same _ (.inl rfl)).trans file)
      fun n => (same _ (.inr ⟨n, rfl⟩)).trans (noParts n)
  | split ps nonempty content small file byPart =>
    exact .split ps nonempty content small ((same _ (.inl rfl)).trans file)
      fun n => (same _ (.inr ⟨n, rfl⟩)).trans (byPart n)

theorem Stored.exists_file {d : Files} {name : Text} {data : Bytes} (h : Stored d name data) :
    ∃ b, d.lookup name = some b := by
  cases h with
  | whole file => exact ⟨_, file⟩
  | split _ _ _ _ file => exact ⟨_, file⟩

/-- The directory holds `data` under `name`, or nothing if that is empty. -/
inductive Held (d : Files) (name : Text) (data : Bytes) : Prop
  | stored (h : Stored d name data)
  | absent (empty : data = []) (none : ∀ x, Owns name x → x ∉ d)

theorem Held.congr {d d' : Files} {name : Text} {data : Bytes} (h : Held d name data)
    (same : ∀ x, Owns name x → d'.lookup x = d.lookup x) : Held d' name data := by
  cases h with
  | stored h => exact .stored (h.congr same)
  | absent empty none =>
    refine .absent empty fun x hx => ?_
    rw [← AList.lookup_eq_none, same x hx, AList.lookup_eq_none]
    exact none x hx

section Parts

variable {count : Nat} {data : Bytes}

theorem flatten_parts (hcount : 0 < count) :
    ∀ fuel bytesRead, blockSize ∣ bytesRead → data.length ≤ bytesRead + fuel →
      (parts count data fuel bytesRead).flatten = data.drop bytesRead := by
  intro fuel
  induction fuel with
  | zero =>
    intro r _ hr
    rw [List.drop_eq_nil_of_le (by omega)]
    rfl
  | succ fuel ih =>
    intro r hdvd hr
    rw [parts]
    split
    · have hstep : 0 < blockSize * count := Nat.mul_pos (by decide) hcount
      have hnext := ih (blockSize * count + r)
        (Nat.dvd_add (Nat.dvd_mul_right _ _) hdvd) (by omega)
      rw [List.flatten_cons, hnext, Nat.div_mul_cancel hdvd, Nat.add_comm, ← List.drop_drop,
        List.take_append_drop]
    · rw [List.drop_eq_nil_of_le (by omega)]
      rfl

theorem length_le_of_mem_parts {p : Bytes} :
    ∀ fuel bytesRead, p ∈ parts count data fuel bytesRead → p.length ≤ blockSize * count := by
  intro fuel
  induction fuel with
  | zero => intro r h; cases h
  | succ fuel ih =>
    intro r h
    rw [parts] at h
    split at h
    · rcases List.mem_cons.mp h with rfl | h
      · exact List.length_take_le _ _
      · exact ih _ h
    · cases h

theorem parts_ne_nil {fuel : Nat} (hdata : data ≠ []) (hfuel : 0 < fuel) :
    parts count data fuel 0 ≠ [] := by
  obtain ⟨k, rfl⟩ := Nat.exists_eq_succ_of_ne_zero (Nat.ne_of_gt hfuel)
  rw [parts, if_pos (List.length_pos_iff.mpr hdata)]
  exact List.cons_ne_nil _ _

end Parts

theorem lookup_writeParts_other {name x : Text} (hx : ∀ n, x ≠ partName name n) (ps : List Bytes) :
    ∀ n (d : Files), (writeParts name n ps d).lookup x = d.lookup x := by
  induction ps with
  | nil => intro n d; rfl
  | cons p ps ih =>
    intro n d
    rw [writeParts, ih, AList.lookup_insert_ne (hx n)]

theorem lookup_writeParts (name : Text) (ps : List Bytes) (k : Nat) :
    ∀ n (d : Files), (writeParts name n ps d).lookup (partName name k) =
      if n ≤ k ∧ k < n + ps.length then ps[k - n]? else d.lookup (partName name k) := by
  induction ps with
  | nil =>
    intro n d
    rw [if_neg (by simp)]
    rfl
  | cons p ps ih =>
    intro n d
    rw [writeParts, ih]
    by_cases hkn : k = n
    · subst hkn
      rw [if_neg (by omega), if_pos (by simp)]
      simp
    · have hne : partName name k ≠ partName name n := fun h => hkn (partName_injective h).2
      rw [AList.lookup_insert_ne hne]
      by_cases hlt : n < k
      · have hk : k - n = k - (n + 1) + 1 := by omega
        by_cases hin : k < n + 1 + ps.length
        · rw [if_pos (by omega), if_pos (by simp only [List.length_cons]; omega), hk,
            List.getElem?_cons_succ]
        · rw [if_neg (by omega), if_neg (by simp only [List.length_cons]; omega)]
      · rw [if_neg (by omega), if_neg (by omega)]

theorem lookup_splitFile_other {maxSize : Nat} {g x : Text} (hg : x ≠ g)
    (hpart : ∀ n, x ≠ partName g n) (d : Files) :
    (splitFile maxSize g d).lookup x = d.lookup x := by
  rw [splitFile]
  split
  · rw [AList.lookup_insert_ne hg, lookup_writeParts_other hpart]
  · rfl

/-- Splitting a file keeps what it stores. -/
theorem Stored.splitFile {d : Files} {name : Text} {data : Bytes}
    (file : d.lookup name = some data) (noParts : ∀ n, d.lookup (partName name n) = none)
    (hdata : data ≠ []) : Stored (splitFile maxPartSize name d) name data := by
  simp only [SplitFile.splitFile, file]
  refine .split (parts (maxPartSize / blockSize) data data.length 0) ?_ ?_ ?_ ?_ ?_
  · exact parts_ne_nil hdata (List.length_pos_iff.mpr hdata)
  · exact flatten_parts (by decide) _ 0 (Nat.dvd_zero _) (by omega)
  · intro p hp
    have hlen := length_le_of_mem_parts _ _ hp
    have hsize : blockSize * (maxPartSize / blockSize) = 1073741824 := by decide
    simp only [tooBig, decide_eq_false_iff_not]
    omega
  · exact AList.lookup_insert _
  · intro n
    rw [AList.lookup_insert_ne (partName_ne_self name n), lookup_writeParts]
    by_cases hn : n < (parts (maxPartSize / blockSize) data data.length 0).length
    · rw [if_pos (by omega), Nat.sub_zero]
    · rw [if_neg (by omega), noParts, List.getElem?_eq_none (by omega)]

section Others

variable {name x : Text}

/-- Splits of other files touch no name that `name` owns. -/
theorem lookup_splitFiles_other (hpart : ∀ g n, name ≠ partName g n) (hx : Owns name x)
    (gs : List Text) (hgs : ∀ g ∈ gs, g ≠ name ∧ ∀ n, g ≠ partName name n) (d : Files) :
    (splitFiles gs d).lookup x = d.lookup x := by
  induction gs generalizing d with
  | nil => rfl
  | cons g gs ih =>
    obtain ⟨hne, hnePart⟩ := hgs g List.mem_cons_self
    rw [splitFiles, List.foldl_cons]
    refine (ih (fun a ha => hgs a (List.mem_cons_of_mem _ ha)) _).trans ?_
    rcases hx with rfl | ⟨n, rfl⟩
    · exact lookup_splitFile_other (Ne.symm hne) (hpart g) d
    · exact lookup_splitFile_other (Ne.symm (hnePart n))
        (fun m h => hne (partName_injective h).1.symm) d

variable {d : Files} {data : Bytes}

theorem Stored.splitFiles (hpart : ∀ g n, name ≠ partName g n) (gs : List Text) (hnodup : gs.Nodup)
    (hgs : ∀ g ∈ gs, ∃ b, d.lookup g = some b ∧ tooBig b = true) (h : Stored d name data) :
    Stored (splitFiles gs d) name data := by
  cases h with
  | whole file noParts =>
    have hne : ∀ g ∈ gs, ∀ n, g ≠ partName name n := by
      rintro g hg n rfl
      obtain ⟨b, hb, _⟩ := hgs _ hg
      rw [noParts n] at hb
      cases hb
    by_cases hmem : name ∈ gs
    · obtain ⟨b, hb, hbig⟩ := hgs name hmem
      have hdata : data ≠ [] := by
        rintro rfl
        rw [file] at hb
        obtain rfl := Option.some.inj hb
        exact absurd hbig (by decide)
      obtain ⟨l, r, rfl⟩ := List.append_of_mem hmem
      have hl : ∀ g ∈ l, g ≠ name ∧ ∀ n, g ≠ partName name n := by
        intro g hg
        refine ⟨?_, hne g (List.mem_append_left _ hg)⟩
        rintro rfl
        exact (List.nodup_append.mp hnodup).2.2 _ hg _ List.mem_cons_self rfl
      have hr : ∀ g ∈ r, g ≠ name ∧ ∀ n, g ≠ partName name n := by
        intro g hg
        refine ⟨?_, hne g (by simp [hg])⟩
        rintro rfl
        exact (List.nodup_cons.mp (List.nodup_append.mp hnodup).2.1).1 hg
      rw [SplitFile.splitFiles, List.foldl_append, List.foldl_cons]
      have hself := Stored.splitFile
        ((lookup_splitFiles_other hpart (.inl rfl) l hl d).trans file)
        (fun n => (lookup_splitFiles_other hpart (.inr ⟨n, rfl⟩) l hl d).trans (noParts n)) hdata
      exact hself.congr fun x hx => lookup_splitFiles_other hpart hx r hr _
    · have hall : ∀ g ∈ gs, g ≠ name ∧ ∀ n, g ≠ partName name n := by
        intro g hg
        refine ⟨?_, hne g hg⟩
        rintro rfl
        exact hmem hg
      exact (Stored.whole file noParts).congr fun x hx => lookup_splitFiles_other hpart hx gs hall d
  | split ps nonempty content small file byPart =>
    have hall : ∀ g ∈ gs, g ≠ name ∧ ∀ n, g ≠ partName name n := by
      intro g hg
      obtain ⟨b, hb, hbig⟩ := hgs g hg
      constructor
      · rintro rfl
        rw [file] at hb
        obtain rfl := Option.some.inj hb
        exact absurd hbig (by decide)
      · rintro n rfl
        rw [byPart n] at hb
        rw [small b (List.mem_of_getElem? hb)] at hbig
        cases hbig
    exact (Stored.split ps nonempty content small file byPart).congr
      fun x hx => lookup_splitFiles_other hpart hx gs hall d

theorem mem_tooBig {g : Text} (hg : g ∈ (d.entries.filter fun e => tooBig e.2).map Sigma.fst) :
    ∃ b, d.lookup g = some b ∧ tooBig b = true := by
  obtain ⟨e, he, rfl⟩ := List.mem_map.mp hg
  obtain ⟨hin, hbig⟩ := List.mem_filter.mp he
  exact ⟨e.2, AList.mem_lookup_iff.mpr hin, hbig⟩

theorem Stored.splitAll (hpart : ∀ g n, name ≠ partName g n) (h : Stored d name data) :
    Stored (splitAll d) name data :=
  h.splitFiles hpart _ (List.Nodup.sublist (List.filter_sublist.map Sigma.fst) d.nodupKeys)
    fun _ hg => mem_tooBig hg

theorem mem_splitAll (hx : x ∈ splitAll d) :
    x ∈ d ∨ ∃ g n b, d.lookup g = some b ∧ tooBig b = true ∧ x = partName g n := by
  by_cases hpart : ∃ g n b, d.lookup g = some b ∧ tooBig b = true ∧ x = partName g n
  · exact .inr hpart
  · left
    have hfold : ∀ (l : List Text) (d' : Files),
        (∀ g ∈ l, ∃ b, d.lookup g = some b ∧ tooBig b = true) → x ∈ splitFiles l d' → x ∈ d' := by
      intro l
      induction l with
      | nil => intro d' _ h; exact h
      | cons g l ih =>
        intro d' hl h
        obtain ⟨b, hb, hbig⟩ := hl g List.mem_cons_self
        have hne : ∀ n, x ≠ partName g n := fun n hn => hpart ⟨g, n, b, hb, hbig, hn⟩
        have h := ih _ (fun a ha => hl a (List.mem_cons_of_mem _ ha)) h
        by_cases hg : x = g
        · subst hg
          rw [← AList.lookup_isSome] at h ⊢
          cases hlook : d'.lookup x with
          | some b' => rfl
          | none =>
            simp only [SplitFile.splitFile, hlook] at h
            exact h
        · rwa [← AList.lookup_isSome, lookup_splitFile_other hg hne, AList.lookup_isSome] at h
    exact hfold _ d (fun _ hg => mem_tooBig hg) hx

theorem absent_splitAll (hpart : ∀ g n, name ≠ partName g n) (none : ∀ x, Owns name x → x ∉ d) :
    ∀ x, Owns name x → x ∉ splitAll d := by
  intro x hx hmem
  rcases mem_splitAll hmem with hmem | ⟨g, n, b, hg, _, rfl⟩
  · exact none x hx hmem
  · rcases hx with heq | ⟨k, heq⟩
    · exact hpart g n heq.symm
    · obtain ⟨rfl, _⟩ := partName_injective heq
      exact none g (.inl rfl) (AList.lookup_isSome.mp (by rw [hg]; rfl))

theorem Held.splitAll (hpart : ∀ g n, name ≠ partName g n) (h : Held d name data) :
    Held (splitAll d) name data := by
  cases h with
  | stored h => exact .stored (h.splitAll hpart)
  | absent empty none => exact .absent empty (absent_splitAll hpart none)

theorem lookup_splitFiles (hpart : ∀ g n, name ≠ partName g n) (gs : List Text)
    (file : d.lookup name = some data) :
    (splitFiles gs d).lookup name = some (if name ∈ gs then [] else data) := by
  induction gs generalizing d data with
  | nil => exact file
  | cons g gs ih =>
    rw [splitFiles, List.foldl_cons]
    by_cases hg : name = g
    · subst hg
      have hself : (splitFile maxPartSize name d).lookup name = some [] := by
        simp only [splitFile, file, AList.lookup_insert]
      refine (ih hself).trans ?_
      rw [ite_self, if_pos List.mem_cons_self]
    · refine (ih ((lookup_splitFile_other hg (hpart g) d).trans file)).trans ?_
      simp only [List.mem_cons, hg, false_or]

theorem mem_tooBig_iff (file : d.lookup name = some data) :
    name ∈ (d.entries.filter fun e => tooBig e.2).map Sigma.fst ↔ tooBig data = true := by
  constructor
  · intro hmem
    obtain ⟨b, hb, hbig⟩ := mem_tooBig hmem
    rwa [Option.some.inj (file.symm.trans hb)]
  · intro hbig
    exact List.mem_map.mpr ⟨⟨name, data⟩,
      List.mem_filter.mpr ⟨AList.mem_lookup_iff.mp file, hbig⟩, rfl⟩

theorem lookup_splitAll (hpart : ∀ g n, name ≠ partName g n) (file : d.lookup name = some data) :
    (splitAll d).lookup name = some (unsplit data) := by
  rw [splitAll, lookup_splitFiles hpart _ file, unsplit]
  simp only [mem_tooBig_iff file]

end Others

/-- Splitting removes no name. -/
theorem mem_splitAll_of_mem {d : Files} {x : Text} (hx : x ∈ d) : x ∈ splitAll d := by
  have hwrite : ∀ g (ps : List Bytes) n (d : Files), x ∈ d → x ∈ writeParts g n ps d := by
    intro g ps
    induction ps with
    | nil => intro n d h; exact h
    | cons p ps ih => intro n d h; exact ih _ _ ((AList.mem_insert _).mpr (.inr h))
  rw [splitAll]
  generalize (d.entries.filter fun e => tooBig e.2).map Sigma.fst = gs
  induction gs generalizing d with
  | nil => exact hx
  | cons g gs ih =>
    apply ih
    simp only [splitFile]
    cases d.lookup g with
    | none => exact hx
    | some b => exact (AList.mem_insert _).mpr (.inr (hwrite _ _ _ _ hx))

section Sizes

variable {p : Text → Bool} {a b : Text} {n : Nat}

theorem sizeOn_insert_le (p : Text → Bool) (a : Text) (x : Bytes) (d : Files) :
    sizeOn p (d.insert a x) ≤ sizeOn p d + if p a then x.length else 0 :=
  total_insert_le d _ a x

theorem sizeOn_touch_le (p : Text → Bool) (a : Text) (d : Files) :
    sizeOn p (touch a [] d) ≤ sizeOn p d :=
  total_touch_le d (ite_self 0)

theorem sizeOn_move_le (hab : p b = true → p a = true) (d : Files) :
    sizeOn p (move a b d) ≤ sizeOn p d := by
  refine total_move_le d fun x => ?_
  by_cases hb : p b = true
  · rw [if_pos hb, if_pos (hab hb)]
  · rw [if_neg hb]
    exact Nat.zero_le _

theorem sizeOn_restrict (p q : Text → Bool) (d : Files) :
    sizeOn p (restrict q d) = sizeOn (fun x => q x && p x) d := by
  rw [sizeOn, total_restrict, sizeOn]
  congr 1
  funext x b
  cases q x <;> simp

theorem sizeOn_mono {q : Text → Bool} (h : ∀ x, p x = true → q x = true) (d : Files) :
    sizeOn p d ≤ sizeOn q d := by
  refine total_mono d fun x b => ?_
  by_cases hp : p x = true
  · rw [if_pos hp, if_pos (h x hp)]
  · rw [if_neg hp]
    exact Nat.zero_le _

/-- Appending to a file. -/
theorem sizeOn_append_le (p : Text → Bool) (a : Text) (x : Bytes) (d : Files) :
    sizeOn p (modify a (· ++ x) d) ≤ sizeOn p d + if p a then x.length else 0 := by
  refine total_modify_le d fun y => ?_
  rw [List.length_append]
  split
  · exact Nat.le_refl _
  · exact Nat.le_refl _

/-- The parts of a file take no more room than the file. -/
theorem sizeOn_splitFile_le (hp : ∀ g n, p (partName g n) = p g) (g : Text) (d : Files) :
    sizeOn p (splitFile maxPartSize g d) ≤ sizeOn p d := by
  have hwrite : ∀ (ps : List Bytes) n (d : Files),
      sizeOn p (writeParts g n ps d) ≤ sizeOn p d + if p g then ps.flatten.length else 0 := by
    intro ps
    induction ps with
    | nil => intro n d; simp [writeParts]
    | cons q ps ih =>
      intro n d
      have hrest := ih (n + 1) (d.insert (partName g n) q)
      have hinsert := sizeOn_insert_le p (partName g n) q d
      rw [hp] at hinsert
      simp only [writeParts, List.flatten_cons, List.length_append] at hrest ⊢
      split
      · rename_i hg
        rw [if_pos hg] at hrest hinsert
        omega
      · rename_i hg
        rw [if_neg hg] at hrest hinsert
        omega
  rw [splitFile]
  split
  · rename_i data hdata
    have hparts := hwrite (parts (maxPartSize / blockSize) data data.length 0) 0 d
    rw [flatten_parts (by decide) _ 0 (Nat.dvd_zero _) (by omega), List.drop_zero] at hparts
    have hinsert := total_insert (writeParts g 0 (parts (maxPartSize / blockSize) data
      data.length 0) d) (fun x b => if p x then b.length else 0) g []
    rw [lookup_writeParts_other (fun n h => partName_ne_self g n h.symm), hdata] at hinsert
    simp only [sizeOn, Option.elim_some, List.length_nil, ite_self, Nat.add_zero] at hparts hinsert ⊢
    omega
  · exact Nat.le_refl _

theorem sizeOn_splitAll_le (hp : ∀ g n, p (partName g n) = p g) (d : Files) :
    sizeOn p (splitAll d) ≤ sizeOn p d := by
  have hfold : ∀ (gs : List Text) (d : Files), sizeOn p (splitFiles gs d) ≤ sizeOn p d := by
    intro gs
    induction gs with
    | nil => intro d; exact Nat.le_refl _
    | cons g gs ih => intro d; exact (ih _).trans (sizeOn_splitFile_le hp g d)
  exact hfold _ d

end Sizes

section Joining

variable {d : Files} {name : Text} {ps : List Bytes}

theorem joinParts_eq (byPart : ∀ n ≤ ps.length, d.lookup (partName name n) = ps[n]?) :
    ∀ fuel i, i ≤ ps.length → ps.length ≤ i + fuel →
      joinParts d name fuel i = (ps.drop i).flatten := by
  intro fuel
  induction fuel with
  | zero =>
    intro i _ hi
    rw [List.drop_eq_nil_of_le (by omega)]
    rfl
  | succ fuel ih =>
    intro i hle hi
    rw [joinParts, byPart i hle]
    by_cases hlt : i < ps.length
    · rw [List.getElem?_eq_getElem hlt]
      simp only [ih (i + 1) hlt (by omega), List.drop_eq_getElem_cons hlt, List.flatten_cons]
    · rw [List.getElem?_eq_none (by omega), List.drop_eq_nil_of_le (by omega)]
      rfl

/-- Parts have different names, so there are no more of them than entries. -/
theorem length_le_entries (byPart : ∀ n ≤ ps.length, d.lookup (partName name n) = ps[n]?) :
    ps.length ≤ d.entries.length := by
  have hnodup : ((List.range ps.length).map (partName name)).Nodup :=
    List.nodup_range.map fun _ _ h => (partName_injective h).2
  have hsub : (List.range ps.length).map (partName name) ⊆ d.keys := by
    intro x hx
    obtain ⟨n, hn, rfl⟩ := List.mem_map.mp hx
    have hlt := List.mem_range.mp hn
    apply AList.lookup_isSome.mp
    rw [byPart n (Nat.le_of_lt hlt), List.getElem?_eq_getElem hlt]
    rfl
  have hle := (hnodup.subperm hsub).length_le
  simpa [AList.keys, List.keys] using hle

/-- An emptied file with its parts. -/
theorem cat_of_parts (byPart : ∀ n ≤ ps.length, d.lookup (partName name n) = ps[n]?)
    (file : d.lookup name = some []) : cat d name = ps.flatten := by
  have hfirst := byPart 0 (Nat.zero_le _)
  cases ps with
  | nil =>
    rw [List.getElem?_nil] at hfirst
    rw [cat, hfirst, file]
    rfl
  | cons p ps =>
    rw [List.getElem?_cons_zero] at hfirst
    have hlen := length_le_entries byPart
    rw [cat, hfirst]
    exact joinParts_eq byPart _ 0 (Nat.zero_le _) (by omega)

theorem Stored.cat_eq {data : Bytes} (h : Stored d name data) : cat d name = data := by
  cases h with
  | whole file noParts => simp [cat, noParts, file]
  | split ps _ content _ file byPart => rw [cat_of_parts (fun n _ => byPart n) file, content]

end Joining

theorem Held.cat_eq {d : Files} {name : Text} {data : Bytes} (h : Held d name data) :
    cat d name = data := by
  cases h with
  | stored h => exact h.cat_eq
  | absent empty none =>
    have hpart : d.lookup (partName name 0) = .none :=
      AList.lookup_eq_none.mpr (none _ (.inr ⟨0, rfl⟩))
    have hfile : d.lookup name = .none := AList.lookup_eq_none.mpr (none _ (.inl rfl))
    rw [empty, cat, hpart, hfile]
    rfl

end SplitFile
