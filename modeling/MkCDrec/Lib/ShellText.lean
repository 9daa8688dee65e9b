import Mathlib.Data.List.Basic
import Mathlib.Data.List.Dedup
import Mathlib.Data.List.Infix
import Mathlib.Data.List.Sort
import Mathlib.Data.List.TakeWhile

/-!
# Text as the shell tools see it

A text is a list of characters. `tr`, `cut`, `grep` with a literal pattern and
the few `sed` substitutions a script needs are functions on texts; numbers are
written in decimal and read back.
-/

namespace ShellText

abbrev Text := List Char

instance : LawfulBEq Text := inferInstance

/-- The content of a file or of a pipe. -/
abbrev Bytes := List UInt8

/-- `tr "a" "b"`. -/
def tr (a b : Char) (s : Text) : Text := s.map fun c => if c = a then b else c

/-- `sed -e 's/c/rep/g'` for a single character `c`. -/
def sedChar (c : Char) (rep : Text) (s : Text) : Text :=
  s.flatMap fun x => if x = c then rep else [x]

/-- `sed -e 's/pat/rep/g'` for a literal pattern; `skip` counts the characters of an
occurrence that are still to be passed over. -/
def sedTextFrom (pat rep : Text) : Nat → Text → Text
  | _, [] => []
  | skip + 1, _ :: s => sedTextFrom pat rep skip s
  | 0, c :: s =>
    if pat <+: c :: s then rep ++ sedTextFrom pat rep (pat.length - 1) s
    else c :: sedTextFrom pat rep 0 s

def sedText (pat rep s : Text) : Text := sedTextFrom pat rep 0 s

/-- `sed -e 's/pat/rep/'`: the first occurrence only. -/
def sedOnce (pat rep : Text) : Text → Text
  | [] => []
  | c :: s => if pat <+: c :: s then rep ++ (c :: s).drop pat.length else c :: sedOnce pat rep s

/-- The text from the last occurrence of a pattern, which `sed -e 's/.*pat/pat/'` leaves. -/
def fromLast (pat : Text) : Text → Option Text
  | [] => none
  | c :: s => (fromLast pat s).or (if pat <+: c :: s then some (c :: s) else none)

/-- `sed -e 's/c$//'`. -/
def chop (c : Char) (s : Text) : Text :=
  if s.getLast? = some c then s.dropLast else s

/-- `cut -d d -f k`: a line without the delimiter is printed whole. -/
def cut (d : Char) (k : Nat) (s : Text) : Text :=
  if d ∈ s then (s.splitOn d).getD (k - 1) [] else s

/-- `cut -d d -f 1-k`. -/
def cutTo (d : Char) (k : Nat) (s : Text) : Text :=
  if d ∈ s then [d].intercalate ((s.splitOn d).take k) else s

/-- `cut -d d -f k-`. -/
def cutFrom (d : Char) (k : Nat) (s : Text) : Text :=
  if d ∈ s then [d].intercalate ((s.splitOn d).drop (k - 1)) else s

/-- The order in which `ls` lists names. -/
def strcoll : Text → Text → Bool
  | [], _ => true
  | _ :: _, [] => false
  | a :: s, b :: t => a < b || (a = b && strcoll s t)

/-- `ls` of files that exist: sorted, and each of them once. -/
def ls (files : List Text) : List Text := files.dedup.insertionSort fun s t => strcoll s t

/-- A number as `echo` prints it. -/
def numeral (n : Nat) : Text := Nat.toDigits 10 n

/-- The value of a decimal numeral in `$((..))`. -/
def value (s : Text) : Nat := Nat.ofDigitChars 10 s 0

@[simp] theorem value_numeral (n : Nat) : value (numeral n) = n := by
  simp [value, numeral]

theorem numeral_injective : Function.Injective numeral := by
  intro m n h
  have hv := congrArg value h
  simpa using hv

theorem numeral_ne_nil (n : Nat) : numeral n ≠ [] :=
  Nat.toDigits_ne_nil

theorem isDigit_of_mem_numeral {c : Char} {n : Nat} (h : c ∈ numeral n) : c.isDigit = true :=
  Nat.isDigit_of_mem_toDigits (by decide) (by decide) h

theorem all_isDigit_numeral (n : Nat) : (numeral n).all Char.isDigit = true :=
  List.all_eq_true.mpr fun _ hc => isDigit_of_mem_numeral hc

theorem notMem_numeral {c : Char} (h : c.isDigit = false) (n : Nat) : c ∉ numeral n := by
  intro hmem
  rw [isDigit_of_mem_numeral hmem] at h
  exact Bool.noConfusion h

section Classes

variable {c : Char}

theorem isLower_iff : c.isLower = true ↔ 'a'.val ≤ c.val ∧ c.val ≤ 'z'.val := by
  change (decide ('a'.val ≤ c.val) && decide (c.val ≤ 'z'.val)) = true ↔ _
  simp only [Bool.and_eq_true, decide_eq_true_eq]

theorem isUpper_iff : c.isUpper = true ↔ 'A'.val ≤ c.val ∧ c.val ≤ 'Z'.val :=
  decide_eq_true_iff

/-- Digits come before the letters. -/
theorem val_lt_of_isDigit (h : c.isDigit = true) : c.val < 'A'.val := by
  simp only [Char.isDigit, Bool.and_eq_true, decide_eq_true_eq] at h
  exact UInt32.lt_of_le_of_lt h.2 (by decide)

theorem isLower_eq_false_of_isDigit (h : c.isDigit = true) : c.isLower = false := by
  rw [Bool.eq_false_iff, ne_eq, isLower_iff]
  rintro ⟨ha, -⟩
  have hlt := UInt32.lt_of_le_of_lt ha (val_lt_of_isDigit h)
  exact absurd hlt (by decide)

theorem isUpper_eq_false_of_isDigit (h : c.isDigit = true) : c.isUpper = false := by
  rw [Bool.eq_false_iff, ne_eq, isUpper_iff]
  rintro ⟨hA, -⟩
  exact absurd (UInt32.lt_of_le_of_lt hA (val_lt_of_isDigit h)) (UInt32.lt_irrefl _)

theorem isAlpha_eq_false_of_isDigit (h : c.isDigit = true) : c.isAlpha = false :=
  Bool.or_eq_false_iff.mpr ⟨isUpper_eq_false_of_isDigit h, isLower_eq_false_of_isDigit h⟩

theorem isAlpha_of_isLower (h : c.isLower = true) : c.isAlpha = true :=
  Bool.or_eq_true_iff.mpr (Or.inr h)

/-- Digits and letters lie between `0` and `z`. -/
theorem bounds_of_isAlphanum (h : c.isAlphanum = true) : 48 ≤ c.toNat ∧ c.toNat ≤ 122 := by
  have hcode : ∀ {d : Char}, d.val ≤ c.val → d.toNat ≤ c.toNat := UInt32.le_iff_toNat_le.mp
  have hcode' : ∀ {d : Char}, c.val ≤ d.val → c.toNat ≤ d.toNat := UInt32.le_iff_toNat_le.mp
  rcases Bool.or_eq_true_iff.mp h with halpha | hdigit
  · rcases Bool.or_eq_true_iff.mp halpha with hupper | hlower
    · obtain ⟨hA, hZ⟩ := isUpper_iff.mp hupper
      exact ⟨(by decide : 48 ≤ 'A'.toNat).trans (hcode hA),
        (hcode' hZ).trans (by decide : 'Z'.toNat ≤ 122)⟩
    · obtain ⟨ha, hz⟩ := isLower_iff.mp hlower
      exact ⟨(by decide : 48 ≤ 'a'.toNat).trans (hcode ha), hcode' hz⟩
  · simp only [Char.isDigit, Bool.and_eq_true, decide_eq_true_eq] at hdigit
    exact ⟨hcode hdigit.1, (hcode' hdigit.2).trans (by decide : '9'.toNat ≤ 122)⟩

theorem toLower_of_not_isUpper (h : c.isUpper = false) : c.toLower = c := by
  refine dif_neg ?_
  rw [← isUpper_iff, h]
  exact Bool.false_ne_true

end Classes

@[simp] theorem tr_append (a b : Char) (s t : Text) : tr a b (s ++ t) = tr a b s ++ tr a b t := by
  simp [tr]

@[simp] theorem length_tr (a b : Char) (s : Text) : (tr a b s).length = s.length := by
  simp [tr]

theorem tr_eq_self {a b : Char} {s : Text} (h : a ∉ s) : tr a b s = s := by
  induction s with
  | nil => rfl
  | cons c s ih =>
    obtain ⟨hc, hs⟩ := List.ne_and_not_mem_of_not_mem_cons h
    simp only [tr, List.map_cons] at ih ⊢
    rw [ih hs, if_neg (Ne.symm hc)]

theorem notMem_tr {a b : Char} (hab : a ≠ b) (s : Text) : a ∉ tr a b s := by
  intro h
  obtain ⟨c, _, hc⟩ := List.mem_map.mp h
  split at hc
  · exact hab hc.symm
  · rename_i hca
    exact hca hc

@[simp] theorem sedChar_append (c : Char) (rep s t : Text) :
    sedChar c rep (s ++ t) = sedChar c rep s ++ sedChar c rep t := by
  simp [sedChar]

theorem sedChar_eq_self {c : Char} {rep s : Text} (h : c ∉ s) : sedChar c rep s = s := by
  induction s with
  | nil => rfl
  | cons x s ih =>
    obtain ⟨hx, hs⟩ := List.ne_and_not_mem_of_not_mem_cons h
    simp only [sedChar, List.flatMap_cons] at ih ⊢
    rw [ih hs, if_neg (Ne.symm hx)]
    rfl

theorem length_le_sedChar {c : Char} {rep : Text} (hrep : rep ≠ []) (s : Text) :
    s.length ≤ (sedChar c rep s).length := by
  have hpos := List.length_pos_iff.mpr hrep
  induction s with
  | nil => exact Nat.le_refl _
  | cons x s ih =>
    simp only [sedChar, List.flatMap_cons, List.length_append, List.length_cons] at ih ⊢
    split
    · omega
    · rw [List.length_singleton]
      omega

/-- A longer replacement shows in the length. -/
theorem length_lt_sedChar {c : Char} {rep s : Text} (hrep : 1 < rep.length) (h : c ∈ s) :
    s.length < (sedChar c rep s).length := by
  have hne : rep ≠ [] := by
    rintro rfl
    exact absurd hrep (by decide)
  obtain ⟨a, b, rfl⟩ := List.append_of_mem h
  have ha := length_le_sedChar (c := c) hne a
  have hb := length_le_sedChar (c := c) hne b
  have hc : sedChar c rep [c] = rep := by simp [sedChar]
  rw [← List.singleton_append, sedChar_append, sedChar_append, hc]
  simp only [List.length_append, List.length_singleton]
  omega

theorem sedText_eq_self {c : Char} {p rep s : Text} (h : c ∉ s) : sedText (c :: p) rep s = s := by
  induction s with
  | nil => rfl
  | cons y s ih =>
    obtain ⟨hy, hs⟩ := List.ne_and_not_mem_of_not_mem_cons h
    have hno : ¬ c :: p <+: y :: s := fun hpre => hy (List.cons_prefix_cons.mp hpre).1
    rw [sedText, sedTextFrom, if_neg hno, ← sedText, ih hs]

theorem sedTextFrom_append (pat rep : Text) (s t : Text) :
    sedTextFrom pat rep s.length (s ++ t) = sedTextFrom pat rep 0 t := by
  induction s with
  | nil => rfl
  | cons c s ih => exact ih

theorem sedOnce_append {pat : Text} (hpat : pat ≠ []) (rep s : Text) :
    sedOnce pat rep (pat ++ s) = rep ++ s := by
  cases pat with
  | nil => exact absurd rfl hpat
  | cons c pat =>
    have hpre : c :: pat <+: c :: (pat ++ s) := List.prefix_append (c :: pat) s
    rw [List.cons_append, sedOnce, if_pos hpre, ← List.cons_append, List.drop_left]

theorem sedOnce_eq_self_iff {pat rep s : Text} (hpat : pat ≠ []) :
    sedOnce pat rep s = s ↔ pat = rep ∨ ¬ pat <:+: s := by
  induction s with
  | nil =>
    refine iff_of_true rfl (Or.inr ?_)
    rw [List.infix_nil]
    exact hpat
  | cons c s ih =>
    rw [sedOnce, List.infix_cons_iff]
    by_cases hpre : pat <+: c :: s
    · obtain ⟨t, ht⟩ := hpre
      rw [if_pos ⟨t, ht⟩, ← ht, List.drop_left, List.append_cancel_right_eq]
      constructor
      · intro h
        exact Or.inl h.symm
      · rintro (h | h)
        · exact h.symm
        · exact absurd (Or.inl (List.prefix_append pat t)) h
    · rw [if_neg hpre, List.cons.injEq, ih]
      simp only [hpre, true_and, false_or]

theorem sedText_absent {pat rep s : Text} (h : ¬ pat <:+: s) : sedText pat rep s = s := by
  induction s with
  | nil => rfl
  | cons c s ih =>
    rw [List.infix_cons_iff, not_or] at h
    rw [sedText, sedTextFrom, if_neg h.1, ← sedText, ih h.2]

theorem sedText_append_left {c : Char} {p rep u : Text} (hu : c ∉ u) (s : Text) :
    sedText (c :: p) rep (u ++ s) = u ++ sedText (c :: p) rep s := by
  induction u with
  | nil => rfl
  | cons x u ih =>
    obtain ⟨hx, hu⟩ := List.ne_and_not_mem_of_not_mem_cons hu
    have hno : ¬ c :: p <+: x :: (u ++ s) := fun hpre => hx (List.cons_prefix_cons.mp hpre).1
    rw [List.cons_append, sedText, sedTextFrom, if_neg hno, ← sedText, ih hu, List.cons_append]

theorem sedText_append {pat : Text} (hpat : pat ≠ []) (rep s : Text) :
    sedText pat rep (pat ++ s) = rep ++ sedText pat rep s := by
  cases pat with
  | nil => exact absurd rfl hpat
  | cons c pat =>
    have hpre : c :: pat <+: c :: (pat ++ s) := List.prefix_append (c :: pat) s
    rw [List.cons_append, sedText, sedTextFrom, if_pos hpre, List.length_cons,
      Nat.add_sub_cancel, sedTextFrom_append, ← sedText]

theorem sedText_self {pat : Text} (hpat : pat ≠ []) (rep : Text) : sedText pat rep pat = rep := by
  have h := sedText_append hpat rep []
  rw [List.append_nil] at h
  rw [h, sedText, sedTextFrom, List.append_nil]

/-- The first occurrence is replaced, and the rest is left to the replacement. -/
theorem exists_first {pat : Text} (s rep : Text) (h : pat <:+: s) :
    ∃ u v, s = u ++ (pat ++ v) ∧ (pat ≠ [] →
      sedText pat rep s = u ++ (rep ++ sedText pat rep v)) := by
  induction s with
  | nil =>
    rw [List.infix_nil] at h
    exact ⟨[], [], by rw [h]; rfl, fun hpat => absurd h hpat⟩
  | cons c s ih =>
    by_cases hpre : pat <+: c :: s
    · obtain ⟨v, hv⟩ := hpre
      refine ⟨[], v, hv.symm, ?_⟩
      intro hpat
      rw [← hv, sedText_append hpat]
      rfl
    · obtain ⟨u, v, hs, hsed⟩ := ih ((List.infix_cons_iff.mp h).resolve_left hpre)
      refine ⟨c :: u, v, by rw [hs]; rfl, ?_⟩
      intro hpat
      rw [sedText, sedTextFrom, if_neg hpre, ← sedText, hsed hpat]
      rfl

/-- The rule of induction over the occurrences that are replaced. -/
theorem sedText_induction {pat rep : Text} {R : Text → Text → Prop} (hpat : pat ≠ [])
    (absent : ∀ s, ¬ pat <:+: s → R s s)
    (replaced : ∀ u v, R v (sedText pat rep v) →
      R (u ++ (pat ++ v)) (u ++ (rep ++ sedText pat rep v))) (s : Text) :
    R s (sedText pat rep s) := by
  induction hn : s.length using Nat.strong_induction_on generalizing s with
  | _ n ih =>
    by_cases h : pat <:+: s
    · obtain ⟨u, v, rfl, hsed⟩ := exists_first s rep h
      have hpos := List.length_pos_iff.mpr hpat
      simp only [List.length_append] at hn
      rw [hsed hpat]
      exact replaced u v (ih v.length (by omega) v rfl)
    · rw [sedText_absent h]
      exact absent s h

/-- The lengths of the pattern and the replacement compare as those of the texts. -/
theorem length_sedText_le {pat rep : Text} (hpat : pat ≠ []) (hle : rep.length ≤ pat.length)
    (s : Text) : (sedText pat rep s).length ≤ s.length := by
  apply sedText_induction (R := fun s t => t.length ≤ s.length) hpat
  · intro s _
    exact le_rfl
  · intro u v hv
    simp only [List.length_append]
    omega

theorem le_length_sedText {pat rep : Text} (hpat : pat ≠ []) (hle : pat.length ≤ rep.length)
    (s : Text) : s.length ≤ (sedText pat rep s).length := by
  apply sedText_induction (R := fun s t => s.length ≤ t.length) hpat
  · intro s _
    exact le_rfl
  · intro u v hv
    simp only [List.length_append]
    omega

theorem sedText_same {pat : Text} (hpat : pat ≠ []) (s : Text) : sedText pat pat s = s := by
  apply sedText_induction (R := fun s t => t = s) hpat
  · intro s _
    rfl
  · intro u v hv
    rw [hv]

theorem sedText_eq_self_iff {pat rep s : Text} (hpat : pat ≠ []) :
    sedText pat rep s = s ↔ pat = rep ∨ ¬ pat <:+: s := by
  constructor
  · intro heq
    by_cases h : pat <:+: s
    · obtain ⟨u, v, hs, hsed⟩ := exists_first s rep h
      rw [hsed hpat, hs, List.append_cancel_left_eq] at heq
      have hlen := congrArg List.length heq
      simp only [List.length_append] at hlen
      left
      rcases Nat.le_total rep.length pat.length with hle | hle
      · have hv := length_sedText_le hpat hle v
        exact (List.append_inj heq (by omega)).1.symm
      · have hv := le_length_sedText hpat hle v
        exact (List.append_inj heq (by omega)).1.symm
    · exact Or.inr h
  · rintro (rfl | h)
    · exact sedText_same hpat s
    · exact sedText_absent h

theorem mem_sedText {pat rep s : Text} {x : Char} (h : x ∈ sedText pat rep s) : x ∈ rep ∨ x ∈ s := by
  suffices hall : ∀ skip, x ∈ sedTextFrom pat rep skip s → x ∈ rep ∨ x ∈ s from hall 0 h
  clear h
  induction s with
  | nil => exact fun skip h => absurd h (by cases skip <;> exact List.not_mem_nil)
  | cons c s ih =>
    intro skip h
    cases skip with
    | succ skip => exact (ih skip h).imp_right (List.mem_cons_of_mem c)
    | zero =>
      rw [sedTextFrom] at h
      split at h
      · rcases List.mem_append.mp h with h | h
        · exact Or.inl h
        · exact (ih _ h).imp_right (List.mem_cons_of_mem c)
      · rcases List.mem_cons.mp h with rfl | h
        · exact Or.inr List.mem_cons_self
        · exact (ih _ h).imp_right (List.mem_cons_of_mem c)

theorem mem_sedChar {a x : Char} {rep s : Text} (h : x ∈ sedChar a rep s) :
    x ∈ rep ∨ x ∈ s ∧ x ≠ a := by
  obtain ⟨y, hy, hx⟩ := List.mem_flatMap.mp h
  split at hx
  · exact Or.inl hx
  · rename_i hne
    obtain rfl := List.mem_singleton.mp hx
    exact Or.inr ⟨hy, hne⟩

theorem mem_tr {a b x : Char} {s : Text} (h : x ∈ tr a b s) : x = b ∨ x ∈ s := by
  obtain ⟨y, hy, hx⟩ := List.mem_map.mp h
  split at hx
  · exact Or.inl hx.symm
  · exact Or.inr (hx ▸ hy)

theorem tr_eq_self_iff {a b : Char} {s : Text} (hab : a ≠ b) : tr a b s = s ↔ a ∉ s := by
  constructor
  · intro h
    rw [← h]
    exact notMem_tr hab s
  · exact tr_eq_self

theorem sedChar_eq_self_iff {c : Char} {rep s : Text} (hrep : c ∉ rep) :
    sedChar c rep s = s ↔ c ∉ s := by
  constructor
  · intro h hc
    rw [← h] at hc
    rcases mem_sedChar hc with hc | ⟨_, hne⟩
    · exact hrep hc
    · exact hne rfl
  · exact sedChar_eq_self

/-- What is changed to a character that the pattern does not have makes no occurrence. -/
theorem infix_of_infix_tr {a b : Char} {pat s : Text} (hb : b ∉ pat) (h : pat <:+: tr a b s) :
    pat <:+: s := by
  obtain ⟨u, v, huv⟩ := h
  obtain ⟨s₁, s₂, rfl, hs₁, _⟩ := List.map_eq_append_iff.mp huv.symm
  obtain ⟨w, p, rfl, _, hp⟩ := List.map_eq_append_iff.mp hs₁
  have hpat : p = pat := by
    have ha : a ∉ p := by
      intro ha
      refine hb ?_
      rw [← hp]
      exact List.mem_map.mpr ⟨a, ha, if_pos rfl⟩
    rw [← hp]
    exact (tr_eq_self ha).symm
  exact ⟨w, s₂, by rw [hpat]⟩

theorem prefix_of_prefix_sedChar {c x : Char} {p q s : Text} (hc : c ∉ p)
    (h : p <+: sedChar x (c :: q) s) : p <+: s := by
  induction p generalizing s with
  | nil => exact List.nil_prefix
  | cons y p ih =>
    obtain ⟨hy, hc⟩ := List.ne_and_not_mem_of_not_mem_cons hc
    cases s with
    | nil => exact absurd (List.prefix_nil.mp h) (List.cons_ne_nil y p)
    | cons z s =>
      have hcons : sedChar x (c :: q) (z :: s) =
          (if z = x then c :: q else [z]) ++ sedChar x (c :: q) s := rfl
      rw [hcons] at h
      split at h
      · exact absurd (List.cons_prefix_cons.mp h).1 (Ne.symm hy)
      · obtain ⟨rfl, hrest⟩ := List.cons_prefix_cons.mp h
        exact List.cons_prefix_cons.mpr ⟨rfl, ih hc hrest⟩

/-- The replacement undoes a `sedChar` in a text in which its text does not occur. -/
theorem sedText_sedChar_absent {c x : Char} {p s : Text} (hc : c ∉ p)
    (h : ¬ c :: p <:+: s) : sedText (c :: p) [x] (sedChar x (c :: p) s) = s := by
  induction s with
  | nil => rfl
  | cons y s ih =>
    rw [List.infix_cons_iff, not_or] at h
    have hcons : sedChar x (c :: p) (y :: s) =
        (if y = x then c :: p else [y]) ++ sedChar x (c :: p) s := rfl
    rw [hcons]
    by_cases hyx : y = x
    · rw [if_pos hyx, sedText_append (List.cons_ne_nil c p), ih h.2, hyx]
      rfl
    · have hno : ¬ c :: p <+: y :: sedChar x (c :: p) s := by
        intro hpre
        obtain ⟨hy, hp⟩ := List.cons_prefix_cons.mp hpre
        exact h.1 (List.cons_prefix_cons.mpr ⟨hy, prefix_of_prefix_sedChar hc hp⟩)
      rw [if_neg hyx, List.singleton_append, sedText, sedTextFrom, if_neg hno, ← sedText, ih h.2]

/-- The text around an occurrence is fixed by a character that only the pattern has. -/
theorem eq_nil_of_append {c : Char} {u s v t : Text} (h : u ++ (s ++ v) = s ++ t) (hs : c ∈ s)
    (ht : c ∉ t) : u = [] := by
  have hcount := congrArg (List.count c) h
  simp only [List.count_append, List.count_eq_zero_of_not_mem ht] at hcount
  have hu : c ∉ u := List.count_eq_zero.mp (by omega)
  have hidx := congrArg (List.idxOf c) h
  rw [List.idxOf_append_of_notMem hu, List.idxOf_append_of_mem hs,
    List.idxOf_append_of_mem hs] at hidx
  exact List.eq_nil_of_length_eq_zero (by omega)

theorem fromLast_eq_none_iff {pat s : Text} (hpat : pat ≠ []) :
    fromLast pat s = none ↔ ¬ pat <:+: s := by
  induction s with
  | nil => exact iff_of_true rfl fun h => hpat (List.infix_nil.mp h)
  | cons c s ih =>
    rw [fromLast, Option.or_eq_none_iff, ih, List.infix_cons_iff, not_or, and_comm]
    simp

/-- What is left begins with the pattern and is what the text ends in. -/
theorem fromLast_eq_some {pat s r : Text} (h : fromLast pat s = some r) : pat <+: r ∧ r <:+ s := by
  induction s with
  | nil => cases h
  | cons c s ih =>
    rw [fromLast] at h
    cases hs : fromLast pat s with
    | some t =>
      rw [hs, Option.some_or] at h
      obtain rfl := Option.some.inj h
      exact ⟨(ih hs).1, (ih hs).2.trans (List.suffix_cons c s)⟩
    | none =>
      rw [hs, Option.none_or] at h
      split at h
      · rename_i hpre
        obtain rfl := Option.some.inj h
        exact ⟨hpre, List.suffix_rfl⟩
      · cases h

/-- An infix that shares no character with the second half lies in the first. -/
theorem infix_of_infix_append {w a b : Text} (hw : w ≠ []) (hb : ∀ c ∈ b, c ∉ w)
    (h : w <:+: a ++ b) : w <:+: a := by
  rcases List.infix_append_iff_ne_nil.mp h with h | h | ⟨l, r, _, hr, rfl, _, hpre⟩
  · exact h
  · obtain ⟨c, hc⟩ := List.exists_mem_of_ne_nil w hw
    exact absurd hc (hb c (h.subset hc))
  · obtain ⟨c, hc⟩ := List.exists_mem_of_ne_nil r hr
    exact absurd (List.mem_append_right l hc) (hb c (hpre.subset hc))

/-- A pattern without a character lies on one side of it. -/
theorem infix_cons_iff_of_notMem {c : Char} {s u v : Text} (hc : c ∉ s) :
    s <:+: u ++ c :: v ↔ s <:+: u ∨ s <:+: v := by
  constructor
  · intro h
    rcases List.infix_append_iff_ne_nil.mp h with h | h | ⟨l, r, _, hr, rfl, _, hpre⟩
    · exact Or.inl h
    · rcases List.infix_cons_iff.mp h with h | h
      · cases s with
        | nil => exact Or.inl List.nil_infix
        | cons x s =>
          obtain rfl := (List.cons_prefix_cons.mp h).1
          exact absurd List.mem_cons_self hc
      · exact Or.inr h
    · cases r with
      | nil => exact absurd rfl hr
      | cons x r =>
        obtain rfl := (List.cons_prefix_cons.mp hpre).1
        exact absurd (List.mem_append_right l List.mem_cons_self) hc
  · rintro (h | h)
    · exact h.trans (List.prefix_append ..).isInfix
    · exact h.trans ((List.suffix_cons c v).trans (List.suffix_append u _)).isInfix

theorem prefix_append_cons_iff {c : Char} {s u v : Text} (hc : c ∉ s) :
    s <+: u ++ c :: v ↔ s <+: u := by
  constructor
  · intro h
    rcases List.prefix_or_prefix_of_prefix h (List.prefix_append u _) with hu | ⟨t, rfl⟩
    · exact hu
    · rw [List.prefix_append_right_inj] at h
      cases t with
      | nil => rw [List.append_nil]
      | cons x t =>
        obtain rfl := (List.cons_prefix_cons.mp h).1
        exact absurd (List.mem_append_right u List.mem_cons_self) hc
  · intro h
    exact h.trans (List.prefix_append ..)

@[simp] theorem chop_append (c : Char) (s : Text) : chop c (s ++ [c]) = s := by
  simp [chop]

theorem splitOn_pair {d : Char} {a b : Text} (ha : d ∉ a) (hb : d ∉ b) :
    (a ++ d :: b).splitOn d = [a, b] := by
  have hmem : ∀ l ∈ [a, b], d ∉ l := by
    intro l hl
    rcases List.mem_pair.mp hl with rfl | rfl
    · exact ha
    · exact hb
  have h := List.splitOn_intercalate d hmem (by simp)
  simpa [List.intercalate] using h

theorem cut_one {d : Char} {a b : Text} (ha : d ∉ a) (hb : d ∉ b) :
    cut d 1 (a ++ d :: b) = a := by
  rw [cut, if_pos (by simp), splitOn_pair ha hb]
  rfl

theorem cut_two {d : Char} {a b : Text} (ha : d ∉ a) (hb : d ∉ b) :
    cut d 2 (a ++ d :: b) = b := by
  rw [cut, if_pos (by simp), splitOn_pair ha hb]
  rfl

theorem notMem_of_mem_splitOn {d : Char} {t n : Text} (h : n ∈ t.splitOn d) : d ∉ n := by
  rw [List.splitOn_eq_splitOnP] at h
  induction t generalizing n with
  | nil =>
    rw [List.splitOnP_nil, List.mem_singleton] at h
    simp [h]
  | cons c t ih =>
    rw [List.splitOnP_cons_eq_if_modifyHead] at h
    split at h
    · rcases List.mem_cons.1 h with rfl | h
      · exact List.not_mem_nil
      · exact ih h
    · rename_i hc
      cases hsplit : t.splitOnP (· == d) with
      | nil =>
        rw [hsplit] at h
        cases h
      | cons first rest =>
        rw [hsplit] at h ih
        rcases List.mem_cons.1 h with rfl | h
        · have hfirst := ih List.mem_cons_self
          rw [List.mem_cons, not_or]
          refine ⟨?_, hfirst⟩
          rintro rfl
          simp at hc
        · exact ih (List.mem_cons_of_mem _ h)

theorem mem_of_mem_splitOn {d c : Char} {t n : Text} (h : n ∈ t.splitOn d) (hc : c ∈ n) : c ∈ t := by
  induction t generalizing n with
  | nil =>
    rw [List.splitOn_nil, List.mem_singleton] at h
    rw [h] at hc
    cases hc
  | cons x t ih =>
    rw [List.splitOn_cons_eq_if_modifyHead] at h
    split at h
    · rcases List.mem_cons.mp h with rfl | h
      · cases hc
      · exact List.mem_cons_of_mem x (ih h hc)
    · obtain ⟨u, us, hus⟩ := List.exists_cons_of_ne_nil (List.splitOn_ne_nil d t)
      rw [hus, List.modifyHead_cons] at h
      rcases List.mem_cons.mp h with rfl | h
      · rcases List.mem_cons.mp hc with rfl | hc
        · exact List.mem_cons_self
        · exact List.mem_cons_of_mem x (ih (hus ▸ List.mem_cons_self) hc)
      · exact List.mem_cons_of_mem x (ih (hus ▸ List.mem_cons_of_mem u h) hc)

theorem head_splitOn (d : Char) (s : Text) : (s.splitOn d).getD 0 [] = s.takeWhile (· ≠ d) := by
  induction s with
  | nil => rfl
  | cons c s ih =>
    rw [List.splitOn_cons_eq_if_modifyHead]
    by_cases hc : c = d
    · simp [hc]
    · obtain ⟨t, ts, hts⟩ := List.exists_cons_of_ne_nil (List.splitOn_ne_nil d s)
      rw [hts] at ih ⊢
      simpa [hc] using ih

/-- The second field ends at the next delimiter. -/
theorem cut_two_takeWhile {d : Char} {a : Text} (ha : d ∉ a) (b : Text) :
    cut d 2 (a ++ d :: b) = b.takeWhile (· ≠ d) := by
  rw [cut, if_pos (by simp), List.splitOn_append_cons_self_of_not_mem ha]
  exact head_splitOn d b

theorem takeWhile_ne_eq_self {c : Char} {s : Text} (h : c ∉ s) : s.takeWhile (· ≠ c) = s :=
  List.takeWhile_eq_self_iff.mpr fun x hx => by simpa using ne_of_mem_of_not_mem hx h

theorem notMem_takeWhile_ne (c : Char) (s : Text) : c ∉ s.takeWhile (· ≠ c) := by
  intro h
  simpa using List.mem_takeWhile_imp h

theorem cut_absent {d : Char} {k : Nat} {s : Text} (h : d ∉ s) : cut d k s = s :=
  if_neg h

theorem strcoll_total (s t : Text) : strcoll s t = true ∨ strcoll t s = true := by
  induction s generalizing t with
  | nil => exact Or.inl rfl
  | cons a s ih =>
    cases t with
    | nil => exact Or.inr rfl
    | cons b t =>
      simp only [strcoll, Bool.or_eq_true, Bool.and_eq_true, decide_eq_true_eq]
      by_cases hab : a = b
      · rcases ih t with h | h
        · exact Or.inl (Or.inr ⟨hab, h⟩)
        · exact Or.inr (Or.inr ⟨hab.symm, h⟩)
      · by_cases hlt : a < b
        · exact Or.inl (Or.inl hlt)
        · have hle : b ≤ a := Char.not_lt.mp hlt
          have hlt : b < a := Char.not_le.mp fun h => hab (Char.le_antisymm h hle)
          exact Or.inr (Or.inl hlt)

theorem strcoll_trans {s t u : Text} (hst : strcoll s t = true) (htu : strcoll t u = true) :
    strcoll s u = true := by
  induction s generalizing t u with
  | nil => rfl
  | cons a s ih =>
    cases t with
    | nil => cases hst
    | cons b t =>
      cases u with
      | nil => cases htu
      | cons c u =>
        simp only [strcoll, Bool.or_eq_true, Bool.and_eq_true, decide_eq_true_eq] at *
        rcases hst with hab | ⟨rfl, hst⟩
        · rcases htu with hbc | ⟨rfl, _⟩
          · exact Or.inl (Char.lt_trans hab hbc)
          · exact Or.inl hab
        · rcases htu with hbc | ⟨rfl, htu⟩
          · exact Or.inl hbc
          · exact Or.inr ⟨rfl, ih hst htu⟩

theorem strcoll_antisymm {s t : Text} (hst : strcoll s t = true) (hts : strcoll t s = true) :
    s = t := by
  induction s generalizing t with
  | nil =>
    cases t with
    | nil => rfl
    | cons b t => cases hts
  | cons a s ih =>
    cases t with
    | nil => cases hst
    | cons b t =>
      simp only [strcoll, Bool.or_eq_true, Bool.and_eq_true, decide_eq_true_eq] at *
      rcases hst with hab | ⟨rfl, hst⟩
      · rcases hts with hba | ⟨rfl, _⟩
        · exact absurd hba (Char.lt_asymm hab)
        · exact absurd hab (Char.lt_irrefl _)
      · rcases hts with haa | ⟨_, hts⟩
        · exact absurd haa (Char.lt_irrefl _)
        · rw [ih hst hts]

theorem nodup_ls (files : List Text) : (ls files).Nodup :=
  (List.perm_insertionSort _ _).nodup_iff.mpr (List.nodup_dedup files)

@[simp] theorem mem_ls {file : Text} {files : List Text} : file ∈ ls files ↔ file ∈ files := by
  rw [ls, (List.perm_insertionSort _ _).mem_iff, List.mem_dedup]

/-- No name is listed after a later one. -/
theorem pairwise_ls (files : List Text) :
    (ls files).Pairwise fun s t => strcoll t s = false := by
  have : Std.Total fun s t : Text => strcoll s t = true := ⟨strcoll_total⟩
  have : IsTrans Text fun s t => strcoll s t = true := ⟨fun _ _ _ => strcoll_trans⟩
  have hle : (ls files).Pairwise fun s t => strcoll s t = true :=
    List.pairwise_insertionSort _ _
  have hne : (ls files).Pairwise (· ≠ ·) := nodup_ls files
  refine (hle.and hne).imp ?_
  rintro s t ⟨hst, hne⟩
  refine Bool.eq_false_iff.mpr ?_
  intro hts
  exact hne (strcoll_antisymm hst hts)

end ShellText
