import MkCDrec.Lib.Runs
import Mathlib.Data.List.Flatten
import Mathlib.Data.List.Forall2

/-!
# What `echo` makes of an unquoted variable

The value is split into words at blanks and tabs, and the words are printed with one
blank between them. First words that are options of `echo` are not printed. A word with
a wildcard stands for itself, as where no file matches it.
-/

namespace Words

open ShellText Runs

def words (s : Text) : List Text := ((tr '\t' ' ' s).splitOn ' ').filter fun w => w ≠ []

def optionChar (c : Char) : Bool := c = 'n' || c = 'e' || c = 'E'

def isOption : Text → Bool
  | '-' :: cs => cs ≠ [] && cs.all optionChar
  | _ => false

/-- `echo $s`. -/
def echo (s : Text) : Text := [' '].intercalate ((words s).dropWhile isOption)

/-- A text that `echo` prints as it is. -/
structure Tidy (s : Text) : Prop where
  tab : '\t' ∉ s
  single : s = [] ∨ [] ∉ s.splitOn ' '
  option : ∀ w, (s.splitOn ' ').head? = some w → isOption w = false

section Echo

variable {s w : Text} {ws : List Text}

theorem echo_of_tidy (h : Tidy s) : echo s = s := by
  rw [echo, words, tr_eq_self h.tab]
  rcases h.single with rfl | hsingle
  · rfl
  · have hfilter : ((s.splitOn ' ').filter fun w => w ≠ []) = s.splitOn ' ' := by
      refine List.filter_eq_self.mpr ?_
      intro w hw
      simpa using ne_of_mem_of_not_mem hw hsingle
    obtain ⟨w, ws, hws⟩ := List.exists_cons_of_ne_nil (List.splitOn_ne_nil ' ' s)
    have hoption : isOption w = false := h.option w (by rw [hws, List.head?_cons])
    have hdrop : (s.splitOn ' ').dropWhile isOption = s.splitOn ' ' := by
      rw [hws, List.dropWhile_cons, hoption, if_neg Bool.false_ne_true]
    rw [hfilter, hdrop, List.intercalate_splitOn]

theorem mem_intercalate {c d : Char} (h : c ∈ [d].intercalate ws) : c = d ∨ ∃ w ∈ ws, c ∈ w := by
  obtain ⟨t, ht, hc⟩ := List.mem_flatten.mp h
  induction ws with
  | nil => cases ht
  | cons w ws ih =>
    cases ws with
    | nil =>
      rw [List.intersperse_singleton, List.mem_singleton] at ht
      exact Or.inr ⟨w, List.mem_cons_self, ht ▸ hc⟩
    | cons v ws =>
      rw [List.intersperse_cons_cons, List.mem_cons, List.mem_cons] at ht
      rcases ht with rfl | rfl | ht
      · exact Or.inr ⟨t, List.mem_cons_self, hc⟩
      · exact Or.inl (List.mem_singleton.mp hc)
      · have hmem : c ∈ [d].intercalate (v :: ws) := List.mem_flatten.mpr ⟨t, ht, hc⟩
        rcases ih hmem ht with hd | ⟨u, hu, hcu⟩
        · exact Or.inl hd
        · exact Or.inr ⟨u, List.mem_cons_of_mem w hu, hcu⟩

theorem count_intercalate {c d : Char} (hne : c ≠ d) (ws : List Text) :
    ([d].intercalate ws).count c = ws.flatten.count c := by
  induction ws with
  | nil => rfl
  | cons w ws ih =>
    cases ws with
    | nil => simp
    | cons v ws =>
      have hsplit : [d].intercalate (w :: v :: ws) = w ++ d :: [d].intercalate (v :: ws) := rfl
      rw [hsplit, List.flatten_cons, List.count_append, List.count_append, ← ih,
        List.count_cons_of_ne hne.symm]

/-- `echo` drops words and blanks, and puts nothing but blanks. -/
theorem count_echo_le {c : Char} (hblank : c ≠ ' ') (htab : c ≠ '\t') (s : Text) :
    (echo s).count c ≤ s.count c := by
  have htr : (tr '\t' ' ' s).count c = s.count c := by
    induction s with
    | nil => rfl
    | cons x s ih =>
      have hcons : tr '\t' ' ' (x :: s) = (if x = '\t' then ' ' else x) :: tr '\t' ' ' s := rfl
      rw [hcons]
      by_cases hx : x = '\t'
      · rw [if_pos hx, List.count_cons_of_ne hblank.symm, ih, hx, List.count_cons_of_ne htab.symm]
      · rw [if_neg hx, List.count_cons, List.count_cons, ih]
  have hsub : ((words s).dropWhile isOption).Sublist ((tr '\t' ' ' s).splitOn ' ') :=
    (List.dropWhile_sublist isOption).trans List.filter_sublist
  have hle := hsub.flatten.count_le c
  rw [← count_intercalate hblank, ← count_intercalate hblank, List.intercalate_splitOn, htr] at hle
  exact hle

theorem mem_words (h : w ∈ words s) : w ≠ [] ∧ ' ' ∉ w ∧ '\t' ∉ w := by
  obtain ⟨hw, hne⟩ := List.mem_filter.mp h
  refine ⟨by simpa using hne, notMem_of_mem_splitOn hw, ?_⟩
  intro htab
  exact notMem_tr (by decide) s (mem_of_mem_splitOn hw htab)

theorem tidy_echo (s : Text) : Tidy (echo s) := by
  have hmem : ∀ w ∈ (words s).dropWhile isOption, w ≠ [] ∧ ' ' ∉ w ∧ '\t' ∉ w :=
    fun w hw => mem_words ((List.dropWhile_sublist isOption).subset hw)
  have hhead : ∀ w, ((words s).dropWhile isOption).head? = some w → isOption w = false := by
    intro w hw
    cases hdrop : (words s).dropWhile isOption with
    | nil =>
      rw [hdrop] at hw
      cases hw
    | cons v ws =>
      rw [hdrop] at hw
      obtain rfl := Option.some.inj hw
      have hne : (words s).dropWhile isOption ≠ [] := by simp [hdrop]
      have hnot := List.head_dropWhile_not isOption hne
      simpa [hdrop] using hnot
  rw [echo]
  generalize (words s).dropWhile isOption = ws at hmem hhead
  by_cases hws : ws = []
  · subst hws
    exact ⟨by simp, Or.inl rfl, by simp [isOption]⟩
  · have hsplit := List.splitOn_intercalate ' ' (fun w hw => (hmem w hw).2.1) hws
    refine ⟨?_, Or.inr ?_, ?_⟩
    · intro h
      rcases mem_intercalate h with h | ⟨w, hw, h⟩
      · exact absurd h (by decide)
      · exact (hmem w hw).2.2 h
    · rw [hsplit]
      intro h
      exact (hmem [] h).1 rfl
    · rw [hsplit]
      exact hhead

end Echo

/-- Equal runs, or runs with a character that is not one of an option. -/
def Alike (d : Char) (w w' : Text) : Prop := w = w' ∨ d ∈ w ∧ d ∈ w'

section Shape

variable {p : Char → Bool} {d c : Char} {w w' : Text} {ws ws' : List Text} {ds : List Char}

theorem Alike.symm (h : Alike d w w') : Alike d w' w :=
  h.imp Eq.symm And.symm

theorem Alike.nil_iff (h : Alike d w w') : w = [] ↔ w' = [] := by
  rcases h with rfl | ⟨h, h'⟩
  · exact Iff.rfl
  · exact iff_of_false (List.ne_nil_of_mem h) (List.ne_nil_of_mem h')

theorem isOption_eq_false (hd : d ≠ '-' ∧ optionChar d = false) (h : d ∈ w) : isOption w = false := by
  fun_cases isOption w with
  | case1 cs =>
    rcases List.mem_cons.mp h with rfl | h
    · exact absurd rfl hd.1
    · rw [Bool.and_eq_false_iff]
      right
      rw [List.all_eq_false]
      exact ⟨d, h, by simp [hd.2]⟩
  | case2 => rfl

theorem Alike.isOption_eq (hd : d ≠ '-' ∧ optionChar d = false) (h : Alike d w w') :
    isOption w = isOption w' := by
  rcases h with rfl | ⟨h, h'⟩
  · rfl
  · rw [isOption_eq_false hd h, isOption_eq_false hd h']

theorem forall₂_alike_sedFirst {pat rep : Text} (hpat : d ∈ pat) (hrep : d ∈ rep)
    (ws : List Text) : List.Forall₂ (Alike d) ws (sedFirst pat rep ws) := by
  induction ws with
  | nil => exact List.Forall₂.nil
  | cons w ws ih =>
    rw [sedFirst]
    by_cases hin : pat <:+: w
    · rw [if_pos hin]
      refine List.Forall₂.cons (Or.inr ⟨hin.subset hpat, ?_⟩) ?_
      · exact mem_sedOnce_of_infix (List.ne_nil_of_mem hpat) hin hrep
      · exact List.forall₂_same.mpr fun v _ => Or.inl rfl
    · rw [if_neg hin]
      exact List.Forall₂.cons (Or.inl rfl) ih

theorem splitOn_append (hw : d ∉ w) (s : Text) :
    (w ++ s).splitOn d = (s.splitOn d).modifyHead (w ++ ·) := by
  induction w with
  | nil =>
    obtain ⟨t, ts, hts⟩ := List.exists_cons_of_ne_nil (List.splitOn_ne_nil d s)
    rw [List.nil_append, hts]
    rfl
  | cons c w ih =>
    obtain ⟨hc, hw⟩ := List.ne_and_not_mem_of_not_mem_cons hw
    obtain ⟨t, ts, hts⟩ := List.exists_cons_of_ne_nil (List.splitOn_ne_nil d s)
    rw [List.cons_append, List.splitOn_cons_eq_if_modifyHead, ih hw, hts]
    simp [Ne.symm hc]

/-- The words of a text, from its runs and what is between them. -/
theorem splitOn_join (hp : p ' ' = false) (h : Fits p (w :: ws) (c :: ds)) :
    (join (w :: ws) (c :: ds)).splitOn ' ' =
      if c = ' ' then w :: (join ws ds).splitOn ' '
      else ((join ws ds).splitOn ' ').modifyHead (w ++ c :: ·) := by
  have hw : ' ' ∉ w := by
    intro hblank
    have hrun := h.run w List.mem_cons_self ' ' hblank
    rw [hp] at hrun
    cases hrun
  rw [join]
  by_cases hc : c = ' '
  · rw [if_pos hc, hc, List.splitOn_append_cons_self_of_not_mem hw]
  · obtain ⟨t, ts, hts⟩ := List.exists_cons_of_ne_nil (List.splitOn_ne_nil ' ' (join ws ds))
    rw [if_neg hc, splitOn_append hw, List.splitOn_cons_eq_if_modifyHead, hts]
    simp [hc]

theorem splitOn_singleton (hp : p ' ' = false) (h : Fits p [w] []) :
    (join [w] []).splitOn ' ' = [w] := by
  refine List.splitOn_eq_singleton ?_
  intro hblank
  have hrun := h.run w List.mem_cons_self ' ' hblank
  rw [hp] at hrun
  cases hrun

/-- Empty words stand at the same places. -/
theorem nil_mem_splitOn_iff (hp : p ' ' = false) (h : Fits p ws ds) (h' : Fits p ws' ds)
    (hsim : List.Forall₂ (Alike d) ws ws') :
    ([] ∈ (join ws ds).splitOn ' ' ↔ [] ∈ (join ws' ds).splitOn ' ') ∧
      ([] ∈ ((join ws ds).splitOn ' ').tail ↔ [] ∈ ((join ws' ds).splitOn ' ').tail) := by
  induction hsim generalizing ds with
  | nil => exact ⟨Iff.rfl, Iff.rfl⟩
  | cons hw hsim ih =>
    cases ds with
    | nil =>
      have hnil := List.eq_nil_of_length_eq_zero (Nat.succ.inj h.length)
      have hnil' := List.eq_nil_of_length_eq_zero (Nat.succ.inj h'.length)
      subst hnil hnil'
      rw [splitOn_singleton hp h, splitOn_singleton hp h', List.mem_singleton, List.mem_singleton]
      exact ⟨eq_comm.trans (hw.nil_iff.trans eq_comm), Iff.rfl⟩
    | cons c ds =>
      obtain ⟨hall, htail⟩ := ih h.tail h'.tail
      rw [splitOn_join hp h, splitOn_join hp h']
      by_cases hc : c = ' '
      · rw [if_pos hc, if_pos hc, List.mem_cons, List.mem_cons]
        exact ⟨or_congr (eq_comm.trans (hw.nil_iff.trans eq_comm)) hall, hall⟩
      · rename_i w w' ws ws'
        obtain ⟨t, ts, hts⟩ := List.exists_cons_of_ne_nil (List.splitOn_ne_nil ' ' (join ws ds))
        obtain ⟨t', ts', hts'⟩ := List.exists_cons_of_ne_nil (List.splitOn_ne_nil ' ' (join ws' ds))
        rw [hts, hts'] at htail
        rw [if_neg hc, if_neg hc, hts, hts']
        simpa using htail

/-- The first word is an option just if the first run is, and a word of its own. -/
theorem isOption_head (hp : p ' ' = false)
    (hoption : p '-' = true ∧ ∀ c, optionChar c = true → p c = true) (h : Fits p (w :: ws) ds)
    {v : Text} (hv : ((join (w :: ws) ds).splitOn ' ').head? = some v) :
    isOption v = (isOption w && (ds = [] || ds.head? = some ' ')) := by
  cases ds with
  | nil =>
    have hnil := List.eq_nil_of_length_eq_zero (Nat.succ.inj h.length)
    subst hnil
    rw [splitOn_singleton hp h] at hv
    obtain rfl := Option.some.inj hv
    simp
  | cons c ds =>
    rw [splitOn_join hp h] at hv
    by_cases hc : c = ' '
    · rw [if_pos hc] at hv
      obtain rfl := Option.some.inj hv
      simp [hc]
    · obtain ⟨t, ts, hts⟩ := List.exists_cons_of_ne_nil (List.splitOn_ne_nil ' ' (join ws ds))
      rw [if_neg hc, hts] at hv
      obtain rfl := Option.some.inj hv
      have hdelim := h.delim c List.mem_cons_self
      have hnot : c ≠ '-' ∧ optionChar c = false := by
        constructor
        · rintro rfl
          rw [hoption.1] at hdelim
          cases hdelim
        · rw [Bool.eq_false_iff]
          intro hc'
          rw [hoption.2 c hc'] at hdelim
          cases hdelim
      rw [isOption_eq_false hnot (by simp)]
      simp [hc]

/-- Runs can be put in the places of similar ones. -/
theorem tidy_of_alike (hp : p ' ' = false ∧ p '\t' = false)
    (hoption : p '-' = true ∧ ∀ c, optionChar c = true → p c = true)
    (hd : d ≠ '-' ∧ optionChar d = false) (h : Fits p ws ds) (h' : Fits p ws' ds)
    (hsim : List.Forall₂ (Alike d) ws ws') (ht : Tidy (join ws ds)) : Tidy (join ws' ds) := by
  have htab : ∀ {vs}, Fits p vs ds → ('\t' ∈ join vs ds ↔ '\t' ∈ ds) := by
    intro vs hvs
    rw [mem_join hvs, or_iff_right]
    intro hmem
    obtain ⟨v, hv, hin⟩ := List.mem_flatten.mp hmem
    have hrun := hvs.run v hv '\t' hin
    rw [hp.2] at hrun
    cases hrun
  refine ⟨?_, ?_, ?_⟩
  · rw [htab h', ← htab h]
    exact ht.tab
  · rcases ht.single with hnil | hsingle
    · left
      cases hsim with
      | nil => exact hnil
      | cons hw hsim =>
        cases ds with
        | nil =>
          rw [join] at hnil ⊢
          exact hw.nil_iff.mp hnil
        | cons c ds =>
          rw [join] at hnil
          simp at hnil
    · exact Or.inr (mt (nil_mem_splitOn_iff hp.1 h h' hsim).1.mpr hsingle)
  · intro v hv
    cases hsim with
    | nil => exact ht.option v hv
    | cons hw hsim =>
      rename_i w w' ws ws'
      obtain ⟨u, us, hus⟩ :=
        List.exists_cons_of_ne_nil (List.splitOn_ne_nil ' ' (join (w :: ws) ds))
      have hu : ((join (w :: ws) ds).splitOn ' ').head? = some u := by rw [hus, List.head?_cons]
      rw [isOption_head hp.1 hoption h' hv, ← hw.isOption_eq hd, ← isOption_head hp.1 hoption h hu]
      exact ht.option u hu

end Shape

end Words
