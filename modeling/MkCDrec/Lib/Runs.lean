import MkCDrec.Lib.ShellText
import Mathlib.Data.Char

/-!
# Runs of characters

A text is cut into the runs of characters of a class and the characters between them. A
replacement of a pattern of the class works on one of the runs and leaves the others.
-/

namespace Runs

open ShellText

section Cut

variable {α : Type} (p : α → Bool)

/-- The runs of the class; between two characters that are not of it there is an empty
one. -/
def runs (s : List α) : List (List α) := s.splitOnP fun c => !p c

def delims (s : List α) : List α := s.filter fun c => !p c

def join : List (List α) → List α → List α
  | [], _ => []
  | w :: _, [] => w
  | w :: ws, d :: ds => w ++ d :: join ws ds

/-- Runs, and the characters that go between them. -/
structure Fits (ws : List (List α)) (ds : List α) : Prop where
  length : ws.length = ds.length + 1
  run : ∀ w ∈ ws, ∀ c ∈ w, p c = true
  delim : ∀ d ∈ ds, p d = false

variable {p} {s w : List α} {ws ws' : List (List α)} {d : α} {ds ds' : List α}

theorem Fits.tail (h : Fits p (w :: ws) (d :: ds)) : Fits p ws ds where
  length := Nat.succ.inj h.length
  run := fun v hv => h.run v (List.mem_cons_of_mem w hv)
  delim := fun c hc => h.delim c (List.mem_cons_of_mem d hc)

theorem runs_cons (c : α) (s : List α) :
    runs p (c :: s) = if p c then (runs p s).modifyHead (c :: ·) else [] :: runs p s := by
  rw [runs, List.splitOnP_cons_eq_if_modifyHead]
  cases p c <;> rfl

theorem delims_cons (c : α) (s : List α) :
    delims p (c :: s) = if p c then delims p s else c :: delims p s := by
  rw [delims, List.filter_cons]
  cases p c <;> rfl

theorem exists_runs_cons (p : α → Bool) (s : List α) : ∃ w ws, runs p s = w :: ws :=
  List.exists_cons_of_ne_nil (List.splitOnP_ne_nil _ s)

theorem join_cons (c : α) (w : List α) (ws : List (List α)) (ds : List α) :
    join ((c :: w) :: ws) ds = c :: join (w :: ws) ds := by
  cases ds <;> rfl

theorem join_runs (p : α → Bool) (s : List α) : join (runs p s) (delims p s) = s := by
  induction s with
  | nil => rfl
  | cons c s ih =>
    rw [runs_cons, delims_cons]
    by_cases hc : p c = true
    · obtain ⟨w, ws, hws⟩ := exists_runs_cons p s
      rw [hws] at ih
      rw [if_pos hc, if_pos hc, hws, List.modifyHead_cons, join_cons, ih]
    · rw [if_neg hc, if_neg hc, join, ih, List.nil_append]

theorem fits_runs (p : α → Bool) (s : List α) : Fits p (runs p s) (delims p s) := by
  induction s with
  | nil =>
    refine ⟨rfl, ?_, by simp [delims]⟩
    intro w hw c hc
    rw [List.mem_singleton.mp hw] at hc
    cases hc
  | cons c s ih =>
    rw [runs_cons, delims_cons]
    by_cases hc : p c = true
    · obtain ⟨w, ws, hws⟩ := exists_runs_cons p s
      rw [hws] at ih
      rw [if_pos hc, if_pos hc, hws, List.modifyHead_cons]
      refine ⟨ih.length, ?_, ih.delim⟩
      obtain ⟨hw, hrun⟩ := List.forall_mem_cons.mp ih.run
      exact List.forall_mem_cons.mpr ⟨List.forall_mem_cons.mpr ⟨hc, hw⟩, hrun⟩
    · rw [if_neg hc, if_neg hc]
      refine ⟨congrArg Nat.succ ih.length, ?_, ?_⟩
      · exact List.forall_mem_cons.mpr ⟨List.forall_mem_nil _, ih.run⟩
      · exact List.forall_mem_cons.mpr ⟨Bool.eq_false_iff.mpr hc, ih.delim⟩

theorem runs_append (hw : ∀ c ∈ w, p c = true) (s : List α) :
    runs p (w ++ s) = (runs p s).modifyHead (w ++ ·) := by
  induction w with
  | nil =>
    obtain ⟨v, vs, hvs⟩ := exists_runs_cons p s
    rw [List.nil_append, hvs]
    rfl
  | cons c w ih =>
    obtain ⟨hc, hw⟩ := List.forall_mem_cons.mp hw
    obtain ⟨v, vs, hvs⟩ := exists_runs_cons p s
    rw [List.cons_append, runs_cons, if_pos hc, ih hw, hvs]
    rfl

/-- A stretch of characters of the class is part of a run. -/
theorem exists_run_of_infix (hw : ∀ c ∈ w, p c = true) (h : w <:+: s) :
    ∃ v ∈ runs p s, w <:+: v := by
  obtain ⟨before, after, rfl⟩ := h
  induction before with
  | nil =>
    obtain ⟨v, vs, hvs⟩ := exists_runs_cons p after
    rw [List.nil_append, runs_append hw, hvs]
    exact ⟨w ++ v, List.mem_cons_self, (List.prefix_append w v).isInfix⟩
  | cons c before ih =>
    obtain ⟨v, hv, hinfix⟩ := ih
    rw [List.cons_append, List.cons_append, runs_cons]
    split
    · obtain ⟨u, us, hus⟩ := exists_runs_cons p (before ++ w ++ after)
      rw [hus] at hv ⊢
      rcases List.mem_cons.mp hv with rfl | hv
      · exact ⟨c :: v, List.mem_cons_self, hinfix.trans (List.suffix_cons c v).isInfix⟩
      · exact ⟨v, List.mem_cons_of_mem _ hv, hinfix⟩
    · exact ⟨v, List.mem_cons_of_mem _ hv, hinfix⟩

theorem infix_of_mem_runs (h : w ∈ runs p s) : w <:+: s := by
  have hall : ∀ s : List α, ∀ v vs, runs p s = v :: vs → v <+: s ∧ ∀ u ∈ vs, u <:+: s := by
    intro s
    induction s with
    | nil =>
      rintro v vs ⟨⟩
      exact ⟨List.prefix_rfl, by simp⟩
    | cons c s ih =>
      intro v vs hruns
      obtain ⟨u, us, hus⟩ := exists_runs_cons p s
      obtain ⟨hu, hrest⟩ := ih u us hus
      rw [runs_cons, hus] at hruns
      split at hruns
      · obtain ⟨rfl, rfl⟩ := List.cons.inj hruns
        exact ⟨List.cons_prefix_cons.mpr ⟨rfl, hu⟩, fun x hx => List.infix_cons (hrest x hx)⟩
      · obtain ⟨rfl, rfl⟩ := List.cons.inj hruns
        refine ⟨List.nil_prefix, List.forall_mem_cons.mpr ⟨List.infix_cons hu.isInfix, ?_⟩⟩
        exact fun x hx => List.infix_cons (hrest x hx)
  obtain ⟨v, vs, hvs⟩ := exists_runs_cons p s
  obtain ⟨hv, hrest⟩ := hall s v vs hvs
  rw [hvs] at h
  rcases List.mem_cons.mp h with rfl | h
  · exact hv.isInfix
  · exact hrest w h

/-- The runs are found again. -/
theorem runs_join (h : Fits p ws ds) : runs p (join ws ds) = ws := by
  induction ws generalizing ds with
  | nil => cases h.length
  | cons w ws ih =>
    have hw := h.run w List.mem_cons_self
    cases ds with
    | nil =>
      have hnil : ws = [] := List.eq_nil_of_length_eq_zero (Nat.succ.inj h.length)
      have happ := runs_append hw ([] : List α)
      rw [List.append_nil] at happ
      rw [join, happ, hnil]
      simp [runs]
    | cons d ds =>
      have hd := h.delim d List.mem_cons_self
      rw [join, runs_append hw, runs_cons, hd, if_neg Bool.false_ne_true, ih h.tail]
      simp

theorem delims_join (h : Fits p ws ds) : delims p (join ws ds) = ds := by
  induction ws generalizing ds with
  | nil => cases h.length
  | cons w ws ih =>
    have hw : delims p w = [] := by
      rw [delims, List.filter_eq_nil_iff]
      intro c hc
      simp [h.run w List.mem_cons_self c hc]
    cases ds with
    | nil => rw [join, hw]
    | cons d ds =>
      have hd := h.delim d List.mem_cons_self
      have happ : delims p (w ++ d :: join ws ds) = delims p w ++ delims p (d :: join ws ds) :=
        List.filter_append ..
      rw [join, happ, hw, delims_cons, hd, if_neg Bool.false_ne_true, ih h.tail, List.nil_append]

theorem join_inj (h : Fits p ws ds) (h' : Fits p ws' ds) (heq : join ws ds = join ws' ds) :
    ws = ws' := by
  rw [← runs_join h, ← runs_join h', heq]

theorem Fits.map (h : Fits p ws ds) {f : List α → List α}
    (hf : ∀ w ∈ ws, ∀ c ∈ f w, p c = true) : Fits p (ws.map f) ds where
  length := by rw [List.length_map, h.length]
  run := List.forall_mem_map.mpr hf
  delim := h.delim

theorem mem_join {c : α} (h : Fits p ws ds) : c ∈ join ws ds ↔ c ∈ ws.flatten ∨ c ∈ ds := by
  induction ws generalizing ds with
  | nil => cases h.length
  | cons w ws ih =>
    cases ds with
    | nil =>
      have hnil : ws = [] := List.eq_nil_of_length_eq_zero (Nat.succ.inj h.length)
      simp [join, hnil]
    | cons d ds =>
      simp only [join, List.mem_append, List.mem_cons, List.flatten_cons, ih h.tail]
      tauto

/-- A character that is not of the class stands between the runs. -/
theorem count_join [BEq α] [LawfulBEq α] {c : α} (h : Fits p ws ds) (hc : p c = false) :
    (join ws ds).count c = ds.count c := by
  induction ws generalizing ds with
  | nil => cases h.length
  | cons w ws ih =>
    have hw : c ∉ w := by
      intro hmem
      have hrun := h.run w List.mem_cons_self c hmem
      rw [hc] at hrun
      cases hrun
    have hcount : w.count c = 0 := List.count_eq_zero_of_not_mem hw
    cases ds with
    | nil => rw [join, hcount, List.count_nil]
    | cons d ds => rw [join, List.count_append, hcount, List.count_cons, ih h.tail, List.count_cons,
        Nat.zero_add]

theorem count_delims [BEq α] [LawfulBEq α] {c : α} (hc : p c = false) (s : List α) :
    (delims p s).count c = s.count c := by
  rw [← count_join (fits_runs p s) hc, join_runs]

end Cut

/-- `sed -e 's/pat/rep/'` run by run. -/
def sedFirst (pat rep : Text) : List Text → List Text
  | [] => []
  | w :: ws => if pat <:+: w then sedOnce pat rep w :: ws else w :: sedFirst pat rep ws

section Sed

variable {p : Char → Bool} {pat rep s w : Text} {c : Char} {ws pre post : List Text} {ds : List Char}

theorem sedOnce_append_cons (hpat : pat ≠ []) (hc : c ∉ pat) (t : Text) :
    sedOnce pat rep (w ++ c :: t) =
      if pat <:+: w then sedOnce pat rep w ++ c :: t else w ++ c :: sedOnce pat rep t := by
  induction w with
  | nil =>
    have hno : ¬ pat <+: c :: t := by
      intro h
      cases pat with
      | nil => exact hpat rfl
      | cons x pat =>
        obtain rfl := (List.cons_prefix_cons.mp h).1
        exact hc List.mem_cons_self
    have hnil : ¬ pat <:+: [] := fun h => hpat (List.infix_nil.mp h)
    rw [if_neg hnil, List.nil_append, sedOnce, if_neg hno, List.nil_append]
  | cons x w ih =>
    have hpre : pat <+: x :: (w ++ c :: t) ↔ pat <+: x :: w := prefix_append_cons_iff (u := x :: w) hc
    by_cases hx : pat <+: x :: w
    · obtain ⟨v, hv⟩ := hx
      have hin : pat <:+: x :: w := ⟨[], v, hv⟩
      rw [if_pos hin, ← hv, List.append_assoc, sedOnce_append hpat, sedOnce_append hpat,
        List.append_assoc]
    · have hin : pat <:+: x :: w ↔ pat <:+: w := by
        rw [List.infix_cons_iff]
        exact or_iff_right hx
      rw [List.cons_append, sedOnce, if_neg (fun h => hx (hpre.mp h)), ih, sedOnce, if_neg hx]
      simp only [hin]
      split <;> rfl

theorem sedOnce_append_left {q u : Text} (hu : c ∉ u) (s : Text) :
    sedOnce (c :: q) rep (u ++ s) = u ++ sedOnce (c :: q) rep s := by
  induction u with
  | nil => rfl
  | cons x u ih =>
    obtain ⟨hx, hu⟩ := List.ne_and_not_mem_of_not_mem_cons hu
    have hno : ¬ c :: q <+: x :: (u ++ s) := fun h => hx (List.cons_prefix_cons.mp h).1
    rw [List.cons_append, sedOnce, if_neg hno, ih hu, List.cons_append]

theorem infix_append_left_iff {q u : Text} (hu : c ∉ u) : c :: q <:+: u ++ s ↔ c :: q <:+: s := by
  induction u with
  | nil => exact Iff.rfl
  | cons x u ih =>
    obtain ⟨hx, hu⟩ := List.ne_and_not_mem_of_not_mem_cons hu
    have hno : ¬ c :: q <+: x :: (u ++ s) := fun h => hx (List.cons_prefix_cons.mp h).1
    rw [List.cons_append, List.infix_cons_iff, or_iff_right hno, ih hu]

theorem sedOnce_join (hpat : pat ≠ []) (hchars : ∀ c ∈ pat, p c = true) (h : Fits p ws ds) :
    sedOnce pat rep (join ws ds) = join (sedFirst pat rep ws) ds := by
  induction ws generalizing ds with
  | nil => cases h.length
  | cons w ws ih =>
    rw [sedFirst]
    cases ds with
    | nil =>
      have hnil : ws = [] := List.eq_nil_of_length_eq_zero (Nat.succ.inj h.length)
      rw [join, hnil]
      split
      · rfl
      · rename_i hno
        exact (sedOnce_eq_self_iff hpat).mpr (Or.inr hno)
    | cons d ds =>
      have hd : d ∉ pat := by
        intro hd
        have hdelim := h.delim d List.mem_cons_self
        rw [hchars d hd] at hdelim
        cases hdelim
      rw [join, sedOnce_append_cons hpat hd, ih h.tail]
      split <;> rfl

theorem sedFirst_absent (h : ∀ w ∈ ws, ¬ pat <:+: w) : sedFirst pat rep ws = ws := by
  induction ws with
  | nil => rfl
  | cons w ws ih =>
    obtain ⟨hw, h⟩ := List.forall_mem_cons.mp h
    rw [sedFirst, if_neg hw, ih h]

theorem sedFirst_append_cons (hpre : ∀ v ∈ pre, ¬ pat <:+: v) (hw : pat <:+: w) :
    sedFirst pat rep (pre ++ w :: post) = pre ++ sedOnce pat rep w :: post := by
  induction pre with
  | nil => rw [List.nil_append, sedFirst, if_pos hw, List.nil_append]
  | cons v pre ih =>
    obtain ⟨hv, hpre⟩ := List.forall_mem_cons.mp hpre
    rw [List.cons_append, sedFirst, if_neg hv, ih hpre, List.cons_append]

/-- The first run in which a pattern occurs. -/
theorem exists_first_run (h : ∃ w ∈ ws, pat <:+: w) :
    ∃ pre w post, ws = pre ++ w :: post ∧ (∀ v ∈ pre, ¬ pat <:+: v) ∧ pat <:+: w := by
  induction ws with
  | nil => simp at h
  | cons v ws ih =>
    by_cases hv : pat <:+: v
    · exact ⟨[], v, ws, rfl, List.forall_mem_nil _, hv⟩
    · rw [List.exists_mem_cons_iff, or_iff_right hv] at h
      obtain ⟨pre, w, post, rfl, hpre, hw⟩ := ih h
      exact ⟨v :: pre, w, post, rfl, List.forall_mem_cons.mpr ⟨hv, hpre⟩, hw⟩

theorem mem_sedOnce (h : c ∈ sedOnce pat rep s) : c ∈ rep ∨ c ∈ s := by
  induction s with
  | nil => exact Or.inr h
  | cons x s ih =>
    rw [sedOnce] at h
    split at h
    · rcases List.mem_append.mp h with h | h
      · exact Or.inl h
      · exact Or.inr (List.mem_of_mem_drop h)
    · rcases List.mem_cons.mp h with rfl | h
      · exact Or.inr List.mem_cons_self
      · exact (ih h).imp_right (List.mem_cons_of_mem x)

theorem mem_sedOnce_of_infix (hpat : pat ≠ []) (hin : pat <:+: s) (h : c ∈ rep) :
    c ∈ sedOnce pat rep s := by
  induction s with
  | nil => exact absurd (List.infix_nil.mp hin) hpat
  | cons x s ih =>
    rw [sedOnce]
    by_cases hx : pat <+: x :: s
    · rw [if_pos hx]
      exact List.mem_append_left _ h
    · rw [List.infix_cons_iff, or_iff_right hx] at hin
      rw [if_neg hx]
      exact List.mem_cons_of_mem x (ih hin)

theorem fits_sedFirst (hrep : ∀ c ∈ rep, p c = true) (h : Fits p ws ds) :
    Fits p (sedFirst pat rep ws) ds := by
  by_cases hall : ∀ w ∈ ws, ¬ pat <:+: w
  · rw [sedFirst_absent hall]
    exact h
  · push Not at hall
    obtain ⟨pre, w, post, rfl, hpre, hw⟩ := exists_first_run hall
    rw [sedFirst_append_cons hpre hw]
    refine ⟨by simpa using h.length, ?_, h.delim⟩
    have hrun := h.run
    rw [List.forall_mem_append, List.forall_mem_cons] at hrun ⊢
    refine ⟨hrun.1, ?_, hrun.2.2⟩
    intro c hc
    rcases mem_sedOnce hc with hc | hc
    · exact hrep c hc
    · exact hrun.2.1 c hc

theorem length_sedOnce (rep : Text) (hpat : pat ≠ []) (h : pat <:+: s) :
    (sedOnce pat rep s).length + pat.length = s.length + rep.length := by
  induction s with
  | nil => exact absurd (List.infix_nil.mp h) hpat
  | cons x s ih =>
    rw [sedOnce]
    by_cases hx : pat <+: x :: s
    · have hle := hx.length_le
      rw [if_pos hx, List.length_append, List.length_drop]
      omega
    · rw [List.infix_cons_iff, or_iff_right hx] at h
      have hlen := ih h
      rw [if_neg hx, List.length_cons, List.length_cons]
      omega

section Order

variable {r : Char → Char → Prop}

theorem lex_append (hlen : pat.length = rep.length) (h : List.Lex r pat rep) (s t : Text) :
    List.Lex r (pat ++ s) (rep ++ t) := by
  induction pat generalizing rep with
  | nil =>
    obtain rfl := List.eq_nil_of_length_eq_zero hlen.symm
    exact absurd h List.not_lex_nil
  | cons a pat ih =>
    cases rep with
    | nil => cases hlen
    | cons b rep =>
      rw [List.cons_append, List.cons_append, List.cons_lex_cons_iff]
      refine (List.cons_lex_cons_iff.mp h).imp_right ?_
      rintro ⟨hab, hlex⟩
      exact ⟨hab, ih (Nat.succ.inj hlen) hlex⟩

/-- Putting a later text of the same length makes a text later. -/
theorem lex_sedOnce (hlen : pat.length = rep.length) (h : List.Lex r pat rep) (hin : pat <:+: s) :
    List.Lex r s (sedOnce pat rep s) := by
  induction s with
  | nil =>
    obtain rfl := List.infix_nil.mp hin
    obtain rfl := List.eq_nil_of_length_eq_zero hlen.symm
    exact absurd h List.not_lex_nil
  | cons x s ih =>
    rw [sedOnce]
    by_cases hx : pat <+: x :: s
    · obtain ⟨t, ht⟩ := hx
      rw [if_pos ⟨t, ht⟩, ← ht, List.drop_left]
      exact lex_append hlen h t t
    · rw [List.infix_cons_iff, or_iff_right hx] at hin
      rw [if_neg hx, List.cons_lex_cons_iff]
      exact Or.inr ⟨rfl, ih hin⟩

theorem lex_or_lex (hlen : pat.length = rep.length) (hne : pat ≠ rep) :
    List.Lex (· < ·) pat rep ∨ List.Lex (· > ·) pat rep := by
  induction pat generalizing rep with
  | nil => exact absurd (List.eq_nil_of_length_eq_zero hlen.symm).symm hne
  | cons a pat ih =>
    cases rep with
    | nil => cases hlen
    | cons b rep =>
      rw [List.cons_lex_cons_iff, List.cons_lex_cons_iff]
      rcases lt_trichotomy a b with hab | rfl | hab
      · exact Or.inl (Or.inl hab)
      · have hne' : pat ≠ rep := fun heq => hne (congrArg _ heq)
        refine (ih (Nat.succ.inj hlen) hne').imp ?_ ?_
        · exact fun hlex => Or.inr ⟨rfl, hlex⟩
        · exact fun hlex => Or.inr ⟨rfl, hlex⟩
      · exact Or.inr (Or.inl hab)

end Order

/-- A second replacement does not undo the first. -/
theorem sedOnce_sedOnce_ne {x : Text} (hpat : pat ≠ []) (hne : pat ≠ rep) (hin : pat ++ x <:+: s)
    (hin' : pat <:+: sedOnce (pat ++ x) (rep ++ x) s) :
    sedOnce pat rep (sedOnce (pat ++ x) (rep ++ x) s) ≠ s := by
  intro heq
  have hlen : pat.length = rep.length := by
    have hfirst := length_sedOnce (rep ++ x) (List.append_ne_nil_of_left_ne_nil hpat x) hin
    have hsecond := length_sedOnce rep hpat hin'
    rw [heq] at hsecond
    simp only [List.length_append] at hfirst
    omega
  have hlen' : (pat ++ x).length = (rep ++ x).length := by
    rw [List.length_append, List.length_append, hlen]
  rcases lex_or_lex hlen hne with hlex | hlex
  · have hfirst := lex_sedOnce hlen' (lex_append hlen hlex x x) hin
    have hsecond := lex_sedOnce hlen hlex hin'
    rw [heq] at hsecond
    exact List.lex_irrefl lt_irrefl s (List.lex_trans lt_trans hfirst hsecond)
  · have hfirst := lex_sedOnce hlen' (lex_append hlen hlex x x) hin
    have hsecond := lex_sedOnce hlen hlex hin'
    rw [heq] at hsecond
    have htwice : List.Lex (· > ·) s s :=
      List.lex_trans (fun hba hcb => lt_trans hcb hba) hfirst hsecond
    exact List.lex_irrefl (r := (· > ·)) (fun a => lt_irrefl a) s htwice

end Sed

end Runs
