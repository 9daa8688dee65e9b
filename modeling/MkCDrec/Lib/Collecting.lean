import Mathlib.Data.List.Induction
import Mathlib.Data.List.Nodup

/-!
# Collecting without repetitions

A loop adds an item to a list unless a test says that it is there. The test may find an
item by mistake, and then the item is lost.
-/

namespace Collecting

variable {α : Type*}

def collect (found : List α → α → Bool) (items : List α) : List α :=
  items.foldl (fun kept a => if found kept a then kept else kept ++ [a]) []

/-- A test that finds what is there, and goes on finding what it once found. -/
structure Test (found : List α → α → Bool) : Prop where
  self : ∀ kept a, a ∈ kept → found kept a = true
  mono : ∀ kept rest a, found kept a = true → found (kept ++ rest) a = true

/-- No item is found before it is there. -/
def Clear [BEq α] (found : List α → α → Bool) (items : List α) : Prop :=
  ∀ pre a post, items = pre ++ a :: post → a ∉ pre → found pre.eraseDups a = false

section Collect

variable {found : List α → α → Bool} {items : List α} {a : α}

@[simp] theorem collect_nil : collect found [] = [] := rfl

theorem collect_snoc (found : List α → α → Bool) (items : List α) (a : α) :
    collect found (items ++ [a]) =
      if found (collect found items) a then collect found items else collect found items ++ [a] := by
  rw [collect, List.foldl_append]
  rfl

theorem mem_of_mem_collect (h : a ∈ collect found items) : a ∈ items := by
  induction items using List.reverseRecOn with
  | nil => exact h
  | append_singleton items b ih =>
    rw [collect_snoc] at h
    split at h
    · exact List.mem_append_left _ (ih h)
    · rcases List.mem_append.mp h with h | h
      · exact List.mem_append_left _ (ih h)
      · exact List.mem_append_right _ h

theorem nodup_collect (ht : Test found) (items : List α) : (collect found items).Nodup := by
  induction items using List.reverseRecOn with
  | nil => exact List.nodup_nil
  | append_singleton items b ih =>
    rw [collect_snoc]
    split
    · exact ih
    · rename_i hfound
      apply ih.append (List.nodup_singleton b)
      intro x hx hb
      obtain rfl := List.mem_singleton.mp hb
      exact hfound (ht.self _ _ hx)

/-- What is not kept was found. -/
theorem found_of_notMem (ht : Test found) (ha : a ∈ items) (hlost : a ∉ collect found items) :
    found (collect found items) a = true := by
  induction items using List.reverseRecOn with
  | nil => cases ha
  | append_singleton items b ih =>
    rw [collect_snoc] at hlost ⊢
    split
    · rename_i hfound
      rw [if_pos hfound] at hlost
      rcases List.mem_append.mp ha with ha | ha
      · exact ih ha hlost
      · obtain rfl := List.mem_singleton.mp ha
        exact hfound
    · rename_i hfound
      rw [if_neg hfound] at hlost
      rcases List.mem_append.mp ha with ha | ha
      · apply ht.mono
        exact ih ha fun hmem => hlost (List.mem_append_left _ hmem)
      · exact absurd (List.mem_append_right _ ha) hlost

end Collect

section Complete

variable [BEq α] {found : List α → α → Bool} {items : List α}

theorem Clear.init {b : α} (h : Clear found (items ++ [b])) : Clear found items := by
  intro pre a post heq ha
  apply h pre a (post ++ [b]) _ ha
  simp [heq]

variable [LawfulBEq α]

theorem eraseDups_snoc (items : List α) (b : α) :
    (items ++ [b]).eraseDups = if b ∈ items then items.eraseDups else items.eraseDups ++ [b] := by
  rw [List.eraseDups_append]
  by_cases hb : b ∈ items
  · simp [List.removeAll, hb]
  · simp [List.removeAll, hb, List.eraseDups_cons]

theorem collect_of_clear (ht : Test found) (h : Clear found items) :
    collect found items = items.eraseDups := by
  induction items using List.reverseRecOn with
  | nil => rfl
  | append_singleton items b ih =>
    have hinit := ih h.init
    rw [collect_snoc, eraseDups_snoc, hinit]
    by_cases hb : b ∈ items
    · rw [if_pos hb, if_pos]
      exact ht.self _ _ (List.mem_eraseDups.mpr hb)
    · rw [if_neg hb, h items b [] rfl hb]
      rfl

/-- Nothing is lost only where no item is found too early. -/
theorem clear_of_complete (ht : Test found) (hall : ∀ a ∈ items, a ∈ collect found items) :
    Clear found items := by
  induction items using List.reverseRecOn with
  | nil =>
    intro pre a post heq
    simp at heq
  | append_singleton items b ih =>
    have hinit : ∀ a ∈ items, a ∈ collect found items := by
      intro a ha
      by_contra hlost
      have hfound := found_of_notMem ht ha hlost
      have hkept := hall a (List.mem_append_left _ ha)
      rw [collect_snoc] at hkept
      split at hkept
      · exact hlost hkept
      · rename_i hnew
        rcases List.mem_append.mp hkept with hkept | hkept
        · exact hlost hkept
        · obtain rfl := List.mem_singleton.mp hkept
          exact hnew hfound
    have hclear := ih hinit
    intro pre a post heq ha
    rcases List.eq_nil_or_concat post with rfl | ⟨post, c, rfl⟩
    · obtain ⟨rfl, hab⟩ := List.append_inj' heq rfl
      obtain rfl := List.singleton_inj.mp hab
      by_contra hfound
      rw [Bool.not_eq_false, ← collect_of_clear ht hclear] at hfound
      have hkept := hall b (List.mem_append_right _ List.mem_cons_self)
      rw [collect_snoc, if_pos hfound] at hkept
      exact ha (mem_of_mem_collect hkept)
    · apply hclear pre a post _ ha
      have hsplit : items ++ [b] = (pre ++ a :: post) ++ [c] := by simpa using heq
      exact (List.append_inj' hsplit rfl).1

end Complete

end Collecting
