import MkCDrec.Lib.Collecting

/-!
# Loading what depends on each other

An item is loaded when all that it requires was loaded before.
-/

namespace Loading

open Collecting

universe u
variable {α : Type u} [DecidableEq α]

/-- One attempt; what is there already is not loaded again. -/
def load (requires : α → List α) (loaded : List α) (a : α) : List α :=
  if a ∉ loaded ∧ ∀ d ∈ requires a, d ∈ loaded then loaded ++ [a] else loaded

def loadAll (requires : α → List α) (items : List α) : List α :=
  items.foldl (load requires) []

/-- Whatever is new has its requirements before it. -/
def Ordered (requires : α → List α) (items : List α) : Prop :=
  ∀ pre a post, items = pre ++ a :: post → a ∉ pre → ∀ d ∈ requires a, d ∈ pre

section Items

variable {requires : α → List α} {items : List α} {a : α}

theorem loadAll_snoc (requires : α → List α) (items : List α) (a : α) :
    loadAll requires (items ++ [a]) = load requires (loadAll requires items) a := by
  rw [loadAll, List.foldl_append]
  rfl

theorem mem_of_mem_loadAll (h : a ∈ loadAll requires items) : a ∈ items := by
  induction items using List.reverseRecOn with
  | nil => exact h
  | append_singleton items b ih =>
    rw [loadAll_snoc, load] at h
    split at h
    · rcases List.mem_append.mp h with h | h
      · exact List.mem_append_left _ (ih h)
      · exact List.mem_append_right _ h
    · exact List.mem_append_left _ (ih h)

omit [DecidableEq α] in
theorem Ordered.init (h : Ordered requires (items ++ [a])) : Ordered requires items := by
  intro pre b post heq
  exact h pre b (post ++ [a]) (by simp [heq])

/-- In order and without repetitions everything is loaded. -/
theorem loadAll_eraseDups [BEq α] [LawfulBEq α] (h : Ordered requires items) :
    loadAll requires items.eraseDups = items.eraseDups := by
  induction items using List.reverseRecOn with
  | nil => rfl
  | append_singleton items b ih =>
    have hinit := ih h.init
    rw [eraseDups_snoc]
    split
    · exact hinit
    · rename_i hb
      have hready : b ∉ items.eraseDups ∧ ∀ d ∈ requires b, d ∈ items.eraseDups := by
        simp only [List.mem_eraseDups]
        exact ⟨hb, h items b [] rfl hb⟩
      rw [loadAll_snoc, hinit, load, if_pos hready]

end Items

end Loading
