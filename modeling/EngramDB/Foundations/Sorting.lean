import Mathlib.Data.List.Destutter
import Mathlib.Data.List.Sort

/-!
# Sorting and removing adjacent duplicates

A vector that is sorted and then deduplicated has the entries that it had, in strictly increasing
order (`mem_sortDedup`, `pairwise_sortDedup`). Two vectors with the same entries become the same
vector (`sortDedup_congr`), whatever the order and the repeats they start with.

A vector whose entries have distinct keys is sorted by key in one way only: any sort returns
`sortByKey`, from any order of the entries (`sortByKey_congr`).
-/

namespace Sorting

variable {α : Type}

theorem destutter'_subset [DecidableEq α] (l : List α) (a : α) {x : α} (hx : x ∈ a :: l) :
    x ∈ l.destutter' (· ≠ ·) a := by
  induction l generalizing a with
  | nil => simpa using hx
  | cons b l ih =>
    rw [List.destutter'_cons]
    split_ifs with hab
    · rcases List.mem_cons.mp hx with rfl | hx
      · simp
      · exact List.mem_cons_of_mem _ (ih b hx)
    · obtain rfl : a = b := not_not.mp hab
      exact ih a (by simpa using hx)

/-- Dropping adjacent duplicates loses no entry. -/
theorem mem_destutter [DecidableEq α] {l : List α} {x : α} : x ∈ l.destutter (· ≠ ·) ↔ x ∈ l := by
  cases l with
  | nil => simp
  | cons a l => exact ⟨fun h => (List.destutter'_sublist _ _ _).subset h, destutter'_subset l a⟩

section SortDedup

variable [LinearOrder α]

/-- The entries of a list in order, each once. -/
def sortDedup (l : List α) : List α := (l.insertionSort (· ≤ ·)).destutter (· ≠ ·)

theorem mem_sortDedup {l : List α} {x : α} : x ∈ sortDedup l ↔ x ∈ l := by
  rw [sortDedup, mem_destutter, List.mem_insertionSort]

/-- The entries strictly increase: they do not decrease, and neighbours differ. -/
theorem pairwise_sortDedup (l : List α) : (sortDedup l).Pairwise (· < ·) := by
  have hsub : (sortDedup l).Sublist (l.insertionSort (· ≤ ·)) := List.destutter_sublist _ _
  have hle : (sortDedup l).IsChain (· ≤ ·) :=
    ((List.pairwise_insertionSort (· ≤ ·) l).sublist hsub).isChain
  have hne : (sortDedup l).IsChain (· ≠ ·) := List.isChain_destutter _ _
  rw [← List.isChain_iff_pairwise]
  rw [List.isChain_iff_forall_rel_of_append_cons_cons] at hle hne ⊢
  intro a b l₁ l₂ hl
  exact lt_of_le_of_ne (hle hl) (hne hl)

/-- Only the members of a list matter (`h`) for what it becomes sorted and without repetitions,
neither their order nor how often they stand there. -/
theorem sortDedup_congr {l l' : List α} (h : ∀ x, x ∈ l ↔ x ∈ l') : sortDedup l = sortDedup l' := by
  refine (pairwise_sortDedup l).eq_of_mem_iff (pairwise_sortDedup l') fun x => ?_
  rw [mem_sortDedup, mem_sortDedup, h]

theorem sortDedup_sortDedup (l : List α) : sortDedup (sortDedup l) = sortDedup l :=
  sortDedup_congr fun _ => mem_sortDedup

end SortDedup

section SortByKey

variable {κ : Type} [LinearOrder κ] {key : α → κ} {l l' : List α}

/-- The entries of a list in the order of their keys. -/
def sortByKey (key : α → κ) (l : List α) : List α := l.insertionSort fun a b => key a ≤ key b

theorem perm_sortByKey (key : α → κ) (l : List α) : (sortByKey key l).Perm l :=
  List.perm_insertionSort _ _

theorem pairwise_sortByKey (key : α → κ) (l : List α) :
    (sortByKey key l).Pairwise fun a b => key a ≤ key b := by
  have : Std.Total fun a b : α => key a ≤ key b := ⟨fun a b => le_total (key a) (key b)⟩
  have : IsTrans α fun a b => key a ≤ key b := ⟨fun a b c => le_trans⟩
  exact List.pairwise_insertionSort _ _

/-- Entries with distinct keys (`h`), sorted by their keys, strictly increase. -/
theorem pairwise_lt_sortByKey (h : (l.map key).Nodup) :
    (sortByKey key l).Pairwise fun a b => key a < key b := by
  have hnodup : ((sortByKey key l).map key).Nodup :=
    ((perm_sortByKey key l).map key).nodup_iff.mpr h
  have hne := List.pairwise_map.mp hnodup
  exact ((pairwise_sortByKey key l).and hne).imp fun h => lt_of_le_of_ne h.1 h.2

/-- Entries with distinct keys are sorted in one way, whatever order they come in. -/
theorem sortByKey_congr (h : (l.map key).Nodup) (hl : l.Perm l') :
    sortByKey key l = sortByKey key l' := by
  have : Std.Antisymm fun a b : α => key a < key b := ⟨fun a b hab hba => absurd hab (lt_asymm hba)⟩
  have hperm : (sortByKey key l).Perm (sortByKey key l') :=
    (perm_sortByKey key l).trans (hl.trans (perm_sortByKey key l').symm)
  have h' : (l'.map key).Nodup := (hl.map key).nodup_iff.mp h
  exact hperm.eq_of_pairwise' (pairwise_lt_sortByKey h) (pairwise_lt_sortByKey h')

end SortByKey

end Sorting
