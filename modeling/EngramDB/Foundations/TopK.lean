import Mathlib.Data.List.MinMax
import Mathlib.Data.List.Perm.Basic
import Mathlib.Order.Bounds.Basic

/-!
# The greatest entries

`TopSplit key k l picked rest` says that a list was split into `k` of its entries with the greatest
keys, or all of them if there are not so many, and the others. Both ways to pick them split a list
so: popping a heap `k` times (`topSplit_popLoop`), and taking the first `k` of a list in decreasing
order (`topSplit_take`). `greatest` is the greatest of some numbers.
-/

namespace TopK

variable {α κ : Type} [LinearOrder κ]

/-- A list is split into `k` of its entries with the greatest keys and the others. -/
structure TopSplit (key : α → κ) (k : ℕ) (l picked rest : List α) : Prop where
  /-- No entry is lost or repeated. -/
  perm : (picked ++ rest).Perm l
  /-- As many are picked as there are, up to `k`. -/
  length_picked : picked.length = min k l.length
  /-- No entry that is left has a greater key than one that is picked. -/
  le : ∀ a ∈ picked, ∀ b ∈ rest, key b ≤ key a

variable {key : α → κ} {k : ℕ} {l picked rest : List α}

/-- Only the entries of the list matter, so that a list in another order (`hl`) is split alike. -/
theorem TopSplit.of_perm {l' : List α} (h : TopSplit key k l picked rest) (hl : l.Perm l') :
    TopSplit key k l' picked rest where
  perm := h.perm.trans hl
  length_picked := by rw [h.length_picked, hl.length_eq]
  le := h.le

/-- The order in which the entries were picked does not matter. -/
theorem TopSplit.perm_picked {picked' : List α} (h : TopSplit key k l picked rest)
    (hperm : picked.Perm picked') : TopSplit key k l picked' rest where
  perm := (hperm.symm.append_right rest).trans h.perm
  length_picked := by rw [← hperm.length_eq, h.length_picked]
  le := fun a ha => h.le a (hperm.symm.subset ha)

/-- A split of entries that carry more than their keys, of which `g` takes the rest off (`hgf`)
without changing their order (`hkey`), gives a split of the plain ones. -/
theorem TopSplit.of_map {β κ' : Type} [LinearOrder κ'] {key' : β → κ'} {f : α → β}
    {picked rest : List β} (h : TopSplit key' k (l.map f) picked rest) {g : β → α}
    (hgf : ∀ a, g (f a) = a) (hkey : ∀ a b, key' (f a) ≤ key' (f b) → key a ≤ key b) :
    TopSplit key k l (picked.map g) (rest.map g) where
  perm := by
    have hmap : (l.map f).map g = l := by
      rw [List.map_map]
      exact (List.map_congr_left fun a _ => hgf a).trans (List.map_id l)
    have hperm := h.perm.map g
    rwa [List.map_append, hmap] at hperm
  length_picked := by rw [List.length_map, h.length_picked, List.length_map]
  le := by
    have hform : ∀ b ∈ picked ++ rest, f (g b) = b := by
      intro b hb
      obtain ⟨a, -, rfl⟩ := List.mem_map.mp (h.perm.subset hb)
      rw [hgf]
    intro _ ha' _ hb'
    obtain ⟨a, ha, rfl⟩ := List.mem_map.mp ha'
    obtain ⟨b, hb, rfl⟩ := List.mem_map.mp hb'
    refine hkey _ _ ?_
    rw [hform a (List.mem_append_left _ ha), hform b (List.mem_append_right _ hb)]
    exact h.le a ha b hb

theorem TopSplit.mem_picked (h : TopSplit key k l picked rest) {a : α} (ha : a ∈ picked) : a ∈ l :=
  h.perm.subset (List.mem_append_left _ ha)

/-- An entry of the list (`ha`) that is not picked (`hnot`) is left. -/
theorem TopSplit.mem_rest (h : TopSplit key k l picked rest) {a : α} (ha : a ∈ l)
    (hnot : a ∉ picked) :
    a ∈ rest :=
  (List.mem_append.mp (h.perm.symm.subset ha)).resolve_left hnot

/-- The first `k` entries of a list in decreasing order are the greatest. -/
theorem topSplit_take (h : l.Pairwise fun a b => key b ≤ key a) (k : ℕ) :
    TopSplit key k l (l.take k) (l.drop k) where
  perm := by rw [List.take_append_drop]
  length_picked := List.length_take
  le := by
    rw [← List.take_append_drop k l] at h
    exact (List.pairwise_append.mp h).2.2

/-- The greatest of some numbers, or zero. -/
def greatest (l : List ℕ) : ℕ := l.foldr max 0

theorem isGreatest_greatest {l : List ℕ} (h : l ≠ []) : IsGreatest {n | n ∈ l} (greatest l) := by
  induction l with
  | nil => exact absurd rfl h
  | cons n l ih =>
    show IsGreatest {m | m ∈ n :: l} (max n (greatest l))
    by_cases hl : l = []
    · subst hl
      refine ⟨?_, fun m hm => ?_⟩
      · exact List.mem_singleton.mpr (Nat.max_zero n)
      · exact (List.mem_singleton.mp hm).le.trans (Nat.le_max_left _ _)
    · obtain ⟨hmem, hupper⟩ := ih hl
      refine ⟨?_, fun m hm => ?_⟩
      · rcases max_choice n (greatest l) with hmax | hmax
        · rw [hmax]
          exact List.mem_cons_self
        · rw [hmax]
          exact List.mem_cons_of_mem n hmem
      · rcases List.mem_cons.mp hm with rfl | hm
        · exact Nat.le_max_left _ _
        · exact (hupper hm).trans (Nat.le_max_right _ _)

section Heap

variable [DecidableEq α]

/-- Take an entry with the greatest key out of a heap. -/
def pop (key : α → κ) (heap : List α) : Option (α × List α) :=
  (heap.argmax key).map fun a => (a, heap.erase a)

/-- Pop a heap until it is empty or `k` entries were popped: these entries, and what is left. -/
def popLoop (key : α → κ) : ℕ → List α → List α × List α
  | 0, heap => ([], heap)
  | k + 1, heap =>
    match pop key heap with
    | none => ([], heap)
    | some (a, heap) =>
      let (picked, rest) := popLoop key k heap
      (a :: picked, rest)

theorem pop_eq_none {heap : List α} (h : pop key heap = none) : heap = [] := by
  rw [pop, Option.map_eq_none_iff] at h
  exact List.argmax_eq_none.mp h

theorem pop_eq_some {heap heap' : List α} {a : α} (h : pop key heap = some (a, heap')) :
    (a :: heap').Perm heap ∧ ∀ b ∈ heap, key b ≤ key a := by
  rw [pop, Option.map_eq_some_iff] at h
  obtain ⟨m, hm, hpair⟩ := h
  obtain ⟨rfl, rfl⟩ := Prod.mk.inj hpair
  exact ⟨(List.perm_cons_erase (List.argmax_mem hm)).symm, fun b hb => List.le_of_mem_argmax hb hm⟩

/-- Popping a heap `k` times takes its greatest entries by `key` and leaves the others. -/
theorem topSplit_popLoop (key : α → κ) (k : ℕ) (heap : List α) :
    TopSplit key k heap (popLoop key k heap).1 (popLoop key k heap).2 := by
  induction k generalizing heap with
  | zero => exact ⟨List.Perm.refl _, (Nat.zero_min _).symm, fun a ha => absurd ha List.not_mem_nil⟩
  | succ k ih =>
    rw [popLoop]
    split
    next hnone =>
      obtain rfl := pop_eq_none hnone
      exact ⟨List.Perm.refl _, (Nat.min_zero _).symm, fun a ha => absurd ha List.not_mem_nil⟩
    next a heap' hsome =>
      obtain ⟨hperm, hmax⟩ := pop_eq_some hsome
      -- the first item is a largest one, and the loop goes on with the others
      have h := ih heap'
      refine ⟨(h.perm.cons a).trans hperm, ?_, ?_⟩
      · rw [List.length_cons, h.length_picked, ← hperm.length_eq, List.length_cons]
        omega
      · intro b hb c hc
        rcases List.mem_cons.mp hb with rfl | hb
        · exact hmax c
            (hperm.subset (List.mem_cons_of_mem _ (h.perm.subset (List.mem_append_right _ hc))))
        · exact h.le b hb c hc

end Heap

end TopK
