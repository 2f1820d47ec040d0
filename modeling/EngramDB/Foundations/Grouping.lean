import Mathlib.Data.List.Basic
import Mathlib.Data.List.Perm.Basic
import Mathlib.Data.List.Nodup
import Mathlib.Data.List.Flatten
import Mathlib.Data.List.Induction

/-!
# Maps from keys to vectors, filled by pushing

`push m k v` is `m.entry(k).or_default().push(v)` on an association list, and `groupBy f xs` pushes
every entry of `xs` under its key, in order. Nothing is lost or repeated (`groupBy_perm`), a group
is the list of the entries of its key (`eq_filter_of_mem_groupBy`), and every key has a non-empty
group (`ne_nil_of_mem_groupBy`).

A hash map is iterated in an order of its own: `IterOrder` stands for one.
-/

namespace Grouping

variable {κ ν : Type} [DecidableEq κ]

/-- Append `v` to the group of `k`, which starts out empty. -/
def push : List (κ × List ν) → κ → ν → List (κ × List ν)
  | [], k, v => [(k, [v])]
  | (k', vs) :: m, k, v => if k' = k then (k', vs ++ [v]) :: m else (k', vs) :: push m k v

/-- The order in which the entries of a hash map are visited. -/
structure IterOrder (α : Type) where
  /-- The entries in this order. -/
  list : List α → List α
  /-- Every entry is visited once. -/
  list_perm : ∀ l, (list l).Perm l

/-- The entries are visited in the order in which their keys were first seen. -/
def IterOrder.asPushed (α : Type) : IterOrder α where
  list l := l
  list_perm := List.Perm.refl

/-- The entries of `xs`, grouped by `f` and in their order within each group. -/
def groupBy (f : ν → κ) (xs : List ν) : List (κ × List ν) :=
  xs.foldl (fun m x => push m (f x) x) []

theorem push_perm (m : List (κ × List ν)) (k : κ) (v : ν) :
    ((push m k v).flatMap Prod.snd).Perm (m.flatMap Prod.snd ++ [v]) := by
  induction m with
  | nil => simp [push]
  | cons g m ih =>
    obtain ⟨k', vs⟩ := g
    by_cases h : k' = k
    · simp only [push, h, if_true, List.flatMap_cons, List.append_assoc]
      exact List.perm_append_comm.append_left vs
    · simp only [push, h, if_false, List.flatMap_cons, List.append_assoc]
      exact ih.append_left vs

theorem map_fst_push (m : List (κ × List ν)) (k : κ) (v : ν) :
    (push m k v).map Prod.fst = if k ∈ m.map Prod.fst then m.map Prod.fst
      else m.map Prod.fst ++ [k] := by
  induction m with
  | nil => simp [push]
  | cons g m ih =>
    obtain ⟨l, us⟩ := g
    by_cases hl : l = k
    · simp [push, hl]
    · simp only [push, hl, if_false, List.map_cons, ih, List.mem_cons, Ne.symm hl, false_or]
      split_ifs <;> simp

/-- Pushing changes the group of its key alone. -/
theorem lookup_push (m : List (κ × List ν)) (k : κ) (v : ν) (k' : κ) :
    ((push m k v).lookup k').getD [] =
      if k' = k then (m.lookup k').getD [] ++ [v] else (m.lookup k').getD [] := by
  induction m with
  | nil =>
    by_cases h : k' = k
    · simp [push, h]
    · have hne : (k' == k) = false := beq_eq_false_iff_ne.mpr h
      simp [push, h, List.lookup_cons, hne]
  | cons g m ih =>
    obtain ⟨l, us⟩ := g
    by_cases hl : l = k
    · subst hl
      by_cases h : k' = l
      · simp [push, h]
      · have hne : (k' == l) = false := beq_eq_false_iff_ne.mpr h
        simp [push, h, List.lookup_cons, hne]
    · simp only [push, hl, if_false, List.lookup_cons]
      by_cases h : k' = l
      · subst h
        simp [hl]
      · have hne : (k' == l) = false := beq_eq_false_iff_ne.mpr h
        simpa [hne] using ih

theorem nodup_keys_push {m : List (κ × List ν)} (k : κ) (v : ν) (h : (m.map Prod.fst).Nodup) :
    ((push m k v).map Prod.fst).Nodup := by
  rw [map_fst_push]
  split_ifs with hk
  · exact h
  · refine List.nodup_append.mpr ⟨h, by simp, fun a ha b hb hab => hk ?_⟩
    rwa [← List.mem_singleton.mp hb, ← hab]

theorem mem_push {m : List (κ × List ν)} {k k' : κ} {v : ν} {vs : List ν}
    (hnodup : (m.map Prod.fst).Nodup) (h : (k', vs) ∈ push m k v) :
    (k' ≠ k ∧ (k', vs) ∈ m) ∨
      (k' = k ∧ ((k ∉ m.map Prod.fst ∧ vs = [v]) ∨ ∃ us, (k, us) ∈ m ∧ vs = us ++ [v])) := by
  induction m with
  | nil =>
    simp only [push, List.mem_singleton, Prod.mk.injEq] at h
    exact .inr ⟨h.1, .inl ⟨by simp, h.2⟩⟩
  | cons g m ih =>
    obtain ⟨l, us⟩ := g
    rw [List.map_cons, List.nodup_cons] at hnodup
    -- the group of the key takes the value, and the groups after it have other keys
    by_cases hl : l = k
    · subst hl
      simp only [push, if_true, List.mem_cons, Prod.mk.injEq] at h
      rcases h with ⟨rfl, rfl⟩ | h
      · exact .inr ⟨rfl, .inr ⟨us, by simp, rfl⟩⟩
      · have hk : k' ∈ m.map Prod.fst := List.mem_map_of_mem (f := Prod.fst) h
        exact .inl ⟨fun he => hnodup.1 (he ▸ hk), List.mem_cons_of_mem _ h⟩
    · simp only [push, hl, if_false, List.mem_cons, Prod.mk.injEq] at h
      rcases h with ⟨rfl, rfl⟩ | h
      · exact .inl ⟨hl, by simp⟩
      · rcases ih hnodup.2 h with ⟨hne, h⟩ | ⟨rfl, ⟨hk, hvs⟩ | ⟨ws, hws, hvs⟩⟩
        · exact .inl ⟨hne, List.mem_cons_of_mem _ h⟩
        · refine .inr ⟨rfl, .inl ⟨?_, hvs⟩⟩
          rw [List.map_cons, List.mem_cons, not_or]
          exact ⟨Ne.symm hl, hk⟩
        · exact .inr ⟨rfl, .inr ⟨ws, List.mem_cons_of_mem _ hws, hvs⟩⟩

/-- The maps have the same keys in the same order, and the groups of a key have the same members. -/
def Alike (m m' : List (κ × List ν)) : Prop :=
  List.Forall₂ (fun g g' => g.1 = g'.1 ∧ ∀ v, v ∈ g.2 ↔ v ∈ g'.2) m m'

theorem Alike.push {m m' : List (κ × List ν)} (h : Alike m m') (k : κ) (v : ν) :
    Alike (push m k v) (push m' k v) := by
  induction h with
  | nil => exact .cons ⟨rfl, fun _ => .rfl⟩ .nil
  | @cons g g' m m' hg hm ih =>
    obtain ⟨l, us⟩ := g
    obtain ⟨l', us'⟩ := g'
    obtain ⟨rfl, hmem⟩ := hg
    unfold Grouping.push
    by_cases hl : l = k
    · rw [if_pos hl, if_pos hl]
      refine .cons ⟨rfl, fun u => ?_⟩ hm
      rw [List.mem_append, List.mem_append, hmem]
    · rw [if_neg hl, if_neg hl]
      exact .cons ⟨rfl, hmem⟩ ih

/-- A value that its group has already may be pushed once more. -/
theorem Alike.push_right {m m' : List (κ × List ν)} (h : Alike m m') {k : κ} {v : ν}
    (hv : v ∈ (m'.lookup k).getD []) : Alike m (Grouping.push m' k v) := by
  induction h with
  | nil => simp at hv
  | @cons g g' m m' hg hm ih =>
    obtain ⟨l, us⟩ := g
    obtain ⟨l', us'⟩ := g'
    obtain ⟨rfl, hmem⟩ := hg
    unfold Grouping.push
    by_cases hl : l = k
    · subst hl
      rw [if_pos rfl]
      -- the group has the value already
      have hv : v ∈ us' := by simpa using hv
      refine .cons ⟨rfl, fun u => ?_⟩ hm
      rw [hmem, List.mem_append, List.mem_singleton]
      exact ⟨.inl, fun hu => hu.elim id fun hu => hu ▸ hv⟩
    · rw [if_neg hl]
      have hne : (k == l) = false := beq_eq_false_iff_ne.mpr (Ne.symm hl)
      rw [List.lookup_cons, hne] at hv
      exact .cons ⟨rfl, hmem⟩ (ih hv)

/-- Grouping is a fold, so what `push` preserves holds of every group list. -/
theorem groupBy_induction {f : ν → κ} {P : List (κ × List ν) → List ν → Prop}
    (hnil : P [] []) (hpush : ∀ m xs x, P m xs → P (push m (f x) x) (xs ++ [x])) (xs : List ν) :
    P (groupBy f xs) xs := by
  induction xs using List.reverseRecOn with
  | nil => exact hnil
  | append_singleton xs x ih =>
    rw [groupBy, List.foldl_append]
    exact hpush _ xs x ih

/-- The groups together hold every entry once. -/
theorem groupBy_perm (f : ν → κ) (xs : List ν) : ((groupBy f xs).flatMap Prod.snd).Perm xs :=
  groupBy_induction (P := fun m xs => (m.flatMap Prod.snd).Perm xs) (List.Perm.refl _)
    (fun m _ x ih => (push_perm m (f x) x).trans (ih.append_right [x])) xs

/-- A group is the list of the entries of its key, in order. -/
theorem eq_filter_of_mem_groupBy {f : ν → κ} {xs : List ν} {k : κ} {vs : List ν}
    (h : (k, vs) ∈ groupBy f xs) : vs = xs.filter (f · = k) := by
  refine (groupBy_induction (f := f) (P := fun m xs => (m.map Prod.fst).Nodup ∧
    (∀ x ∈ xs, f x ∈ m.map Prod.fst) ∧ ∀ k vs, (k, vs) ∈ m → vs = xs.filter (f · = k))
    ?_ ?_ xs).2.2 k vs h
  · simp
  · rintro m xs x ⟨hnodup, hkeys, hgroups⟩
    refine ⟨nodup_keys_push _ _ hnodup, fun y hy => ?_, fun k vs h => ?_⟩
    · rw [map_fst_push]
      rcases List.mem_append.mp hy with hy | hy
      · have := hkeys y hy
        split_ifs
        · exact this
        · exact List.mem_append_left _ this
      · rw [List.mem_singleton.mp hy]
        split_ifs with hk
        · exact hk
        · simp
    · rw [List.filter_append]
      -- an old group, a first one for the key, or the group of the key with one more
      rcases mem_push hnodup h with ⟨hne, h⟩ | ⟨rfl, ⟨hk, rfl⟩ | ⟨us, hus, rfl⟩⟩
      · rw [hgroups k vs h]
        simp [Ne.symm hne]
      · have hnone : xs.filter (f · = f x) = [] := by
          rw [List.filter_eq_nil_iff]
          intro y hy hfy
          exact hk ((decide_eq_true_eq.mp hfy) ▸ hkeys y hy)
        simp [hnone]
      · rw [hgroups _ us hus]
        simp

/-- Every entry sits in the group of its own key. -/
theorem key_of_mem_groupBy {f : ν → κ} {xs : List ν} {k : κ} {vs : List ν}
    (h : (k, vs) ∈ groupBy f xs) {v : ν} (hv : v ∈ vs) : f v = k := by
  rw [eq_filter_of_mem_groupBy h] at hv
  exact decide_eq_true_eq.mp (List.mem_filter.mp hv).2

/-- No group is empty. -/
theorem ne_nil_of_mem_groupBy {f : ν → κ} {xs : List ν} {k : κ} {vs : List ν}
    (h : (k, vs) ∈ groupBy f xs) : vs ≠ [] := by
  refine (groupBy_induction (f := f) (P := fun m _ => (m.map Prod.fst).Nodup ∧
    ∀ k vs, (k, vs) ∈ m → vs ≠ []) ?_ ?_ xs).2 k vs h
  · simp
  · rintro m _ x ⟨hnodup, ih⟩
    refine ⟨nodup_keys_push _ _ hnodup, fun k vs h => ?_⟩
    rcases mem_push hnodup h with ⟨-, h⟩ | ⟨-, ⟨-, rfl⟩ | ⟨us, -, rfl⟩⟩
    · exact ih k vs h
    · simp
    · simp

/-- A list with an entry has a group. -/
theorem groupBy_ne_nil {f : ν → κ} {xs : List ν} (h : xs ≠ []) : groupBy f xs ≠ [] := by
  intro hnil
  have hperm := groupBy_perm f xs
  rw [hnil] at hperm
  exact h (List.nil_perm.mp hperm)

end Grouping
