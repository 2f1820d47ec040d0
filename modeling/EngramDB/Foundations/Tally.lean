import EngramDB.Foundations.OrderedDict
import Mathlib.Algebra.BigOperators.Group.List.Basic
import Mathlib.Algebra.Order.Field.Rat
import Mathlib.Logic.Function.Iterate

/-!
# Dictionaries that are counted up

`modify d k v₀ f` changes the value of a key in place, where a key that is missing counts as one
with the value `v₀`. When the entries of a list are put in one after another, the value of a key
comes from the entries of that key alone, in their order (`getD_foldl_modify`). `bump` adds one, so
a list that is put in leaves the number of occurrences of every key (`getD_foldl_bump`).
-/

namespace EngramDB

namespace OrderedDict

variable {κ ν α : Type} [DecidableEq κ]

/-- The value of a key, or `v₀` for a key that is missing. -/
def getD (d : OrderedDict κ ν) (k : κ) (v₀ : ν) : ν := (d.get? k).getD v₀

/-- Change the value of a key, which starts out as `v₀`. -/
def modify (d : OrderedDict κ ν) (k : κ) (v₀ : ν) (f : ν → ν) : OrderedDict κ ν :=
  d.set k (f (d.getD k v₀))

variable {d : OrderedDict κ ν} {k k' : κ} {v v₀ : ν} {f : ν → ν}

/-- A key that is found has the value that is found. -/
theorem getD_eq_of_get? (h : d.get? k = some v) : d.getD k v₀ = v := by
  rw [getD, h, Option.getD_some]

/-- A key that is not there has the default. -/
theorem getD_of_notMem (h : k ∉ d.keys) : d.getD k v₀ = v₀ := by
  rw [getD, get?_eq_none_iff.mpr h, Option.getD_none]

/-- The value of a key that is there is an entry. -/
theorem mem_entries_getD (h : k ∈ d.keys) (v₀ : ν) : (k, d.getD k v₀) ∈ d.entries := by
  obtain ⟨v, hv⟩ := Option.isSome_iff_exists.mp (get?_isSome_iff.mpr h)
  rw [getD_eq_of_get? hv]
  exact get?_eq_some_iff.mp hv

/-- A lookup after a modification finds the new value under its key, and under the others what it
found before. -/
theorem get?_modify :
    (d.modify k v₀ f).get? k' = if k' = k then some (f (d.getD k v₀)) else d.get? k' := by
  split_ifs with h
  · rw [h, modify, get?_set_self]
  · rw [modify, get?_set_of_ne h]

/-- The value after a modification is the new one under its key, and under the others the one
before. -/
theorem getD_modify :
    (d.modify k v₀ f).getD k' v₀ = if k' = k then f (d.getD k v₀) else d.getD k' v₀ := by
  rw [getD, get?_modify]
  split_ifs
  · rw [Option.getD_some]
  · rw [getD]

/-- A modification adds its key. -/
theorem mem_keys_modify : k' ∈ (d.modify k v₀ f).keys ↔ k' = k ∨ k' ∈ d.keys := by
  rw [modify, keys_set]
  split_ifs with h
  · exact ⟨.inr, fun hk => hk.elim (fun hk => hk ▸ h) id⟩
  · rw [List.mem_append, List.mem_singleton, or_comm]

section Fold

variable {key : α → κ} {g : α → ν → ν}

/-- The value of a key comes from the entries of the key. -/
theorem getD_foldl_modify (l : List α) (d : OrderedDict κ ν) (k : κ) :
    (l.foldl (fun d a => d.modify (key a) v₀ (g a)) d).getD k v₀ =
      (l.filter (key · = k)).foldl (fun v a => g a v) (d.getD k v₀) := by
  induction l generalizing d with
  | nil => rfl
  | cons a l ih =>
    rw [List.foldl_cons, ih, getD_modify]
    by_cases h : key a = k
    · rw [if_pos h.symm, List.filter_cons_of_pos (by simpa using h), List.foldl_cons, h]
    · rw [if_neg (Ne.symm h), List.filter_cons_of_neg (by simpa using h)]

/-- The keys are those of the entries. -/
theorem mem_keys_foldl_modify (l : List α) (d : OrderedDict κ ν) (k : κ) :
    k ∈ (l.foldl (fun d a => d.modify (key a) v₀ (g a)) d).keys ↔
      k ∈ d.keys ∨ ∃ a ∈ l, key a = k := by
  induction l generalizing d with
  | nil => simp
  | cons a l ih =>
    rw [List.foldl_cons, ih, mem_keys_modify, List.exists_mem_cons_iff, eq_comm (a := k), or_assoc,
      or_left_comm]

end Fold

/-- A change that makes every value greater by one makes the sum of the values greater by one. -/
theorem sum_modify {μ : ν → ℕ} (h₀ : μ v₀ = 0) (hf : ∀ v, μ (f v) = μ v + 1) :
    ((d.modify k v₀ f).entries.map fun e => μ e.2).sum =
      (d.entries.map fun e => μ e.2).sum + 1 := by
  have hset : ((d.modify k v₀ f).entries.map fun e => μ e.2).sum =
      μ (d.getD k v₀) + 1 + ((d.erase k).entries.map fun e => μ e.2).sum := by
    rw [modify, (perm_set.map fun e => μ e.2).sum_eq, List.map_cons, List.sum_cons, hf]
  rw [hset]
  cases hk : d.get? k with
  | none =>
    have hnot : k ∉ d.keys := get?_eq_none_iff.mp hk
    rw [getD_of_notMem hnot, h₀, entries_erase_of_notMem hnot, Nat.zero_add, Nat.add_comm]
  | some v =>
    rw [getD_eq_of_get? hk, ((perm_of_get? hk).map fun e => μ e.2).sum_eq,
      List.map_cons, List.sum_cons, Nat.add_right_comm]

/-- `sum(d.values())`. -/
def total (d : OrderedDict κ ℕ) : ℕ := (d.entries.map Prod.snd).sum

section Bump

variable [Zero ν] [One ν] [Add ν]

/-- Count an occurrence of a key. -/
def bump (d : OrderedDict κ ν) (k : κ) : OrderedDict κ ν := d.modify k 0 (· + 1)

/-- A key is counted up once for each of its occurrences. -/
theorem getD_foldl_bump (ks : List κ) (d : OrderedDict κ ν) (k : κ) :
    (ks.foldl bump d).getD k 0 = (· + 1)^[ks.count k] (d.getD k 0) := by
  induction ks generalizing d with
  | nil => rfl
  | cons k' ks ih =>
    rw [List.foldl_cons, ih, bump, getD_modify]
    by_cases h : k = k'
    · rw [if_pos h, h, List.count_cons_self, Function.iterate_succ_apply]
    · rw [if_neg h, List.count_cons_of_ne (Ne.symm h)]

/-- The keys of a count are those that were counted. -/
theorem mem_keys_foldl_bump (ks : List κ) (d : OrderedDict κ ν) (k : κ) :
    k ∈ (ks.foldl bump d).keys ↔ k ∈ d.keys ∨ k ∈ ks := by
  induction ks generalizing d with
  | nil => simp
  | cons k' ks ih =>
    rw [List.foldl_cons, ih, bump, mem_keys_modify, List.mem_cons, or_assoc, or_left_comm]

end Bump

section Counts

/-- Counting a key up raises the total by one. -/
theorem total_bump (d : OrderedDict κ ℕ) (k : κ) : (d.bump k).total = d.total + 1 :=
  sum_modify (μ := id) rfl fun _ => rfl

/-- Every occurrence counts once. -/
theorem total_foldl_bump (ks : List κ) (d : OrderedDict κ ℕ) :
    (ks.foldl bump d).total = d.total + ks.length := by
  induction ks generalizing d with
  | nil => rfl
  | cons k ks ih =>
    rw [List.foldl_cons, ih, total_bump, List.length_cons]
    omega

/-- A list that is counted into an empty dictionary leaves its own counts. -/
theorem getD_foldl_bump_empty (ks : List κ) (k : κ) :
    (ks.foldl bump (empty : OrderedDict κ ℕ)).getD k 0 = ks.count k := by
  rw [getD_foldl_bump]
  show (· + 1)^[ks.count k] 0 = ks.count k
  generalize ks.count k = n
  induction n with
  | zero => rfl
  | succ n ih => rw [Function.iterate_succ_apply', ih]

/-- Counting up the keys of a list finds the number of occurrences of each, and nothing under other
keys. -/
theorem get?_foldl_bump_empty (ks : List κ) (k : κ) :
    (ks.foldl bump (empty : OrderedDict κ ℕ)).get? k =
      if k ∈ ks then some (ks.count k) else none := by
  have hkeys := mem_keys_foldl_bump ks (empty : OrderedDict κ ℕ) k
  rw [keys_empty, List.mem_nil_iff, false_or] at hkeys
  split_ifs with hk
  · obtain ⟨n, hn⟩ := Option.isSome_iff_exists.mp (get?_isSome_iff.mpr (hkeys.mpr hk))
    rw [hn, ← getD_foldl_bump_empty, getD_eq_of_get? hn]
  · exact get?_eq_none_iff.mpr fun h => hk (hkeys.mp h)

/-- Nothing is counted iff the list is empty. -/
theorem entries_foldl_bump_eq_nil_iff {ks : List κ} :
    (ks.foldl bump (empty : OrderedDict κ ℕ)).entries = [] ↔ ks = [] := by
  constructor
  · intro h
    refine List.eq_nil_iff_forall_not_mem.mpr fun k hk => ?_
    have hkey := (mem_keys_foldl_bump ks (empty : OrderedDict κ ℕ) k).mpr (.inr hk)
    rw [keys, h] at hkey
    cases hkey
  · rintro rfl
    rfl

end Counts

/-- The frequencies of a count add up to one, unless nothing was counted (`h`). -/
theorem sum_frequencies {κ : Type} {d : OrderedDict κ ℕ} (h : d.total ≠ 0) :
    ((d.mapValues fun n => (n : ℚ) / d.total).entries.map Prod.snd).sum = 1 := by
  have hsum : ∀ l : List (κ × ℕ), ((l.map fun e => (e.1, (e.2 : ℚ) / d.total)).map Prod.snd).sum =
      ((l.map Prod.snd).sum : ℕ) / (d.total : ℚ) := by
    intro l
    induction l with
    | nil => simp
    | cons e l ih =>
      rw [List.map_cons, List.map_cons, List.sum_cons, ih, List.map_cons, List.sum_cons,
        Nat.cast_add, add_div]
  have hcast : (d.total : ℚ) ≠ 0 := Nat.cast_ne_zero.mpr h
  exact (hsum d.entries).trans (div_self hcast)

end OrderedDict

end EngramDB
