import Mathlib.Data.List.Basic
import Mathlib.Data.List.Sort

/-!
# Searching a sorted list for a prefix

`partitionPoint p l` is a binary search for the first entry that does not satisfy `p`, in a list
whose entries with `p` come first. In a lexicographically sorted list, the entries that begin with a
given key are found behind the partition point of the smaller entries.

* `take_partitionPoint`, `drop_partitionPoint`: in front of the partition point are the entries with
  `p`, behind it those without;
* `takeWhile_drop_partitionPoint`, `take_drop_partitionPoint`: the entries with a given key in a
  list that is sorted by its keys;
* `lt_iff_take_lt`, `lt_of_take_lt_take`: comparing lists by their first entries.
-/

namespace SortedSearch

variable {α : Type}

/-- One halving loop: the range from `lo` to `hi` still contains the answer. -/
def search (p : α → Bool) (l : List α) : ℕ → ℕ → ℕ → ℕ
  | 0, lo, _ => lo
  | fuel + 1, lo, hi =>
    if lo < hi then
      let mid := (lo + hi) / 2
      match l[mid]? with
      | some a => if p a then search p l fuel (mid + 1) hi else search p l fuel lo mid
      | none => lo
    else lo

/-- The number of entries in front of the first one that does not satisfy `p`. -/
def partitionPoint (p : α → Bool) (l : List α) : ℕ := search p l l.length 0 l.length

section Partition

variable {p : α → Bool} {l : List α}

/-- The entries that satisfy `p` come first. -/
def Partitioned (p : α → Bool) (l : List α) : Prop := l.Pairwise fun a b => p b → p a

/-- Entries before `lo` satisfy `p`, and entries from `hi` on do not. -/
structure Encloses (p : α → Bool) (l : List α) (lo hi : ℕ) : Prop where
  le : lo ≤ hi
  hi_le : hi ≤ l.length
  below : ∀ i a, l[i]? = some a → i < lo → p a
  above : ∀ i a, l[i]? = some a → hi ≤ i → ¬ p a

/-- An entry before one that satisfies `p` satisfies it too. -/
theorem Partitioned.of_le (h : Partitioned p l) {i j : ℕ} {a b : α} (hi : l[i]? = some a)
    (hj : l[j]? = some b) (hij : i ≤ j) (hb : p b) : p a := by
  obtain ⟨hi', rfl⟩ := List.getElem?_eq_some_iff.mp hi
  obtain ⟨hj', rfl⟩ := List.getElem?_eq_some_iff.mp hj
  rcases Nat.lt_or_eq_of_le hij with hlt | rfl
  · exact List.pairwise_iff_getElem.mp h i j hi' hj' hlt hb
  · exact hb

/-- The loop returns the point at which the two bounds meet. -/
theorem Encloses.search (hp : Partitioned p l) {fuel lo hi : ℕ} (h : Encloses p l lo hi)
    (hfuel : hi - lo ≤ fuel) :
    Encloses p l (search p l fuel lo hi) (search p l fuel lo hi) := by
  induction fuel generalizing lo hi with
  | zero =>
    obtain rfl : lo = hi := Nat.le_antisymm h.le (by omega)
    exact h
  | succ fuel ih =>
    have hle := h.le
    have hlen := h.hi_le
    rw [SortedSearch.search]
    by_cases hlt : lo < hi
    · have hin : (lo + hi) / 2 < l.length := by omega
      have hmid : l[(lo + hi) / 2]? = some l[(lo + hi) / 2] := List.getElem?_eq_getElem hin
      simp only [if_pos hlt, hmid]
      -- either all entries up to the middle have the property, or none from there on has it
      split_ifs with hpm
      · refine ih ⟨by omega, hlen, fun i a ha hi' => ?_, h.above⟩ (by omega)
        exact hp.of_le ha hmid (by omega) hpm
      · refine ih ⟨by omega, by omega, h.below, fun i a ha hi' hpa => hpm ?_⟩ (by omega)
        exact hp.of_le hmid ha hi' hpa
    · obtain rfl : lo = hi := by omega
      rw [if_neg hlt]
      exact h

theorem encloses_partitionPoint (hp : Partitioned p l) :
    Encloses p l (partitionPoint p l) (partitionPoint p l) := by
  refine Encloses.search hp ⟨Nat.zero_le _, Nat.le_refl _, fun i a _ h => by omega,
    fun i a ha h => ?_⟩ (by omega)
  rw [List.getElem?_eq_none h] at ha
  cases ha

/-- The entries in front of the partition point satisfy `p`. -/
theorem of_mem_take_partitionPoint (hp : Partitioned p l) {a : α}
    (ha : a ∈ l.take (partitionPoint p l)) :
    p a := by
  have h := encloses_partitionPoint hp
  obtain ⟨i, hi, hai⟩ := List.getElem_of_mem ha
  rw [List.length_take] at hi
  rw [List.getElem_take] at hai
  exact h.below i a (List.getElem?_eq_some_iff.mpr ⟨by omega, hai⟩) (by omega)

/-- In a list in which the entries that satisfy `p` come first (`hp`), those behind the partition
point do not satisfy it. -/
theorem of_mem_drop_partitionPoint (hp : Partitioned p l) {a : α}
    (ha : a ∈ l.drop (partitionPoint p l)) :
    ¬ p a := by
  have h := encloses_partitionPoint hp
  obtain ⟨i, hi, hai⟩ := List.getElem_of_mem ha
  rw [List.length_drop] at hi
  rw [List.getElem_drop] at hai
  exact h.above _ a (List.getElem?_eq_some_iff.mpr ⟨by omega, hai⟩) (Nat.le_add_right _ _)

/-- In front of the partition point are the entries that satisfy `p`. -/
theorem take_partitionPoint (hp : Partitioned p l) : l.take (partitionPoint p l) = l.filter p := by
  conv_rhs => rw [← List.take_append_drop (partitionPoint p l) l, List.filter_append]
  rw [List.filter_eq_self.mpr fun a ha => of_mem_take_partitionPoint hp ha,
    List.filter_eq_nil_iff.mpr fun a ha => of_mem_drop_partitionPoint hp ha, List.append_nil]

/-- Behind the partition point are the entries that do not satisfy `p`. -/
theorem drop_partitionPoint (hp : Partitioned p l) :
    l.drop (partitionPoint p l) = l.filter fun a => !p a := by
  conv_rhs => rw [← List.take_append_drop (partitionPoint p l) l, List.filter_append]
  rw [List.filter_eq_nil_iff.mpr fun a ha => by simp [of_mem_take_partitionPoint hp ha],
    List.filter_eq_self.mpr fun a ha => by simp [of_mem_drop_partitionPoint hp ha], List.nil_append]

theorem partitionPoint_eq_countP (hp : Partitioned p l) : partitionPoint p l = l.countP p := by
  rw [List.countP_eq_length_filter, ← take_partitionPoint hp, List.length_take,
    Nat.min_eq_left (encloses_partitionPoint hp).hi_le]

/-- The search depends on which entries of the list satisfy the predicate. -/
theorem partitionPoint_congr {q : α → Bool} (h : ∀ a ∈ l, p a = q a) :
    partitionPoint p l = partitionPoint q l := by
  suffices hsearch : ∀ fuel lo hi, search p l fuel lo hi = search q l fuel lo hi from hsearch _ _ _
  intro fuel
  induction fuel with
  | zero => intro _ _; rfl
  | succ fuel ih =>
    intro lo hi
    rw [search, search]
    cases hmid : l[(lo + hi) / 2]? with
    | none => simp only [hmid]
    | some a => simp only [hmid, h a (List.mem_of_getElem? hmid), ih]

/-- Searching a list of images is searching the list. -/
theorem partitionPoint_map {β : Type} (f : β → α) (l : List β) :
    partitionPoint p (l.map f) = partitionPoint (fun b => p (f b)) l := by
  suffices hsearch :
      ∀ fuel lo hi, search p (l.map f) fuel lo hi = search (fun b => p (f b)) l fuel lo hi by
    rw [partitionPoint, partitionPoint, List.length_map, hsearch]
  intro fuel
  induction fuel with
  | zero => intro _ _; rfl
  | succ fuel ih =>
    intro lo hi
    simp only [search, List.getElem?_map]
    cases l[(lo + hi) / 2]? with
    | none => rfl
    | some b => simp only [Option.map_some, ih]

end Partition

section Keys

variable {κ : Type} [LinearOrder κ] [DecidableEq κ] [DecidableLT κ] {key : α → κ}
  {l : List α}

omit [DecidableEq κ] in
/-- In a list sorted by its keys, the entries with smaller keys come first. -/
theorem partitioned_lt (h : l.Pairwise fun a b => key a ≤ key b) (k : κ) :
    Partitioned (fun a => decide (key a < k)) l :=
  h.imp fun hab hb => by
    rw [decide_eq_true_eq] at hb ⊢
    exact lt_of_le_of_lt hab hb

omit [DecidableEq κ] [DecidableLT κ] in
theorem partitioned_le (h : l.Pairwise fun a b => key a ≤ key b) (k : κ) :
    Partitioned (fun a => decide (key a ≤ k)) l :=
  h.imp fun hab hb => by
    rw [decide_eq_true_eq] at hb ⊢
    exact hab.trans hb

/-- In a list sorted by its keys, the entries with the key `k` stand behind the smaller ones. -/
theorem takeWhile_drop_partitionPoint (h : l.Pairwise fun a b => key a ≤ key b) (k : κ) :
    (l.drop (partitionPoint (fun a => decide (key a < k)) l)).takeWhile
        (fun a => decide (key a = k)) =
      l.filter fun a => decide (key a = k) := by
  rw [drop_partitionPoint (partitioned_lt h k)]
  induction l with
  | nil => rfl
  | cons a l ih =>
    rw [List.pairwise_cons] at h
    -- the entries before the key are dropped, and those with the key are taken
    rcases lt_trichotomy (key a) k with hlt | heq | hgt
    · have hne : key a ≠ k := ne_of_lt hlt
      simp only [List.filter_cons, hlt, hne, decide_true, decide_false, Bool.not_true,
        Bool.false_eq_true, if_false]
      exact ih h.2
    · simp only [List.filter_cons, heq, decide_true, decide_false, Bool.not_false, if_true,
        List.takeWhile_cons, lt_irrefl]
      exact congrArg _ (ih h.2)
    · -- all entries from here on are larger than `k`
      have hnone : ∀ b ∈ a :: l, key b ≠ k := by
        intro b hb
        rcases List.mem_cons.mp hb with rfl | hb
        · exact ne_of_gt hgt
        · exact ne_of_gt (lt_of_lt_of_le hgt (h.1 b hb))
      have hnil : (a :: l).filter (fun a => decide (key a = k)) = [] :=
        List.filter_eq_nil_iff.mpr fun b hb => by simpa using hnone b hb
      rw [hnil]
      simp only [List.filter_cons, not_lt_of_gt hgt, decide_false, Bool.not_false, if_true,
        List.takeWhile_cons, ne_of_gt hgt, Bool.false_eq_true, if_false]

/-- Binary search in a list that is sorted by keys of its own for every entry finds the entry. -/
theorem getElem?_partitionPoint_iff (hkey : Function.Injective key)
    (h : l.Pairwise fun a b => key a ≤ key b) {a : α} :
    l[partitionPoint (fun b => decide (key b < key a)) l]? = some a ↔ a ∈ l := by
  refine ⟨List.mem_of_getElem?, fun ha => ?_⟩
  have htake := takeWhile_drop_partitionPoint h (key a)
  have hmem : a ∈ l.filter fun b => decide (key b = key a) := by simp [ha]
  rw [← List.head?_drop]
  cases hdrop : l.drop (partitionPoint (fun b => decide (key b < key a)) l) with
  | nil =>
    rw [hdrop, List.takeWhile_nil] at htake
    rw [← htake] at hmem
    exact absurd hmem List.not_mem_nil
  | cons b rest =>
    -- the first entry that is not smaller has the key of `a`
    have hb : key b = key a := by
      by_contra hne
      rw [hdrop, List.takeWhile_cons_of_neg (by simpa using hne)] at htake
      rw [← htake] at hmem
      exact absurd hmem List.not_mem_nil
    rw [List.head?_cons, hkey hb]

/-- In a list sorted by its keys, the entries with the key `k` stand between the smaller ones and
the larger ones. -/
theorem take_drop_partitionPoint (h : l.Pairwise fun a b => key a ≤ key b) (k : κ) :
    (l.drop (partitionPoint (fun a => decide (key a < k)) l)).take
        (partitionPoint (fun a => decide (key a ≤ k)) l -
          partitionPoint (fun a => decide (key a < k)) l) =
      l.filter fun a => decide (key a = k) := by
  -- the smaller entries are all among those that are at most `k`
  have hsmall : partitionPoint (fun a => decide (key a < k)) l =
      partitionPoint (fun a => decide (key a < k)) (l.filter fun a => decide (key a ≤ k)) := by
    rw [partitionPoint_eq_countP (partitioned_lt h k),
      partitionPoint_eq_countP (partitioned_lt (h.filter _) k), List.countP_filter]
    refine List.countP_congr fun a _ => ?_
    simp only [Bool.and_eq_true, decide_eq_true_eq]
    exact ⟨fun ha => ⟨ha, le_of_lt ha⟩, fun ha => ha.1⟩
  rw [← List.drop_take, take_partitionPoint (partitioned_le h k), hsmall,
    drop_partitionPoint (partitioned_lt (h.filter _) k), List.filter_filter]
  refine List.filter_congr fun a _ => ?_
  rw [Bool.eq_iff_iff]
  simp only [Bool.and_eq_true, Bool.not_eq_true', decide_eq_false_iff_not,
    decide_eq_true_eq, not_lt]
  exact ⟨fun ha => le_antisymm ha.2 ha.1, fun ha => ⟨le_of_eq ha.symm, le_of_eq ha⟩⟩

/-- Nothing stands between the smaller and the larger entries iff no entry has the key. -/
theorem partitionPoint_eq_iff (h : l.Pairwise fun a b => key a ≤ key b) (k : κ) :
    partitionPoint (fun a => decide (key a < k)) l =
      partitionPoint (fun a => decide (key a ≤ k)) l ↔
      (l.filter fun a => decide (key a = k)) = [] := by
  have hle : partitionPoint (fun a => decide (key a < k)) l ≤
      partitionPoint (fun a => decide (key a ≤ k)) l := by
    rw [partitionPoint_eq_countP (partitioned_lt h k),
      partitionPoint_eq_countP (partitioned_le h k)]
    refine List.countP_mono_left fun a _ ha => ?_
    rw [decide_eq_true_eq] at ha ⊢
    exact le_of_lt ha
  have hend := (encloses_partitionPoint (partitioned_le h k)).hi_le
  rw [← take_drop_partitionPoint h k, ← List.length_eq_zero_iff, List.length_take, List.length_drop]
  omega

end Keys

section Prefixes

variable [LinearOrder α]

/-- A longer list is compared with a key by its first entries. -/
theorem lt_iff_take_lt {a k : List α} (h : k.length ≤ a.length) :
    a < k ↔ a.take k.length < k := by
  induction k generalizing a with
  | nil => simp
  | cons y k ih =>
    cases a with
    | nil => simp at h
    | cons x a =>
      rw [List.length_cons, List.take_succ_cons, List.cons_lt_cons_iff, List.cons_lt_cons_iff,
        ih (by simpa using h)]

/-- Lists whose first `n` entries are strictly ordered (`h`) are so ordered themselves, whatever
comes behind. -/
theorem lt_of_take_lt_take {a b : List α} (n : ℕ) (h : a.take n < b.take n) : a < b := by
  induction n generalizing a b with
  | zero => simp at h
  | succ n ih =>
    cases b with
    | nil => simp at h
    | cons y b =>
      cases a with
      | nil => exact List.nil_lt_cons y b
      | cons x a =>
        rw [List.take_succ_cons, List.take_succ_cons, List.cons_lt_cons_iff] at h
        rw [List.cons_lt_cons_iff]
        exact h.imp_right fun ⟨hxy, hab⟩ => ⟨hxy, ih hab⟩

end Prefixes

end SortedSearch
