import EngramDB.Foundations.OrderedDict

/-!
# Numbering by first appearance

Keys are numbered one after another: a key that was seen before gets its number again, a new key
gets the next one. `number` goes through a list of keys with a dictionary of the numbers handed out.

* `Numbers`: every key of the dictionary is numbered by its place;
* `keys_number`: the dictionary holds the keys in the order of their first appearance;
* `number_eq_iff`: two keys get one number iff they are equal;
* `getElem?_number`: the number of a key counts the keys that appeared before it.
-/

namespace EngramDB

namespace Numbering

variable {κ : Type}

/-- Every key is numbered by its place in the dictionary. -/
def Numbers (d : OrderedDict κ ℕ) : Prop := d.entries = d.keys.zipIdx

/-- Nothing is numbered in the beginning. -/
theorem numbers_empty : Numbers (OrderedDict.empty : OrderedDict κ ℕ) := rfl

variable [DecidableEq κ]

/-- The number of `k`, and the dictionary with it. -/
def assign (d : OrderedDict κ ℕ) (k : κ) : ℕ × OrderedDict κ ℕ :=
  match d.get? k with
  | some i => (i, d)
  | none => (d.entries.length, d.set k d.entries.length)

/-- The numbers of the keys of a list, one after another. -/
def number : OrderedDict κ ℕ → List κ → List ℕ × OrderedDict κ ℕ
  | d, [] => ([], d)
  | d, k :: ks =>
    let (i, d) := assign d k
    let (is, d) := number d ks
    (i :: is, d)

variable {d : OrderedDict κ ℕ} {k : κ} {ks : List κ} {i : ℕ}

/-- In a dictionary that numbers its keys (`h`), the number of a key is its place in the order of
insertion. -/
theorem Numbers.get?_eq_some_iff (h : Numbers d) : d.get? k = some i ↔ d.keys[i]? = some k := by
  have hd : d.entries = d.keys.zipIdx := h
  rw [OrderedDict.get?_eq_some_iff, hd, List.mk_mem_zipIdx_iff_getElem?]

/-- A key that is numbered keeps the numbering, and the key stands at its number. -/
theorem Numbers.assign (h : Numbers d) (k : κ) :
    Numbers (assign d k).2 ∧ (assign d k).2.keys = OrderedDict.insertKeys d.keys [k] ∧
      (assign d k).2.keys[(assign d k).1]? = some k := by
  rw [Numbering.assign]
  split
  · next i hi =>
    have hmem : k ∈ d.keys := OrderedDict.get?_isSome_iff.mp (by rw [hi]; rfl)
    refine ⟨h, ?_, h.get?_eq_some_iff.mp hi⟩
    simp [OrderedDict.insertKeys, hmem]
  · next hnone =>
    have hmem : k ∉ d.keys := OrderedDict.get?_eq_none_iff.mp hnone
    have hkeys : (d.set k d.entries.length).keys = d.keys ++ [k] := by
      rw [OrderedDict.keys_set, if_neg hmem]
    have hentries : (d.set k d.entries.length).entries = d.entries ++ [(k, d.entries.length)] := by
      rw [OrderedDict.set, dif_neg hmem]
    refine ⟨?_, ?_, ?_⟩
    · have hd : d.entries = d.keys.zipIdx := h
      show (d.set k d.entries.length).entries = (d.set k d.entries.length).keys.zipIdx
      rw [hentries, hkeys, List.zipIdx_append, ← hd, Nat.zero_add, OrderedDict.keys,
        List.length_map]
      rfl
    · rw [hkeys]
      simp [OrderedDict.insertKeys, hmem]
    · have hlen : d.entries.length = d.keys.length := (List.length_map _).symm
      rw [hkeys, hlen, List.getElem?_concat_length]

/-- The first key gets its number, and the others get theirs after it. -/
theorem number_cons :
    number d (k :: ks) =
      ((assign d k).1 :: (number (assign d k).2 ks).1, (number (assign d k).2 ks).2) := rfl

/-- Every key of the list gets a number. -/
@[simp]
theorem length_number : (number d ks).1.length = ks.length := by
  induction ks generalizing d with
  | nil => rfl
  | cons k ks ih => rw [number_cons, List.length_cons, List.length_cons, ih]

/-- Numbering a list keeps the numbers those of the order of appearance. -/
theorem Numbers.number (h : Numbers d) (ks : List κ) : Numbers (number d ks).2 := by
  induction ks generalizing d with
  | nil => exact h
  | cons k ks ih => exact ih (h.assign k).1

/-- The dictionary holds the keys in the order of their first appearance. -/
theorem Numbers.keys_number (h : Numbers d) (ks : List κ) :
    (Numbering.number d ks).2.keys = OrderedDict.insertKeys d.keys ks := by
  induction ks generalizing d with
  | nil => rfl
  | cons k ks ih =>
    obtain ⟨hnum, hkeys, -⟩ := h.assign k
    rw [number_cons, ih hnum, hkeys]
    rfl

/-- The first key is inserted unless it is known, and the others after it. -/
theorem insertKeys_cons (known : List κ) :
    OrderedDict.insertKeys known (k :: ks) =
      OrderedDict.insertKeys (if k ∈ known then known else known ++ [k]) ks := rfl

/-- Known keys stay in front. -/
theorem prefix_insertKeys (known ks : List κ) : known <+: OrderedDict.insertKeys known ks := by
  induction ks generalizing known with
  | nil => exact List.prefix_rfl
  | cons k ks ih =>
    rw [insertKeys_cons]
    refine List.IsPrefix.trans ?_ (ih _)
    split_ifs
    · exact List.prefix_rfl
    · exact List.prefix_append _ _

/-- Inserting two lists of keys is inserting one after the other. -/
theorem insertKeys_append (known ks ks' : List κ) :
    OrderedDict.insertKeys known (ks ++ ks') =
      OrderedDict.insertKeys (OrderedDict.insertKeys known ks) ks' :=
  List.foldl_append

/-- The key of every number that was handed out stands at it. -/
theorem Numbers.getElem?_keys (h : Numbers d) {j : ℕ} (hj : ks[j]? = some k) :
    ∃ i, (Numbering.number d ks).1[j]? = some i ∧
      (Numbering.number d ks).2.keys[i]? = some k := by
  induction ks generalizing d j with
  | nil => simp at hj
  | cons k' ks ih =>
    obtain ⟨hnum, -, hplace⟩ := h.assign k'
    rw [number_cons]
    cases j with
    | zero =>
      obtain rfl : k' = k := by simpa using hj
      -- later keys are put behind
      have hpre : (Numbering.assign d k').2.keys <+:
          (Numbering.number (Numbering.assign d k').2 ks).2.keys := by
        rw [hnum.keys_number]
        exact prefix_insertKeys _ _
      obtain ⟨hlt, -⟩ := List.getElem?_eq_some_iff.mp hplace
      refine ⟨_, rfl, ?_⟩
      rw [List.prefix_iff_getElem?.mp hpre _ hlt, ← hplace, List.getElem?_eq_getElem hlt]
    | succ j => exact ih hnum (by simpa using hj)

section FromEmpty

/-- The number of the `j`-th key, by the keys before it. -/
theorem getElem?_number {j : ℕ} (hj : ks[j]? = some k) (hnew : k ∉ ks.take j) :
    (number OrderedDict.empty ks).1[j]? =
      some (OrderedDict.insertKeys [] (ks.take j)).length := by
  obtain ⟨i, hi, hkey⟩ := numbers_empty.getElem?_keys hj
  obtain ⟨hlt, hget⟩ := List.getElem?_eq_some_iff.mp hj
  have hsplit : ks = ks.take j ++ k :: ks.drop (j + 1) := by
    rw [← hget, ← List.drop_eq_getElem_cons hlt, List.take_append_drop]
  rw [numbers_empty.keys_number, OrderedDict.keys_empty] at hkey
  -- the key is put behind the keys before it
  have hnot : k ∉ OrderedDict.insertKeys [] (ks.take j) := fun h =>
    hnew ((OrderedDict.mem_insertKeys.mp h).resolve_left List.not_mem_nil)
  have hpre : OrderedDict.insertKeys [] (ks.take j) ++ [k] <+: OrderedDict.insertKeys [] ks := by
    conv_rhs => rw [hsplit]
    rw [insertKeys_append, insertKeys_cons, if_neg hnot]
    exact prefix_insertKeys _ _
  have hplace : (OrderedDict.insertKeys [] ks)[(OrderedDict.insertKeys [] (ks.take j)).length]? =
      some k := by
    rw [List.prefix_iff_getElem?.mp hpre _ (by simp), List.getElem_concat_length rfl]
  have hnodup : (OrderedDict.insertKeys [] ks).Nodup :=
    OrderedDict.nodup_insertKeys List.nodup_nil ks
  obtain ⟨hlt', -⟩ := List.getElem?_eq_some_iff.mp hkey
  rw [hi, (List.getElem?_inj hlt' hnodup).mp (hkey.trans hplace.symm)]

/-- Two keys of a list, at the places `j` and `j'`, get one number iff they are equal. -/
theorem number_eq_iff {j j' : ℕ} {k' : κ} (hj : ks[j]? = some k) (hj' : ks[j']? = some k') :
    (number OrderedDict.empty ks).1[j]? = (number OrderedDict.empty ks).1[j']? ↔ k = k' := by
  obtain ⟨i, hi, hkey⟩ := numbers_empty.getElem?_keys hj
  obtain ⟨i', hi', hkey'⟩ := numbers_empty.getElem?_keys hj'
  rw [hi, hi', Option.some.injEq]
  constructor
  · rintro rfl
    exact Option.some.inj (hkey.symm.trans hkey')
  · rintro rfl
    have hnodup : (number OrderedDict.empty ks).2.keys.Nodup := OrderedDict.nodup _
    exact (List.getElem?_inj (List.getElem?_eq_some_iff.mp hkey).1 hnodup).mp
      (hkey.trans hkey'.symm)

/-- The numbers that are handed out are those below the number of different keys. -/
theorem mem_number_iff {i : ℕ} :
    i ∈ (number OrderedDict.empty ks).1 ↔ i < (OrderedDict.insertKeys [] ks).length := by
  have hkeys : (number OrderedDict.empty ks).2.keys = OrderedDict.insertKeys [] ks :=
    numbers_empty.keys_number ks
  rw [← hkeys]
  constructor
  · intro hmem
    obtain ⟨j, hlt, hj⟩ := List.mem_iff_getElem.mp hmem
    rw [length_number] at hlt
    obtain ⟨i', hi', hkey⟩ := numbers_empty.getElem?_keys (List.getElem?_eq_getElem hlt)
    rw [List.getElem?_eq_getElem (by rwa [length_number]), hj] at hi'
    obtain rfl : i = i' := Option.some.inj hi'
    exact (List.getElem?_eq_some_iff.mp hkey).1
  · intro hlt
    have hmem : (number OrderedDict.empty ks).2.keys[i] ∈ OrderedDict.insertKeys [] ks := by
      rw [← hkeys]
      exact List.getElem_mem hlt
    obtain ⟨j, hj, hjk⟩ :=
      List.mem_iff_getElem.mp ((OrderedDict.mem_insertKeys.mp hmem).resolve_left List.not_mem_nil)
    obtain ⟨i', hi', hkey⟩ :=
      numbers_empty.getElem?_keys ((List.getElem?_eq_getElem hj).trans (congrArg some hjk))
    have hnodup : (number OrderedDict.empty ks).2.keys.Nodup := OrderedDict.nodup _
    obtain rfl : i = i' :=
      (List.getElem?_inj hlt hnodup).mp ((List.getElem?_eq_getElem hlt).trans hkey.symm)
    exact List.mem_of_getElem? hi'

end FromEmpty

end Numbering

end EngramDB
