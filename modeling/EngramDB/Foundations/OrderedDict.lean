import Mathlib.Data.List.Nodup
import Mathlib.Data.List.Basic

/-!
# Ordered dictionaries

A dictionary that remembers the order in which its keys were inserted: a list of entries with
distinct keys. A key that is set again keeps its place. This is the dictionary of a cache whose
oldest entries are dropped.

* `get?_eq_some_iff`: a value is found iff it is an entry;
* `keys_set`, `keys_update`, `keys_trim`, `keys_moveToEnd`: the order of the keys after an
  operation;
* `get?_set_self`, `get?_set_of_ne`, `get?_moveToEnd`, `get?_popFirst`: the values after an
  operation;
* `Agrees`: every value is the value of its key under a function, for a cache of the function. It is
  kept by every operation.
-/

namespace EngramDB

/-- A list of entries with distinct keys, the oldest in front. -/
structure OrderedDict (κ ν : Type) where
  /-- The entries in the order of their insertion. -/
  entries : List (κ × ν)
  /-- No key occurs twice. -/
  nodup : (entries.map Prod.fst).Nodup

namespace OrderedDict

variable {κ ν : Type}

/-- The keys in the order of their insertion. -/
def keys (d : OrderedDict κ ν) : List κ := d.entries.map Prod.fst

/-- The dictionary without entries. -/
def empty : OrderedDict κ ν := ⟨[], List.nodup_nil⟩

/-- The dictionary with the oldest entries dropped while it has more than `cap`. -/
def trim (d : OrderedDict κ ν) (cap : ℕ) : OrderedDict κ ν where
  entries := d.entries.drop (d.entries.length - cap)
  nodup := d.nodup.sublist ((List.drop_sublist _ _).map Prod.fst)

/-- The dictionary without its oldest entry. -/
def popFirst (d : OrderedDict κ ν) : OrderedDict κ ν where
  entries := d.entries.tail
  nodup := d.nodup.sublist ((List.tail_sublist _).map Prod.fst)

/-- The dictionary with every value changed. -/
def mapValues {ν' : Type} (d : OrderedDict κ ν) (f : ν → ν') : OrderedDict κ ν' where
  entries := d.entries.map fun e => (e.1, f e.2)
  nodup := by
    rw [List.map_map]
    exact d.nodup

/-- No entry of a dictionary occurs twice, since no key does. -/
theorem nodup_entries (d : OrderedDict κ ν) : d.entries.Nodup := d.nodup.of_map Prod.fst

section Operations

variable [DecidableEq κ]

/-- The value of a key. -/
def get? (d : OrderedDict κ ν) (k : κ) : Option ν := d.entries.lookup k

/-- The dictionary with a value for `k`, in the place of the old value if there is one. -/
def set (d : OrderedDict κ ν) (k : κ) (v : ν) : OrderedDict κ ν :=
  if h : k ∈ d.keys then
    { entries := d.entries.map fun e => if e.1 = k then (k, v) else e
      nodup := by
        have hfst : (Prod.fst ∘ fun e : κ × ν => if e.1 = k then (k, v) else e) = Prod.fst := by
          funext e
          rw [Function.comp_apply]
          split_ifs with he
          · exact he.symm
          · rfl
        rw [List.map_map, hfst]
        exact d.nodup }
  else
    { entries := d.entries ++ [(k, v)]
      nodup := by
        rw [List.map_append, List.map_singleton, ← List.concat_eq_append]
        exact List.Nodup.concat h d.nodup }

/-- The dictionary without the key `k`. -/
def erase (d : OrderedDict κ ν) (k : κ) : OrderedDict κ ν where
  entries := d.entries.filter fun e => e.1 ≠ k
  nodup := d.nodup.sublist (List.filter_sublist.map Prod.fst)

/-- The dictionary with the entry of `k` behind all others. -/
def moveToEnd (d : OrderedDict κ ν) (k : κ) : OrderedDict κ ν :=
  match d.get? k with
  | some v => (d.erase k).set k v
  | none => d

/-- The entries are set one after another. -/
def update (d : OrderedDict κ ν) (entries : List (κ × ν)) : OrderedDict κ ν :=
  entries.foldl (fun d e => d.set e.1 e.2) d

end Operations

section Lookup

variable {d : OrderedDict κ ν} {k : κ} {v : ν}

@[simp]
theorem keys_empty : (empty : OrderedDict κ ν).keys = [] := rfl

/-- Trimming a dictionary to `cap` entries drops the oldest keys, as many as there are too many. -/
theorem keys_trim (cap : ℕ) : (d.trim cap).keys = d.keys.drop (d.keys.length - cap) := by
  rw [keys, keys, trim, List.map_drop, List.length_map]

/-- Without its oldest entry, a dictionary has the keys behind the first. -/
theorem keys_popFirst : d.popFirst.keys = d.keys.tail := by
  rw [keys, keys, popFirst, List.map_tail]

variable [DecidableEq κ]

/-- A value is found iff it is an entry. -/
theorem get?_eq_some_iff : d.get? k = some v ↔ (k, v) ∈ d.entries := by
  obtain ⟨entries, hnodup⟩ := d
  show entries.lookup k = some v ↔ (k, v) ∈ entries
  induction entries with
  | nil => simp
  | cons e entries ih =>
    rw [List.map_cons, List.nodup_cons] at hnodup
    rw [List.lookup_cons, List.mem_cons]
    rcases eq_or_ne k e.1 with rfl | hne
    · have hnot : (e.1, v) ∉ entries := fun h => hnodup.1 (List.mem_map.mpr ⟨_, h, rfl⟩)
      simp [hnot, Prod.ext_iff, eq_comm]
    · have hbeq : (k == e.1) = false := by simpa using hne
      rw [hbeq]
      simp only [Prod.ext_iff, hne, false_and, false_or]
      exact ih hnodup.2

/-- A lookup finds something iff the key is one of the keys. -/
theorem get?_isSome_iff : (d.get? k).isSome ↔ k ∈ d.keys := by
  rw [Option.isSome_iff_exists, keys, List.mem_map]
  constructor
  · rintro ⟨v, hv⟩
    exact ⟨(k, v), get?_eq_some_iff.mp hv, rfl⟩
  · rintro ⟨⟨k', v⟩, he, rfl⟩
    exact ⟨v, get?_eq_some_iff.mpr he⟩

/-- A lookup finds nothing iff the key is none of the keys. -/
theorem get?_eq_none_iff : d.get? k = none ↔ k ∉ d.keys := by
  rw [← get?_isSome_iff, Option.not_isSome_iff_eq_none]

end Lookup

section Update

variable [DecidableEq κ] {d : OrderedDict κ ν} {k : κ} {v : ν}

/-- The keys with those of `new` that are not among them put behind. -/
def insertKeys (ks new : List κ) : List κ :=
  new.foldl (fun ks k => if k ∈ ks then ks else ks ++ [k]) ks

/-- Setting a key that is there leaves the order of the keys, a new key goes to the end. -/
theorem keys_set : (d.set k v).keys = if k ∈ d.keys then d.keys else d.keys ++ [k] := by
  unfold set
  split_ifs with h
  · rw [keys, keys, List.map_map]
    refine List.map_congr_left fun e _ => ?_
    rw [Function.comp_apply]
    split_ifs with he
    · exact he.symm
    · rfl
  · rw [keys, keys, List.map_append, List.map_singleton]

/-- Erasing a key leaves the other keys in their order. -/
theorem keys_erase : (d.erase k).keys = d.keys.filter fun k' => k' ≠ k := by
  rw [keys, keys, erase, List.filter_map]
  rfl

/-- A key that is moved stands behind the others, if it is there at all (`h`). -/
theorem keys_moveToEnd (h : k ∈ d.keys) :
    (d.moveToEnd k).keys = (d.keys.filter fun k' => k' ≠ k) ++ [k] := by
  obtain ⟨v, hv⟩ := Option.isSome_iff_exists.mp (get?_isSome_iff.mpr h)
  rw [moveToEnd, hv]
  show ((d.erase k).set k v).keys = _
  rw [keys_set, keys_erase, if_neg (by simp)]

/-- Moving a key that is there to the end neither adds nor drops a key. -/
theorem length_keys_moveToEnd (h : k ∈ d.keys) : (d.moveToEnd k).keys.length = d.keys.length := by
  have hnodup : d.keys.Nodup := d.nodup
  have hfilter : d.keys.erase k = d.keys.filter fun k' => k' ≠ k := by
    rw [hnodup.erase_eq_filter]
    exact List.filter_congr fun k' _ => by rw [Bool.eq_iff_iff]; simp
  have hpos := List.length_pos_of_mem h
  rw [keys_moveToEnd h, ← hfilter, List.length_append, List.length_erase_of_mem h,
    List.length_singleton]
  omega

/-- The keys after an update are the old ones with the keys of the new entries inserted one after
another. -/
theorem keys_update (entries : List (κ × ν)) :
    (d.update entries).keys = insertKeys d.keys (entries.map Prod.fst) := by
  induction entries generalizing d with
  | nil => rfl
  | cons e entries ih =>
    rw [update, List.foldl_cons, List.map_cons, insertKeys, List.foldl_cons, ← keys_set]
    exact ih

/-- Entries whose keys are all new and different (`h`) are put behind the others in their order. -/
theorem entries_update_of_nodup {entries : List (κ × ν)}
    (h : (d.keys ++ entries.map Prod.fst).Nodup) :
    (d.update entries).entries = d.entries ++ entries := by
  induction entries generalizing d with
  | nil => exact (List.append_nil d.entries).symm
  | cons e entries ih =>
    rw [List.map_cons, ← List.singleton_append, ← List.append_assoc] at h
    have hk : e.1 ∉ d.keys := fun hmem =>
      List.disjoint_of_nodup_append (h.sublist (List.sublist_append_left _ _)) hmem
        (List.mem_singleton.mpr rfl)
    have hset : (d.set e.1 e.2).entries = d.entries ++ [e] := by
      rw [set, dif_neg hk]
    rw [update, List.foldl_cons]
    refine (ih ?_).trans ?_
    · rwa [keys_set, if_neg hk]
    · rw [hset, List.append_assoc, List.singleton_append]

/-- An entry after setting `k` to `v` is the new one, or it was there before. -/
theorem mem_entries_set {e : κ × ν} (h : e ∈ (d.set k v).entries) : e = (k, v) ∨ e ∈ d.entries := by
  unfold set at h
  split_ifs at h with hk
  · obtain ⟨e', he', rfl⟩ := List.mem_map.mp h
    split_ifs
    · exact .inl rfl
    · exact .inr he'
  · rw [List.mem_append, List.mem_singleton] at h
    exact h.symm

/-- The value of a key that has just been set. -/
theorem get?_set_self : (d.set k v).get? k = some v := by
  rw [get?_eq_some_iff]
  unfold set
  split_ifs with hk
  · obtain ⟨e, he, heq⟩ := List.mem_map.mp hk
    exact List.mem_map.mpr ⟨e, he, if_pos heq⟩
  · exact List.mem_append_right _ List.mem_cons_self

/-- Setting `k` leaves the entries of other keys (`hne`), neither adding one nor dropping one. -/
theorem mem_entries_set_of_ne {e : κ × ν} (hne : e.1 ≠ k) :
    e ∈ (d.set k v).entries ↔ e ∈ d.entries := by
  constructor
  · intro h
    exact (mem_entries_set h).resolve_left fun heq => hne (by rw [heq])
  · intro h
    unfold set
    split_ifs
    · exact List.mem_map.mpr ⟨e, h, if_neg hne⟩
    · exact List.mem_append_left _ h

/-- Setting a key does not change what a lookup of another key finds. -/
theorem get?_set_of_ne {k' : κ} (hne : k' ≠ k) : (d.set k v).get? k' = d.get? k' := by
  ext v'
  rw [get?_eq_some_iff, get?_eq_some_iff]
  exact mem_entries_set_of_ne hne

/-- Erasing a key does not change what a lookup of another key finds. -/
theorem get?_erase_of_ne {k' : κ} (hne : k' ≠ k) : (d.erase k).get? k' = d.get? k' := by
  ext v'
  rw [get?_eq_some_iff, get?_eq_some_iff, erase, List.mem_filter]
  exact and_iff_left (by simpa using hne)

/-- A key that is moved keeps its value, and so do the others. -/
theorem get?_moveToEnd (k' : κ) : (d.moveToEnd k).get? k' = d.get? k' := by
  unfold moveToEnd
  cases hv : d.get? k with
  | none => rfl
  | some v =>
    rcases eq_or_ne k' k with rfl | hne
    · rw [get?_set_self, hv]
    · rw [get?_set_of_ne hne, get?_erase_of_ne hne]

/-- Without the oldest entry, the keys that are left keep their values. -/
theorem get?_popFirst (k' : κ) :
    d.popFirst.get? k' = if k' ∈ d.keys.tail then d.get? k' else none := by
  split_ifs with hk
  · have hkeys : k' ∈ d.popFirst.keys := by rwa [keys_popFirst]
    obtain ⟨v, hv⟩ := Option.isSome_iff_exists.mp (get?_isSome_iff.mpr hkeys)
    rw [hv, eq_comm, get?_eq_some_iff]
    exact List.mem_of_mem_tail (get?_eq_some_iff.mp hv)
  · rwa [get?_eq_none_iff, keys_popFirst]

/-- A lookup after a map over the values finds the image of what it found before. -/
theorem get?_mapValues {ν' : Type} (f : ν → ν') : (d.mapValues f).get? k = (d.get? k).map f := by
  ext v'
  rw [get?_eq_some_iff, Option.map_eq_some_iff, mapValues, List.mem_map]
  constructor
  · rintro ⟨⟨k', v⟩, he, heq⟩
    obtain ⟨rfl, rfl⟩ := Prod.mk.inj heq
    exact ⟨v, get?_eq_some_iff.mpr he, rfl⟩
  · rintro ⟨v, hv, rfl⟩
    exact ⟨(k, v), get?_eq_some_iff.mp hv, rfl⟩

/-- The entries after erasing `k` are those that have another key. -/
theorem mem_entries_erase {e : κ × ν} : e ∈ (d.erase k).entries ↔ e ∈ d.entries ∧ e.1 ≠ k := by
  simp [erase]

/-- A dictionary is the entry of a key together with the entries of the others. -/
theorem perm_of_get? (h : d.get? k = some v) : d.entries.Perm ((k, v) :: (d.erase k).entries) := by
  have hnot : (k, v) ∉ (d.erase k).entries := fun hmem => (mem_entries_erase.mp hmem).2 rfl
  refine (List.perm_ext_iff_of_nodup d.nodup_entries
    (List.nodup_cons.mpr ⟨hnot, nodup_entries _⟩)).mpr fun e => ?_
  rw [List.mem_cons, mem_entries_erase]
  constructor
  · intro he
    by_cases hk : e.1 = k
    · have hv : d.get? k = some e.2 := get?_eq_some_iff.mpr (hk ▸ he)
      rw [h, Option.some.injEq] at hv
      exact .inl (Prod.ext hk hv.symm)
    · exact .inr ⟨he, hk⟩
  · rintro (rfl | he)
    · exact get?_eq_some_iff.mp h
    · exact he.1

/-- A key has its one entry. -/
theorem filter_key (d : OrderedDict κ ν) (k : κ) :
    (d.entries.filter fun e => e.1 = k) = ((d.get? k).map fun v => (k, v)).toList := by
  have hrest : ((d.erase k).entries.filter fun e => e.1 = k) = [] := by
    refine List.filter_eq_nil_iff.mpr fun e he hk => ?_
    exact (mem_entries_erase.mp he).2 (of_decide_eq_true hk)
  cases hv : d.get? k with
  | none =>
    refine List.filter_eq_nil_iff.mpr fun e he hk => ?_
    exact get?_eq_none_iff.mp hv (List.mem_map.mpr ⟨e, he, of_decide_eq_true hk⟩)
  | some v =>
    apply List.perm_singleton.mp
    have hperm := (perm_of_get? hv).filter fun e => decide (e.1 = k)
    rwa [List.filter_cons_of_pos (p := fun e : κ × ν => decide (e.1 = k))
      (decide_eq_true rfl), hrest]
      at hperm

/-- Setting a key and erasing it leaves the entries that erasing it alone leaves. -/
theorem erase_set_self : ((d.set k v).erase k).entries.Perm (d.erase k).entries := by
  refine (List.perm_ext_iff_of_nodup (nodup_entries _) (nodup_entries _)).mpr fun e => ?_
  rw [mem_entries_erase, mem_entries_erase, and_congr_left_iff]
  exact fun hne => mem_entries_set_of_ne hne

/-- Up to their order, the entries after setting `k` are the new entry and those of the other
keys. -/
theorem perm_set : (d.set k v).entries.Perm ((k, v) :: (d.erase k).entries) :=
  (perm_of_get? get?_set_self).trans (erase_set_self.cons _)

/-- Erasing a key that is not there changes no entry. -/
theorem entries_erase_of_notMem (h : k ∉ d.keys) : (d.erase k).entries = d.entries := by
  refine List.filter_eq_self.mpr fun e he => ?_
  have hne : e.1 ≠ k := fun hk => h (hk ▸ List.mem_map_of_mem he)
  simpa using hne

/-- A key of a list without repetitions (`hnodup`, `hk`), enumerated into a dictionary, is found
with its place. -/
theorem get?_update_zipIdx {ks : List κ} (hnodup : ks.Nodup) (hk : k ∈ ks) :
    ((empty : OrderedDict κ ℕ).update ks.zipIdx).get? k = some (ks.idxOf k) := by
  have hkeys : ((empty : OrderedDict κ ℕ).keys ++ ks.zipIdx.map Prod.fst).Nodup := by
    rwa [List.zipIdx_map_fst]
  rw [get?_eq_some_iff, entries_update_of_nodup hkeys]
  exact List.mem_zipIdx_iff_getElem?.mpr (List.getElem?_idxOf hk)

/-- The keys after inserting `new` into `ks` are those of both. -/
theorem mem_insertKeys {ks new : List κ} : k ∈ insertKeys ks new ↔ k ∈ ks ∨ k ∈ new := by
  induction new generalizing ks with
  | nil => simp [insertKeys]
  | cons k' new ih =>
    rw [insertKeys, List.foldl_cons]
    refine ih.trans ?_
    split_ifs with h
    · rw [List.mem_cons]
      constructor
      · rintro (h1 | h1)
        · exact .inl h1
        · exact .inr (.inr h1)
      · rintro (h1 | rfl | h1)
        · exact .inl h1
        · exact .inl h
        · exact .inr h1
    · rw [List.mem_append, List.mem_singleton, List.mem_cons, or_assoc]

/-- Keys that are put behind are put there once: without repetition before (`hks`), none after. -/
theorem nodup_insertKeys {ks : List κ} (hks : ks.Nodup) (new : List κ) :
    (insertKeys ks new).Nodup := by
  induction new generalizing ks with
  | nil => exact hks
  | cons k new ih =>
    rw [insertKeys, List.foldl_cons]
    refine ih ?_
    split_ifs with h
    · exact hks
    · rw [← List.concat_eq_append]
      exact List.Nodup.concat h hks

/-- Keys that are all new and different (`h`) are put behind the others in their order. -/
theorem insertKeys_of_nodup {ks new : List κ} (h : (ks ++ new).Nodup) :
    insertKeys ks new = ks ++ new := by
  induction new generalizing ks with
  | nil => simp [insertKeys]
  | cons k new ih =>
    have hk : k ∉ ks := fun hmem => (List.nodup_append.mp h).2.2 k hmem k (by simp) rfl
    rw [List.append_cons] at h ⊢
    rw [insertKeys, List.foldl_cons, if_neg hk]
    exact ih h

end Update

section Agrees

variable {d : OrderedDict κ ν} {f : κ → ν}

/-- Every value is the value of its key under `f`. -/
def Agrees (d : OrderedDict κ ν) (f : κ → ν) : Prop := ∀ e ∈ d.entries, e.2 = f e.1

theorem agrees_empty : (empty : OrderedDict κ ν).Agrees f := fun _ h => by cases h

/-- A dictionary that agrees with `f` agrees with every function that has the same values. -/
theorem Agrees.congr {g : κ → ν} (h : d.Agrees f) (hfg : ∀ k, f k = g k) : d.Agrees g :=
  fun e he => (h e he).trans (hfg e.1)

/-- Dropping the oldest entries keeps the agreement, for it adds no entry. -/
theorem Agrees.trim (h : d.Agrees f) (cap : ℕ) : (d.trim cap).Agrees f :=
  fun e he => h e (List.mem_of_mem_drop he)

/-- Dropping the oldest entry keeps the agreement. -/
theorem Agrees.popFirst (h : d.Agrees f) : d.popFirst.Agrees f :=
  fun e he => h e (List.mem_of_mem_tail he)

variable [DecidableEq κ]

/-- Setting a key to its value under `f` keeps the agreement with `f`. -/
theorem Agrees.set (h : d.Agrees f) (k : κ) : (d.set k (f k)).Agrees f := by
  intro e he
  rcases mem_entries_set he with rfl | he
  · rfl
  · exact h e he

/-- A key with a new value, in a cache of the function that has the new value there. -/
theorem Agrees.set_update (h : d.Agrees f) (k : κ) (v : ν) :
    (d.set k v).Agrees (Function.update f k v) := by
  intro e he
  by_cases hk : e.1 = k
  · subst hk
    rw [Function.update_self]
    exact Option.some.inj ((get?_eq_some_iff.mpr he).symm.trans get?_set_self)
  · rw [Function.update_of_ne hk]
    refine h e ((mem_entries_set he).resolve_left fun heq => hk ?_)
    rw [heq]

/-- Erasing a key keeps the agreement. -/
theorem Agrees.erase (h : d.Agrees f) (k : κ) : (d.erase k).Agrees f :=
  fun e he => h e (List.mem_of_mem_filter he)

/-- An update by entries that all have the values of `f` keeps the agreement with `f`. -/
theorem Agrees.update (h : d.Agrees f) {entries : List (κ × ν)}
    (hnew : ∀ e ∈ entries, e.2 = f e.1) :
    (d.update entries).Agrees f := by
  induction entries generalizing d with
  | nil => exact h
  | cons e entries ih =>
    have hset := h.set e.1
    rw [← hnew e (by simp)] at hset
    exact ih hset fun e' he' => hnew e' (by simp [he'])

/-- In a cache of `f`, a key has its value under `f`. -/
theorem Agrees.get? (h : d.Agrees f) {k : κ} (hk : k ∈ d.keys) : d.get? k = some (f k) := by
  obtain ⟨v, hv⟩ := Option.isSome_iff_exists.mp (get?_isSome_iff.mpr hk)
  rw [hv]
  exact congrArg some (h _ (get?_eq_some_iff.mp hv))

/-- A value that is found in a cache of `f` is the value under `f`. -/
theorem Agrees.eq_of_get? (h : d.Agrees f) {k : κ} {v : ν} (hv : d.get? k = some v) : v = f k :=
  h _ (get?_eq_some_iff.mp hv)

/-- Moving an entry to the end keeps the agreement, for the entries stay the same. -/
theorem Agrees.moveToEnd (h : d.Agrees f) (k : κ) : (d.moveToEnd k).Agrees f := by
  unfold OrderedDict.moveToEnd
  cases hv : d.get? k with
  | none => exact h
  | some v =>
    rw [h.eq_of_get? hv]
    exact (h.erase k).set k

end Agrees

end OrderedDict

end EngramDB
