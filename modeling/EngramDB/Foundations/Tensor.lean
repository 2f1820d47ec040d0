import EngramDB.Foundations.Slots

/-!
# Tensors

A tensor is a shape together with as many entries as the shape has places, the last axis running
fastest.

* `reshape`: the same entries under another shape;
* `stack`, `squeeze`: a new first axis, and a first axis of one place taken away;
* `unstack_stack`: the tensors that were stacked are the entries along the new axis;
* `indexSelect_rows`: rows are taken out by their places along the first axis.
-/

namespace EngramDB

open SlotBuffer

/-- Number of places of a shape. -/
def numel (shape : List ℕ) : ℕ := shape.foldr (· * ·) 1

/-- A shape, and the entries of its places. -/
@[ext]
structure Tensor (α : Type) where
  /-- Length of every axis. -/
  shape : List ℕ
  /-- The entries, the last axis running fastest. -/
  entries : List α
  /-- Every place has its entry. -/
  length_entries : entries.length = numel shape

theorem numel_concat (shape : List ℕ) (n : ℕ) : numel (shape ++ [n]) = numel shape * n := by
  induction shape with
  | nil => simp [numel]
  | cons m shape ih =>
    show m * numel (shape ++ [n]) = m * numel shape * n
    rw [ih, Nat.mul_assoc]

/-- A shape without axes has one place. -/
theorem numel_eq_dropLast_mul (shape : List ℕ) :
    numel shape = numel shape.dropLast * shape.getLastD 1 := by
  rcases List.eq_nil_or_concat shape with rfl | ⟨axes, n, rfl⟩
  · rfl
  · rw [List.concat_eq_append, List.dropLast_concat, List.getLastD_concat, numel_concat]

namespace Tensor

variable {α : Type}

/-- The entries under a shape, if the shape has as many places. -/
def reshape (entries : List α) (shape : List ℕ) : Option (Tensor α) :=
  if h : entries.length = numel shape then some ⟨shape, entries, h⟩ else none

/-- Entries along one axis. -/
def flat (entries : List α) : Tensor α where
  shape := [entries.length]
  entries := entries
  length_entries := (Nat.mul_one _).symm

/-- A function on every entry. -/
def map {β : Type} (f : α → β) (t : Tensor α) : Tensor β where
  shape := t.shape
  entries := t.entries.map f
  length_entries := by rw [List.length_map, t.length_entries]

/-- Tensors of one shape along a new first axis. -/
def stack : List (Tensor α) → Option (Tensor α)
  | [] => none
  | t :: ts =>
    if h : ∀ u ∈ t :: ts, u.shape = t.shape then
      some {
        shape := (ts.length + 1) :: t.shape
        entries := ((t :: ts).map entries).flatten
        length_entries := by
          have hwide : ∀ p ∈ (t :: ts).map entries, p.length = numel t.shape := by
            intro p hp
            obtain ⟨u, hu, rfl⟩ := List.mem_map.mp hp
            rw [u.length_entries, h u hu]
          rw [length_flatten hwide, List.length_map, List.length_cons]
          rfl }
    else none

/-- The tensor without its first axis, if this has one place. -/
def squeeze : Tensor α → Tensor α
  | ⟨1 :: shape, entries, h⟩ => ⟨shape, entries, h.trans (Nat.one_mul _)⟩
  | t => t

/-- The tensors along the first axis, if there is one. -/
def unstack : Tensor α → Option (List (Tensor α))
  | ⟨[], _, _⟩ => none
  | ⟨n :: shape, entries, h⟩ => some (List.ofFn fun i : Fin n => {
      shape
      entries := slot (numel shape) entries i
      length_entries := by
        apply length_slot
        rw [h]
        exact Nat.mul_le_mul_right _ i.isLt })

/-- `t[idx]`: the tensors at some places of the first axis, if it has these places. -/
def indexSelect (t : Tensor α) (idx : List ℕ) : Option (Tensor α) :=
  match t with
  | ⟨[], _, _⟩ => none
  | ⟨n :: shape, entries, h⟩ =>
    if hidx : ∀ i ∈ idx, i < n then
      some {
        shape := idx.length :: shape
        entries := idx.flatMap (slot (numel shape) entries)
        length_entries := by
          have hwide : ∀ p ∈ idx.map (slot (numel shape) entries), p.length = numel shape := by
            intro p hp
            obtain ⟨i, hi, rfl⟩ := List.mem_map.mp hp
            apply length_slot
            rw [h]
            exact Nat.mul_le_mul_right _ (hidx i hi)
          rw [List.flatMap_def, length_flatten hwide, List.length_map]
          rfl }
    else none

theorem reshape_eq_some {entries : List α} {shape : List ℕ} (h : entries.length = numel shape) :
    reshape entries shape = some ⟨shape, entries, h⟩ := dif_pos h

/-- A reshape fails, or keeps the entries under the new shape. -/
theorem reshape_eq_none_or (entries : List α) (shape : List ℕ) :
    reshape entries shape = none ∨
      ∃ t, reshape entries shape = some t ∧ t.entries = entries ∧ t.shape = shape := by
  unfold reshape
  split_ifs with h
  · exact .inr ⟨_, rfl, rfl, rfl⟩
  · exact .inl rfl

theorem shape_of_reshape {entries : List α} {shape : List ℕ} {t : Tensor α}
    (h : reshape entries shape = some t) : t.shape = shape := by
  unfold reshape at h
  split_ifs at h
  cases h
  rfl

/-- Tensors of one shape (`h`), and at least one of them (`hne`), can be stacked. -/
theorem stack_isSome {ts : List (Tensor α)} {shape : List ℕ} (hne : ts ≠ [])
    (h : ∀ t ∈ ts, t.shape = shape) : ∃ t, stack ts = some t := by
  cases ts with
  | nil => exact absurd rfl hne
  | cons t ts =>
    have hshape : ∀ u ∈ t :: ts, u.shape = t.shape := fun u hu =>
      (h u hu).trans (h t List.mem_cons_self).symm
    exact ⟨_, dif_pos hshape⟩

/-- The tensors that were stacked are those along the new axis. -/
theorem unstack_stack {ts : List (Tensor α)} {t : Tensor α} (h : stack ts = some t) :
    t.unstack = some ts := by
  cases ts with
  | nil => cases h
  | cons u us =>
    simp only [stack] at h
    split_ifs at h with hshape
    cases h
    have hwide : ∀ p ∈ (u :: us).map entries, p.length = numel u.shape := by
      intro p hp
      obtain ⟨v, hv, rfl⟩ := List.mem_map.mp hp
      rw [v.length_entries, hshape v hv]
    apply congrArg some
    apply List.ext_getElem
    · rw [List.length_ofFn, List.length_cons]
    intro i hi hi'
    rw [List.getElem_ofFn]
    ext1
    · exact (hshape _ (List.getElem_mem hi')).symm
    · apply slot_flatten hwide
      rw [List.getElem?_map, List.getElem?_eq_getElem hi']
      rfl

theorem shape_of_mem_unstack {n : ℕ} {shape : List ℕ} {t u : Tensor α} {ts : List (Tensor α)}
    (hshape : t.shape = n :: shape) (h : t.unstack = some ts) (hu : u ∈ ts) : u.shape = shape := by
  obtain ⟨tshape, entries, hlen⟩ := t
  subst hshape
  cases h
  obtain ⟨i, rfl⟩ := List.mem_ofFn.mp hu
  rfl

/-- A first axis (`hshape`) whose length is not one (`hn`) is not taken away. -/
theorem squeeze_of_ne {n : ℕ} {shape : List ℕ} {t : Tensor α} (hshape : t.shape = n :: shape)
    (hn : n ≠ 1) : t.squeeze = t := by
  obtain ⟨tshape, entries, hlen⟩ := t
  subst hshape
  unfold squeeze
  split
  · next heq =>
    cases heq
    exact absurd rfl hn
  · rfl

theorem shape_squeeze {shape : List ℕ} {t : Tensor α} (hshape : t.shape = 1 :: shape) :
    t.squeeze.shape = shape := by
  obtain ⟨tshape, entries, hlen⟩ := t
  subst hshape
  rfl

/-- There is a tensor for every place that was asked for. -/
theorem shape_of_indexSelect {t u : Tensor α} {idx : List ℕ} {n : ℕ} {axes : List ℕ}
    (hshape : t.shape = n :: axes) (h : t.indexSelect idx = some u) :
    u.shape = idx.length :: axes := by
  obtain ⟨tshape, entries, hlen⟩ := t
  subst hshape
  rw [indexSelect] at h
  split_ifs at h
  cases h
  rfl

/-- Rows that were laid one after another along the first axis are taken out by their places. -/
theorem indexSelect_rows {ι : Type} [DecidableEq ι] {row : ι → List α} {rs request : List ι}
    {axes : List ℕ} (hw : ∀ r ∈ rs, (row r).length = numel axes) (hrequest : ∀ r ∈ request, r ∈ rs)
    {t : Tensor α} (hshape : t.shape = rs.length :: axes) (hentries : t.entries = rs.flatMap row) :
    ∃ u, t.indexSelect (request.map fun r => rs.idxOf r) = some u ∧
      u.shape = request.length :: axes ∧ u.entries = request.flatMap row := by
  obtain ⟨tshape, entries, hlen⟩ := t
  subst hshape hentries
  have hplaces : ∀ i ∈ request.map fun r => rs.idxOf r, i < rs.length := by
    intro i hi
    obtain ⟨r, hr, rfl⟩ := List.mem_map.mp hi
    exact List.idxOf_lt_length_of_mem (hrequest r hr)
  refine ⟨_, dif_pos hplaces, ?_, ?_⟩
  · show (request.map fun r => rs.idxOf r).length :: axes = _
    rw [List.length_map]
  have hwide : ∀ p ∈ rs.map row, p.length = numel axes := by
    intro p hp
    obtain ⟨r, hr, rfl⟩ := List.mem_map.mp hp
    exact hw r hr
  have hslot : ∀ r ∈ request, slot (numel axes) (rs.flatMap row) (rs.idxOf r) = row r := by
    intro r hr
    rw [List.flatMap_def]
    apply slot_flatten hwide
    rw [List.getElem?_map, List.getElem?_idxOf (hrequest r hr), Option.map_some]
  show (request.map fun r => rs.idxOf r).flatMap (slot (numel axes) (rs.flatMap row)) = _
  rw [List.flatMap_map]
  exact List.flatMap_congr hslot

end Tensor

end EngramDB
