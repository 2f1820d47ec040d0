import Mathlib.Data.List.Basic
import Mathlib.Data.List.Perm.Basic
import Mathlib.Tactic.Ring

/-!
# What the members of a list hold

Each member `a` of a list holds at most one thing, `f a`. When one member is replaced, what it held
is gone and what the new member holds is added (`filterMap_set_perm`), and the members that are left
alone hold what they held.
-/

namespace Census

variable {α β : Type} {l : List α} {i : ℕ} {old : α}

/-- A list with a member at `i`, taken apart there. -/
theorem eq_take_append_drop (h : l[i]? = some old) : l = l.take i ++ old :: l.drop (i + 1) := by
  obtain ⟨hi, rfl⟩ := List.getElem?_eq_some_iff.mp h
  rw [List.getElem_cons_drop hi, List.take_append_drop]

/-- Replacing the member `old` by `new` takes away what `old` held and adds what `new` holds. -/
theorem filterMap_set_perm (f : α → Option β) (new : α) (h : l[i]? = some old) :
    ((f old).toList ++ (l.set i new).filterMap f).Perm ((f new).toList ++ l.filterMap f) := by
  obtain ⟨hi, -⟩ := List.getElem?_eq_some_iff.mp h
  have hset : (l.set i new).filterMap f =
      (l.take i).filterMap f ++ ((f new).toList ++ (l.drop (i + 1)).filterMap f) := by
    rw [List.set_eq_take_append_cons_drop, if_pos hi, List.filterMap_append]
    cases hf : f new <;> simp [hf]
  have hold : l.filterMap f =
      (l.take i).filterMap f ++ ((f old).toList ++ (l.drop (i + 1)).filterMap f) := by
    conv_lhs => rw [eq_take_append_drop h]
    rw [List.filterMap_append]
    cases hf : f old <;> simp [hf]
  rw [hset, hold]
  -- both sides are the same four lists, in another order
  generalize (l.take i).filterMap f = front
  generalize (l.drop (i + 1)).filterMap f = back
  exact ((List.perm_append_comm_assoc _ _ _).append_left _).trans
    ((List.perm_append_comm_assoc _ _ _).trans ((List.perm_append_comm_assoc _ _ _).append_left _))

/-- How often `b` is held after the member `old` (`h`) was replaced, without subtraction: old and
new change sides. -/
theorem count_filterMap_set [DecidableEq β] (f : α → Option β) (new : α) (h : l[i]? = some old)
    (b : β) :
    (f old).toList.count b + ((l.set i new).filterMap f).count b =
      (f new).toList.count b + (l.filterMap f).count b := by
  have hperm := (filterMap_set_perm f new h).count_eq b
  rwa [List.count_append, List.count_append] at hperm

/-- How many things with a property are held after a replacement. -/
theorem countP_filterMap_set (f : α → Option β) (new : α) (h : l[i]? = some old) (p : β → Bool) :
    (f old).toList.countP p + ((l.set i new).filterMap f).countP p =
      (f new).toList.countP p + (l.filterMap f).countP p := by
  have hperm := (filterMap_set_perm f new h).countP_eq p
  rwa [List.countP_append, List.countP_append] at hperm

/-- A sum over the members after the member `old` (`h`) was replaced, without subtraction: old and
new change sides. -/
theorem sum_map_set (weight : α → ℕ) (new : α) (h : l[i]? = some old) :
    weight old + ((l.set i new).map weight).sum = weight new + (l.map weight).sum := by
  obtain ⟨hi, -⟩ := List.getElem?_eq_some_iff.mp h
  have hold : (l.map weight).sum =
      ((l.take i).map weight).sum + (weight old + ((l.drop (i + 1)).map weight).sum) := by
    conv_lhs => rw [eq_take_append_drop h]
    simp
  rw [hold, List.set_eq_take_append_cons_drop, if_pos hi]
  simp
  omega

end Census
