import Mathlib.Data.Finset.Card
import Mathlib.Data.Finset.Dedup
import Mathlib.Data.List.DropRight

/-!
# Windows over the admitted

Values are requested one after another. A value that is not resident is admitted, and is resident
from then on: `admitted resident requests` lists the admissions in their order. A window of `W`
values is what was admitted last, the `rtake W` of all admissions.

* `toFinset_admitted`, `nodup_admitted`: who is admitted, each once;
* `rtake_rtake_append`: a window may forget what it will not hold, before the next admissions.
-/

namespace Window

variable {α : Type} [DecidableEq α]

/-- The requests that are admitted, each where it is first made. -/
def admitted : Finset α → List α → List α
  | _, [] => []
  | resident, a :: as =>
    if a ∈ resident then admitted resident as else a :: admitted (insert a resident) as

theorem admitted_cons_of_mem {resident : Finset α} {a : α} (h : a ∈ resident) (as : List α) :
    admitted resident (a :: as) = admitted resident as := if_pos h

theorem admitted_cons_of_notMem {resident : Finset α} {a : α} (h : a ∉ resident) (as : List α) :
    admitted resident (a :: as) = a :: admitted (insert a resident) as := if_neg h

/-- What is admitted was requested and was not resident. -/
theorem mem_admitted {resident : Finset α} {as : List α} {b : α} :
    b ∈ admitted resident as ↔ b ∈ as ∧ b ∉ resident := by
  induction as generalizing resident with
  | nil => exact iff_of_false List.not_mem_nil fun h => List.not_mem_nil h.1
  | cons a as ih =>
    by_cases ha : a ∈ resident
    · rw [admitted_cons_of_mem ha, ih, List.mem_cons]
      refine and_congr_left fun hb => ?_
      have hne : b ≠ a := fun h => hb (h ▸ ha)
      exact (or_iff_right hne).symm
    · rw [admitted_cons_of_notMem ha, List.mem_cons, ih, List.mem_cons, Finset.mem_insert]
      by_cases hb : b = a
      · subst hb
        simp [ha]
      · simp [hb]

theorem nodup_admitted (resident : Finset α) (as : List α) : (admitted resident as).Nodup := by
  induction as generalizing resident with
  | nil => exact List.nodup_nil
  | cons a as ih =>
    by_cases ha : a ∈ resident
    · rw [admitted_cons_of_mem ha]
      exact ih resident
    · rw [admitted_cons_of_notMem ha]
      refine List.nodup_cons.mpr ⟨fun hmem => ?_, ih _⟩
      exact (mem_admitted.mp hmem).2 (Finset.mem_insert_self a resident)

/-- The admissions, as a set. -/
theorem toFinset_admitted (resident : Finset α) (as : List α) :
    (admitted resident as).toFinset = as.toFinset \ resident := by
  ext b
  rw [List.mem_toFinset, mem_admitted, Finset.mem_sdiff, List.mem_toFinset]

/-- As many values are admitted as were requested and not resident, counted once each. -/
theorem length_admitted (resident : Finset α) (as : List α) :
    (admitted resident as).length = (as.toFinset \ resident).card := by
  rw [← toFinset_admitted, List.toFinset_card_of_nodup (nodup_admitted resident as)]

omit [DecidableEq α] in
/-- The last values of a list are those of its last values. -/
theorem rtake_rtake_append (W : ℕ) (hist as : List α) :
    (hist.rtake W ++ as).rtake W = (hist ++ as).rtake W := by
  -- read from the back, both are the first `W` of `as` reversed and then `hist` reversed
  simp only [List.rtake_eq_reverse_take_reverse, List.reverse_append, List.reverse_reverse,
    List.take_append, List.take_take, Nat.min_eq_left (Nat.sub_le _ _)]

end Window
