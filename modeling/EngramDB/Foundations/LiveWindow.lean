import Mathlib.Data.List.Basic
import Mathlib.Data.List.TakeWhile

/-!
# The live window of a stream

A window shows the newest items of a stream, newest first, as far back as no dead item comes, and is
filled up with a padding item. `scan` computes it place by place with one flag that stays set once a
dead item or the start of the stream was met.

* `scan_eq_window`: the scan of a recorded stream is the window;
* `window_append_dead`: nothing from a dead item on counts.
-/

namespace LiveWindow

variable {α : Type} [DecidableEq α]

/-- The newest items of `past`, which is listed newest first, up to the first `dead` one, filled up
to `n` items with `pad`. -/
def window (dead pad : α) (n : ℕ) (past : List α) : List α :=
  let live := (past.take n).takeWhile (· ≠ dead)
  live ++ List.replicate (n - live.length) pad

/-- The places `s` to `s + n - 1` before position `p` of a recorded stream. Once one of them is dead
or lies before the start, it and all further places give `pad`. -/
def scan (dead pad : α) (record : List α) (p : ℕ) : ℕ → ℕ → Bool → List α
  | _, 0, _ => []
  | s, n + 1, blocked =>
    let source := record.getD (p - s) dead
    let blocked := blocked || decide (p < s) || decide (source = dead)
    (if blocked then pad else source) :: scan dead pad record p (s + 1) n blocked

variable {dead pad : α} {n : ℕ} {past : List α}

@[simp]
theorem length_window : (window dead pad n past).length = n := by
  have hle : ((past.take n).takeWhile (· ≠ dead)).length ≤ n :=
    (List.takeWhile_sublist _).length_le.trans (List.length_take_le n past)
  rw [window, List.length_append, List.length_replicate]
  omega

theorem window_nil : window dead pad n [] = List.replicate n pad := by
  simp [window]

/-- A live item is shown, and the window goes on behind it. -/
theorem window_cons {x : α} (hx : x ≠ dead) :
    window dead pad (n + 1) (x :: past) = x :: window dead pad n past := by
  simp [window, hx]

/-- Nothing from a dead item on counts. -/
theorem window_append_dead {older : List α} :
    window dead pad n (past ++ dead :: older) = window dead pad n past := by
  induction past generalizing n with
  | nil =>
    cases n with
    | zero => rfl
    | succ n => simp [window]
  | cons x past ih =>
    cases n with
    | zero => rfl
    | succ n =>
      by_cases hx : x = dead
      · simp [window, hx]
      · rw [List.cons_append, window_cons hx, window_cons hx, ih]

theorem window_cons_dead {older : List α} :
    window dead pad n (dead :: older) = List.replicate n pad := by
  show window dead pad n ([] ++ dead :: older) = List.replicate n pad
  rw [window_append_dead, window_nil]

/-- Every item of a window is the padding or an item of the stream. -/
theorem eq_pad_or_mem_of_mem_window {x : α} (hx : x ∈ window dead pad n past) :
    x = pad ∨ x ∈ past ∧ x ≠ dead := by
  rw [window, List.mem_append] at hx
  rcases hx with hlive | hpad
  · have hne : x ≠ dead := by simpa using List.mem_takeWhile_imp hlive
    exact .inr ⟨List.mem_of_mem_take ((List.takeWhile_sublist _).mem hlive), hne⟩
  · exact .inl (List.eq_of_mem_replicate hpad)

/-- Once the scan is blocked, it gives the padding. -/
theorem scan_blocked (record : List α) (p s : ℕ) :
    scan dead pad record p s n true = List.replicate n pad := by
  induction n generalizing s with
  | zero => rfl
  | succ n ih =>
    rw [scan, List.replicate_succ]
    simp only [Bool.true_or]
    rw [ih, if_pos trivial]

/-- The scan from place `s` on shows the window of the items that many places back. -/
theorem scan_eq_window_drop {record : List α} {p : ℕ} (hp : p < record.length) (s : ℕ) :
    scan dead pad record p s n false =
      window dead pad n ((record.take (p + 1)).reverse.drop s) := by
  induction n generalizing s with
  | zero => rfl
  | succ n ih =>
    have hlen : (record.take (p + 1)).reverse.length = p + 1 := by
      rw [List.length_reverse, List.length_take]
      omega
    rw [scan]
    rcases Nat.lt_or_ge p s with hps | hps
    · -- the place lies before the start of the stream
      rw [List.drop_of_length_le (by omega), window_nil]
      simp [hps, scan_blocked, List.replicate_succ]
    · have hget : (record.take (p + 1)).reverse[s]? = some record[p - s] := by
        rw [List.getElem?_reverse (by rw [List.length_take]; omega), List.length_take,
          Nat.min_eq_left (by omega), List.getElem?_take_of_lt (by omega),
          show p + 1 - 1 - s = p - s by omega, List.getElem?_eq_getElem (by omega)]
      have hsource : record.getD (p - s) dead = record[p - s] := by
        rw [List.getD_eq_getElem?_getD, List.getElem?_eq_getElem (by omega), Option.getD_some]
      have hdrop : (record.take (p + 1)).reverse.drop s =
          record[p - s] :: (record.take (p + 1)).reverse.drop (s + 1) := by
        obtain ⟨hs, hs'⟩ := List.getElem?_eq_some_iff.mp hget
        rw [List.drop_eq_getElem_cons hs, hs']
      rw [hsource, hdrop]
      by_cases hdead : record[p - s] = dead
      · simp [hdead, scan_blocked, window_cons_dead, List.replicate_succ]
      · rw [window_cons hdead, ← ih (s + 1)]
        simp [hdead, Nat.not_lt.mpr hps]

/-- The scan of a recorded stream is the window of what was recorded up to the position. -/
theorem scan_eq_window {record : List α} {p : ℕ} (hp : p < record.length) :
    scan dead pad record p 0 n false = window dead pad n (record.take (p + 1)).reverse :=
  scan_eq_window_drop hp 0

end LiveWindow
