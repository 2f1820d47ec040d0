import Mathlib.Data.Int.Notation
import Mathlib.Data.List.Basic
import Mathlib.Tactic.Common
import Mathlib.Tactic.SplitIfs

/-!
# Looking back inside a segment

A token stream is divided into segments by a separator `eos`. `before eos s past` is the token `s`
places before the newest one of `past`, which is listed newest first; where a separator or the
start of the stream comes first, it is `eos`.

* `lookBack eos n past` collects the newest token and the `n - 1` before it;
* `before_append_of_lt`: only the newest `s + 1` tokens count;
* `before_append_replicate`: separators before the start of the stream change nothing;
* `before_reverse_take`: the same token by its position in a stream that is listed oldest first;
* `ite_lastBefore_eq`: a running record of the latest separator decides which token it is.
-/

namespace Ngram

variable {α β : Type}

/-- No separator lies within the `s` tokens before position `i`, and there are so many. -/
def Clear (eos : α) (hist : List α) (i s : ℕ) : Prop :=
  s ≤ i ∧ ∀ j, i - s ≤ j → j < i → hist[j]? ≠ some eos

/-- `p` is the position of the latest separator before position `i`, or `-1` if there is none. -/
structure LastBefore (eos : α) (hist : List α) (i : ℕ) (p : ℤ) : Prop where
  /-- The record starts at `-1`. -/
  ge : -1 ≤ p
  /-- The separator comes before `i`. -/
  lt : p < i
  /-- It is a separator. -/
  isEos : 0 ≤ p → hist[p.toNat]? = some eos
  /-- No other separator lies between. -/
  latest : ∀ j : ℕ, p < j → j < i → hist[j]? ≠ some eos

/-- Position `i` lies `s` places or more inside its segment iff the way back is clear. -/
theorem lastBefore_iff {eos : α} {hist : List α} {i : ℕ} {p : ℤ} (h : LastBefore eos hist i p)
    (s : ℕ) : ((s : ℤ) ≤ i - (p + 1) ∧ (0 : ℤ) ≤ i - s) ↔ Clear eos hist i s := by
  have hge := h.ge
  have hlt := h.lt
  constructor
  · rintro ⟨h1, h2⟩
    exact ⟨by omega, fun j hj1 hj2 => h.latest j (by omega) hj2⟩
  · rintro ⟨hle, hno⟩
    refine ⟨?_, by omega⟩
    by_contra hcon
    exact hno p.toNat (by omega) (by omega) (h.isEos (by omega))

variable [DecidableEq α] [DecidableEq β]

/-- The token `s` places before the newest token of `past`, or `eos` if a separator or the start of
the stream comes first. -/
def before (eos : α) : ℕ → List α → α
  | 0, x :: _ => x
  | s + 1, _ :: y :: past => if y = eos then eos else before eos s (y :: past)
  | _, _ => eos

@[simp]
theorem before_nil (eos : α) (s : ℕ) : before eos s [] = eos := by
  cases s <;> rfl

@[simp]
theorem before_zero_cons (eos x : α) (past : List α) : before eos 0 (x :: past) = x := rfl

@[simp]
theorem before_succ_singleton (eos x : α) (s : ℕ) : before eos (s + 1) [x] = eos := rfl

@[simp]
theorem before_succ_cons_cons (eos x y : α) (s : ℕ) (past : List α) :
    before eos (s + 1) (x :: y :: past) = if y = eos then eos else before eos s (y :: past) := rfl

/-- Only the newest `s + 1` tokens count, so that older ones behind so many (`h`) change nothing. -/
theorem before_append_of_lt (eos : α) {s : ℕ} {past : List α} (h : s < past.length)
    (older : List α) : before eos s (past ++ older) = before eos s past := by
  induction s generalizing past with
  | zero =>
    cases past with
    | nil => simp at h
    | cons x past => rfl
  | succ s ih =>
    match past, h with
    | [_], h => simp at h
    | x :: y :: past, h =>
      have hlt : s < (y :: past).length := by simpa using h
      have hrest := ih hlt
      rw [List.cons_append] at hrest
      simp only [List.cons_append, before_succ_cons_cons, hrest]

/-- Separators before the start of the stream change nothing. -/
theorem before_append_replicate (eos : α) (s k : ℕ) (past : List α) :
    before eos s (past ++ List.replicate k eos) = before eos s past := by
  induction s generalizing past with
  | zero =>
    cases past with
    | nil => cases k <;> rfl
    | cons x past => rfl
  | succ s ih =>
    match past with
    | [] =>
      match k with
      | 0 => rfl
      | 1 => rfl
      | k + 2 => simp [List.replicate_succ]
    | [x] => cases k <;> simp [List.replicate_succ]
    | x :: y :: past =>
      have hrest := ih (y :: past)
      rw [List.cons_append] at hrest
      simp only [List.cons_append, before_succ_cons_cons, hrest]

/-- Looking back commutes with an injective renaming of tokens (`hf`); the separator is renamed as
well. -/
theorem before_map {f : α → β} (hf : Function.Injective f) (eos : α) (s : ℕ) (past : List α) :
    before (f eos) s (past.map f) = f (before eos s past) := by
  induction s generalizing past with
  | zero => cases past <;> rfl
  | succ s ih =>
    match past with
    | [] => rfl
    | [x] => rfl
    | x :: y :: past =>
      have hrest := ih (y :: past)
      rw [List.map_cons] at hrest
      simp only [List.map_cons, before_succ_cons_cons, hf.eq_iff, hrest]
      split_ifs <;> rfl

/-- What is seen by looking back is a token of the stream or the separator. -/
theorem before_mem (eos : α) (s : ℕ) (past : List α) :
    before eos s past = eos ∨ before eos s past ∈ past := by
  induction s generalizing past with
  | zero => cases past <;> simp [before]
  | succ s ih =>
    match past with
    | [] => exact .inl rfl
    | [x] => exact .inl rfl
    | x :: y :: past =>
      rw [before_succ_cons_cons]
      split_ifs
      · exact .inl rfl
      · exact (ih (y :: past)).imp_right (List.mem_cons_of_mem x)

/-- Within the segment, looking back from position `i` of a stream listed oldest first shows the
token `s` places before it. -/
theorem before_reverse_take {eos : α} {hist : List α} {i : ℕ} (hi : i < hist.length) (s : ℕ) :
    (Clear eos hist i s → before eos s (hist.take (i + 1)).reverse = hist.getD (i - s) eos) ∧
      (¬ Clear eos hist i s → before eos s (hist.take (i + 1)).reverse = eos) := by
  have hcons : ∀ i, i < hist.length →
      (hist.take (i + 1)).reverse = hist.getD i eos :: (hist.take i).reverse := by
    intro i hi
    rw [List.take_add_one, List.reverse_append, List.getElem?_eq_getElem hi]
    simp [List.getD, hi]
  induction s generalizing i with
  | zero =>
    refine ⟨fun _ => ?_, fun hclear => absurd ⟨Nat.zero_le i, fun j h1 h2 => ?_⟩ hclear⟩
    · rw [hcons i hi]
      rfl
    · omega
  | succ s ih =>
    cases i with
    | zero =>
      refine ⟨fun hclear => absurd hclear.1 (by omega), fun _ => ?_⟩
      rw [hcons 0 hi]
      rfl
    | succ i =>
      have hlt : i < hist.length := by omega
      have hget : hist[i]? = some (hist.getD i eos) := by simp [List.getD, hlt]
      -- one step back in the history: an end of sequence stops the walk
      have hstep : before eos (s + 1) (hist.take (i + 1 + 1)).reverse =
          if hist.getD i eos = eos then eos else before eos s (hist.take (i + 1)).reverse := by
        rw [hcons (i + 1) hi, hcons i hlt]
        rfl
      -- and the stretch is clear if this step and the ones before it are
      have hclear : Clear eos hist (i + 1) (s + 1) ↔
          hist.getD i eos ≠ eos ∧ Clear eos hist i s := by
        constructor
        · rintro ⟨hle, hno⟩
          refine ⟨fun heq => hno i (by omega) (by omega) (by rw [hget, heq]), by omega, ?_⟩
          intro j h1 h2
          exact hno j (by omega) (by omega)
        · rintro ⟨hne, hle, hno⟩
          refine ⟨by omega, fun j h1 h2 => ?_⟩
          rcases Nat.lt_or_ge j i with hj | hj
          · exact hno j (by omega) hj
          · obtain rfl : j = i := by omega
            rw [hget]
            exact fun h => hne (Option.some.inj h)
      rw [hstep, hclear, Nat.add_sub_add_right]
      obtain ⟨ih1, ih2⟩ := ih hlt
      refine ⟨fun h => ?_, fun h => ?_⟩
      · rw [if_neg h.1, ih1 h.2]
      · split_ifs with heos
        · rfl
        · exact ih2 fun hc => h ⟨heos, hc⟩

/-- Choosing between the token and the separator by the record of the latest separator looks
back. -/
theorem ite_lastBefore_eq {eos : α} {hist : List α} {i : ℕ} (hi : i < hist.length) {p : ℤ}
    (h : LastBefore eos hist i p) (s : ℕ) :
    (if (s : ℤ) ≤ i - (p + 1) ∧ (0 : ℤ) ≤ i - s then hist.getD (i - s) eos else eos) =
      before eos s (hist.take (i + 1)).reverse := by
  have hlook := @before_reverse_take _ _ eos _ _ hi s
  obtain ⟨hclear, hnot⟩ := hlook
  split_ifs with hv
  · exact (hclear ((lastBefore_iff h s).mp hv)).symm
  · exact (hnot fun hc => hv ((lastBefore_iff h s).mpr hc)).symm

/-- The newest token and the `n - 1` tokens before it, as far as the segment reaches. -/
def lookBack (eos : α) (n : ℕ) (past : List α) : List α :=
  (List.range n).map fun s => before eos s past

@[simp]
theorem length_lookBack (eos : α) (n : ℕ) (past : List α) : (lookBack eos n past).length = n := by
  simp [lookBack]

/-- Only the newest `n` tokens count, so that older ones behind so many (`h`) change nothing. -/
theorem lookBack_append_of_le (eos : α) {n : ℕ} {past : List α} (h : n ≤ past.length)
    (older : List α) : lookBack eos n (past ++ older) = lookBack eos n past := by
  refine List.map_congr_left fun s hs => before_append_of_lt eos ?_ older
  have := List.mem_range.mp hs
  omega

/-- Separators before the start of the stream change nothing. -/
theorem lookBack_append_replicate (eos : α) (n k : ℕ) (past : List α) :
    lookBack eos n (past ++ List.replicate k eos) = lookBack eos n past :=
  List.map_congr_left fun s _ => before_append_replicate eos s k past

/-- Looking back `n` tokens commutes with an injective renaming of tokens (`hf`), place by place. -/
theorem lookBack_map {f : α → β} (hf : Function.Injective f) (eos : α) (n : ℕ) (past : List α) :
    lookBack (f eos) n (past.map f) = (lookBack eos n past).map f := by
  rw [lookBack, lookBack, List.map_map]
  exact List.map_congr_left fun s _ => before_map hf eos s past

end Ngram
