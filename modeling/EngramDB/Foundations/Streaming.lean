import EngramDB.Foundations.Ngram
import EngramDB.Foundations.Outcome
import Mathlib.Tactic.Common

/-!
# Rows computed along a token stream

A row is computed at every position of a stream from the column of the newest `n` tokens seen
looking back. `rowsFrom F history tokens` computes the column of every position of
`history ++ tokens`, and keeps the rows of the tokens. The row function `F` may fail, but whether
and how it fails does not depend on the tokens (`SameFault`).

* `rowsFrom_eq_of_ok`: without failures the rows are `rowsOf`, one for each token;
* `rowsOf_append`: rows of a stream that is cut in two are computed part by part;
* `rowsOf_append_history`, `rowsOf_replicate_history`: tokens older than the newest `n - 1` of the
  history, and separators before the history, change nothing;
* `chunkRows_rowsFrom`: a stream that arrives in chunks has the rows of the whole stream.
-/

namespace Except

variable {ε α β : Type}

/-- When `f` succeeds on every entry of a list, with what `g` gives (`h`), it succeeds over the
list. -/
theorem mapM_eq_ok {f : α → Except ε β} {g : α → β} {l : List α} (h : ∀ a ∈ l, f a = .ok (g a)) :
    l.mapM f = .ok (l.map g) := by
  induction l with
  | nil => rfl
  | cons a l ih =>
    rw [List.mapM_cons, h a (by simp), ih fun b hb => h b (by simp [hb])]
    rfl

/-- Functions that agree on the items of a list give the same results over it, errors included. -/
theorem mapM_congr {f g : α → Except ε β} {l : List α} (h : ∀ a ∈ l, f a = g a) :
    l.mapM f = l.mapM g := by
  induction l with
  | nil => rfl
  | cons a l ih =>
    rw [List.mapM_cons, List.mapM_cons, h a (by simp), ih fun b hb => h b (by simp [hb])]

/-- A list that succeeds has one result for each entry. -/
theorem length_of_mapM_eq_ok {f : α → Except ε β} {l : List α} {bs : List β}
    (h : l.mapM f = .ok bs) : bs.length = l.length := by
  induction l generalizing bs with
  | nil =>
    cases h
    rfl
  | cons a l ih =>
    rw [List.mapM_cons] at h
    obtain ⟨b, -, h⟩ := bind_eq_ok_iff.mp h
    obtain ⟨cs, hcs, h⟩ := bind_eq_ok_iff.mp h
    cases h
    rw [List.length_cons, List.length_cons, ih hcs]

/-- Every result of a list that succeeds is the result of one of its entries. -/
theorem exists_of_mem_mapM {f : α → Except ε β} {l : List α} {bs : List β} (h : l.mapM f = .ok bs)
    {b : β} (hb : b ∈ bs) : ∃ a ∈ l, f a = .ok b := by
  induction l generalizing bs with
  | nil =>
    cases h
    cases hb
  | cons a l ih =>
    rw [List.mapM_cons] at h
    obtain ⟨c, hc, h⟩ := bind_eq_ok_iff.mp h
    obtain ⟨cs, hcs, h⟩ := bind_eq_ok_iff.mp h
    cases h
    rcases List.mem_cons.mp hb with rfl | hb
    · exact ⟨a, by simp, hc⟩
    · obtain ⟨a', ha', hb⟩ := ih hcs hb
      exact ⟨a', by simp [ha'], hb⟩

/-- A list that succeeds has a result of each of its entries. -/
theorem exists_mem_of_mapM_eq_ok {f : α → Except ε β} {l : List α} {bs : List β}
    (h : l.mapM f = .ok bs) :
    ∀ a ∈ l, ∃ b ∈ bs, f a = .ok b := by
  induction l generalizing bs with
  | nil => simp
  | cons a l ih =>
    rw [List.mapM_cons] at h
    obtain ⟨b, hb, h⟩ := bind_eq_ok_iff.mp h
    obtain ⟨bs', hbs, h⟩ := bind_eq_ok_iff.mp h
    cases h
    refine List.forall_mem_cons.mpr ⟨⟨b, by simp, hb⟩, fun a' ha' => ?_⟩
    obtain ⟨b', hb', hf⟩ := ih hbs a' ha'
    exact ⟨b', List.mem_cons_of_mem b hb', hf⟩

/-- A loop that returns (`h`) has returned for every member of the list. -/
theorem forall_of_mapM_eq_ok {f : α → Except ε β} {l : List α} {bs : List β} (h : l.mapM f = .ok bs)
    (a : α) (ha : a ∈ l) : ∃ b, f a = .ok b := by
  obtain ⟨b, -, hb⟩ := exists_mem_of_mapM_eq_ok h a ha
  exact ⟨b, hb⟩

/-- What follows a list of computations depends on it only for result lists of its length. -/
theorem bind_mapM_congr {γ : Type} {f : α → Except ε β} {l : List α}
    {k k' : List β → Except ε γ} (h : ∀ bs, bs.length = l.length → k bs = k' bs) :
    l.mapM f >>= k = l.mapM f >>= k' := by
  cases hbs : l.mapM f with
  | error e => rfl
  | ok bs => exact h bs (length_of_mapM_eq_ok hbs)

/-- The failure of the first member (`h`) is the result of the whole loop. -/
theorem mapM_eq_error {f : α → Except ε β} {e : ε} {a : α} {l : List α} (h : f a = .error e) :
    (a :: l).mapM f = .error e := by
  rw [List.mapM_cons, h]
  rfl

/-- Two computations both return a value, or fail with the same error. -/
def SameFault {γ : Type} (x : Except ε β) (y : Except ε γ) : Prop :=
  x.map (fun _ => ()) = y.map (fun _ => ())

/-- A computation ends as it ends itself. -/
theorem SameFault.refl (x : Except ε β) : SameFault x x := rfl

/-- Two computations that return do not differ in how they end. -/
theorem sameFault_ok {γ : Type} (b : β) (c : γ) :
    SameFault (.ok b : Except ε β) (.ok c : Except ε γ) := rfl

/-- Two computations whose parts end alike, whatever they return, end alike. -/
theorem SameFault.bind {γ δ ζ : Type} {x : Except ε β} {y : Except ε γ} (h : SameFault x y)
    {f : β → Except ε δ} {g : γ → Except ε ζ} (hfg : ∀ b c, SameFault (f b) (g c)) :
    SameFault (x >>= f) (y >>= g) := by
  cases x with
  | error e =>
    cases y with
    | error e' =>
      simp only [SameFault, Except.map, Except.error.injEq] at h
      rw [h]
      rfl
    | ok c => simp [SameFault, Except.map] at h
  | ok b =>
    cases y with
    | error e' => simp [SameFault, Except.map] at h
    | ok c => exact hfg b c

/-- Two computations that start with the same part and then end alike do so as a whole. -/
theorem SameFault.bind_self {γ δ : Type} (x : Except ε β) {f : β → Except ε γ} {g : β → Except ε δ}
    (hfg : ∀ b, SameFault (f b) (g b)) : SameFault (x >>= f) (x >>= g) := by
  cases x with
  | error e => exact SameFault.refl _
  | ok b => exact hfg b

/-- If two functions end alike on every item of a list, they do so over the list. -/
theorem SameFault.mapM {γ : Type} {f : α → Except ε β} {g : α → Except ε γ} {l : List α}
    (h : ∀ a ∈ l, SameFault (f a) (g a)) : SameFault (l.mapM f) (l.mapM g) := by
  induction l with
  | nil => exact sameFault_ok _ _
  | cons a l ih =>
    rw [List.mapM_cons, List.mapM_cons]
    refine (h a (by simp)).bind fun b c => ?_
    exact (ih fun a ha => h a (by simp [ha])).bind fun _ _ => sameFault_ok _ _

/-- If two steps end alike on every item, whatever they have gathered, their folds do so. -/
theorem SameFault.foldlM {γ : Type} {f : β → α → Except ε β} {g : γ → α → Except ε γ}
    {l : List α} (h : ∀ a ∈ l, ∀ b c, SameFault (f b a) (g c a)) (b : β) (c : γ) :
    SameFault (l.foldlM f b) (l.foldlM g c) := by
  induction l generalizing b c with
  | nil => exact sameFault_ok _ _
  | cons a l ih =>
    rw [List.foldlM_cons, List.foldlM_cons]
    exact (h a (by simp) b c).bind fun b' c' => ih (fun a ha => h a (by simp [ha])) b' c'

/-- A computation that fails alike for all inputs is total, or fails with one error throughout. -/
theorem total_or_error [Nonempty α] {f : α → Except ε β} (h : ∀ a b, SameFault (f a) (f b)) :
    (∃ g : α → β, ∀ a, f a = .ok (g a)) ∨ ∃ e, ∀ a, f a = .error e := by
  -- one argument decides: all the others fault as it does
  obtain ⟨a₀⟩ := ‹Nonempty α›
  cases h₀ : f a₀ with
  | error e =>
    refine .inr ⟨e, fun a => ?_⟩
    have ha := h a a₀
    rw [h₀] at ha
    cases hf : f a with
    | error e' =>
      rw [hf] at ha
      simpa [SameFault, Except.map] using ha
    | ok b =>
      rw [hf] at ha
      simp [SameFault, Except.map] at ha
  | ok b₀ =>
    left
    have hok : ∀ a, ∃ b, f a = .ok b := by
      intro a
      have ha := h a a₀
      rw [h₀] at ha
      cases hf : f a with
      | error e =>
        rw [hf] at ha
        simp [SameFault, Except.map] at ha
      | ok b => exact ⟨b, rfl⟩
    choose g hg using hok
    exact ⟨g, hg⟩

end Except

namespace Ngram

variable {ε α ρ : Type} [DecidableEq α]

/-- The rows of `tokens`, computed from the columns of all positions of `history ++ tokens`. -/
def rowsFrom (eos : α) (n : ℕ) (F : List α → Except ε ρ) (history tokens : List α) :
    Except ε (List ρ) := do
  let hist := history ++ tokens
  let all ← (List.range hist.length).mapM fun pos =>
    F (lookBack eos n (hist.take (pos + 1)).reverse)
  pure (all.drop (hist.length - tokens.length))

/-- The rows of `tokens`, each from the tokens up to its position. -/
def rowsOf (eos : α) (n : ℕ) (f : List α → ρ) (history tokens : List α) : List ρ :=
  (List.range tokens.length).map fun i =>
    f (lookBack eos n ((tokens.take (i + 1)).reverse ++ history.reverse))

/-- There is one row for every token. -/
@[simp]
theorem length_rowsOf (eos : α) (n : ℕ) (f : List α → ρ) (history tokens : List α) :
    (rowsOf eos n f history tokens).length = tokens.length := by
  simp [rowsOf]

/-- The row of a token is computed from the look back over it, the tokens before it and the
history. -/
theorem getElem?_rowsOf (eos : α) (n : ℕ) (f : List α → ρ) (history : List α) {tokens : List α}
    {i : ℕ} (hi : i < tokens.length) : (rowsOf eos n f history tokens)[i]? =
      some (f (lookBack eos n ((tokens.take (i + 1)).reverse ++ history.reverse))) := by
  simp [rowsOf, hi]

/-- The last rows of the whole stream are those of the tokens. -/
theorem drop_map_lookBack (eos : α) (n : ℕ) (f : List α → ρ) (history tokens : List α) :
    ((List.range (history ++ tokens).length).map fun pos =>
        f (lookBack eos n ((history ++ tokens).take (pos + 1)).reverse)).drop
      ((history ++ tokens).length - tokens.length) = rowsOf eos n f history tokens := by
  have hsplit : List.range (history ++ tokens).length =
      List.range history.length ++ (List.range tokens.length).map (history.length + ·) := by
    rw [List.length_append, List.range_add]
  have hskip : (history ++ tokens).length - tokens.length = history.length := by
    rw [List.length_append]
    omega
  rw [hskip, hsplit, List.map_append, List.drop_append_of_le_length (by simp),
    List.drop_of_length_le (by simp), List.nil_append, List.map_map, rowsOf]
  refine List.map_congr_left fun i _ => ?_
  show f (lookBack eos n ((history ++ tokens).take (history.length + i + 1)).reverse) = _
  rw [Nat.add_assoc, List.take_length_add_append, List.reverse_append]

/-- Rows of a function that never fails on what it is given (`hF`) are those of the tokens. -/
theorem rowsFrom_eq_of_ok {eos : α} {n : ℕ} {F : List α → Except ε ρ} {f : List α → ρ}
    (hF : ∀ past, F (lookBack eos n past) = .ok (f (lookBack eos n past)))
    (history tokens : List α) :
    rowsFrom eos n F history tokens = .ok (rowsOf eos n f history tokens) := by
  rw [rowsFrom, ← drop_map_lookBack]
  simp only [Except.mapM_eq_ok fun pos _ => hF _]
  rfl

/-- When every row fails with `e`, so do the rows of a stream that is not empty. -/
theorem rowsFrom_eq_of_error {eos : α} {n : ℕ} {F : List α → Except ε ρ} {e : ε}
    (hF : ∀ past, F (lookBack eos n past) = .error e) {history tokens : List α}
    (hne : history ++ tokens ≠ []) : rowsFrom eos n F history tokens = .error e := by
  obtain ⟨m, hm⟩ : ∃ m, (history ++ tokens).length = m + 1 :=
    ⟨_, (Nat.succ_pred_eq_of_pos (List.length_pos_iff.mpr hne)).symm⟩
  have hall : ((List.range (history ++ tokens).length).mapM fun pos =>
      F (lookBack eos n ((history ++ tokens).take (pos + 1)).reverse)) = .error e := by
    rw [hm, List.range_succ_eq_map]
    exact Except.mapM_eq_error (hF _)
  rw [rowsFrom]
  simp only [hall]
  rfl

/-- Rows that are computed without an error (`h`) are one for each token. -/
theorem length_rowsFrom {eos : α} {n : ℕ} {F : List α → Except ε ρ} {history tokens : List α}
    {rows : List ρ} (h : rowsFrom eos n F history tokens = .ok rows) :
    rows.length = tokens.length := by
  obtain ⟨all, hall, hrest⟩ := Except.bind_eq_ok_iff.mp h
  have hlen := Except.length_of_mapM_eq_ok hall
  cases hrest
  rw [List.length_drop, hlen, List.length_range, List.length_append]
  omega

/-- The rows of a stream that is cut in two are computed part by part. -/
theorem rowsOf_append (eos : α) (n : ℕ) (f : List α → ρ) (history s t : List α) :
    rowsOf eos n f history (s ++ t) =
      rowsOf eos n f history s ++ rowsOf eos n f (history ++ s) t := by
  rw [rowsOf, List.length_append, List.range_add, List.map_append, List.map_map]
  congr 1
  · refine List.map_congr_left fun i hi => ?_
    have hlt := List.mem_range.mp hi
    rw [List.take_append_of_le_length (by omega)]
  · refine List.map_congr_left fun i _ => ?_
    simp only [Function.comp_apply]
    rw [Nat.add_assoc, List.take_length_add_append, List.reverse_append, List.reverse_append,
      List.append_assoc]

/-- Tokens older than the newest `n - 1` of the history change nothing. -/
theorem rowsOf_append_history (eos : α) {n : ℕ} (f : List α → ρ) (older : List α)
    {recent : List α} (h : n ≤ recent.length + 1) (tokens : List α) :
    rowsOf eos n f (older ++ recent) tokens = rowsOf eos n f recent tokens := by
  refine List.map_congr_left fun i hi => ?_
  have hlt := List.mem_range.mp hi
  rw [List.reverse_append, ← List.append_assoc, lookBack_append_of_le]
  simp only [List.length_append, List.length_reverse, List.length_take]
  omega

/-- Separators before the history change nothing. -/
theorem rowsOf_replicate_history (eos : α) (n k : ℕ) (f : List α → ρ) (history tokens : List α) :
    rowsOf eos n f (List.replicate k eos ++ history) tokens =
      rowsOf eos n f history tokens := by
  refine List.map_congr_left fun i _ => ?_
  rw [List.reverse_append, List.reverse_replicate, ← List.append_assoc, lookBack_append_replicate]

/-- A map over the rows is a map over what is computed from each look back. -/
theorem map_rowsOf {σ : Type} (g : ρ → σ) (eos : α) (n : ℕ) (f : List α → ρ)
    (history tokens : List α) :
    (rowsOf eos n f history tokens).map g =
      rowsOf eos n (fun column => g (f column)) history tokens := by
  rw [rowsOf, rowsOf, List.map_map]
  rfl

/-- An injective renaming of the tokens can be moved into the row function. -/
theorem rowsOf_map {β : Type} [DecidableEq β] {g : α → β} (hg : Function.Injective g) (eos : α)
    (n : ℕ) (f : List β → ρ) (history tokens : List α) :
    rowsOf (g eos) n f (history.map g) (tokens.map g) =
      rowsOf eos n (fun column => f (column.map g)) history tokens := by
  rw [rowsOf, List.length_map]
  refine List.map_congr_left fun i _ => ?_
  rw [← List.map_take, ← List.map_reverse, ← List.map_reverse, ← List.map_append, lookBack_map hg]

/-- A row function without failures on renamed columns, along a renamed stream. -/
theorem rowsFrom_map {β : Type} [DecidableEq β] {g : α → β} (hg : Function.Injective g) {eos : α}
    {n : ℕ} {F : List β → Except ε ρ} {f : List α → ρ}
    (hF : ∀ past, F ((lookBack eos n past).map g) = .ok (f (lookBack eos n past)))
    (history tokens : List α) :
    rowsFrom (g eos) n F (history.map g) (tokens.map g) = .ok (rowsOf eos n f history tokens) := by
  have hrow : ∀ pos ∈ List.range (history ++ tokens).length,
      F (lookBack (g eos) n (((history ++ tokens).map g).take (pos + 1)).reverse) =
        .ok (f (lookBack eos n ((history ++ tokens).take (pos + 1)).reverse)) := by
    intro pos _
    rw [← List.map_take, ← List.map_reverse, lookBack_map hg, hF]
  rw [rowsFrom, ← drop_map_lookBack, ← List.map_append]
  simp only [List.length_map, Except.mapM_eq_ok hrow]
  rfl

/-- Rows are equal when they are equal for all columns of the tokens that occur. -/
theorem rowsOf_congr {eos : α} {n : ℕ} {f f' : List α → ρ} {history tokens : List α}
    {P : α → Prop} (heos : P eos) (hhistory : ∀ t ∈ history, P t) (htokens : ∀ t ∈ tokens, P t)
    (h : ∀ past, (∀ t ∈ lookBack eos n past, P t) →
      f (lookBack eos n past) = f' (lookBack eos n past)) :
    rowsOf eos n f history tokens = rowsOf eos n f' history tokens := by
  refine List.map_congr_left fun i _ => h _ fun t ht => ?_
  obtain ⟨s, -, rfl⟩ := List.mem_map.mp ht
  rcases before_mem eos s ((tokens.take (i + 1)).reverse ++ history.reverse) with hb | hb
  · rw [hb]
    exact heos
  · rw [List.mem_append, List.mem_reverse, List.mem_reverse] at hb
    rcases hb with hb | hb
    · exact htokens _ (List.mem_of_mem_take hb)
    · exact hhistory _ hb

section Uniform

variable {eos : α} {n : ℕ} {F : List α → Except ε ρ}

/-- A row function that fails alike for all columns is total on them, or fails with one error. -/
theorem rowFunction_total_or_error
    (hF : ∀ past past', Except.SameFault (F (lookBack eos n past)) (F (lookBack eos n past'))) :
    (∃ f : List α → ρ, ∀ past, F (lookBack eos n past) = .ok (f (lookBack eos n past))) ∨
      ∃ e, ∀ past, F (lookBack eos n past) = .error e := by
  rcases Except.total_or_error hF with ⟨g, hg⟩ | herror
  · refine .inl ⟨fun column => (F column).toOption.getD (g []), fun past => ?_⟩
    show F _ = .ok ((F (lookBack eos n past)).toOption.getD (g []))
    rw [hg past]
    rfl
  · exact .inr herror

/-- The rows of a stream that is cut in two are computed part by part, also when rows fail. -/
theorem rowsFrom_append
    (hF : ∀ past past', Except.SameFault (F (lookBack eos n past)) (F (lookBack eos n past')))
    {history : List α} (hne : history ≠ []) (s t : List α) :
    rowsFrom eos n F history (s ++ t) = (do
      let rows ← rowsFrom eos n F history s
      let rest ← rowsFrom eos n F (history ++ s) t
      pure (rows ++ rest)) := by
  rcases rowFunction_total_or_error hF with ⟨f, hf⟩ | ⟨e, he⟩
  · rw [rowsFrom_eq_of_ok hf, rowsFrom_eq_of_ok hf, rowsFrom_eq_of_ok hf, rowsOf_append]
    rfl
  · rw [rowsFrom_eq_of_error he (by simp [hne]), rowsFrom_eq_of_error he (by simp [hne])]
    rfl

/-- Tokens older than the newest `n - 1` of the history change nothing, also when rows fail. -/
theorem rowsFrom_append_history
    (hF : ∀ past past', Except.SameFault (F (lookBack eos n past)) (F (lookBack eos n past')))
    (older : List α) {recent : List α} (hn : n ≤ recent.length + 1) (hne : recent ≠ [])
    (tokens : List α) :
    rowsFrom eos n F (older ++ recent) tokens = rowsFrom eos n F recent tokens := by
  rcases rowFunction_total_or_error hF with ⟨f, hf⟩ | ⟨e, he⟩
  · rw [rowsFrom_eq_of_ok hf, rowsFrom_eq_of_ok hf, rowsOf_append_history eos f older hn]
  · rw [rowsFrom_eq_of_error he (by simp [hne]), rowsFrom_eq_of_error he (by simp [hne])]

/-- Any two nonempty runs of separators (`hj`, `hk`) are the same history to a function whose errors
are alike (`hF`). -/
theorem rowsFrom_replicate
    (hF : ∀ past past', Except.SameFault (F (lookBack eos n past)) (F (lookBack eos n past')))
    {j k : ℕ} (hj : j ≠ 0) (hk : k ≠ 0) (tokens : List α) :
    rowsFrom eos n F (List.replicate j eos) tokens =
      rowsFrom eos n F (List.replicate k eos) tokens := by
  rcases rowFunction_total_or_error hF with ⟨f, hf⟩ | ⟨e, he⟩
  · have hnone : ∀ m, rowsOf eos n f (List.replicate m eos) tokens = rowsOf eos n f [] tokens :=
      fun m => by
        have := rowsOf_replicate_history eos n m f [] tokens
        rwa [List.append_nil] at this
    rw [rowsFrom_eq_of_ok hf, rowsFrom_eq_of_ok hf, hnone, hnone]
  · rw [rowsFrom_eq_of_error he (by simp [hj]), rowsFrom_eq_of_error he (by simp [hk])]

/-- The newest `keep` tokens of a history stand for all of it. -/
theorem rowsFrom_drop_history
    (hF : ∀ past past', Except.SameFault (F (lookBack eos n past)) (F (lookBack eos n past')))
    {keep : ℕ} (hn : n ≤ keep + 1) (hkeep : keep ≠ 0) (history tokens : List α) :
    rowsFrom eos n F (history.drop (history.length - keep)) tokens =
      rowsFrom eos n F history tokens := by
  rcases Nat.lt_or_ge history.length keep with h | h
  · rw [Nat.sub_eq_zero_of_le (Nat.le_of_lt h), List.drop_zero]
  · have hlen : (history.drop (history.length - keep)).length = keep := by
      rw [List.length_drop]
      omega
    have hrecent : history.drop (history.length - keep) ≠ [] := by
      intro hnil
      rw [hnil] at hlen
      exact hkeep hlen.symm
    conv_rhs => rw [← List.take_append_drop (history.length - keep) history]
    rw [rowsFrom_append_history hF _ (by omega) hrecent]

/-- Rows of a stream that arrives in chunks, with the newest `keep` tokens as the history of the
next chunk. -/
def chunkRows (rows : List α → List α → Except ε (List ρ)) (keep : ℕ) :
    List α → List (List α) → Except ε (List ρ)
  | _, [] => pure []
  | history, c :: cs => do
    let first ← rows history c
    let rest ←
      chunkRows rows keep ((history ++ c).drop ((history ++ c).length - keep)) cs
    pure (first ++ rest)

/-- The rows of a stream that arrives in chunks are the rows of the whole stream. -/
theorem chunkRows_rowsFrom
    (hF : ∀ past past', Except.SameFault (F (lookBack eos n past)) (F (lookBack eos n past')))
    {keep : ℕ} (hn : n ≤ keep + 1) (hkeep : keep ≠ 0) {history : List α} (hne : history ≠ [])
    (c : List α) (cs : List (List α)) :
    chunkRows (rowsFrom eos n F) keep history (c :: cs) =
      rowsFrom eos n F history (c ++ cs.flatten) := by
  induction cs generalizing history c with
  | nil =>
    simp only [chunkRows, List.flatten_nil, List.append_nil]
    cases rowsFrom eos n F history c <;> simp [bind, Except.bind, pure, Except.pure]
  | cons d ds ih =>
    -- some of the history is always kept, and enough of it to look back
    have hne' : (history ++ c).drop ((history ++ c).length - keep) ≠ [] := by
      intro hnil
      have hlen := congrArg List.length hnil
      have hpos := List.length_pos_iff.mpr hne
      simp only [List.length_drop, List.length_append, List.length_nil] at hlen
      omega
    rw [chunkRows, ih hne', rowsFrom_drop_history hF hn hkeep, List.flatten_cons,
      rowsFrom_append hF hne]

end Uniform

end Ngram
