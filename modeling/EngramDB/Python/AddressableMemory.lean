import EngramDB.Foundations.Tally
import EngramDB.Python.Basic
import Mathlib.Algebra.BigOperators.Group.Finset.Basic
import Mathlib.Algebra.BigOperators.Group.Finset.Piecewise
import Mathlib.Order.Bounds.Basic

/-!
# The addressable n-gram memory

`AddressableNgramMemory` counts, for every order up to a bound, which tokens follow a context of
that many tokens, and which values were given to the sequences in which they do. A query takes the
longest suffix of a context that has been followed by a token (`continuation_distribution`).

* `Counts.addSequence`: what a sequence adds to a counter, for both tables;
* `counter_nextCounts`, `counter_valueIndex`: the counters of a memory, from its sequences;
* `balanced_addAll`: `total_ngrams` is the sum of all counts;
* `bestOrder_spec`: the order that a query takes;
* `counts_exactly`: the counts and the queries of a memory.
-/

namespace EngramDB

/-- A `Counter`: how often every key was counted. -/
abbrev Counter := OrderedDict ℤ ℕ

/-- The counters of the contexts of one order. -/
abbrev ContextTable := OrderedDict (List ℤ) Counter

namespace ContextTable

/-- `table[ctx][key] += 1`, if there is a key. A context that is missing starts with an empty
counter. -/
def count (table : ContextTable) (ctx : List ℤ) : Option ℤ → ContextTable
  | none => table
  | some key => table.modify ctx .empty (·.bump key)

/-- The counter of a context, empty if the context is missing. -/
def counter (table : ContextTable) (ctx : List ℤ) : Counter := table.getD ctx .empty

/-- `table.get(ctx)`, if this is a counter that is not empty. -/
def found? (table : ContextTable) (ctx : List ℤ) : Option Counter :=
  (table.get? ctx).filter fun c => c.entries ≠ []

/-- The sum of all counts. -/
def total (table : ContextTable) : ℕ := (table.entries.map fun e => e.2.total).sum

end ContextTable

/-- The memory. The list of the dictionaries is a function of the order. -/
structure AddressableNgramMemory where
  /-- The least order that a query uses. -/
  minOrder : ℕ
  /-- The greatest order. -/
  maxOrder : ℕ
  /-- The constructor refuses other orders. -/
  one_le_minOrder : 1 ≤ minOrder
  /-- The constructor refuses other orders. -/
  minOrder_le : minOrder ≤ maxOrder
  /-- How often every token follows every context. -/
  nextCounts : ℕ → ContextTable
  /-- How often every context is followed by a token, for every value. -/
  valueIndex : ℕ → ContextTable
  /-- Number of n-grams that were counted. -/
  totalNgrams : ℕ

/-- `context[-n:]`, for a positive `n`. -/
def lastTokens (context : List ℤ) (n : ℕ) : List ℤ := context.drop (context.length - n)

namespace AddressableNgramMemory

/-- `__init__`. -/
def new (minOrder maxOrder : ℤ) : Py AddressableNgramMemory :=
  if hmin : minOrder < 1 then .error (.valueError "min_order must be >= 1")
  else if hmax : maxOrder < minOrder then .error (.valueError "max_order must be >= min_order")
  else .ok {
    minOrder := minOrder.toNat
    maxOrder := maxOrder.toNat
    one_le_minOrder := by omega
    minOrder_le := by omega
    nextCounts := fun _ => .empty
    valueIndex := fun _ => .empty
    totalNgrams := 0 }

variable (mem : AddressableNgramMemory)

/-- The body of the loops of `add_sequence`: the token at place `i` follows the `order` tokens
before it. -/
def addNgram (tokens : List ℤ) (valueId : Option ℤ) (i : ℕ) (tok : ℤ) (order : ℕ) :
    AddressableNgramMemory :=
  if i < order then mem
  else
    let ctx := (tokens.take i).drop (i - order)
    { mem with
      nextCounts :=
        Function.update mem.nextCounts order ((mem.nextCounts order).count ctx (some tok))
      valueIndex := Function.update mem.valueIndex order ((mem.valueIndex order).count ctx valueId)
      totalNgrams := mem.totalNgrams + 1 }

/-- The inner loop of `add_sequence`. -/
def addToken (tokens : List ℤ) (valueId : Option ℤ) (i : ℕ) (tok : ℤ) : AddressableNgramMemory :=
  if i = 0 then mem
  else (List.range' 1 mem.maxOrder).foldl
    (fun mem order => mem.addNgram tokens valueId i tok order) mem

/-- Add one sequence, with the value that it stands for. -/
def addSequence (tokens : List ℤ) (valueId : Option ℤ) : AddressableNgramMemory :=
  tokens.zipIdx.foldl (fun mem e => mem.addToken tokens valueId e.2 e.1) mem

/-- Add sequences, one after another. -/
def addAll (seqs : List (List ℤ × Option ℤ)) : AddressableNgramMemory :=
  seqs.foldl (fun mem s => mem.addSequence s.1 s.2) mem

/-- The loop of `_best_order`, from an order downwards. -/
def bestOrderFrom (context : List ℤ) : ℕ → ℕ
  | 0 => 0
  | n + 1 =>
    if n + 1 < mem.minOrder then 0
    else if ((mem.nextCounts (n + 1)).found? (lastTokens context (n + 1))).isSome then n + 1
    else bestOrderFrom context n

/-- `_best_order`: the longest order that has a continuation count for a context. -/
def bestOrder (context : List ℤ) : ℕ := mem.bestOrderFrom context (min mem.maxOrder context.length)

/-- The frequencies of the tokens that follow the longest suffix of a context, and its order. -/
def continuationDistribution (context : List ℤ) : Option (OrderedDict ℤ ℚ × ℕ) :=
  let order := mem.bestOrder context
  if order = 0 then none
  else
    match (mem.nextCounts order).found? (lastTokens context order) with
    | none => none
    | some c => some (c.mapValues fun cnt => (cnt : ℚ) / c.total, order)

/-- The sum of all `next_counts`. -/
def sumNextCounts : ℕ := ∑ o ∈ Finset.range (mem.maxOrder + 1), (mem.nextCounts o).total

/-- The tokens that follow a context in a sequence, one for every position. -/
def followers (tokens ctx : List ℤ) : List ℤ :=
  (tokens.zipIdx.filter fun e => ctx <:+ tokens.take e.2).map Prod.fst

/-- The tokens that follow a context in some sequences. -/
def followersIn (seqs : List (List ℤ × Option ℤ)) (ctx : List ℤ) : List ℤ :=
  seqs.flatMap fun s => followers s.1 ctx

/-- The sequences that were added with a value. -/
def withValue (v : ℤ) (seqs : List (List ℤ × Option ℤ)) : List (List ℤ × Option ℤ) :=
  seqs.filter fun s => s.2 = some v

/-! ### What is counted -/

section Counts

variable {mem : AddressableNgramMemory} {tokens ctx : List ℤ} {v : Option ℤ} {i order : ℕ} {tok : ℤ}

/-- A table in which every n-gram counts the key of its token. -/
def Counts (table : AddressableNgramMemory → ℕ → ContextTable) (v : Option ℤ) (key : ℤ → Option ℤ) :
    Prop :=
  ∀ (mem : AddressableNgramMemory) (tokens : List ℤ) (i : ℕ) (tok : ℤ) (order o : ℕ),
    table (mem.addNgram tokens v i tok order) o =
      if o = order ∧ o ≤ i then (table mem o).count ((tokens.take i).drop (i - o)) (key tok)
        else table mem o

/-- The table of next tokens counts the token itself. -/
theorem counts_nextCounts (v : Option ℤ) : Counts nextCounts v some := by
  intro mem tokens i tok order o
  unfold addNgram
  by_cases hi : i < order
  · rw [if_pos hi, if_neg (by omega)]
  · rw [if_neg hi]
    show Function.update _ _ _ _ = _
    by_cases ho : o = order
    · subst ho
      rw [Function.update_self, if_pos ⟨rfl, by omega⟩]
    · rw [Function.update_of_ne ho, if_neg fun h => ho h.1]

/-- The index of values counts the value of the sequence, where it has one, whatever the token
is. -/
private theorem counts_valueIndex (v : Option ℤ) : Counts valueIndex v fun _ => v := by
  intro mem tokens i tok order o
  unfold addNgram
  by_cases hi : i < order
  · rw [if_pos hi, if_neg (by omega)]
  · rw [if_neg hi]
    show Function.update _ _ _ _ = _
    by_cases ho : o = order
    · subst ho
      rw [Function.update_self, if_pos ⟨rfl, by omega⟩]
    · rw [Function.update_of_ne ho, if_neg fun h => ho h.1]

/-- Adding does not change the orders. -/
def SameOrders (mem mem' : AddressableNgramMemory) : Prop :=
  mem'.minOrder = mem.minOrder ∧ mem'.maxOrder = mem.maxOrder

/-- If a step leaves the bounds on the orders, so does a fold of it over a list. -/
theorem sameOrders_foldl {α : Type} {f : AddressableNgramMemory → α → AddressableNgramMemory}
    (hf : ∀ mem a, SameOrders mem (f mem a)) (l : List α) (mem : AddressableNgramMemory) :
    SameOrders mem (l.foldl f mem) := by
  induction l generalizing mem with
  | nil => exact ⟨rfl, rfl⟩
  | cons a l ih => exact ⟨(ih _).1.trans (hf mem a).1, (ih _).2.trans (hf mem a).2⟩

/-- Adding an n-gram leaves the bounds on the orders. -/
theorem sameOrders_addNgram (mem : AddressableNgramMemory) (tokens : List ℤ) (v : Option ℤ) (i : ℕ)
    (tok : ℤ) (order : ℕ) : SameOrders mem (mem.addNgram tokens v i tok order) := by
  unfold addNgram
  split_ifs
  · exact ⟨rfl, rfl⟩
  · exact ⟨rfl, rfl⟩

/-- Adding the n-grams of one token leaves the bounds on the orders. -/
theorem sameOrders_addToken (mem : AddressableNgramMemory) (tokens : List ℤ) (v : Option ℤ) (i : ℕ)
    (tok : ℤ) : SameOrders mem (mem.addToken tokens v i tok) := by
  unfold addToken
  split_ifs
  · exact ⟨rfl, rfl⟩
  · exact sameOrders_foldl (fun mem order => sameOrders_addNgram mem tokens v i tok order) _ mem

/-- Adding a sequence leaves the bounds on the orders. -/
theorem sameOrders_addSequence (mem : AddressableNgramMemory) (tokens : List ℤ) (v : Option ℤ) :
    SameOrders mem (mem.addSequence tokens v) :=
  sameOrders_foldl (fun mem (e : ℤ × ℕ) => sameOrders_addToken mem tokens v e.2 e.1) _ mem

/-- Adding sequences one after another leaves the bounds on the orders. -/
private theorem sameOrders_addAll (mem : AddressableNgramMemory) (seqs : List (List ℤ × Option ℤ)) :
    SameOrders mem (mem.addAll seqs) :=
  sameOrders_foldl (fun mem (s : List ℤ × Option ℤ) => sameOrders_addSequence mem s.1 s.2) seqs mem

variable {table : AddressableNgramMemory → ℕ → ContextTable} {key : ℤ → Option ℤ} {o : ℕ}

/-- Adding n-grams of different orders (`hnodup`) at one token counts the token once in the table of
each order that has its context. -/
private theorem Counts.foldl_addNgram (h : Counts table v key) {orders : List ℕ}
    (hnodup : orders.Nodup) (mem : AddressableNgramMemory) (o : ℕ) :
    table (orders.foldl (fun mem order => mem.addNgram tokens v i tok order) mem) o =
      if o ∈ orders ∧ o ≤ i then (table mem o).count ((tokens.take i).drop (i - o)) (key tok)
      else table mem o := by
  induction orders generalizing mem with
  | nil => rw [List.foldl_nil, if_neg fun h => List.not_mem_nil h.1]
  | cons order orders ih =>
    obtain ⟨hnot, hnodup⟩ := List.nodup_cons.mp hnodup
    rw [List.foldl_cons, ih hnodup, h mem tokens i tok order o]
    by_cases ho : o = order
    · subst ho
      rw [if_neg fun h => hnot h.1]
      simp only [List.mem_cons, true_and, true_or]
    · simp only [List.mem_cons, ho, false_and, false_or, if_false]

/-- Adding the token at `i` counts one occurrence in the table of every order that reaches back
inside the sequence, under the context of that order, and leaves the other tables. -/
theorem Counts.addToken (h : Counts table v key) (mem : AddressableNgramMemory) (o : ℕ) :
    table (mem.addToken tokens v i tok) o =
      if (1 ≤ o ∧ o ≤ mem.maxOrder) ∧ o ≤ i then
        (table mem o).count ((tokens.take i).drop (i - o)) (key tok)
      else table mem o := by
  unfold AddressableNgramMemory.addToken
  by_cases hi : i = 0
  · rw [if_pos hi, if_neg (by omega)]
  · have hmem : o ∈ List.range' 1 mem.maxOrder ↔ 1 ≤ o ∧ o ≤ mem.maxOrder := by
      rw [List.mem_range'_1]
      omega
    rw [if_neg hi, h.foldl_addNgram List.nodup_range']
    simp only [hmem]

/-- Counting a key under the context `ctx'` changes the counter of that context only. -/
private theorem counter_count (t : ContextTable) (ctx ctx' : List ℤ) (key : Option ℤ) :
    (t.count ctx' key).counter ctx =
      if ctx' = ctx then key.toList.foldl OrderedDict.bump (t.counter ctx) else t.counter ctx := by
  cases key with
  | none => exact (ite_self _).symm
  | some key =>
    rw [ContextTable.counter, ContextTable.count, OrderedDict.getD_modify]
    by_cases h : ctx' = ctx
    · subst h
      rw [if_pos rfl, if_pos rfl]
      rfl
    · rw [if_neg (Ne.symm h), if_neg h]
      rfl

/-- A counter counts the tokens before which it finds its context. -/
private theorem Counts.foldl_addToken (h : Counts table v key) (l : List (ℤ × ℕ))
    (mem : AddressableNgramMemory) :
    (table (l.foldl (fun mem e => mem.addToken tokens v e.2 e.1) mem) o).counter ctx =
      ((l.filter fun e => ((1 ≤ o ∧ o ≤ mem.maxOrder) ∧ o ≤ e.2) ∧
          (tokens.take e.2).drop (e.2 - o) = ctx).flatMap
        fun e => (key e.1).toList).foldl OrderedDict.bump ((table mem o).counter ctx) := by
  induction l generalizing mem with
  | nil => rfl
  | cons e l ih =>
    rw [List.foldl_cons, ih, h.addToken, (sameOrders_addToken mem tokens v e.2 e.1).2]
    by_cases ho : (1 ≤ o ∧ o ≤ mem.maxOrder) ∧ o ≤ e.2
    · rw [if_pos ho, counter_count]
      by_cases hctx : (tokens.take e.2).drop (e.2 - o) = ctx
      · rw [if_pos hctx, List.filter_cons_of_pos (by simpa using ⟨ho, hctx⟩), List.flatMap_cons,
          List.foldl_append]
      · rw [if_neg hctx, List.filter_cons_of_neg fun hp => hctx (of_decide_eq_true hp).2]
    · rw [if_neg ho, List.filter_cons_of_neg fun hp => ho (of_decide_eq_true hp).1]

/-- A context ends the first `i` tokens iff it is the part of its own length in front of position
`i`. -/
private theorem suffix_take_iff (hi : i ≤ tokens.length) :
    ctx <:+ tokens.take i ↔ ctx.length ≤ i ∧ (tokens.take i).drop (i - ctx.length) = ctx := by
  have hlen : (tokens.take i).length = i := by rw [List.length_take, Nat.min_eq_left hi]
  constructor
  · intro h
    have hle := h.length_le
    rw [List.suffix_iff_eq_drop, hlen] at h
    rw [hlen] at hle
    exact ⟨hle, h.symm⟩
  · rintro ⟨-, h⟩
    rw [← h]
    exact List.drop_suffix _ _

/-- The tokens that a counter of some order counts in a sequence. -/
def counted (maxOrder o : ℕ) (tokens ctx : List ℤ) : List ℤ :=
  if (1 ≤ o ∧ o ≤ maxOrder) ∧ ctx.length = o then followers tokens ctx else []

/-- What a sequence adds to the counter of a context, in a table that `Counts` describes (`h`): the
keys of the tokens that follow the context in it. -/
theorem Counts.addSequence (h : Counts table v key) (mem : AddressableNgramMemory) :
    (table (mem.addSequence tokens v) o).counter ctx =
      ((counted mem.maxOrder o tokens ctx).flatMap fun t => (key t).toList).foldl OrderedDict.bump
        ((table mem o).counter ctx) := by
  rw [AddressableNgramMemory.addSequence, h.foldl_addToken]
  congr 1
  have hplace : ∀ e ∈ tokens.zipIdx, e.2 ≤ tokens.length := fun e he =>
    (List.snd_lt_of_mem_zipIdx he).le
  unfold counted
  by_cases ho : (1 ≤ o ∧ o ≤ mem.maxOrder) ∧ ctx.length = o
  · rw [if_pos ho, followers, List.flatMap_map]
    obtain ⟨hrange, rfl⟩ := ho
    congr 1
    refine List.filter_congr fun e he => ?_
    rw [decide_eq_decide, suffix_take_iff (hplace e he), and_iff_right hrange]
  · rw [if_neg ho, List.flatMap_nil, List.filter_eq_nil_iff.mpr, List.flatMap_nil]
    intro e he hp
    obtain ⟨⟨hrange, hle⟩, hctx⟩ := of_decide_eq_true hp
    -- what is cut out before a token has as many tokens as the order
    refine ho ⟨hrange, ?_⟩
    rw [← hctx, List.length_drop, List.length_take, Nat.min_eq_left (hplace e he)]
    omega

/-- What sequences add to the counter of a context, in a table that `Counts` describes (`h`): the
keys of the tokens that follow the context in each of them. -/
theorem counter_addAll {key : Option ℤ → ℤ → Option ℤ} (h : ∀ v, Counts table v (key v))
    (seqs : List (List ℤ × Option ℤ)) (mem : AddressableNgramMemory) :
    (table (mem.addAll seqs) o).counter ctx =
      (seqs.flatMap fun s => (counted mem.maxOrder o s.1 ctx).flatMap fun t =>
        (key s.2 t).toList).foldl
        OrderedDict.bump ((table mem o).counter ctx) := by
  induction seqs generalizing mem with
  | nil => rfl
  | cons s seqs ih =>
    rw [addAll, List.foldl_cons]
    show (table ((mem.addSequence s.1 s.2).addAll seqs) o).counter ctx = _
    rw [ih, (h s.2).addSequence, (sameOrders_addSequence mem s.1 s.2).2, List.flatMap_cons,
      List.foldl_append]

/-- The tokens that are counted in some sequences. -/
private theorem flatMap_counted (maxOrder o : ℕ) (seqs : List (List ℤ × Option ℤ)) (ctx : List ℤ) :
    (seqs.flatMap fun s => counted maxOrder o s.1 ctx) =
      if (1 ≤ o ∧ o ≤ maxOrder) ∧ ctx.length = o then followersIn seqs ctx else [] := by
  unfold counted followersIn
  split_ifs
  · rfl
  · exact List.flatMap_eq_nil_iff.mpr fun _ _ => rfl

/-- The counter of a context of length `o`, in a memory that was empty (`hnew`), counts the tokens
that follow it in the sequences. -/
theorem counter_nextCounts (hnew : mem.nextCounts o = .empty) (seqs : List (List ℤ × Option ℤ)) :
    ((mem.addAll seqs).nextCounts o).counter ctx =
      (if (1 ≤ o ∧ o ≤ mem.maxOrder) ∧ ctx.length = o then followersIn seqs ctx else []).foldl
        OrderedDict.bump OrderedDict.empty := by
  rw [counter_addAll counts_nextCounts, hnew, ← flatMap_counted]
  simp only [Option.toList_some, List.flatMap_singleton']
  rfl

/-- A list in which every place stands for the value `v` has as many of `v` as it is long, and
nothing else. -/
private theorem count_flatMap_const (l : List ℤ) (v : Option ℤ) (x : ℤ) :
    (l.flatMap fun _ => v.toList).count x = if v = some x then l.length else 0 := by
  induction l with
  | nil => exact (ite_self 0).symm
  | cons t l ih =>
    rw [List.flatMap_cons, List.count_append, ih]
    cases v with
    | none => rfl
    | some y =>
      by_cases h : y = x
      · simp [h, Nat.add_comm]
      · simp [h]

/-- In a memory that started empty (`hnew`), the count of a value under a context is the number of
times the context is followed in sequences with this value. -/
theorem count_valueIndex (hnew : mem.valueIndex o = .empty)
    (seqs : List (List ℤ × Option ℤ)) (x : ℤ) :
    (((mem.addAll seqs).valueIndex o).counter ctx).getD x 0 =
      if (1 ≤ o ∧ o ≤ mem.maxOrder) ∧ ctx.length = o then
        (followersIn (withValue x seqs) ctx).length else 0 := by
  rw [counter_addAll counts_valueIndex, hnew]
  show (List.foldl OrderedDict.bump OrderedDict.empty _).getD x 0 = _
  rw [OrderedDict.getD_foldl_bump_empty]
  induction seqs with
  | nil => exact (ite_self 0).symm
  | cons s seqs ih =>
    rw [List.flatMap_cons, List.count_append, ih, count_flatMap_const]
    unfold counted
    -- a sequence counts if it carries the value
    by_cases hs : s.2 = some x
    · have hcons : withValue x (s :: seqs) = s :: withValue x seqs :=
        List.filter_cons_of_pos (decide_eq_true hs)
      rw [if_pos hs, hcons]
      split_ifs
      · rw [followersIn, followersIn, List.flatMap_cons, List.length_append]
      · rfl
    · have hcons : withValue x (s :: seqs) = withValue x seqs :=
        List.filter_cons_of_neg fun h => hs (of_decide_eq_true h)
      rw [if_neg hs, hcons, Nat.zero_add]

end Counts

/-! ### The number of n-grams -/

section Totals

variable {mem : AddressableNgramMemory} {tokens ctx : List ℤ} {v : Option ℤ} {i order : ℕ} {tok : ℤ}

/-- Counting a token under a context raises the total by one. -/
private theorem total_count (t : ContextTable) (ctx : List ℤ) (tok : ℤ) :
    (t.count ctx (some tok)).total = t.total + 1 :=
  OrderedDict.sum_modify (μ := OrderedDict.total) rfl fun c => OrderedDict.total_bump c tok

/-- The number of n-grams is the sum of all counts. -/
def Balanced (mem : AddressableNgramMemory) : Prop := mem.totalNgrams = mem.sumNextCounts

/-- Adding an n-gram of an order within the bound keeps the totals balanced. -/
theorem Balanced.addNgram (h : mem.Balanced) (ho : order ≤ mem.maxOrder) :
    (mem.addNgram tokens v i tok order).Balanced := by
  have htables : ∀ o, ((mem.addNgram tokens v i tok order).nextCounts o).total =
      (mem.nextCounts o).total + if o = order ∧ o ≤ i then 1 else 0 := by
    intro o
    rw [counts_nextCounts v mem tokens i tok order o]
    split_ifs
    · exact total_count _ _ _
    · rfl
  unfold Balanced at h ⊢
  rw [sumNextCounts, (sameOrders_addNgram mem tokens v i tok order).2]
  simp only [htables]
  rw [Finset.sum_add_distrib, ← sumNextCounts, ← h]
  unfold AddressableNgramMemory.addNgram
  by_cases hi : i < order
  · have hnone : ∀ o, ¬ (o = order ∧ o ≤ i) := fun o => by omega
    simp only [if_pos hi, hnone, if_false, Finset.sum_const_zero, Nat.add_zero]
  · -- the one order that counts is in the sum
    have hone : ∀ o, (o = order ∧ o ≤ i) ↔ o = order := fun o => by omega
    have hmem : order ∈ Finset.range (mem.maxOrder + 1) :=
      Finset.mem_range.mpr (Nat.lt_succ_of_le ho)
    simp only [if_neg hi, hone, Finset.sum_ite_eq', hmem, if_true]

/-- Adding the n-grams of one token keeps the totals balanced. -/
theorem Balanced.addToken (h : mem.Balanced) : (mem.addToken tokens v i tok).Balanced := by
  unfold AddressableNgramMemory.addToken
  split_ifs
  · exact h
  · have hloop := List.foldlRecOn
      (motive := fun m : AddressableNgramMemory => m.Balanced ∧ m.maxOrder = mem.maxOrder)
      (List.range' 1 mem.maxOrder) (fun m order => m.addNgram tokens v i tok order) ⟨h, rfl⟩ (by
        intro m hm order horder
        rw [List.mem_range'_1] at horder
        exact ⟨hm.1.addNgram (by omega), (sameOrders_addNgram m tokens v i tok order).2.trans hm.2⟩)
    exact hloop.1

/-- Adding a sequence keeps the totals balanced. -/
theorem Balanced.addSequence (h : mem.Balanced) : (mem.addSequence tokens v).Balanced :=
  List.foldlRecOn (motive := Balanced) _ _ h fun _ hm _ _ => hm.addToken

/-- Adding sequences one after another keeps the totals balanced. -/
theorem balanced_addAll (h : mem.Balanced) (seqs : List (List ℤ × Option ℤ)) :
    (mem.addAll seqs).Balanced :=
  List.foldlRecOn (motive := Balanced) seqs _ h fun _ hm _ _ => hm.addSequence

/-- The number of n-grams of a sequence: a token ends one for every order up to its place. -/
def ngrams (maxOrder : ℕ) (tokens : List ℤ) : ℕ := (tokens.zipIdx.map fun e => min e.2 maxOrder).sum

/-- Of the orders from 1 to `n`, as many reach back inside the first `i` tokens as the smaller of
both. -/
private theorem countP_range'_le (i n : ℕ) : (List.range' 1 n).countP (· ≤ i) = min i n := by
  induction n with
  | zero => exact (Nat.min_zero i).symm
  | succ n ih =>
    rw [List.range'_1_concat, List.countP_append, ih, List.countP_singleton]
    split_ifs with h
    · have hle : 1 + n ≤ i := of_decide_eq_true h
      omega
    · have hlt : ¬ 1 + n ≤ i := fun hle => h (decide_eq_true hle)
      omega

/-- The token at `i` adds one n-gram for every order that is at most `i` and at most the bound. -/
private theorem totalNgrams_addToken (mem : AddressableNgramMemory) :
    (mem.addToken tokens v i tok).totalNgrams = mem.totalNgrams + min i mem.maxOrder := by
  -- an order is counted if it fits in front of the token
  have hloop : ∀ (orders : List ℕ) (m : AddressableNgramMemory),
      (orders.foldl (fun m order => m.addNgram tokens v i tok order) m).totalNgrams =
        m.totalNgrams + orders.countP (· ≤ i) := by
    intro orders
    induction orders with
    | nil => exact fun m => rfl
    | cons order orders ih =>
      intro m
      rw [List.foldl_cons, ih, List.countP_cons]
      unfold addNgram
      by_cases hi : i < order
      · rw [if_pos hi, if_neg (by simpa using hi), Nat.add_zero]
      · rw [if_neg hi, if_pos (by simpa using hi), Nat.add_right_comm, Nat.add_assoc]
  unfold AddressableNgramMemory.addToken
  split_ifs with hi
  · rw [hi, Nat.zero_min, Nat.add_zero]
  · rw [hloop, countP_range'_le]

/-- A sequence adds the n-grams of all its tokens to the total. -/
private theorem totalNgrams_addSequence (mem : AddressableNgramMemory) :
    (mem.addSequence tokens v).totalNgrams = mem.totalNgrams + ngrams mem.maxOrder tokens := by
  have hloop : ∀ (l : List (ℤ × ℕ)) (m : AddressableNgramMemory),
      (l.foldl (fun m e => m.addToken tokens v e.2 e.1) m).totalNgrams =
        m.totalNgrams + (l.map fun e => min e.2 m.maxOrder).sum := by
    intro l
    induction l with
    | nil => exact fun m => rfl
    | cons e l ih =>
      intro m
      rw [List.foldl_cons, ih, totalNgrams_addToken,
        (sameOrders_addToken m tokens v e.2 e.1).2, List.map_cons, List.sum_cons, Nat.add_assoc]
  exact hloop tokens.zipIdx mem

/-- Sequences add the n-grams of each of them to the total. -/
theorem totalNgrams_addAll (mem : AddressableNgramMemory) (seqs : List (List ℤ × Option ℤ)) :
    (mem.addAll seqs).totalNgrams =
      mem.totalNgrams + (seqs.map fun s => ngrams mem.maxOrder s.1).sum := by
  induction seqs generalizing mem with
  | nil => rfl
  | cons s seqs ih =>
    show ((mem.addSequence s.1 s.2).addAll seqs).totalNgrams = _
    rw [ih, totalNgrams_addSequence, (sameOrders_addSequence mem s.1 s.2).2,
      List.map_cons, List.sum_cons, Nat.add_assoc]

end Totals

/-! ### The queries -/

/-- The lengths of the suffixes of a context that are long enough and not too long, and that are
followed by a token in some sequence. -/
def followedOrders (minOrder maxOrder : ℕ) (seqs : List (List ℤ × Option ℤ)) (context : List ℤ) :
    Set ℕ :=
  {n | minOrder ≤ n ∧ n ≤ maxOrder ∧ n ≤ context.length ∧
    followersIn seqs (lastTokens context n) ≠ []}

/-- The frequencies of the tokens that follow the longest suffix of a context that is followed at
all. -/
structure IsContinuation (minOrder maxOrder : ℕ) (seqs : List (List ℤ × Option ℤ))
    (context : List ℤ) (dist : OrderedDict ℤ ℚ) (order : ℕ) : Prop where
  /-- The suffix is the longest. -/
  longest : IsGreatest (followedOrders minOrder maxOrder seqs context) order
  /-- A token has its share of the positions at which a token follows the suffix. -/
  frequency : ∀ t, dist.get? t =
    if t ∈ followersIn seqs (lastTokens context order) then
      some (((followersIn seqs (lastTokens context order)).count t : ℚ) /
        (followersIn seqs (lastTokens context order)).length)
    else none
  /-- The frequencies add up to one. -/
  sum_eq_one : (dist.entries.map Prod.snd).sum = 1

/-- The counts and the queries of a memory are those of some sequences. -/
structure Reflects (minOrder maxOrder : ℕ) (mem : AddressableNgramMemory)
    (seqs : List (List ℤ × Option ℤ)) : Prop where
  /-- A token is counted at every position at which it follows a context. -/
  next : ∀ o ctx t, ((mem.nextCounts o).counter ctx).getD t 0 =
    if (1 ≤ o ∧ o ≤ maxOrder) ∧ ctx.length = o then (followersIn seqs ctx).count t else 0
  /-- A value is counted at every position of its sequences at which a token follows a context. -/
  value : ∀ o ctx x, ((mem.valueIndex o).counter ctx).getD x 0 =
    if (1 ≤ o ∧ o ≤ maxOrder) ∧ ctx.length = o then
      (followersIn (withValue x seqs) ctx).length else 0
  /-- The number of n-grams is the sum of the counts of the tokens. -/
  total : mem.totalNgrams = mem.sumNextCounts
  /-- A query answers for the longest suffix that is followed by a token. -/
  continuation : ∀ context,
    match mem.continuationDistribution context with
    | none => followedOrders minOrder maxOrder seqs context = ∅
    | some (dist, order) => IsContinuation minOrder maxOrder seqs context dist order

/-- Two memories have the same counts. -/
structure SameCounts (mem mem' : AddressableNgramMemory) : Prop where
  /-- The counts of the tokens. -/
  next : ∀ o ctx t,
    ((mem.nextCounts o).counter ctx).getD t 0 = ((mem'.nextCounts o).counter ctx).getD t 0
  /-- The counts of the values. -/
  value : ∀ o ctx x,
    ((mem.valueIndex o).counter ctx).getD x 0 = ((mem'.valueIndex o).counter ctx).getD x 0
  /-- The numbers of n-grams. -/
  total : mem.totalNgrams = mem'.totalNgrams

section Queries

variable {mem : AddressableNgramMemory} {context : List ℤ}

/-- A lookup finds a counter unless nothing is counted under the context. -/
theorem found?_eq (t : ContextTable) (ctx : List ℤ) :
    t.found? ctx = if (t.counter ctx).entries = [] then none else some (t.counter ctx) := by
  unfold ContextTable.found? ContextTable.counter OrderedDict.getD
  cases t.get? ctx with
  | none => rfl
  | some c =>
    rw [Option.getD_some]
    by_cases h : c.entries = []
    · rw [if_pos h, Option.filter_some, if_neg (by simpa using h)]
    · rw [if_neg h, Option.filter_some, if_pos (by simpa using h)]

/-- The last `n` tokens of a context that has so many are `n`. -/
private theorem length_lastTokens {n : ℕ} (h : n ≤ context.length) :
    (lastTokens context n).length = n := by
  rw [lastTokens, List.length_drop]
  omega

/-- The loop finds the greatest order, up to the one at which it starts, at which there is a
counter. -/
theorem bestOrderFrom_spec (mem : AddressableNgramMemory) (context : List ℤ) (n : ℕ) :
    (mem.bestOrderFrom context n = 0 ∧ ∀ k, mem.minOrder ≤ k → k ≤ n →
        (mem.nextCounts k).found? (lastTokens context k) = none) ∨
      IsGreatest {k | mem.minOrder ≤ k ∧ k ≤ n ∧
        (mem.nextCounts k).found? (lastTokens context k) ≠ none} (mem.bestOrderFrom context n) := by
  have hpos := mem.one_le_minOrder
  induction n with
  | zero => exact .inl ⟨rfl, fun k hk hk0 => absurd (hk.trans hk0) (by omega)⟩
  | succ n ih =>
    rw [bestOrderFrom]
    by_cases hlt : n + 1 < mem.minOrder
    · rw [if_pos hlt]
      exact .inl ⟨rfl, fun k hk hkn => absurd (hk.trans hkn) (by omega)⟩
    · rw [if_neg hlt]
      cases hfound : (mem.nextCounts (n + 1)).found? (lastTokens context (n + 1)) with
      | some c =>
        rw [Option.isSome_some, if_pos rfl]
        refine .inr ⟨⟨Nat.le_of_not_lt hlt, le_rfl, ?_⟩, fun k hk => hk.2.1⟩
        rw [hfound]
        exact Option.some_ne_none c
      | none =>
        rw [Option.isSome_none, if_neg Bool.false_ne_true]
        -- what is found below is the greatest, because nothing is found here
        rcases ih with ⟨hzero, hnone⟩ | ⟨hmem, hupper⟩
        · refine .inl ⟨hzero, fun k hk hkn => ?_⟩
          rcases Nat.le_succ_iff.mp hkn with hkn | rfl
          · exact hnone k hk hkn
          · exact hfound
        · refine .inr ⟨⟨hmem.1, Nat.le_succ_of_le hmem.2.1, hmem.2.2⟩, fun k hk => ?_⟩
          rcases Nat.le_succ_iff.mp hk.2.1 with hkn | rfl
          · exact hupper ⟨hk.1, hkn, hk.2.2⟩
          · exact absurd hfound hk.2.2

/-- What a query finds at an order within the bounds (`hmin`, `hmax`) and with enough context
(`hlen`), in a memory that started empty (`hnew`). -/
theorem found?_nextCounts {mem₀ : AddressableNgramMemory} (hnew : ∀ o, mem₀.nextCounts o = .empty)
    (seqs : List (List ℤ × Option ℤ)) {n : ℕ} (hmin : mem₀.minOrder ≤ n) (hmax : n ≤ mem₀.maxOrder)
    (hlen : n ≤ context.length) :
    ((mem₀.addAll seqs).nextCounts n).found? (lastTokens context n) =
      if followersIn seqs (lastTokens context n) = [] then none
      else some ((followersIn seqs (lastTokens context n)).foldl OrderedDict.bump .empty) := by
  have hrange : (1 ≤ n ∧ n ≤ mem₀.maxOrder) ∧ (lastTokens context n).length = n :=
    ⟨⟨mem₀.one_le_minOrder.trans hmin, hmax⟩, length_lastTokens hlen⟩
  rw [found?_eq, counter_nextCounts (hnew n), if_pos hrange]
  simp only [OrderedDict.entries_foldl_bump_eq_nil_iff]

/-- The orders at which a query on a memory that was empty (`hnew`) finds a continuation are those
whose context is followed somewhere. -/
theorem found?_ne_none_iff {mem₀ : AddressableNgramMemory} (hnew : ∀ o, mem₀.nextCounts o = .empty)
    (seqs : List (List ℤ × Option ℤ)) (context : List ℤ) :
    {k | mem₀.minOrder ≤ k ∧ k ≤ min mem₀.maxOrder context.length ∧
        ((mem₀.addAll seqs).nextCounts k).found? (lastTokens context k) ≠ none} =
      followedOrders mem₀.minOrder mem₀.maxOrder seqs context := by
  ext k
  rw [Set.mem_ofPred_eq, followedOrders, Set.mem_ofPred_eq, Nat.le_min, and_assoc]
  refine and_congr_right fun hmin => and_congr_right fun hmax => and_congr_right fun hlen => ?_
  rw [found?_nextCounts hnew seqs hmin hmax hlen]
  split_ifs with h
  · exact iff_of_false (not_not.mpr rfl) (not_not.mpr h)
  · exact iff_of_true (Option.some_ne_none _) h

/-- A query answers for the longest suffix that is followed by a token. -/
private theorem continuation_addAll {mem₀ : AddressableNgramMemory}
    (hnew : ∀ o, mem₀.nextCounts o = .empty) (seqs : List (List ℤ × Option ℤ)) (context : List ℤ) :
    match (mem₀.addAll seqs).continuationDistribution context with
    | none => followedOrders mem₀.minOrder mem₀.maxOrder seqs context = ∅
    | some (dist, order) => IsContinuation mem₀.minOrder mem₀.maxOrder seqs context dist order := by
  have hspec :=
    bestOrderFrom_spec (mem₀.addAll seqs) context (min (mem₀.addAll seqs).maxOrder context.length)
  obtain ⟨hminOrder, hmaxOrder⟩ := sameOrders_addAll mem₀ seqs
  rw [← bestOrder, hminOrder, hmaxOrder] at hspec
  rw [found?_ne_none_iff hnew seqs context] at hspec
  unfold continuationDistribution
  generalize (mem₀.addAll seqs).bestOrder context = order at hspec
  -- no order is followed, or the greatest one that is
  rcases hspec with ⟨rfl, hnone⟩ | hgreatest
  · dsimp only
    rw [if_pos rfl, ← found?_ne_none_iff hnew seqs context]
    exact Set.eq_empty_iff_forall_notMem.mpr fun k hk => hk.2.2 (hnone k hk.1 hk.2.1)
  · obtain ⟨hmin, hmax, hlen, hne⟩ := hgreatest.1
    have hpos : order ≠ 0 := by
      have hone := mem₀.one_le_minOrder
      omega
    have hfound := found?_nextCounts hnew seqs hmin hmax hlen
    rw [if_neg hne] at hfound
    dsimp only
    rw [if_neg hpos, hfound]
    -- every follower is counted once
    have htotal : ((followersIn seqs (lastTokens context order)).foldl OrderedDict.bump
        (OrderedDict.empty : Counter)).total =
          (followersIn seqs (lastTokens context order)).length := by
      rw [OrderedDict.total_foldl_bump]
      exact Nat.zero_add _
    refine ⟨hgreatest, fun t => ?_, ?_⟩
    · rw [OrderedDict.get?_mapValues, OrderedDict.get?_foldl_bump_empty, htotal]
      split_ifs
      · rfl
      · rfl
    · apply OrderedDict.sum_frequencies
      rw [htotal]
      exact fun h => hne (List.length_eq_zero_iff.mp h)

end Queries

/-- A memory with orders that the constructor takes counts exactly: whatever sequences are added,
its counts and its queries are theirs, and the counts do not depend on the order in which they are
added. -/
theorem counts_exactly {minOrder maxOrder : ℕ} (hmin : 1 ≤ minOrder) (hmax : minOrder ≤ maxOrder) :
    ∃ mem₀, new minOrder maxOrder = .ok mem₀ ∧
      (∀ seqs, Reflects minOrder maxOrder (mem₀.addAll seqs) seqs) ∧
      ∀ seqs seqs' : List (List ℤ × Option ℤ), seqs.Perm seqs' →
        SameCounts (mem₀.addAll seqs) (mem₀.addAll seqs') := by
  have hone : ¬ (minOrder : ℤ) < 1 := by omega
  have hle : ¬ (maxOrder : ℤ) < minOrder := by omega
  refine ⟨⟨minOrder, maxOrder, hmin, hmax, fun _ => .empty, fun _ => .empty, 0⟩, ?_, ?_, ?_⟩
  · rw [new, dif_neg hone, dif_neg hle]
    simp only [Int.toNat_natCast]
  · intro seqs
    refine ⟨fun o ctx t => ?_, fun o ctx x => ?_, ?_, ?_⟩
    · rw [counter_nextCounts rfl, OrderedDict.getD_foldl_bump_empty]
      split_ifs
      · rfl
      · rfl
    · exact count_valueIndex rfl seqs x
    · refine balanced_addAll ?_ seqs
      exact (Finset.sum_eq_zero fun _ _ => rfl).symm
    · exact continuation_addAll (fun _ => rfl) seqs
  -- the counts are those of a multiset, so they do not see the order of the sequences
  · intro seqs seqs' hperm
    refine ⟨fun o ctx t => ?_, fun o ctx x => ?_, ?_⟩
    · rw [counter_nextCounts rfl, counter_nextCounts rfl, OrderedDict.getD_foldl_bump_empty,
        OrderedDict.getD_foldl_bump_empty]
      split_ifs
      · exact (hperm.flatMap_right _).count_eq t
      · rfl
    · rw [count_valueIndex rfl, count_valueIndex rfl]
      split_ifs
      · exact ((hperm.filter _).flatMap_right _).length_eq
      · rfl
    · rw [totalNgrams_addAll, totalNgrams_addAll, (hperm.map _).sum_eq]

/-- Orders one and two. -/
theorem counts_exactly_two : ∃ mem₀, new 1 2 = .ok mem₀ ∧
    (∀ seqs, Reflects 1 2 (mem₀.addAll seqs) seqs) ∧
    ∀ seqs seqs' : List (List ℤ × Option ℤ), seqs.Perm seqs' →
      SameCounts (mem₀.addAll seqs) (mem₀.addAll seqs') :=
  counts_exactly (le_refl 1) (by decide)

end AddressableNgramMemory

end EngramDB
