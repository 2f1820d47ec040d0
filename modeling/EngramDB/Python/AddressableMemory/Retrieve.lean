import EngramDB.Foundations.Sorting
import EngramDB.Foundations.TopK
import EngramDB.Python.AddressableMemory
import Mathlib.Data.Set.Card
import Mathlib.Order.Interval.Finset.Nat

/-!
# Retrieving values from the addressable memory

`retrieve` looks the suffixes of a context up in the value index, one for every order. The score of
a value is the weighted sum of its counts. The best values are returned, each with its greatest
matching order and its greatest count.

* `collect_eq`: the two dictionaries of the loop, from the list of all hits;
* `getD_scores`, `counts_agrees`: what they hold;
* `retrieve_ranks`: what is returned.
-/

namespace EngramDB

/-- A value that was retrieved. -/
structure MemoryMatch where
  /-- The value. -/
  valueId : ℤ
  /-- The greatest order at which it matches. -/
  order : ℕ
  /-- Its greatest count. -/
  count : ℕ
  /-- Its score. -/
  score : ℚ

/-- The dictionaries that `retrieve` fills. -/
structure Hits where
  /-- The scores of the values. -/
  scores : OrderedDict ℤ ℚ
  /-- The counts of the values, for every order. -/
  counts : OrderedDict (ℤ × ℕ) ℕ

namespace AddressableNgramMemory

variable (mem : AddressableNgramMemory)

/-- `range(self.min_order, self.max_order + 1)`. -/
def orders : List ℕ := List.range' mem.minOrder (mem.maxOrder + 1 - mem.minOrder)

/-- The weights without `order_weights`: every order has itself. -/
def defaultWeights : OrderedDict ℤ ℚ :=
  OrderedDict.empty.update (mem.orders.map fun o : ℕ => ((o : ℤ), (o : ℚ)))

/-- The loop over the values of one counter. -/
def hitValue (minCount order : ℕ) (w : ℚ) (hits : Hits) (e : ℤ × ℕ) : Hits :=
  if e.2 < minCount then hits
  else
    { scores := hits.scores.modify e.1 0 (· + w * e.2)
      counts := hits.counts.set (e.1, order) e.2 }

/-- The loop over the orders. -/
def hitOrder (context : List ℤ) (minCount : ℕ) (weights : OrderedDict ℤ ℚ) (hits : Hits)
    (order : ℕ) : Hits :=
  if context.length < order then hits
  else
    match (mem.valueIndex order).found? (lastTokens context order) with
    | none => hits
    | some counter => counter.entries.foldl (hitValue minCount order (weights.getD order 1)) hits

/-- What the loop over the orders fills in. -/
def collect (context : List ℤ) (minCount : ℕ) (weights : OrderedDict ℤ ℚ) : Hits :=
  mem.orders.foldl (mem.hitOrder context minCount weights) ⟨.empty, .empty⟩

/-- The result for a ranked value. There is always an order, so the greatest count needs no
default. -/
def annotate (minCount : ℕ) (hits : Hits) (e : ℤ × ℚ) : MemoryMatch where
  valueId := e.1
  order := TopK.greatest
    ((hits.counts.keys.filter fun k => k.1 = e.1 ∧ minCount ≤ hits.counts.getD k 0).map Prod.snd)
  count := TopK.greatest (mem.orders.map fun o => hits.counts.getD (e.1, o) 0)
  score := e.2

/-- Retrieve the values whose keys match a context. The sort is stable, the greatest score in
front. -/
def retrieve (context : List ℤ) (topK minCount : ℕ) (orderWeights : Option (OrderedDict ℤ ℚ)) :
    List MemoryMatch :=
  let hits := mem.collect context minCount (orderWeights.getD mem.defaultWeights)
  let ranked := (Sorting.sortByKey (fun e => OrderDual.toDual e.2) hits.scores.entries).take topK
  ranked.map (mem.annotate minCount hits)

/-! ### What is retrieved -/

/-- The count of a value for the last tokens of a context. -/
def valueCount (context : List ℤ) (v : ℤ) (o : ℕ) : ℕ :=
  ((mem.valueIndex o).counter (lastTokens context o)).getD v 0

/-- A value matches a context at an order, often enough. -/
def MatchesAt (context : List ℤ) (minCount : ℕ) (v : ℤ) (o : ℕ) : Prop :=
  (mem.minOrder ≤ o ∧ o ≤ mem.maxOrder) ∧ o ≤ context.length ∧ minCount ≤ mem.valueCount context v o

/-- A value matches a context at some order. -/
def Matches (context : List ℤ) (minCount : ℕ) (v : ℤ) : Prop :=
  ∃ o, mem.MatchesAt context minCount v o

/-- The weight of an order: the order itself without `order_weights`, and one where they have no
weight. -/
def weight (orderWeights : Option (OrderedDict ℤ ℚ)) (o : ℕ) : ℚ :=
  match orderWeights with
  | none => o
  | some weights => weights.getD o 1

/-- The weighted sum of the counts of a value that are great enough. -/
def score (orderWeights : Option (OrderedDict ℤ ℚ)) (context : List ℤ) (minCount : ℕ) (v : ℤ) : ℚ :=
  ∑ o ∈ Finset.Icc mem.minOrder (min mem.maxOrder context.length),
    if minCount ≤ mem.valueCount context v o then
      weight orderWeights o * mem.valueCount context v o else 0

/-- A list ranks the values that match a context. -/
structure Ranks (context : List ℤ) (topK minCount : ℕ) (orderWeights : Option (OrderedDict ℤ ℚ))
    (out : List MemoryMatch) : Prop where
  /-- As many values are returned as match, up to `top_k`. -/
  length : out.length = min topK {v | mem.Matches context minCount v}.ncard
  /-- No value is returned twice. -/
  distinct : (out.map MemoryMatch.valueId).Nodup
  /-- The greatest score is in front. -/
  ordered : out.Pairwise fun m m' => m'.score ≤ m.score
  /-- A value that is returned matches. -/
  valueMatches : ∀ m ∈ out, mem.Matches context minCount m.valueId
  /-- It comes with its score, -/
  score_eq : ∀ m ∈ out, m.score = mem.score orderWeights context minCount m.valueId
  /-- its greatest matching order, -/
  order : ∀ m ∈ out, IsGreatest {o | mem.MatchesAt context minCount m.valueId o} m.order
  /-- and its greatest count. -/
  count : ∀ m ∈ out, IsGreatest
    (mem.valueCount context m.valueId '' {o | mem.MatchesAt context minCount m.valueId o}) m.count
  /-- No value that is left out has a greater score. -/
  omitted : ∀ v, mem.Matches context minCount v → v ∉ out.map MemoryMatch.valueId →
    ∀ m ∈ out, mem.score orderWeights context minCount v ≤ m.score

section Hits

variable {mem : AddressableNgramMemory} {context : List ℤ} {minCount o : ℕ} {v : ℤ}
  {weights : OrderedDict ℤ ℚ}

theorem mem_orders : o ∈ mem.orders ↔ mem.minOrder ≤ o ∧ o ≤ mem.maxOrder := by
  have hle := mem.minOrder_le
  rw [orders, List.mem_range'_1]
  omega

/-- The values that an order hits, with their counts. -/
def orderHits (mem : AddressableNgramMemory) (context : List ℤ) (minCount o : ℕ) : List (ℤ × ℕ) :=
  if context.length < o then []
  else ((mem.valueIndex o).counter (lastTokens context o)).entries.filter fun e => minCount ≤ e.2

/-- All hits, each behind its order. -/
def hitList (mem : AddressableNgramMemory) (context : List ℤ) (minCount : ℕ) : List (ℕ × ℤ × ℕ) :=
  mem.orders.flatMap fun o => (mem.orderHits context minCount o).map fun e => (o, e)

/-- Put a hit into the dictionaries. -/
def putHit (weights : OrderedDict ℤ ℚ) (hits : Hits) (h : ℕ × ℤ × ℕ) : Hits where
  scores := hits.scores.modify h.2.1 0 (· + weights.getD h.1 1 * h.2.2)
  counts := hits.counts.set (h.2.1, h.1) h.2.2

/-- One order puts its hits into the dictionaries, one after another, behind those of the orders
before it. -/
private theorem hitOrder_eq (hits : Hits) (o : ℕ) : mem.hitOrder context minCount weights hits o =
    ((mem.orderHits context minCount o).map fun e => (o, e)).foldl (putHit weights) hits := by
  -- a value below the minimum is passed over
  have hloop : ∀ (entries : List (ℤ × ℕ)) (hits : Hits),
      entries.foldl (hitValue minCount o (weights.getD o 1)) hits =
        ((entries.filter fun e => minCount ≤ e.2).map fun e => (o, e)).foldl
          (putHit weights) hits := by
    intro entries
    induction entries with
    | nil => exact fun _ => rfl
    | cons e entries ih =>
      intro hits
      rw [List.foldl_cons, ih, hitValue]
      by_cases he : e.2 < minCount
      · rw [if_pos he, List.filter_cons_of_neg (by simpa using he)]
      · rw [if_neg he, List.filter_cons_of_pos (by simpa using he)]
        rfl
  unfold hitOrder orderHits
  by_cases ho : context.length < o
  · rw [if_pos ho, if_pos ho]
    rfl
  · rw [if_neg ho, if_neg ho, found?_eq]
    by_cases hnil : ((mem.valueIndex o).counter (lastTokens context o)).entries = []
    · rw [if_pos hnil, hnil]
      rfl
    · rw [if_neg hnil]
      exact hloop _ hits

/-- The dictionaries are filled with all hits. -/
theorem collect_eq : mem.collect context minCount weights =
    ⟨(mem.hitList context minCount).foldl
        (fun d h => d.modify h.2.1 0 (· + weights.getD h.1 1 * h.2.2)) .empty,
      OrderedDict.empty.update
        ((mem.hitList context minCount).map fun h => ((h.2.1, h.1), h.2.2))⟩ := by
  -- the two tables are filled side by side
  have hput : ∀ (l : List (ℕ × ℤ × ℕ)) (hits : Hits), l.foldl (putHit weights) hits =
      ⟨l.foldl (fun d h => d.modify h.2.1 0 (· + weights.getD h.1 1 * h.2.2)) hits.scores,
        hits.counts.update (l.map fun h => ((h.2.1, h.1), h.2.2))⟩ := by
    intro l
    induction l with
    | nil => exact fun _ => rfl
    | cons h l ih =>
      intro hits
      rw [List.foldl_cons, ih]
      rfl
  have horders : ∀ (os : List ℕ) (hits : Hits),
      os.foldl (mem.hitOrder context minCount weights) hits =
        (os.flatMap fun o => (mem.orderHits context minCount o).map fun e => (o, e)).foldl
          (putHit weights) hits := by
    intro os
    induction os with
    | nil => exact fun _ => rfl
    | cons o os ih =>
      intro hits
      rw [List.foldl_cons, ih, hitOrder_eq, List.flatMap_cons, List.foldl_append]
  rw [collect, horders, ← hitList, hput]

/-- The hits of a value at an order: there is one, with the count of the value, if that is great
enough. -/
theorem filter_orderHits (hmin : 1 ≤ minCount) (o : ℕ) (v : ℤ) :
    ((mem.orderHits context minCount o).filter fun e => e.1 = v) =
      if o ≤ context.length ∧ minCount ≤ mem.valueCount context v o then
        [(v, mem.valueCount context v o)]
      else [] := by
  unfold orderHits
  by_cases ho : context.length < o
  · rw [if_pos ho, if_neg (by omega)]
    rfl
  · have hle : o ≤ context.length := Nat.le_of_not_lt ho
    -- the counter has at most one entry for the value
    rw [if_neg ho, List.filter_comm, OrderedDict.filter_key]
    unfold valueCount OrderedDict.getD
    cases ((mem.valueIndex o).counter (lastTokens context o)).get? v with
    | none =>
      rw [Option.getD_none, if_neg (by omega)]
      rfl
    | some n =>
      rw [Option.getD_some]
      by_cases hn : minCount ≤ n
      · rw [if_pos ⟨hle, hn⟩]
        exact List.filter_cons_of_pos (decide_eq_true hn)
      · rw [if_neg fun h => hn h.2]
        exact List.filter_cons_of_neg fun h => hn (of_decide_eq_true h)

/-- With a bound of at least one (`hmin`), the hits are the orders and values that match the
context, with their counts. -/
theorem mem_hitList (hmin : 1 ≤ minCount) {c : ℕ} : (o, v, c) ∈ mem.hitList context minCount ↔
    mem.MatchesAt context minCount v o ∧ c = mem.valueCount context v o := by
  have horder : (v, c) ∈ mem.orderHits context minCount o ↔
      (v, c) ∈ (mem.orderHits context minCount o).filter fun e => e.1 = v := by
    rw [List.mem_filter, and_iff_left (decide_eq_true rfl)]
  have hhit : (o, v, c) ∈ mem.hitList context minCount ↔
      o ∈ mem.orders ∧ (v, c) ∈ mem.orderHits context minCount o := by
    rw [hitList, List.mem_flatMap]
    constructor
    · rintro ⟨o', ho', he⟩
      obtain ⟨e, he, heq⟩ := List.mem_map.mp he
      obtain ⟨rfl, rfl⟩ := Prod.mk.inj heq
      exact ⟨ho', he⟩
    · rintro ⟨ho, he⟩
      exact ⟨o, ho, List.mem_map.mpr ⟨(v, c), he, rfl⟩⟩
  rw [hhit, horder, filter_orderHits hmin, mem_orders, MatchesAt, and_assoc (c := c = _)]
  refine and_congr_right fun _ => ?_
  split_ifs with h
  · rw [List.mem_singleton, Prod.mk.injEq, and_iff_right rfl, and_iff_right h]
  · exact iff_of_false List.not_mem_nil fun h' => h h'.1

/-- With a bound of at least one (`hmin`), the values that have a score are those that match the
context at some order. -/
private theorem mem_keys_scores (hmin : 1 ≤ minCount) :
    v ∈ (mem.collect context minCount weights).scores.keys ↔ mem.Matches context minCount v := by
  rw [collect_eq]
  refine (OrderedDict.mem_keys_foldl_modify _ _ _).trans ?_
  rw [OrderedDict.keys_empty, List.mem_nil_iff, false_or]
  constructor
  · rintro ⟨⟨o, v', c⟩, hmem, rfl⟩
    exact ⟨o, ((mem_hitList hmin).mp hmem).1⟩
  · rintro ⟨o, ho⟩
    exact ⟨(o, v, _), (mem_hitList hmin).mpr ⟨ho, rfl⟩, rfl⟩

/-- The score of a value is the weighted sum of its counts. -/
theorem getD_scores (hmin : 1 ≤ minCount) (v : ℤ) :
    (mem.collect context minCount weights).scores.getD v 0 =
      ∑ o ∈ Finset.Icc mem.minOrder (min mem.maxOrder context.length),
        if minCount ≤ mem.valueCount context v o then
          weights.getD o 1 * mem.valueCount context v o
        else 0 := by
  -- the hits of one order come together, and at most one of them is for `v`
  have hsum : ∀ (os : List ℕ) (x : ℚ),
      (((os.flatMap fun o => (mem.orderHits context minCount o).map fun e => (o, e)).filter
          fun h => h.2.1 = v).foldl (fun x h => x + weights.getD h.1 1 * h.2.2) x) =
        x + (os.map fun o => if o ≤ context.length ∧ minCount ≤ mem.valueCount context v o then
          weights.getD o 1 * mem.valueCount context v o else 0).sum := by
    intro os
    induction os with
    | nil => exact fun x => (add_zero x).symm
    | cons o os ih =>
      intro x
      rw [List.flatMap_cons, List.filter_append, List.foldl_append, ih,
        List.map_cons, List.sum_cons, ← add_assoc, List.filter_map]
      congr 1
      show (((mem.orderHits context minCount o).filter fun e => e.1 = v).map fun e =>
        (o, e)).foldl _ x = _
      rw [filter_orderHits hmin]
      split_ifs
      · rfl
      · exact (add_zero x).symm
  -- the orders longer than the context have no hits
  have hfinset : Finset.Icc mem.minOrder (min mem.maxOrder context.length) =
      (Finset.Icc mem.minOrder mem.maxOrder).filter (· ≤ context.length) := by
    ext o
    rw [Finset.mem_filter, Finset.mem_Icc, Finset.mem_Icc, Nat.le_min, and_assoc]
  rw [collect_eq]
  refine (OrderedDict.getD_foldl_modify _ _ _).trans ?_
  rw [hitList, hsum, hfinset, Finset.sum_filter]
  simp only [ite_and]
  exact zero_add _

/-- The other dictionary shows the counts of the values at the orders at which they match. -/
theorem getD_counts (hmin : 1 ≤ minCount) (v : ℤ) (o : ℕ) :
    ((v, o) ∈ (mem.collect context minCount weights).counts.keys ↔
      mem.MatchesAt context minCount v o) ∧
      ((v, o) ∈ (mem.collect context minCount weights).counts.keys →
        (mem.collect context minCount weights).counts.getD (v, o) 0 =
          mem.valueCount context v o) := by
  -- an entry is only ever set to the count of its value and order
  have hagrees : (mem.collect context minCount weights).counts.Agrees
      fun k => mem.valueCount context k.1 k.2 := by
    rw [collect_eq]
    refine OrderedDict.agrees_empty.update fun e he => ?_
    obtain ⟨⟨o, v, c⟩, hmem, rfl⟩ := List.mem_map.mp he
    exact ((mem_hitList hmin).mp hmem).2
  refine ⟨?_, fun h => OrderedDict.getD_eq_of_get? (hagrees.get? h)⟩
  rw [collect_eq, OrderedDict.keys_update, OrderedDict.mem_insertKeys, OrderedDict.keys_empty,
    List.mem_nil_iff, false_or, List.map_map]
  constructor
  · intro hmem
    obtain ⟨⟨o', v', c⟩, hhit, heq⟩ := List.mem_map.mp hmem
    obtain ⟨rfl, rfl⟩ := Prod.mk.inj heq
    exact ((mem_hitList hmin).mp hhit).1
  · intro hmatch
    exact List.mem_map.mpr ⟨(o, v, _), (mem_hitList hmin).mpr ⟨hmatch, rfl⟩, rfl⟩

private theorem getD_defaultWeights (ho : o ∈ mem.orders) : mem.defaultWeights.getD o 1 = o := by
  have hagrees : mem.defaultWeights.Agrees fun k => (k : ℚ) := by
    refine OrderedDict.agrees_empty.update fun e he => ?_
    obtain ⟨o, -, rfl⟩ := List.mem_map.mp he
    exact (Int.cast_natCast o).symm
  have hkey : (o : ℤ) ∈ mem.defaultWeights.keys := by
    rw [defaultWeights, OrderedDict.keys_update, OrderedDict.mem_insertKeys, List.map_map]
    exact .inr (List.mem_map_of_mem ho)
  exact OrderedDict.getD_eq_of_get? ((hagrees.get? hkey).trans (congrArg some (Int.cast_natCast o)))

/-- The score of a value, with the weights that were given or without. -/
private theorem getD_scores_eq_score (hmin : 1 ≤ minCount)
    (orderWeights : Option (OrderedDict ℤ ℚ)) (v : ℤ) :
    (mem.collect context minCount (orderWeights.getD mem.defaultWeights)).scores.getD v 0 =
      mem.score orderWeights context minCount v := by
  rw [getD_scores hmin]
  refine Finset.sum_congr rfl fun o ho => ?_
  cases orderWeights with
  | none =>
    obtain ⟨hmin', hmax⟩ := Finset.mem_Icc.mp ho
    rw [Option.getD_none,
      getD_defaultWeights (mem_orders.mpr ⟨hmin', hmax.trans (Nat.min_le_left _ _)⟩)]
    rfl
  | some weights => rfl

variable {e : ℤ × ℚ}

/-- A value that matches is returned with its greatest matching order. -/
private theorem annotate_order (hmin : 1 ≤ minCount) (hmatch : mem.Matches context minCount e.1) :
    IsGreatest {o | mem.MatchesAt context minCount e.1 o}
      (mem.annotate minCount (mem.collect context minCount weights) e).order := by
  -- the orders that are kept are those at which the value reaches the minimum
  have hmem : ∀ o, o ∈ (((mem.collect context minCount weights).counts.keys.filter fun k =>
      k.1 = e.1 ∧ minCount ≤ (mem.collect context minCount weights).counts.getD k 0).map Prod.snd) ↔
      mem.MatchesAt context minCount e.1 o := by
    intro o
    obtain ⟨hkey, hcount⟩ := @getD_counts mem context minCount weights hmin e.1 o
    rw [List.mem_map, ← hkey]
    constructor
    · rintro ⟨⟨v, o⟩, hk, rfl⟩
      obtain ⟨hk, hv⟩ := List.mem_filter.mp hk
      rwa [← (of_decide_eq_true hv).1]
    · intro hk
      refine ⟨(e.1, o), List.mem_filter.mpr ⟨hk, decide_eq_true ⟨rfl, ?_⟩⟩, rfl⟩
      rw [hcount hk]
      exact (hkey.mp hk).2.2
  obtain ⟨o, ho⟩ := hmatch
  have hgreatest := TopK.isGreatest_greatest (List.ne_nil_of_mem ((hmem o).mpr ho))
  simp only [hmem] at hgreatest
  exact hgreatest

/-- A value that matches is returned with its greatest count. -/
private theorem annotate_count (hmin : 1 ≤ minCount) (hmatch : mem.Matches context minCount e.1) :
    IsGreatest (mem.valueCount context e.1 '' {o | mem.MatchesAt context minCount e.1 o})
      (mem.annotate minCount (mem.collect context minCount weights) e).count := by
  have hcounts := @getD_counts mem context minCount weights hmin e.1
  obtain ⟨o₀, ho₀⟩ := hmatch
  -- every order at which the value matches is looked up
  have hshown : ∀ o, mem.MatchesAt context minCount e.1 o →
      mem.valueCount context e.1 o ∈ mem.orders.map fun o =>
        (mem.collect context minCount weights).counts.getD (e.1, o) 0 := by
    intro o ho
    rw [← (hcounts o).2 ((hcounts o).1.mpr ho)]
    exact List.mem_map.mpr ⟨o, mem_orders.mpr ho.1, rfl⟩
  obtain ⟨hgreatest, hupper⟩ := TopK.isGreatest_greatest (List.ne_nil_of_mem (hshown o₀ ho₀))
  refine ⟨?_, ?_⟩
  · -- the greatest count is positive, so it is that of an order at which the value matches
    have hpos : 1 ≤ (mem.annotate minCount (mem.collect context minCount weights) e).count :=
      (hmin.trans ho₀.2.2).trans (hupper (hshown o₀ ho₀))
    obtain ⟨o, -, ho⟩ := List.mem_map.mp hgreatest
    by_cases hkey : (e.1, o) ∈ (mem.collect context minCount weights).counts.keys
    · exact ⟨o, (hcounts o).1.mp hkey, ((hcounts o).2 hkey).symm.trans ho⟩
    · rw [OrderedDict.getD_of_notMem hkey] at ho
      exact absurd (hpos.trans_eq ho.symm) (by decide)
  · rintro _ ⟨o, ho, rfl⟩
    exact hupper (hshown o ho)

end Hits

/-- For every memory, context, weights and number of answers, and every bound of at least one
(`hmin`) on the counts, `retrieve` ranks the values that match the context: what it returns is what
the orders that match add up to, the best first. -/
theorem retrieve_ranks (mem : AddressableNgramMemory) (context : List ℤ) (topK : ℕ) {minCount : ℕ}
    (hmin : 1 ≤ minCount) (orderWeights : Option (OrderedDict ℤ ℚ)) :
    mem.Ranks context topK minCount orderWeights
      (mem.retrieve context topK minCount orderWeights) := by
  unfold retrieve
  generalize hhits : mem.collect context minCount (orderWeights.getD mem.defaultWeights) = hits
  -- the table holds the matching values, each with its score
  have hkeys : ∀ v, v ∈ hits.scores.keys ↔ mem.Matches context minCount v := by
    rw [← hhits]
    exact fun v => mem_keys_scores hmin
  have hscore : ∀ v, hits.scores.getD v 0 = mem.score orderWeights context minCount v := by
    rw [← hhits]
    exact getD_scores_eq_score hmin orderWeights
  have hentry : ∀ e ∈ hits.scores.entries, mem.Matches context minCount e.1 ∧
      e.2 = mem.score orderWeights context minCount e.1 := by
    intro e he
    refine ⟨(hkeys e.1).mp (List.mem_map_of_mem he), ?_⟩
    rw [← hscore, OrderedDict.getD_eq_of_get? (OrderedDict.get?_eq_some_iff.mpr he)]
  dsimp only
  -- the result is a top part of the table, sorted by descending score
  generalize hsorted :
    Sorting.sortByKey (fun e => OrderDual.toDual e.2) hits.scores.entries = sorted
  have hperm : sorted.Perm hits.scores.entries := hsorted ▸ Sorting.perm_sortByKey _ _
  have hpairwise : sorted.Pairwise fun e e' => e'.2 ≤ e.2 := by
    rw [← hsorted]
    exact (Sorting.pairwise_sortByKey (fun e : ℤ × ℚ => OrderDual.toDual e.2) _).imp
      OrderDual.toDual_le_toDual.mp
  have hsplit := (TopK.topSplit_take hpairwise topK).of_perm hperm
  have hmem : ∀ e ∈ sorted.take topK, e ∈ hits.scores.entries := fun e he => hsplit.mem_picked he
  have hids : ((sorted.take topK).map (mem.annotate minCount hits)).map MemoryMatch.valueId =
      (sorted.take topK).map Prod.fst := by
    rw [List.map_map]
    rfl
  constructor
  -- as many as asked for, or all of them
  · have hset : {v | mem.Matches context minCount v} = (hits.scores.keys.toFinset : Set ℤ) := by
      ext v
      rw [Set.mem_ofPred_eq, Finset.mem_coe, List.mem_toFinset, hkeys]
    have hlen : hits.scores.keys.length = hits.scores.entries.length := List.length_map _
    rw [hset, Set.ncard_coe_finset,
      List.toFinset_card_of_nodup (l := hits.scores.keys) hits.scores.nodup, hlen, List.length_map]
    exact hsplit.length_picked
  · rw [hids]
    have hnodup : (sorted.map Prod.fst).Nodup :=
      (hperm.map Prod.fst).nodup_iff.mpr hits.scores.nodup
    exact hnodup.sublist ((List.take_sublist _ _).map _)
  · exact List.pairwise_map.mpr (hpairwise.sublist (List.take_sublist _ _))
  · rintro m hm
    obtain ⟨e, he, rfl⟩ := List.mem_map.mp hm
    exact (hentry e (hmem e he)).1
  · rintro m hm
    obtain ⟨e, he, rfl⟩ := List.mem_map.mp hm
    exact (hentry e (hmem e he)).2
  · rintro m hm
    obtain ⟨e, he, rfl⟩ := List.mem_map.mp hm
    rw [← hhits]
    exact annotate_order hmin (hentry e (hmem e he)).1
  · rintro m hm
    obtain ⟨e, he, rfl⟩ := List.mem_map.mp hm
    rw [← hhits]
    exact annotate_count hmin (hentry e (hmem e he)).1
  -- what was left out scores no more than what was taken
  · intro v hv hnot m hm
    obtain ⟨e, he, rfl⟩ := List.mem_map.mp hm
    rw [hids] at hnot
    have hin : (v, hits.scores.getD v 0) ∈ hits.scores.entries :=
      OrderedDict.mem_entries_getD ((hkeys v).mpr hv) 0
    have hrest := hsplit.mem_rest hin fun h => hnot (List.mem_map_of_mem h)
    rw [← hscore]
    exact hsplit.le e he _ hrest

section Example

/-- Orders one and two, and two sequences with values. -/
def twoValues : AddressableNgramMemory :=
  (⟨1, 2, le_refl 1, by decide, fun _ => .empty, fun _ => .empty, 0⟩ :
    AddressableNgramMemory).addAll
    [([5, 6, 6, 6], some 8), ([5, 6, 7], some 9)]

/-- The best value for a context that both sequences have. -/
theorem retrieve_ranks_twoValues :
    twoValues.Ranks [5, 6] 1 1 none (twoValues.retrieve [5, 6] 1 1 none) :=
  retrieve_ranks twoValues [5, 6] 1 (le_refl 1) none

example : (twoValues.retrieve [5, 6] 2 1 none).map (fun m => (m.valueId, m.order, m.count)) =
    [(8, 2, 2), (9, 2, 1)] := by decide +kernel

end Example

end AddressableNgramMemory

end EngramDB
