import EngramDB.Foundations.Window
import EngramDB.Io.Planner

/-!
# The window over a run

The fields of a planner do not say by themselves that the queue and the set hold the same badges,
and the loop that evicts looks at the set while it pops the queue: with a badge in the set that is
not in the queue it may turn for ever. `Fields` are the bare fields, `Evicts` is the loop without a
bound on its rounds, and `Run` the states after any calls of `advance`, each with its own rows,
layout and plan.

In these states the fields are well formed (`Run.wellFormed`), so the loop ends, and in one state
(`evicts_evicted`, `Evicts.eq_evicted`). `advances_toFields` says that `StreamingPlanner.advance`,
which bounds the rounds and carries the invariants, computes what the bare calls do.
-/

namespace EngramDB

open Window

namespace PrefetchPlan

/-- The plan with some badges more. -/
def entries (plan : PrefetchPlan) (bs : List Badge) : PrefetchPlan :=
  bs.foldl (fun plan b => plan.entry b.1 b.2) plan

/-- One badge more is planned. -/
private theorem count_push (m : List (ℕ × List ℕ)) (shard badge : ℕ) :
    count (Grouping.push m shard badge) = count m + 1 := by
  have hlen := (Grouping.push_perm m shard badge).length_eq
  rw [List.length_append, List.length_flatMap, List.length_flatMap] at hlen
  exact hlen

/-- The plan grows by the badges that are entered. -/
private theorem grows_entries (plan : PrefetchPlan) (bs : List Badge) :
    (plan.entries bs).nBadges = plan.nBadges + bs.length ∧
      count (plan.entries bs).shardBadges = count plan.shardBadges + bs.length := by
  induction bs generalizing plan with
  | nil => exact ⟨rfl, rfl⟩
  | cons b bs ih =>
    obtain ⟨hn, hcount⟩ := ih (plan.entry b.1 b.2)
    rw [List.length_cons, Nat.add_comm bs.length 1, ← Nat.add_assoc, ← Nat.add_assoc]
    refine ⟨hn, hcount.trans ?_⟩
    rw [entry, count_push]

end PrefetchPlan

namespace StreamingPlanner

/-- The fields of a planner, whatever they hold. -/
structure Fields where
  /-- The most badges that stay in the window. -/
  windowBadges : ℕ
  /-- The badges of the window, oldest first. -/
  queue : List Badge
  /-- The badges of the window. -/
  inWindow : Finset Badge

namespace Fields

/-- The fields of a new planner. -/
def new (windowBadges : ℕ) : Fields := ⟨windowBadges, [], ∅⟩

/-- The size of the window. -/
def windowLen (p : Fields) : ℕ := p.inWindow.card

/-- A badge goes to the back of the queue and into the set. -/
def enter (p : Fields) (key : Badge) : Fields :=
  { p with queue := p.queue ++ [key], inWindow := insert key p.inWindow }

/-- The round of the loop over the rows. The last component counts the badges that are new. -/
def planRow (L : Layout) (s : Fields × PrefetchPlan × ℕ) (r : ℕ) :
    Outcome IoError (Fields × PrefetchPlan × ℕ) := do
  let (shard, badge, _) ← L.locate r
  if (shard, badge) ∈ s.1.inWindow then pure s
  else pure (s.1.enter (shard, badge), s.2.1.entry shard badge, s.2.2 + 1)

/-- The round of the loop that evicts. With an empty queue it does nothing. -/
def popFront (p : Fields) : Fields :=
  match p.queue with
  | [] => p
  | old :: rest => { p with queue := rest, inWindow := p.inWindow.erase old }

/-- The loop that evicts ends in the second state. -/
inductive Evicts : Fields → Fields → Prop
  | done {p : Fields} (h : ¬ p.windowBadges < p.inWindow.card) : Evicts p p
  | round {p q : Fields} (h : p.windowBadges < p.inWindow.card) (hrest : Evicts p.popFront q) :
    Evicts p q

/-- `advance` returns `nNew`, and leaves the planner `p'` and the plan `plan'`. -/
def Advances (L : Layout) (p : Fields) (rows : List ℕ) (plan : PrefetchPlan) (p' : Fields)
    (plan' : PrefetchPlan) (nNew : ℕ) : Prop :=
  ∃ q, rows.foldlM (planRow L) (p, plan, 0) = .ok (q, plan', nNew) ∧ Evicts q p'

/-- The states after any calls of `advance`, with the badges that were admitted on the way: at every
call those of the rows that are not in the window. -/
inductive Run (W : ℕ) : List Badge → Fields → Prop
  | new : Run W [] (new W)
  | advance {hist : List Badge} {L : Layout} {p p' : Fields} {rows : List ℕ}
    {plan plan' : PrefetchPlan}
      {nNew : ℕ} (hrun : Run W hist p) (hcall : Advances L p rows plan p' plan' nNew) :
      Run W (hist ++ admitted p.inWindow (rows.map L.badgeOf)) p'

/-- The queue and the set have the same badges, the queue each of them once. -/
structure Matched (p : Fields) : Prop where
  /-- No badge is queued twice. -/
  nodup_queue : p.queue.Nodup
  /-- The queue and the set have the same badges. -/
  toFinset_queue : p.queue.toFinset = p.inWindow

/-- A matched planner whose window is what was admitted last. -/
structure WellFormed (W : ℕ) (hist : List Badge) (p : Fields) : Prop extends Matched p where
  /-- The size is that of the planner. -/
  windowBadges_eq : p.windowBadges = W
  /-- The badges that were admitted last, in the order of their admission. -/
  queue_eq : p.queue = hist.rtake W

variable {L : Layout} {W : ℕ} {hist : List Badge} {p q p' : Fields} {rows : List ℕ}
  {plan plan' : PrefetchPlan} {nNew : ℕ}

/-- If the set of the window and its queue match, they have the same number of badges. -/
theorem Matched.card_inWindow (h : Matched p) : p.inWindow.card = p.queue.length := by
  rw [← h.toFinset_queue, List.toFinset_card_of_nodup h.nodup_queue]

/-- What is left of a planner by the loop that evicts. -/
def evicted (p : Fields) : Fields :=
  { p with
    queue := p.queue.rtake p.windowBadges
    inWindow := (p.queue.rtake p.windowBadges).toFinset }

/-! ### The loop that evicts -/

/-- Popping a queue that is not empty takes its first badge from the queue and from the set. -/
theorem popFront_eq_of_cons {old : Badge} {rest : List Badge} (hq : p.queue = old :: rest) :
    p.popFront = { p with queue := rest, inWindow := p.inWindow.erase old } := by
  rw [popFront, hq]

/-- Popping keeps the set and the queue matched. -/
theorem Matched.popFront (h : Matched p) : Matched p.popFront := by
  cases hq : p.queue with
  | nil =>
    rw [Fields.popFront, hq]
    exact h
  | cons old rest =>
    rw [popFront_eq_of_cons hq]
    have hnodup := List.nodup_cons.mp (hq ▸ h.nodup_queue)
    refine ⟨hnodup.2, ?_⟩
    show rest.toFinset = p.inWindow.erase old
    rw [← h.toFinset_queue, hq, List.toFinset_cons, Finset.erase_insert]
    rw [List.mem_toFinset]
    exact hnodup.1

/-- A window that has no more badges than it may have (`hsmall`) stays as it is. -/
theorem Matched.evicted_of_le (h : Matched p) (hsmall : ¬ p.windowBadges < p.inWindow.card) :
    p.evicted = p := by
  have hall : p.queue.rtake p.windowBadges = p.queue := by
    rw [h.card_inWindow] at hsmall
    rw [List.rtake, Nat.sub_eq_zero_of_le (Nat.le_of_not_lt hsmall), List.drop_zero]
  rw [evicted, hall, h.toFinset_queue]

/-- A window that is too large is evicted as its successors in the queue are. -/
theorem Matched.evicted_popFront (h : Matched p) (hlarge : p.windowBadges < p.inWindow.card) :
    p.popFront.evicted = p.evicted := by
  rw [h.card_inWindow] at hlarge
  cases hq : p.queue with
  | nil =>
    rw [hq] at hlarge
    exact absurd hlarge (Nat.not_lt_zero _)
  | cons old rest =>
    have hrest : rest.rtake p.windowBadges = p.queue.rtake p.windowBadges := by
      rw [hq, List.length_cons] at hlarge
      rw [hq, List.rtake, List.rtake, List.length_cons, Nat.succ_sub (Nat.le_of_lt_succ hlarge),
        List.drop_succ_cons]
    rw [popFront_eq_of_cons hq, evicted, evicted, hrest]

/-- The loop ends. Every round takes one badge from the queue. -/
theorem Matched.evicts_evicted (h : Matched p) : Evicts p p.evicted := by
  induction hlen : p.queue.length generalizing p with
  | zero =>
    have hsmall : ¬ p.windowBadges < p.inWindow.card := by
      rw [h.card_inWindow, hlen]
      exact Nat.not_lt_zero _
    rw [h.evicted_of_le hsmall]
    exact .done hsmall
  | succ n ih =>
    by_cases hlarge : p.windowBadges < p.inWindow.card
    · obtain ⟨old, rest, hq⟩ := List.exists_cons_of_length_eq_add_one hlen
      have hlen' : p.popFront.queue.length = n := by
        rw [hq] at hlen
        rw [popFront_eq_of_cons hq]
        exact Nat.succ.inj hlen
      rw [← h.evicted_popFront hlarge]
      exact .round hlarge (ih h.popFront hlen')
    · rw [h.evicted_of_le hlarge]
      exact .done hlarge

/-- From a window whose set and queue match (`h`), the loop that evicts ends in one state only. -/
theorem Evicts.eq_evicted (hev : Evicts p q) (h : Matched p) : q = p.evicted := by
  induction hev with
  | done hsmall => exact (h.evicted_of_le hsmall).symm
  | round hlarge _ ih => rw [ih h.popFront, h.evicted_popFront hlarge]

/-! ### The loop over the rows -/

/-- Badges enter one after another. -/
def enterAll (p : Fields) (bs : List Badge) : Fields :=
  { p with queue := p.queue ++ bs, inWindow := p.inWindow ∪ bs.toFinset }

theorem enterAll_nil (p : Fields) : p.enterAll [] = p := by
  rw [enterAll, List.append_nil, List.toFinset_nil, Finset.union_empty]

/-- Entering badges one after another starts with the first. -/
private theorem enterAll_cons (p : Fields) (b : Badge) (bs : List Badge) :
    p.enterAll (b :: bs) = (p.enter b).enterAll bs := by
  have hqueue : p.queue ++ b :: bs = p.queue ++ [b] ++ bs := List.append_cons _ _ _
  have hset : p.inWindow ∪ (b :: bs).toFinset = insert b p.inWindow ∪ bs.toFinset := by
    rw [List.toFinset_cons, Finset.union_insert, Finset.insert_union]
  rw [enterAll, hqueue, hset]
  rfl

/-- Badges that are different (`hnodup`) and not in the window (`hnew`) enter it, and set and queue
stay matched. -/
theorem Matched.enterAll (h : Matched p) {bs : List Badge} (hnodup : bs.Nodup)
    (hnew : ∀ b ∈ bs, b ∉ p.inWindow) : Matched (p.enterAll bs) := by
  refine ⟨List.nodup_append.mpr ⟨h.nodup_queue, hnodup, fun a ha b hb hab => ?_⟩, ?_⟩
  · refine hnew b hb ?_
    rw [← h.toFinset_queue, ← hab, List.mem_toFinset]
    exact ha
  · show (p.queue ++ bs).toFinset = p.inWindow ∪ bs.toFinset
    rw [List.toFinset_append, h.toFinset_queue]

/-- The badges of some rows enter, those that are not in the window. -/
theorem Matched.enterRows (h : Matched p) (L : Layout) (rows : List ℕ) :
    Matched (p.enterAll (admitted p.inWindow (rows.map L.badgeOf))) :=
  h.enterAll (nodup_admitted _ _) fun _ hb => (mem_admitted.mp hb).2

/-- A layout whose places can be computed, unless there is nothing to place. -/
def Places (L : Layout) (rows : List ℕ) : Prop := rows = [] ∨ 0 < L.rowsPerShard ∧ 0 < L.badgeRows

/-- The round of the loop over the rows, for a layout that places the row. -/
private theorem planRow_eq_ok (hrows : 0 < L.rowsPerShard) (hbadge : 0 < L.badgeRows) (p : Fields)
    (plan : PrefetchPlan) (n r : ℕ) : planRow L (p, plan, n) r =
      .ok (if L.badgeOf r ∈ p.inWindow then (p, plan, n)
        else (p.enter (L.badgeOf r), plan.entry (L.badgeOf r).1 (L.badgeOf r).2, n + 1)) := by
  rw [planRow, Layout.locate_eq_ok hrows hbadge r, Except.ok_bind]
  show (if L.badgeOf r ∈ p.inWindow then _ else _) = _
  split_ifs <;> rfl

/-- The loop over rows that can be placed (`h`) admits their badges, each once and in the order of
the rows, and counts those it admits. -/
theorem planRows_eq_ok (h : Places L rows) (p : Fields) (plan : PrefetchPlan) (n : ℕ) :
    rows.foldlM (planRow L) (p, plan, n) =
      .ok (p.enterAll (admitted p.inWindow (rows.map L.badgeOf)),
        plan.entries (admitted p.inWindow (rows.map L.badgeOf)),
        n + (admitted p.inWindow (rows.map L.badgeOf)).length) := by
  rcases h with rfl | ⟨hrows, hbadge⟩
  · show Except.ok (p, plan, n) = Except.ok (p.enterAll [], plan, n)
    rw [enterAll_nil]
  · induction rows generalizing p plan n with
    | nil =>
      show Except.ok (p, plan, n) = Except.ok (p.enterAll [], plan, n)
      rw [enterAll_nil]
    | cons r rows ih =>
      rw [List.foldlM_cons, planRow_eq_ok hrows hbadge, Except.ok_bind, List.map_cons]
      by_cases hmem : L.badgeOf r ∈ p.inWindow
      · rw [if_pos hmem, admitted_cons_of_mem hmem]
        exact ih p plan n
      · rw [if_neg hmem, admitted_cons_of_notMem hmem, enterAll_cons, List.length_cons]
        refine (ih (p.enter (L.badgeOf r)) (plan.entry (L.badgeOf r).1 (L.badgeOf r).2)
          (n + 1)).trans ?_
        rw [Nat.add_assoc, Nat.add_comm 1]
        rfl

/-- The loop over the rows goes through when the rows can be placed. -/
theorem places_of_planRows {s s' : Fields × PrefetchPlan × ℕ}
    (h : rows.foldlM (planRow L) s = .ok s') :
    Places L rows := by
  cases rows with
  | nil => exact .inl rfl
  | cons r rows =>
    obtain ⟨t, ht, -⟩ := Except.foldlM_cons_eq_ok h
    obtain ⟨place, hplace, -⟩ := Except.bind_eq_ok_iff.mp ht
    rw [Layout.locate] at hplace
    split_ifs at hplace with hzero
    exact .inr (by omega)

/-! ### Calls and runs -/

/-- What a call returns and leaves behind, from a window whose set and queue match (`h`): it returns
iff the rows can be placed, with the badges that it admits in the plan and the oldest ones
evicted. -/
theorem Matched.advances_iff (h : Matched p) : Advances L p rows plan p' plan' nNew ↔
    Places L rows ∧ p' = (p.enterAll (admitted p.inWindow (rows.map L.badgeOf))).evicted ∧
      plan' = plan.entries (admitted p.inWindow (rows.map L.badgeOf)) ∧
      nNew = (admitted p.inWindow (rows.map L.badgeOf)).length := by
  constructor
  · rintro ⟨q, hrows, hev⟩
    have hplaces := places_of_planRows hrows
    rw [planRows_eq_ok hplaces, Nat.zero_add] at hrows
    cases hrows
    exact ⟨hplaces, hev.eq_evicted (h.enterRows L rows), rfl, rfl⟩
  · rintro ⟨hplaces, rfl, rfl, rfl⟩
    have hrows := planRows_eq_ok hplaces p plan 0
    rw [Nat.zero_add] at hrows
    exact ⟨_, hrows, (h.enterRows L rows).evicts_evicted⟩

/-- What is evicted is no longer than the window may be, and matched. -/
theorem Matched.evicted (h : Matched p) : Matched p.evicted where
  nodup_queue := h.nodup_queue.sublist (List.drop_sublist _ _)
  toFinset_queue := rfl

/-- A well-formed window holds at most as many badges as its bound `W`. -/
theorem WellFormed.windowLen_le (h : WellFormed W hist p) : p.windowLen ≤ W := by
  rw [windowLen, h.card_inWindow, h.queue_eq, List.rtake, List.length_drop]
  omega

/-- A new planner has an empty window, which is well formed. -/
private theorem wellFormed_new (W : ℕ) : WellFormed W [] (new W) where
  nodup_queue := List.nodup_nil
  toFinset_queue := rfl
  windowBadges_eq := rfl
  queue_eq := (List.rtake_nil W).symm

/-- A call that returns (`hcall`) keeps the window well formed (`h`), with the badges that it
admitted at the end of the history. -/
theorem WellFormed.advances (h : WellFormed W hist p)
    (hcall : Advances L p rows plan p' plan' nNew) :
    WellFormed W (hist ++ admitted p.inWindow (rows.map L.badgeOf)) p' := by
  obtain ⟨-, rfl, -⟩ := h.advances_iff.mp hcall
  refine { (h.enterRows L rows).evicted with windowBadges_eq := h.windowBadges_eq, queue_eq := ?_ }
  show (p.queue ++ _).rtake p.windowBadges = _
  rw [h.windowBadges_eq, h.queue_eq, rtake_rtake_append]

/-- The window is well formed in every state of a run. -/
theorem Run.wellFormed (hrun : Run W hist p) : WellFormed W hist p := by
  induction hrun with
  | new => exact wellFormed_new W
  | advance _ hcall ih => exact ih.advances hcall

/-- In every state of a run the queue has no duplicates and the badges of the set, at most as many
as the window may hold, those that were admitted last in the order of their admission. From there,
whatever the rows, the layout and the plan: the call returns unless it cannot place a row; the loop
that evicts ends, in one state; the plan gets the badges that are admitted, and the count that is
returned is the number of badges that it has more and the number of distinct badges of the rows that
were not in the window. -/
theorem advance_of_run (hrun : Run W hist p) :
    (p.queue.Nodup ∧ p.queue.toFinset = p.inWindow ∧ p.windowBadges = W ∧
      p.windowLen ≤ p.windowBadges ∧
      p.queue = hist.rtake W) ∧
    ∀ (L : Layout) (rows : List ℕ) (plan : PrefetchPlan),
      ((∃ p' plan' nNew, Advances L p rows plan p' plan' nNew) ↔
        rows = [] ∨ 0 < L.rowsPerShard ∧ 0 < L.badgeRows) ∧
      (∀ q plan' nNew, rows.foldlM (planRow L) (p, plan, 0) = .ok (q, plan', nNew) →
        ∃! p', Evicts q p') ∧
      ∀ p' plan' nNew, Advances L p rows plan p' plan' nNew →
        p'.windowLen ≤ p'.windowBadges ∧
        plan' = plan.entries (admitted p.inWindow (rows.map L.badgeOf)) ∧
        plan'.nBadges = plan.nBadges + nNew ∧
        PrefetchPlan.count plan'.shardBadges = PrefetchPlan.count plan.shardBadges + nNew ∧
        nNew = ((rows.map L.badgeOf).toFinset \ p.inWindow).card := by
  -- everything follows from what the run keeps: the queue is the end of the history
  have h := hrun.wellFormed
  refine ⟨⟨h.nodup_queue, h.toFinset_queue, h.windowBadges_eq, ?_, h.queue_eq⟩,
    fun L rows plan => ⟨?_, ?_, ?_⟩⟩
  · rw [h.windowBadges_eq]
    exact h.windowLen_le
  · constructor
    · rintro ⟨p', plan', nNew, hcall⟩
      exact (h.advances_iff.mp hcall).1
    · intro hplaces
      exact ⟨_, _, _, h.advances_iff.mpr ⟨hplaces, rfl, rfl, rfl⟩⟩
  · intro q plan' nNew hrows
    -- the loop returned, so every row has a place
    have hplaces := places_of_planRows hrows
    rw [planRows_eq_ok hplaces] at hrows
    cases hrows
    exact ⟨_, (h.enterRows L rows).evicts_evicted,
      fun p' hp' => hp'.eq_evicted (h.enterRows L rows)⟩
  · intro p' plan' nNew hcall
    have hsize := (h.advances hcall).windowLen_le
    rw [← (h.advances hcall).windowBadges_eq] at hsize
    obtain ⟨-, -, rfl, rfl⟩ := h.advances_iff.mp hcall
    obtain ⟨hn, hcount⟩ := plan.grows_entries (admitted p.inWindow (rows.map L.badgeOf))
    exact ⟨hsize, rfl, hn, hcount, length_admitted _ _⟩

/-- The second badge of a shard leaves no room for the first. -/
theorem advance_of_run_one : (⟨1, [(0, 1)], {(0, 1)}⟩ : Fields).windowLen ≤ 1 := by
  have hcall : Advances (Layout.new 2 10000 160 1) (new 1) [0, 26] .empty ⟨1, [(0, 1)], {(0, 1)}⟩
      ⟨[(0, [0, 1])], 2⟩ 2 := by
    refine ⟨⟨1, [(0, 0), (0, 1)], {(0, 1), (0, 0)}⟩, rfl, ?_⟩
    exact .round (by decide) (.done (by decide))
  exact (advance_of_run (Run.advance .new hcall)).1.2.2.2.1

end Fields

/-! ### The planner with its invariants -/

/-- The fields of a planner. -/
def toFields (p : StreamingPlanner) : Fields := ⟨p.windowBadges, p.queue, p.inWindow⟩

/-- In the fields of a planner the set and the queue of the window match. -/
theorem matched_toFields (p : StreamingPlanner) : p.toFields.Matched :=
  ⟨p.nodup_queue, p.toFinset_queue⟩

/-- Leaving the oldest badge is popping the queue of the fields. -/
private theorem toFields_leave (p : StreamingPlanner) : p.leave.toFields = p.toFields.popFront := by
  unfold leave
  split
  next h => rw [Fields.popFront, toFields, h]
  next old rest h => rw [Fields.popFront_eq_of_cons (p := p.toFields) h]; rfl

/-- As many rounds as there are badges in the queue are enough for the loop. -/
private theorem evicts_toFields {fuel : ℕ} {p : StreamingPlanner} (hfuel : p.queue.length ≤ fuel) :
    Fields.Evicts p.toFields (evict fuel p).toFields := by
  induction fuel generalizing p with
  | zero =>
    refine .done ?_
    show ¬ p.windowBadges < p.inWindow.card
    rw [card_inWindow]
    omega
  | succ fuel ih =>
    rw [evict]
    split_ifs with hlarge
    · refine .round hlarge ?_
      rw [← toFields_leave]
      exact ih (by rw [length_queue_leave]; omega)
    · exact .done hlarge

/-- The rounds over the rows compute the same fields. -/
private theorem planRow_toFields (L : Layout) (p : StreamingPlanner) (plan : PrefetchPlan)
    (n r : ℕ) :
    Except.Both (fun s t => s.1.toFields = t.1 ∧ s.2 = t.2) (planRow L (p, plan, n) r)
      (Fields.planRow L (p.toFields, plan, n) r) := by
  unfold planRow Fields.planRow
  cases L.locate r with
  | error e => exact rfl
  | ok place =>
    obtain ⟨shard, badge, inBadge⟩ := place
    simp only [bind, Except.bind]
    by_cases hmem : (shard, badge) ∈ p.inWindow
    · rw [dif_pos hmem, if_pos (by exact hmem)]
      exact ⟨rfl, rfl⟩
    · rw [dif_neg hmem, if_neg (by exact hmem)]
      exact ⟨rfl, rfl⟩

/-- `advance`, when it returns (`h`), is a call on the fields of the planner. -/
theorem advances_toFields {L : Layout} {p p' : StreamingPlanner} {rows : List ℕ}
    {plan plan' : PrefetchPlan} {nNew : ℕ} (h : p.advance rows L plan = .ok (p', plan', nNew)) :
    Fields.Advances L p.toFields rows plan p'.toFields plan' nNew := by
  have hboth :
      Except.Both (fun s t => s.1.toFields = t.1 ∧ s.2 = t.2) (rows.foldlM (planRow L) (p, plan, 0))
        (rows.foldlM (Fields.planRow L) (p.toFields, plan, 0)) := by
    refine .foldlM (fun s t r hst => ?_) rows ⟨rfl, rfl⟩
    obtain ⟨q, plan, n⟩ := s
    obtain ⟨hfields, hrest⟩ := hst
    obtain rfl : t = (q.toFields, plan, n) := Prod.ext hfields.symm hrest.symm
    exact planRow_toFields L q plan n r
  obtain ⟨⟨q, plan'', n⟩, hrows, hrest⟩ := Except.bind_eq_ok_iff.mp h
  cases hrest
  rw [hrows] at hboth
  cases hfields : rows.foldlM (Fields.planRow L) (p.toFields, plan, 0) with
  | error e =>
    rw [hfields] at hboth
    cases hboth
  | ok t =>
    rw [hfields] at hboth
    obtain ⟨hq, hrest⟩ := hboth
    refine ⟨q.toFields, hfields.trans ?_, evicts_toFields (Nat.le_refl _)⟩
    exact congrArg Except.ok (Prod.ext hq.symm hrest.symm)

end StreamingPlanner

end EngramDB
