import EngramDB.Io.Batch.Badges
import Mathlib.Data.Finset.Card
import Mathlib.Data.Finset.Dedup

/-!
# The streaming planner

A `StreamingPlanner` turns the row ids of one token after another into plans. It keeps a window of
the badges that it has planned last, and does not plan a badge again while the badge is in the
window. The window is a queue and a set with the same badges (`toFinset_queue`).
-/

namespace EngramDB

/-- The badge of a row. -/
def Layout.badgeOf (L : Layout) (k : ℕ) : Badge :=
  (k / L.rowsPerShard, k % L.rowsPerShard / L.badgeRows)

/-- The window of the badges that were planned last. -/
structure StreamingPlanner where
  /-- The most badges that stay in the window. -/
  windowBadges : ℕ
  /-- The badges of the window, oldest first. -/
  queue : List Badge
  /-- The badges of the window. -/
  inWindow : Finset Badge
  /-- No badge is queued twice. -/
  nodup_queue : queue.Nodup
  /-- The queue and the set have the same badges. -/
  toFinset_queue : queue.toFinset = inWindow

namespace StreamingPlanner

/-- A planner with an empty window. -/
def new (windowBadges : ℕ) : StreamingPlanner where
  windowBadges := windowBadges
  queue := []
  inWindow := ∅
  nodup_queue := List.nodup_nil
  toFinset_queue := rfl

private theorem mem_queue {p : StreamingPlanner} {b : Badge} : b ∈ p.queue ↔ b ∈ p.inWindow := by
  rw [← p.toFinset_queue, List.mem_toFinset]

theorem card_inWindow (p : StreamingPlanner) : p.inWindow.card = p.queue.length := by
  rw [← p.toFinset_queue, List.toFinset_card_of_nodup p.nodup_queue]

/-- A badge that is not in the window enters it. -/
def enter (p : StreamingPlanner) (b : Badge) (h : b ∉ p.inWindow) : StreamingPlanner where
  windowBadges := p.windowBadges
  queue := p.queue ++ [b]
  inWindow := insert b p.inWindow
  nodup_queue := by
    refine List.nodup_append.mpr ⟨p.nodup_queue, List.nodup_singleton b, fun a ha c hc hac => ?_⟩
    rw [← List.mem_singleton.mp hc, ← hac] at h
    exact h (mem_queue.mp ha)
  toFinset_queue := by
    rw [List.toFinset_append, p.toFinset_queue]
    simp

/-- The oldest badge leaves the window. -/
def leave (p : StreamingPlanner) : StreamingPlanner :=
  match h : p.queue with
  | [] => p
  | old :: rest =>
    { windowBadges := p.windowBadges
      queue := rest
      inWindow := p.inWindow.erase old
      nodup_queue := (List.nodup_cons.mp (h ▸ p.nodup_queue)).2
      toFinset_queue := by
        have hnodup := List.nodup_cons.mp (h ▸ p.nodup_queue)
        rw [← p.toFinset_queue, h, List.toFinset_cons, Finset.erase_insert]
        rw [List.mem_toFinset]
        exact hnodup.1 }

/-- The loop of `advance`: the oldest badges leave until the window is small enough. Every round
takes one badge from the queue. -/
def evict : ℕ → StreamingPlanner → StreamingPlanner
  | 0, p => p
  | fuel + 1, p => if p.windowBadges < p.inWindow.card then evict fuel p.leave else p

/-- Plan the badge of a row, unless the badge is in the window. The last component counts the badges
that are new. -/
def planRow (L : Layout) (s : StreamingPlanner × PrefetchPlan × ℕ) (r : ℕ) :
    Outcome IoError (StreamingPlanner × PrefetchPlan × ℕ) := do
  let (shard, badge, _) ← L.locate r
  if h : (shard, badge) ∈ s.1.inWindow then pure s
  else pure (s.1.enter (shard, badge) h, s.2.1.entry shard badge, s.2.2 + 1)

/-- Plan the rows of a token: the planner, the plan, and the number of new badges. -/
def advance (p : StreamingPlanner) (rows : List ℕ) (L : Layout) (plan : PrefetchPlan) :
    Outcome IoError (StreamingPlanner × PrefetchPlan × ℕ) := do
  let (p, plan, nNew) ← rows.foldlM (planRow L) (p, plan, 0)
  pure (p.evict p.queue.length, plan, nNew)

/-! ### The window -/

private theorem windowBadges_leave (p : StreamingPlanner) :
    p.leave.windowBadges = p.windowBadges := by
  unfold leave
  split <;> rfl

theorem length_queue_leave (p : StreamingPlanner) : p.leave.queue.length = p.queue.length - 1 := by
  unfold leave
  split
  next h => rw [h]; rfl
  next old rest h => exact (congrArg (fun l => l.length - 1) h).symm

/-- The loop ends with a window that is small enough. -/
private theorem card_evict_le {fuel : ℕ} {p : StreamingPlanner} (hfuel : p.queue.length ≤ fuel) :
    (evict fuel p).inWindow.card ≤ p.windowBadges := by
  induction fuel generalizing p with
  | zero =>
    rw [evict, card_inWindow]
    omega
  | succ fuel ih =>
    rw [evict]
    split_ifs with hlarge
    · rw [← windowBadges_leave p]
      exact ih (by rw [length_queue_leave]; omega)
    · exact Nat.le_of_not_lt hlarge

/-! ### The plan -/

private theorem mem_badges_entry {plan : PrefetchPlan} {shard badge s b : ℕ} :
    b ∈ (plan.entry shard badge).badges s ↔ b ∈ plan.badges s ∨ (s, b) = (shard, badge) := by
  rw [PrefetchPlan.badges, PrefetchPlan.entry, Grouping.lookup_push, PrefetchPlan.badges]
  split_ifs with h
  · rw [List.mem_append, List.mem_singleton, Prod.mk.injEq, and_iff_right h]
  · rw [Prod.mk.injEq, or_iff_left fun hs => h hs.1]

/-- What `advance` plans: the badges of the rows that are not in the window. -/
theorem planRows_eq_ok {L : Layout} (hbadge : 0 < L.badgeRows) {rows : List ℕ}
    (hrows : ∀ r ∈ rows, L.InRange r) (p : StreamingPlanner) (plan : PrefetchPlan) (n : ℕ) :
    ∃ p' plan' n', rows.foldlM (planRow L) (p, plan, n) = .ok (p', plan', n') ∧
      p'.windowBadges = p.windowBadges ∧
      (∀ b, b ∈ p'.inWindow ↔ b ∈ p.inWindow ∨ ∃ r ∈ rows, L.badgeOf r = b) ∧
      ∀ s b, b ∈ plan'.badges s ↔
        b ∈ plan.badges s ∨ (s, b) ∉ p.inWindow ∧ ∃ r ∈ rows, L.badgeOf r = (s, b) := by
  -- a badge enters the window and the plan at once, so neither gets it twice
  induction rows generalizing p plan n with
  | nil => exact ⟨p, plan, n, rfl, rfl, by simp, by simp⟩
  | cons r rows ih =>
    have hlocate : (L.locate r : Outcome IoError _) = .ok ((L.badgeOf r).1, (L.badgeOf r).2,
        r % L.rowsPerShard % L.badgeRows) :=
      Layout.locate_eq_ok (hrows r (by simp)).rowsPerShard_pos hbadge r
    have hrows' : ∀ r ∈ rows, L.InRange r := fun r hr => hrows r (by simp [hr])
    rw [List.foldlM_cons]
    by_cases hmem : L.badgeOf r ∈ p.inWindow
    · -- the badge is in the window
      have hrow : planRow L (p, plan, n) r = .ok (p, plan, n) := by
        simp only [planRow, hlocate, bind, Except.bind]
        exact dif_pos hmem
      obtain ⟨p', plan', n', hok, hsize, hwindow, hplan⟩ := ih hrows' p plan n
      refine ⟨p', plan', n', by rw [hrow]; exact hok, hsize, fun b => ?_, fun s b => ?_⟩
      · rw [hwindow, List.exists_mem_cons_iff]
        constructor
        · exact fun h => h.imp_right .inr
        · rintro (h | rfl | h)
          · exact .inl h
          · exact .inl hmem
          · exact .inr h
      · rw [hplan, List.exists_mem_cons_iff]
        refine or_congr_right (and_congr_right fun hnot => ?_)
        have hne : L.badgeOf r ≠ (s, b) := fun h => hnot (h ▸ hmem)
        exact (or_iff_right hne).symm
    · -- the badge is new
      have hrow : planRow L (p, plan, n) r =
          .ok (p.enter (L.badgeOf r) hmem, plan.entry (L.badgeOf r).1 (L.badgeOf r).2, n + 1) := by
        simp only [planRow, hlocate, bind, Except.bind]
        exact dif_neg hmem
      obtain ⟨p', plan', n', hok, hsize, hwindow, hplan⟩ :=
        ih hrows' (p.enter (L.badgeOf r) hmem) (plan.entry (L.badgeOf r).1 (L.badgeOf r).2) (n + 1)
      have henter : ∀ b, b ∈ (p.enter (L.badgeOf r) hmem).inWindow ↔
          b = L.badgeOf r ∨ b ∈ p.inWindow := fun b => Finset.mem_insert
      refine ⟨p', plan', n', by rw [hrow]; exact hok, hsize, fun b => ?_, fun s b => ?_⟩
      · rw [hwindow, henter, List.exists_mem_cons_iff, eq_comm (a := b)]
        tauto
      · rw [hplan, mem_badges_entry, henter, List.exists_mem_cons_iff]
        by_cases hb : (s, b) = L.badgeOf r
        · rw [hb]
          simp [hmem]
        · rw [eq_comm (a := L.badgeOf r)]
          simp [hb]

/-- A plan that starts empty gets the badges of the rows that are not resident. -/
theorem advance_eq_ok {L : Layout} (hbadge : 0 < L.badgeRows) {rows : List ℕ}
    (hrows : ∀ r ∈ rows, L.InRange r) (p : StreamingPlanner) :
    ∃ p' plan n, p.advance rows L .empty = .ok (p', plan, n) ∧
      p'.inWindow.card ≤ p.windowBadges ∧
      ∀ r ∈ rows, (L.badgeOf r).2 ∈ plan.badges (L.badgeOf r).1 ↔ L.badgeOf r ∉ p.inWindow := by
  obtain ⟨p', plan, n, hok, hsize, -, hplan⟩ := planRows_eq_ok hbadge hrows p .empty 0
  refine ⟨p'.evict p'.queue.length, plan, n, by rw [advance, hok]; rfl, ?_, fun r hr => ?_⟩
  · rw [← hsize]
    exact card_evict_le (Nat.le_refl _)
  · rw [hplan]
    exact ⟨fun h => h.elim (fun h => by cases h) And.left, fun h => .inr ⟨h, r, hr, rfl⟩⟩

end StreamingPlanner

end EngramDB
