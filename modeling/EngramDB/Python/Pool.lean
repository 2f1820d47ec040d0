import EngramDB.Foundations.Runs
import EngramDB.Python.Basic
import Mathlib.Data.List.Perm.Subperm

/-!
# The pool of store handles

`StorePool` keeps a bounded stack of open handles. `with pool as store:` borrows the handle on top
and remembers it in the attribute `_current` of the pool; leaving the block returns the handle that
`_current` names. Threads take turns in an arbitrary order, each entry and each exit in one step.

* `Threads.exit_isSome_along`: no exit waits for room in the queue;
* `Threads.Inv.along`: while every exit follows directly on its own entry, every handle is in one
  place;
* `Threads.Lost.of_run`: a handle that an exit forgets never comes back;
* `Threads.exclusive_iff_exitsFollow`: threads whose blocks overlap share a handle or lose one.
-/

namespace EngramDB

/-- An open `Store` handle, named by its place in the list of all handles. -/
abbrev Handle := ℕ

/-- The fields of a pool that its operations read and write, except the counters of the waits. -/
structure StorePool where
  /-- The bound on the queue. -/
  poolSize : ℕ
  /-- The idle handles, the one returned last in front. -/
  queue : List Handle
  /-- All handles that were opened. -/
  all : List Handle
  /-- Whether the pool was closed. -/
  closed : Bool
  /-- The attribute `_current`, if it is set and not `None`. -/
  current : Option Handle
  /-- Counter of the borrowed handles. -/
  acquires : ℕ
  /-- Counter of the returned handles. -/
  releases : ℕ
  /-- Counter of the handles that are out. -/
  borrowed : ℕ

namespace StorePool

/-- A handle is opened and put into the queue. -/
def openInto (pool : StorePool) : StorePool :=
  { pool with queue := pool.all.length :: pool.queue, all := pool.all ++ [pool.all.length] }

/-- A new pool. A pool has at least one handle. -/
def new (poolSize : ℤ) : StorePool :=
  openInto^[(max 1 poolSize).toNat]
    { poolSize := (max 1 poolSize).toNat, queue := [], all := [], closed := false, current := none,
      acquires := 0, releases := 0, borrowed := 0 }

/-- `acquire`: the top of the queue, or an error if the pool is closed. With an empty queue the
caller waits, so the step cannot happen. -/
def acquire (pool : StorePool) : Option (Py Handle × StorePool) :=
  if pool.closed then some (.error (.runtimeError "StorePool is closed"), pool)
  else
    match pool.queue with
    | [] => none
    | store :: queue =>
      some (.ok store, { pool with
        queue := queue, acquires := pool.acquires + 1, borrowed := pool.borrowed + 1 })

/-- `release`: the handle goes back onto the queue. A closed pool closes it instead, and with a full
queue the caller waits. -/
def release (pool : StorePool) (store : Handle) : Option StorePool :=
  if pool.closed then some pool
  else if pool.queue.length < pool.poolSize then
    some { pool with
      queue := store :: pool.queue, releases := pool.releases + 1
      borrowed := max 0 (pool.borrowed - 1) }
  else none

/-- `__enter__`: the borrowed handle is remembered on the pool. -/
def enter (pool : StorePool) : Option (Py Handle × StorePool) :=
  pool.acquire.map fun (result, pool) =>
    match result with
    | .ok store => (.ok store, { pool with current := some store })
    | .error e => (.error e, pool)

/-- `__exit__`: the remembered handle is returned, whichever it is. -/
def exit (pool : StorePool) : Option StorePool :=
  match pool.current with
  | some store => (pool.release store).map fun pool => { pool with current := none }
  | none => some pool

end StorePool

/-- What a thread does with the pool. -/
inductive PoolEvent (τ : Type) where
  /-- Entry of a with-block. -/
  | enter (t : τ)
  /-- Exit from it. -/
  | exit (t : τ)
deriving DecidableEq

/-- A pool and the handle of every thread that is inside its with-block. -/
structure Threads (τ : Type) where
  /-- The shared pool. -/
  pool : StorePool
  /-- The handle bound by the `as` clause of the thread's block. -/
  holds : τ → Option Handle

namespace Threads

open Machine

variable {τ : Type} [DecidableEq τ]

/-- One thread enters or leaves its block. A thread leaves only a block that it is inside of. -/
def step (s : Threads τ) : PoolEvent τ → Option (Threads τ)
  | .enter t =>
    if (s.holds t).isSome then none
    else s.pool.enter.map fun (result, pool) =>
      { pool := pool, holds := Function.update s.holds t result.toOption }
  | .exit t =>
    if (s.holds t).isSome then
      s.pool.exit.map fun pool => { pool := pool, holds := Function.update s.holds t none }
    else none

/-- No thread has started. -/
def start (poolSize : ℤ) : Threads τ := { pool := StorePool.new poolSize, holds := fun _ => none }

/-- The handle of a thread is neither idle nor another thread's. -/
def Exclusive (s : Threads τ) : Prop :=
  ∀ t h, s.holds t = some h → h ∉ s.pool.queue ∧ ∀ t', t' ≠ t → s.holds t' ≠ some h

/-- Every block was left. -/
def Idle (s : Threads τ) : Prop := ∀ t, s.holds t = none

/-- Handles are held exclusively, and they are all in the queue when nothing is borrowed. -/
def Correct (s : Threads τ) : Prop :=
  s.Exclusive ∧ (s.Idle → s.pool.queue.Perm (List.range s.pool.poolSize))

end Threads

/-- Every exit follows directly on the entry of the same thread, where `last` is the thread whose
entry was the event before. -/
def ExitsFollow {τ : Type} : Option τ → List (PoolEvent τ) → Prop
  | _, [] => True
  | _, .enter t :: es => ExitsFollow (some t) es
  | last, .exit t :: es => last = some t ∧ ExitsFollow none es

namespace StorePool

/-- Opening handles into an empty pool puts them into the queue, the last one in front. -/
private theorem openInto_iterate (pool : StorePool) (hqueue : pool.queue = [])
    (hall : pool.all = []) (k : ℕ) : openInto^[k] pool =
      { pool with queue := (List.range k).reverse, all := List.range k } := by
  induction k with
  | zero =>
    cases pool
    obtain rfl := hqueue
    obtain rfl := hall
    rfl
  | succ k ih =>
    rw [Function.iterate_succ_apply', ih, List.range_succ, List.reverse_append]
    simp [openInto]

/-- A new pool has its handles in the queue and nothing remembered. -/
theorem new_eq (poolSize : ℤ) :
    new poolSize =
      { poolSize := (max 1 poolSize).toNat, queue := (List.range (max 1 poolSize).toNat).reverse,
        all := List.range (max 1 poolSize).toNat, closed := false, current := none,
        acquires := 0, releases := 0, borrowed := 0 } :=
  openInto_iterate _ rfl rfl _

end StorePool

namespace Threads

open Machine

variable {τ : Type} [DecidableEq τ] {s s' : Threads τ} {t : τ}

/-- An entry takes the top of the queue and remembers it. -/
theorem step_enter (hopen : s.pool.closed = false) (h : step s (.enter t) = some s') :
    s.holds t = none ∧ ∃ store queue, s.pool.queue = store :: queue ∧
      s'.pool.queue = queue ∧ s'.pool.current = some store ∧
      s'.holds = Function.update s.holds t (some store) ∧
      s'.pool.closed = false ∧ s'.pool.poolSize = s.pool.poolSize := by
  rw [step] at h
  split_ifs at h with hin
  refine ⟨by simpa using hin, ?_⟩
  unfold StorePool.enter StorePool.acquire at h
  rw [hopen] at h
  cases hq : s.pool.queue with
  | nil => simp [hq] at h
  | cons store queue =>
    obtain rfl : _ = s' := by simpa [hq] using h
    exact ⟨store, queue, rfl, rfl, rfl, rfl, rfl, rfl⟩

/-- An exit of an open pool (`hopen`, `h`) returns the handle that is remembered, and forgets it. -/
theorem step_exit (hopen : s.pool.closed = false) (h : step s (.exit t) = some s') :
    (s.holds t).isSome ∧ s'.pool.queue = s.pool.current.toList ++ s.pool.queue ∧
      s'.pool.current = none ∧ s'.holds = Function.update s.holds t none ∧
      s'.pool.closed = false ∧ s'.pool.poolSize = s.pool.poolSize := by
  rw [step] at h
  split_ifs at h with hin
  refine ⟨hin, ?_⟩
  unfold StorePool.exit StorePool.release at h
  cases hc : s.pool.current with
  | none =>
    obtain rfl : _ = s' := by simpa [hc] using h
    exact ⟨by simp, hc, rfl, hopen, rfl⟩
  | some store =>
    rw [hc, hopen] at h
    by_cases hfull : s.pool.queue.length < s.pool.poolSize
    · obtain rfl : _ = s' := by simpa [hfull] using h
      exact ⟨by simp, rfl, rfl, rfl, rfl⟩
    · simp [hfull] at h

/-- In every run, the queue holds handles of the pool, each once, and not the remembered one. -/
structure Sound (s : Threads τ) : Prop where
  /-- The pool is not closed. -/
  opened : s.pool.closed = false
  /-- No handle is in the queue twice, or there and remembered. -/
  nodup : (s.pool.current.toList ++ s.pool.queue).Nodup
  /-- The handles are those of the pool. -/
  lt : ∀ h ∈ s.pool.current.toList ++ s.pool.queue, h < s.pool.poolSize

omit [DecidableEq τ] in
/-- A new pool is sound, whatever size it is given. -/
theorem sound_start (poolSize : ℤ) : (start poolSize : Threads τ).Sound := by
  rw [start, StorePool.new_eq]
  exact ⟨rfl, (List.reverse_perm _).nodup_iff.mpr List.nodup_range, by simp⟩

/-- One step of any thread (`hs`) keeps the pool sound. -/
theorem Sound.of_step (hsound : s.Sound) {e : PoolEvent τ} (hs : step s e = some s') :
    s'.Sound := by
  cases e with
  | enter t =>
    obtain ⟨-, store, queue, hqueue, hqueue', hcurrent', -, hopen', hsize'⟩ :=
      step_enter hsound.opened hs
    have hsub : s'.pool.current.toList ++ s'.pool.queue = s.pool.queue := by
      rw [hcurrent', hqueue', hqueue]
      rfl
    refine ⟨hopen', ?_, fun h hh => ?_⟩
    · rw [hsub]
      exact (List.nodup_append.mp hsound.nodup).2.1
    · rw [hsub] at hh
      exact hsize' ▸ hsound.lt h (List.mem_append_right _ hh)
  | exit t =>
    obtain ⟨-, hqueue', hcurrent', -, hopen', hsize'⟩ := step_exit hsound.opened hs
    have hsame : s'.pool.current.toList ++ s'.pool.queue =
        s.pool.current.toList ++ s.pool.queue := by
      rw [hcurrent', hqueue']
      rfl
    refine ⟨hopen', hsame ▸ hsound.nodup, fun h hh => ?_⟩
    rw [hsame] at hh
    exact hsize' ▸ hsound.lt h hh

/-- The queue always has room for the remembered handle, so no exit waits. -/
private theorem Sound.exit_isSome (hsound : s.Sound) (hin : (s.holds t).isSome) :
    (step s (.exit t)).isSome := by
  rw [step, if_pos hin, Option.isSome_map]
  unfold StorePool.exit StorePool.release
  cases hc : s.pool.current with
  | none => rfl
  | some store =>
    have hnodup := hsound.nodup
    have hlt := hsound.lt
    rw [hc] at hnodup hlt
    have hlen := (List.subperm_of_subset hnodup fun h hh => List.mem_range.mpr (hlt h hh)).length_le
    simp only [Option.toList_some, List.singleton_append, List.length_cons,
      List.length_range] at hlen
    simp [hsound.opened, Nat.lt_of_succ_le hlen]

/-- In every run, a thread inside its block can leave it at once. -/
theorem exit_isSome_along (poolSize : ℤ) (events : List (PoolEvent τ)) :
    Along step (fun s => ∀ t, (s.holds t).isSome → (step s (.exit t)).isSome)
      (start poolSize) events :=
  (along_of_invariant (fun _ _ _ h hs => h.of_step hs) (sound_start poolSize)).imp
    fun _ hsound _ => hsound.exit_isSome

/-- While exits follow on entries, every handle is in the queue or with one thread, and what the
pool remembers is the handle of the thread `last` that entered in the step before, if it was an
entry. -/
structure Inv (last : Option τ) (s : Threads τ) : Prop where
  /-- The pool is not closed. -/
  opened : s.pool.closed = false
  /-- No handle is in the queue twice. -/
  nodup : s.pool.queue.Nodup
  /-- Every handle has a place. -/
  place : ∀ h, h < s.pool.poolSize ↔ h ∈ s.pool.queue ∨ ∃ t, s.holds t = some h
  /-- A handle with a thread is not in the queue. -/
  apart : ∀ t h, s.holds t = some h → h ∉ s.pool.queue
  /-- No handle is with two threads. -/
  alone : ∀ t t' h, s.holds t = some h → s.holds t' = some h → t' = t
  /-- The remembered handle. -/
  current : s.pool.current = last.bind s.holds
  /-- The thread that entered in the step before has a handle. -/
  entered : ∀ t, last = some t → (s.holds t).isSome

omit [DecidableEq τ] in
/-- In a new pool nobody is inside a block. -/
theorem inv_start (poolSize : ℤ) : Inv none (start poolSize : Threads τ) := by
  rw [start, StorePool.new_eq]
  exact ⟨rfl,
    (List.reverse_perm _).nodup_iff.mpr List.nodup_range, by simp, by simp, by simp, rfl, by simp⟩

omit [DecidableEq τ] in
/-- While every exit follows on its entry, the pool works. -/
theorem Inv.correct {last : Option τ} (hinv : Inv last s) : s.Correct := by
  refine ⟨fun t h ht => ⟨hinv.apart t h ht, fun t' hne ht' => hne (hinv.alone t t' h ht ht')⟩,
    fun hidle => ?_⟩
  rw [List.perm_ext_iff_of_nodup hinv.nodup List.nodup_range]
  intro h
  rw [List.mem_range, hinv.place h]
  exact ⟨.inl, fun hor => hor.resolve_right fun ⟨t, ht⟩ => by simp [hidle t] at ht⟩

/-- An entry while nobody is inside leaves its thread inside. -/
theorem Inv.enter {last : Option τ} (hinv : Inv last s) (h : step s (.enter t) = some s') :
    Inv (some t) s' := by
  obtain ⟨hout, store, queue, hqueue, hqueue', hcurrent', hholds', hopen', hsize'⟩ :=
    step_enter hinv.opened h
  have hnodup := hinv.nodup
  rw [hqueue, List.nodup_cons] at hnodup
  -- the store that is handed out was idle, so nobody had it
  have hnotheld : ∀ u, s.holds u ≠ some store := fun u hu =>
    hinv.apart u store hu (by rw [hqueue]; simp)
  refine ⟨hopen', hqueue' ▸ hnodup.2, fun h => ?_, fun u h hu => ?_,
    fun u u' h hu hu' => ?_, ?_, ?_⟩
  -- every store still has a place: this one moves from the queue to the thread
  · rw [hsize', hinv.place h, hqueue, hqueue', hholds', List.mem_cons]
    constructor
    · rintro ((rfl | hmem) | ⟨u, hu⟩)
      · exact .inr ⟨t, Function.update_self ..⟩
      · exact .inl hmem
      · refine .inr ⟨u, ?_⟩
        rwa [Function.update_of_ne (by rintro rfl; simp [hout] at hu)]
    · rintro (hmem | ⟨u, hu⟩)
      · exact .inl (.inr hmem)
      · rcases eq_or_ne u t with rfl | hne
        · rw [Function.update_self] at hu
          exact .inl (.inl (Option.some.inj hu).symm)
        · rw [Function.update_of_ne hne] at hu
          exact .inr ⟨u, hu⟩
  · rw [hholds'] at hu
    rw [hqueue']
    rcases eq_or_ne u t with rfl | hne
    · rw [Function.update_self] at hu
      exact Option.some.inj hu ▸ hnodup.1
    · rw [Function.update_of_ne hne] at hu
      exact fun hmem => hinv.apart u h hu (by rw [hqueue]; simp [hmem])
  -- two threads with one store: neither can be the one that has just been given it
  · rw [hholds'] at hu hu'
    rcases eq_or_ne u t with rfl | hne
    · rw [Function.update_self] at hu
      obtain rfl := Option.some.inj hu
      by_contra hne'
      rw [Function.update_of_ne hne'] at hu'
      exact hnotheld _ hu'
    · rw [Function.update_of_ne hne] at hu
      rcases eq_or_ne u' t with rfl | hne'
      · rw [Function.update_self] at hu'
        obtain rfl := Option.some.inj hu'
        exact absurd hu (hnotheld u)
      · rw [Function.update_of_ne hne'] at hu'
        exact hinv.alone u u' h hu hu'
  · rw [hcurrent', hholds', Option.bind_some, Function.update_self]
  · rintro u hu
    obtain rfl := Option.some.inj hu
    rw [hholds', Function.update_self]
    rfl

/-- The thread that has just entered returns its own handle. -/
theorem Inv.exit (hinv : Inv (some t) s) (h : step s (.exit t) = some s') : Inv none s' := by
  obtain ⟨hin, hqueue', hcurrent', hholds', hopen', hsize'⟩ := step_exit hinv.opened h
  obtain ⟨store, hstore⟩ := Option.isSome_iff_exists.mp hin
  -- the current store is the one that the thread holds, so this is what goes back
  have hcurrent : s.pool.current = some store := by rw [hinv.current, Option.bind_some, hstore]
  rw [hcurrent, Option.toList_some, List.singleton_append] at hqueue'
  -- whoever holds a store now held it before, and is not the thread that left
  have hkeep : ∀ u h, s'.holds u = some h → u ≠ t ∧ s.holds u = some h := by
    intro u h hu
    rw [hholds'] at hu
    rcases eq_or_ne u t with rfl | hne
    · rw [Function.update_self] at hu
      cases hu
    · rw [Function.update_of_ne hne] at hu
      exact ⟨hne, hu⟩
  refine ⟨hopen', ?_, fun h => ?_, fun u h hu => ?_, fun u u' h hu hu' => ?_, hcurrent', by simp⟩
  · rw [hqueue', List.nodup_cons]
    exact ⟨hinv.apart t store hstore, hinv.nodup⟩
  -- every store still has a place: this one moves from the thread to the queue
  · rw [hsize', hinv.place h, hqueue', List.mem_cons]
    constructor
    · rintro (hmem | ⟨u, hu⟩)
      · exact .inl (.inr hmem)
      · rcases eq_or_ne u t with rfl | hne
        · rw [hstore] at hu
          exact .inl (.inl (Option.some.inj hu).symm)
        · refine .inr ⟨u, ?_⟩
          rwa [hholds', Function.update_of_ne hne]
    · rintro ((rfl | hmem) | ⟨u, hu⟩)
      · exact .inr ⟨t, hstore⟩
      · exact .inl hmem
      · exact .inr ⟨u, (hkeep u h hu).2⟩
  · obtain ⟨hne, hu⟩ := hkeep u h hu
    rw [hqueue', List.mem_cons, not_or]
    refine ⟨?_, hinv.apart u h hu⟩
    rintro rfl
    exact hne (hinv.alone t u h hstore hu)
  · exact hinv.alone u u' h (hkeep u h hu).2 (hkeep u' h hu').2

/-- While every exit follows directly on its own entry, the pool works. -/
theorem Inv.along {last : Option τ} {events : List (PoolEvent τ)} (hinv : Inv last s)
    (hfollow : ExitsFollow last events) : Along step Correct s events := by
  induction events generalizing s last with
  | nil => exact hinv.correct
  | cons e events ih =>
    cases e with
    | enter t => exact ⟨hinv.correct, fun s' hs' => ih (hinv.enter hs') hfollow⟩
    | exit t =>
      obtain ⟨rfl, hrest⟩ := hfollow
      exact ⟨hinv.correct, fun s' hs' => ih (hinv.exit hs') hrest⟩

/-- A handle that is in no place, and that the pool does not remember. -/
structure Lost (h : Handle) (s : Threads τ) : Prop where
  /-- The pool is not closed. -/
  opened : s.pool.closed = false
  /-- It is a handle of the pool. -/
  lt : h < s.pool.poolSize
  /-- It is not idle. -/
  notIdle : h ∉ s.pool.queue
  /-- No thread has it. -/
  notHeld : ∀ t, s.holds t ≠ some h
  /-- It is not remembered. -/
  notCurrent : s.pool.current ≠ some h

/-- A handle that is lost (`hlost`) stays lost, whichever thread takes a step (`hs`). -/
theorem Lost.of_step {h : Handle} (hlost : Lost h s) {e : PoolEvent τ} (hs : step s e = some s') :
    Lost h s' := by
  cases e with
  | enter t =>
    obtain ⟨-, store, queue, hqueue, hqueue', hcurrent', hholds', hopen', hsize'⟩ :=
      step_enter hlost.opened hs
    -- a thread that enters is given a store of the queue, where the lost one is not
    have hidle := hlost.notIdle
    rw [hqueue, List.mem_cons, not_or] at hidle
    refine ⟨hopen', hsize' ▸ hlost.lt, hqueue' ▸ hidle.2, fun u hu => ?_, ?_⟩
    · rw [hholds'] at hu
      rcases eq_or_ne u t with rfl | hne
      · rw [Function.update_self] at hu
        exact hidle.1 (Option.some.inj hu).symm
      · rw [Function.update_of_ne hne] at hu
        exact hlost.notHeld u hu
    · rw [hcurrent']
      exact fun heq => hidle.1 (Option.some.inj heq).symm
  | exit t =>
    obtain ⟨-, hqueue', hcurrent', hholds', hopen', hsize'⟩ := step_exit hlost.opened hs
    -- a thread that leaves gives back the current store, which the lost one is not
    refine ⟨hopen', hsize' ▸ hlost.lt, ?_, fun u hu => ?_, by simp [hcurrent']⟩
    · rw [hqueue', List.mem_append, not_or]
      exact ⟨fun hmem => hlost.notCurrent (by simpa using hmem), hlost.notIdle⟩
    · rw [hholds'] at hu
      rcases eq_or_ne u t with rfl | hne
      · rw [Function.update_self] at hu
        cases hu
      · rw [Function.update_of_ne hne] at hu
        exact hlost.notHeld u hu

/-- A handle that is lost stays so through every run. -/
theorem Lost.of_run {h : Handle} {events : List (PoolEvent τ)} (hlost : Lost h s)
    (hrun : run step s events = some s') : Lost h s' := by
  induction events generalizing s with
  | nil =>
    obtain rfl := Option.some.inj hrun
    exact hlost
  | cons e events ih =>
    obtain ⟨u, hu, hrun'⟩ := run_cons_eq_some.mp hrun
    exact ih (hlost.of_step hu) hrun'

omit [DecidableEq τ] in
/-- With a lost handle, the queue is not full again when nothing is borrowed. -/
private theorem Lost.not_correct {h : Handle} (hlost : Lost h s) (hidle : s.Idle) : ¬ s.Correct :=
  fun hcorrect =>
    hlost.notIdle ((hcorrect.2 hidle).mem_iff.mpr (List.mem_range.mpr hlost.lt))

/-- An exit of another thread than the one that entered in the step before returns a handle that is
in use, or loses its own. -/
private theorem Inv.exit_of_ne {last : Option τ} (hinv : Inv last s) (hne : last ≠ some t)
    (hs : step s (.exit t) = some s') : ¬ s'.Exclusive ∨ ∃ h, Lost h s' := by
  obtain ⟨hin, hqueue', hcurrent', hholds', hopen', hsize'⟩ := step_exit hinv.opened hs
  obtain ⟨store, hstore⟩ := Option.isSome_iff_exists.mp hin
  cases last with
  | some u =>
    obtain ⟨other, hother⟩ := Option.isSome_iff_exists.mp (hinv.entered u rfl)
    have hcurrent : s.pool.current = some other := by rw [hinv.current, Option.bind_some, hother]
    have hut : u ≠ t := fun heq => hne (congrArg some heq)
    -- the store of the last thread to enter goes back while that thread still has it
    refine .inl fun hexclusive => (hexclusive u other ?_).1 ?_
    · rw [hholds', Function.update_of_ne hut, hother]
    · rw [hqueue', hcurrent]
      simp
  | none =>
    have hcurrent : s.pool.current = none := hinv.current
    -- nothing goes back, and the store of the thread is lost
    refine .inr ⟨store, hopen', ?_, ?_, fun u hu => ?_, by simp [hcurrent']⟩
    · rw [hsize', hinv.place store]
      exact .inr ⟨t, hstore⟩
    · rw [hqueue', hcurrent]
      simpa using hinv.apart t store hstore
    · rw [hholds'] at hu
      rcases eq_or_ne u t with rfl | hne'
      · rw [Function.update_self] at hu
        cases hu
      · rw [Function.update_of_ne hne'] at hu
        exact hne' (hinv.alone t u store hstore hu)

/-- If the pool works until every block is left, every exit followed directly on its own entry. -/
private theorem Inv.exitsFollow {last : Option τ} {events : List (PoolEvent τ)} (hinv : Inv last s)
    (hrun : run step s events = some s') (hidle : s'.Idle) (halong : Along step Correct s events) :
    ExitsFollow last events := by
  induction events generalizing s last with
  | nil => trivial
  | cons e events ih =>
    obtain ⟨u, hu, hrun'⟩ := run_cons_eq_some.mp hrun
    have halong' := halong.2 u hu
    cases e with
    | enter t => exact ih (hinv.enter hu) hrun' halong'
    | exit t =>
      rcases eq_or_ne last (some t) with rfl | hne
      · exact ⟨rfl, ih (hinv.exit hu) hrun' halong'⟩
      · rcases hinv.exit_of_ne hne hu with hshared | ⟨h, hlost⟩
        · exact absurd halong'.start.1 hshared
        · exact absurd (halong'.run hrun') ((hlost.of_run hrun').not_correct hidle)

/-- The pool works in every run in which every exit follows directly on the entry of its thread, and
in no other run in which every block is left in the end. -/
theorem exclusive_iff_exitsFollow (poolSize : ℤ) (events : List (PoolEvent τ)) :
    (ExitsFollow none events → Along step Correct (start poolSize) events) ∧
      ∀ s, run step (start poolSize) events = some s → s.Idle →
        (Along step Correct (start poolSize) events ↔ ExitsFollow none events) :=
  ⟨(inv_start poolSize).along, fun _ hrun hidle =>
    ⟨(inv_start poolSize).exitsFollow hrun hidle, (inv_start poolSize).along⟩⟩

/-- Two threads, one after the other. -/
theorem exclusive_iff_exitsFollow_inTurn :
    Along step Correct (start 2 : Threads ℕ) [.enter 0, .exit 0, .enter 1, .exit 1] :=
  (exclusive_iff_exitsFollow 2 _).1 ⟨rfl, rfl, trivial⟩

/-- Two threads whose blocks overlap: the first exit returns the handle of the second thread. -/
theorem not_exclusive_overlap :
    ¬ Along step Correct (start 2 : Threads ℕ) [.enter 0, .enter 1, .exit 0] := by
  intro h
  have hcorrect := h.run rfl
  exact (hcorrect.1 1 0 rfl).1 (by decide)

end Threads

end EngramDB
