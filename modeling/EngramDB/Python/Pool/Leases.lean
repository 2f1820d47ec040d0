import EngramDB.Python.Pool
import Mathlib.Data.Finset.Card
import Mathlib.Data.Fintype.Basic

/-!
# Leases of the handle pool

A client that calls `acquire` and `release` itself keeps the handle that it was given, instead of
looking it up in the pool. The steps of all calls, `close` among them, can interleave in every way:
each test of `_closed`, each access to the queue and each count is a step of its own.

* `Clients.run_reliable`: in every run no handle is leased twice, no `release` waits, the counters
  agree, and until a `close` no handle is lost or closed;
* `Clients.run_closed`: after a `close` has gone through the handles, no lease works any more, and a
  client that waits when the queue is empty waits forever, unless a `release` was on its way.
-/

namespace EngramDB

/-- Where a client is in its calls. -/
inductive Point where
  /-- Not in a call, and without a handle. -/
  | idle
  /-- `acquire` has found the pool open. -/
  | acquiring
  /-- `acquire` has found the queue empty, and waits. -/
  | waiting
  /-- `acquire` has a handle, and is going to count it. -/
  | taken (store : Handle)
  /-- The client has a handle. -/
  | holding (store : Handle)
  /-- `release` has found the pool open, and is going to put the handle back. -/
  | returning (store : Handle)
  /-- `release` has put the handle back, and is going to count it. -/
  | counting
  /-- `close` has found the pool open. -/
  | closing
  /-- `close` has closed the pool, and is going to take the lock. -/
  | locking
  /-- `close` empties the queue. -/
  | draining
  /-- `close` closes all handles, these among them. -/
  | sweeping (rest : List Handle)
deriving DecidableEq

namespace Point

/-- The handle that a client has. -/
def handle : Point → Option Handle
  | taken store | holding store | returning store => some store
  | _ => none

/-- Whether a client was counted as a borrower, and not yet as one that has returned its handle. -/
def counted : Point → Bool
  | holding _ | returning _ | counting => true
  | _ => false

/-- Whether a client has closed the pool, and is not done. -/
def closer : Point → Bool
  | locking | draining | sweeping _ => true
  | _ => false

end Point

/-- What a client does. -/
inductive ClientEvent (τ : Type) where
  /-- It calls `acquire`. -/
  | acquire (t : τ)
  /-- It calls `release` with its handle. -/
  | release (t : τ)
  /-- It calls `close`. -/
  | close (t : τ)
  /-- It goes on with its call. -/
  | go (t : τ)
deriving DecidableEq

/-- A pool and its clients. A thread with several handles counts as several clients. -/
structure Clients (τ : Type) where
  /-- The shared pool. -/
  pool : StorePool
  /-- The handles that were closed. -/
  shut : Finset Handle
  /-- The client that has the lock of `close`. -/
  lock : Option τ
  /-- Where each client is. -/
  point : τ → Point

namespace Clients

open Machine

variable {τ : Type} [DecidableEq τ]

/-- A client is somewhere else. -/
def moveTo (s : Clients τ) (t : τ) (p : Point) : Clients τ :=
  { s with point := Function.update s.point t p }

/-- The handle on top of the queue is taken. -/
def take (s : Clients τ) (t : τ) : Option (Clients τ) :=
  match s.pool.queue with
  | [] => none
  | store :: queue => some { s.moveTo t (.taken store) with pool := { s.pool with queue } }

/-- A client goes on with its call. -/
def go (s : Clients τ) (t : τ) : Option (Clients τ) :=
  match s.point t with
  | .idle | .holding _ => none
  | .acquiring => some ((s.take t).getD (s.moveTo t .waiting))
  | .waiting => s.take t
  | .taken store =>
    some { s.moveTo t (.holding store) with
      pool := { s.pool with acquires := s.pool.acquires + 1, borrowed := s.pool.borrowed + 1 } }
  | .returning store =>
    -- with a full queue, `put` waits
    if s.pool.queue.length < s.pool.poolSize then
      some { s.moveTo t .counting with pool := { s.pool with queue := store :: s.pool.queue } }
    else none
  | .counting =>
    some { s.moveTo t .idle with
      pool := { s.pool with
        releases := s.pool.releases + 1, borrowed := max 0 (s.pool.borrowed - 1) } }
  | .closing => some { s.moveTo t .locking with pool := { s.pool with closed := true } }
  | .locking =>
    match s.lock with
    | none => some { s.moveTo t .draining with lock := some t }
    | some _ => none
  | .draining =>
    match s.pool.queue with
    | store :: queue =>
      some { s with pool := { s.pool with queue }, shut := insert store s.shut }
    | [] => some (s.moveTo t (.sweeping s.pool.all))
  | .sweeping (store :: rest) =>
    some { s.moveTo t (.sweeping rest) with shut := insert store s.shut }
  | .sweeping [] => some { s.moveTo t .idle with pool := { s.pool with all := [] }, lock := none }

/-- A step of one client. A closed pool refuses `acquire`, closes the handle of a `release`, and is
not closed again. -/
def step (s : Clients τ) : ClientEvent τ → Option (Clients τ)
  | .acquire t =>
    if s.point t = .idle then some (if s.pool.closed then s else s.moveTo t .acquiring) else none
  | .release t =>
    match s.point t with
    | .holding store =>
      some (if s.pool.closed then { s.moveTo t .idle with shut := insert store s.shut }
        else s.moveTo t (.returning store))
    | _ => none
  | .close t =>
    if s.point t = .idle then some (if s.pool.closed then s else s.moveTo t .closing) else none
  | .go t => s.go t

/-- No client has done anything. -/
def start (poolSize : ℤ) : Clients τ :=
  { pool := StorePool.new poolSize, shut := ∅, lock := none, point := fun _ => .idle }

/-- The handle of each client. -/
def handles (s : Clients τ) : τ → Option Handle := fun t => (s.point t).handle

/-- Whether each client counts as a borrower. -/
def countedAt (s : Clients τ) : τ → Bool := fun t => (s.point t).counted

variable {s s' : Clients τ} {t : τ} {p : Point}

@[simp]
theorem pool_moveTo : (s.moveTo t p).pool = s.pool := rfl

@[simp]
theorem shut_moveTo : (s.moveTo t p).shut = s.shut := rfl

@[simp]
theorem lock_moveTo : (s.moveTo t p).lock = s.lock := rfl

@[simp]
theorem point_moveTo : (s.moveTo t p).point = Function.update s.point t p := rfl

/-- If thread `t` moves to `p` and the others stay, the handles held change at `t` only. -/
theorem handles_of_point (h : s'.point = Function.update s.point t p) :
    s'.handles = Function.update s.handles t p.handle := by
  ext1 u
  rw [handles, h]
  by_cases hu : u = t
  · rw [hu, Function.update_self, Function.update_self]
  · rw [Function.update_of_ne hu, Function.update_of_ne hu, handles]

/-- If thread `t` moves to `p` and the others stay, who is counted as a borrower changes at `t`
only. -/
theorem countedAt_of_point (h : s'.point = Function.update s.point t p) :
    s'.countedAt = Function.update s.countedAt t p.counted := by
  ext1 u
  rw [countedAt, h]
  by_cases hu : u = t
  · rw [hu, Function.update_self, Function.update_self]
  · rw [Function.update_of_ne hu, Function.update_of_ne hu, countedAt]

/-! ### Places -/

/-- Every handle is in one place. -/
structure Places (n : ℕ) (queue : List Handle) (handles : τ → Option Handle) : Prop where
  /-- No handle is in the queue twice. -/
  nodup : queue.Nodup
  /-- The queue has handles of the pool. -/
  lt : ∀ h ∈ queue, h < n
  /-- So have the clients, and they are not in the queue. -/
  apart : ∀ t h, handles t = some h → h < n ∧ h ∉ queue
  /-- No two clients have the same handle. -/
  exclusive : ∀ t t' h, handles t = some h → handles t' = some h → t = t'

/-- No handle is lost. -/
def Complete (n : ℕ) (queue : List Handle) (handles : τ → Option Handle) : Prop :=
  ∀ h < n, h ∈ queue ∨ ∃ t, handles t = some h

variable {n : ℕ} {queue : List Handle} {handles : τ → Option Handle} {h : Handle}

/-- Taking the handle in front of the queue, by a thread `t`, keeps every handle in at most one
place. -/
theorem Places.take (hp : Places n (h :: queue) handles) (t : τ) :
    Places n queue (Function.update handles t (some h)) := by
  obtain ⟨hnot, hnodup⟩ := List.nodup_cons.mp hp.nodup
  refine ⟨hnodup, fun k hk => hp.lt k (List.mem_cons_of_mem h hk), fun t' k hk => ?_,
    fun t₁ t₂ k h₁ h₂ => ?_⟩
  · by_cases ht' : t' = t
    · rw [ht', Function.update_self] at hk
      obtain rfl := Option.some.inj hk
      exact ⟨hp.lt h List.mem_cons_self, hnot⟩
    · rw [Function.update_of_ne ht'] at hk
      obtain ⟨hlt, hout⟩ := hp.apart t' k hk
      exact ⟨hlt, fun hin => hout (List.mem_cons_of_mem h hin)⟩
  · -- a client that had its handle before does not have the one that was in the queue
    have hold (u : τ) (hu : u ≠ t) (hk : Function.update handles t (some h) u = some k) :
        handles u = some k ∧ k ≠ h := by
      rw [Function.update_of_ne hu] at hk
      refine ⟨hk, ?_⟩
      rintro rfl
      exact (hp.apart u k hk).2 List.mem_cons_self
    by_cases ht₁ : t₁ = t
    · by_cases ht₂ : t₂ = t
      · rw [ht₁, ht₂]
      · rw [ht₁, Function.update_self] at h₁
        exact absurd (Option.some.inj h₁).symm (hold t₂ ht₂ h₂).2
    · by_cases ht₂ : t₂ = t
      · rw [ht₂, Function.update_self] at h₂
        exact absurd (Option.some.inj h₂).symm (hold t₁ ht₁ h₁).2
      · exact hp.exclusive t₁ t₂ k (hold t₁ ht₁ h₁).1 (hold t₂ ht₂ h₂).1

/-- Every handle is still in one place after a client has given its own away. -/
theorem Places.forget (hp : Places n queue handles) (t : τ) :
    Places n queue (Function.update handles t none) := by
  have hold (u : τ) (k : Handle) (hk : Function.update handles t none u = some k) :
      handles u = some k := by
    by_cases hu : u = t
    · rw [hu, Function.update_self] at hk
      cases hk
    · rwa [Function.update_of_ne hu] at hk
  exact ⟨hp.nodup, hp.lt, fun u k hk => hp.apart u k (hold u k hk),
    fun u u' k hk hk' => hp.exclusive u u' k (hold u k hk) (hold u' k hk')⟩

/-- Putting the handle that `t` holds back into the queue keeps every handle in at most one
place. -/
theorem Places.put (hp : Places n queue handles) (ht : handles t = some h) :
    Places n (h :: queue) (Function.update handles t none) := by
  obtain ⟨hlt, hout⟩ := hp.apart t h ht
  have hforget := hp.forget t
  refine ⟨List.nodup_cons.mpr ⟨hout, hp.nodup⟩, ?_, fun u k hk => ?_, hforget.exclusive⟩
  · intro k hk
    rcases List.mem_cons.mp hk with rfl | hk
    · exact hlt
    · exact hp.lt k hk
  · refine ⟨(hforget.apart u k hk).1, fun hin => ?_⟩
    rcases List.mem_cons.mp hin with rfl | hin
    · -- the handle was only with the client that put it back
      have hu : u ≠ t := by
        rintro rfl
        rw [Function.update_self] at hk
        cases hk
      rw [Function.update_of_ne hu] at hk
      exact hu (hp.exclusive u t k hk ht)
    · exact (hforget.apart u k hk).2 hin

omit [DecidableEq τ] in
/-- Taking a handle out of the queue to close it keeps the others in at most one place. -/
theorem Places.drain (hp : Places n (h :: queue) handles) : Places n queue handles :=
  ⟨hp.nodup.of_cons, fun k hk => hp.lt k (List.mem_cons_of_mem h hk), fun u k hk =>
    ⟨(hp.apart u k hk).1, fun hin => (hp.apart u k hk).2 (List.mem_cons_of_mem h hin)⟩,
    hp.exclusive⟩

omit [DecidableEq τ] in
/-- There is room in the queue for a handle that a client has. -/
theorem Places.length_lt (hp : Places n queue handles) (ht : handles t = some h) :
    queue.length < n := by
  obtain ⟨hlt, hout⟩ := hp.apart t h ht
  have hnodup : (h :: queue).Nodup := List.nodup_cons.mpr ⟨hout, hp.nodup⟩
  have hsub : h :: queue ⊆ List.range n := by
    intro k hk
    rw [List.mem_range]
    rcases List.mem_cons.mp hk with rfl | hk
    · exact hlt
    · exact hp.lt k hk
  have hlength := (List.subperm_of_subset hnodup hsub).length_le
  rwa [List.length_cons, List.length_range] at hlength

/-- No handle gets lost when a thread that holds none takes the one in front of the queue. -/
theorem Complete.take (hc : Complete n (h :: queue) handles) (ht : handles t = none) :
    Complete n queue (Function.update handles t (some h)) := by
  intro k hk
  rcases hc k hk with hin | ⟨u, hu⟩
  · rcases List.mem_cons.mp hin with rfl | hin
    · exact .inr ⟨t, Function.update_self _ _ _⟩
    · exact .inl hin
  · refine .inr ⟨u, ?_⟩
    rw [Function.update_of_ne, hu]
    rintro rfl
    rw [ht] at hu
    cases hu

/-- No handle gets lost when a thread puts the one it holds back into the queue. -/
theorem Complete.put (hc : Complete n queue handles) (ht : handles t = some h) :
    Complete n (h :: queue) (Function.update handles t none) := by
  intro k hk
  rcases hc k hk with hin | ⟨u, hu⟩
  · exact .inl (List.mem_cons_of_mem h hin)
  · by_cases hut : u = t
    · rw [hut, ht] at hu
      obtain rfl := Option.some.inj hu
      exact .inl List.mem_cons_self
    · exact .inr ⟨u, by rw [Function.update_of_ne hut, hu]⟩

/-! ### Counters -/

/-- The counters agree with each other, and with the clients. -/
structure Counts (acquires releases borrowed : ℕ) (counted : τ → Bool) (closed : Bool) : Prop where
  /-- What was acquired was released, or is borrowed. -/
  balance : acquires = releases + borrowed
  /-- At most the borrowed handles are with clients, and while the pool is open, all of them. -/
  clients : ∃ F : Finset τ, (∀ t, t ∈ F ↔ counted t) ∧ F.card ≤ borrowed ∧
    (closed = false → borrowed = F.card)

variable {acquires releases borrowed : ℕ} {counted : τ → Bool} {closed : Bool}

/-- Counting one more acquisition keeps the counters in balance, if the thread was not counted as a
borrower before. -/
theorem Counts.acquire (hc : Counts acquires releases borrowed counted closed)
    (ht : counted t = false) :
    Counts (acquires + 1) releases (borrowed + 1) (Function.update counted t true) closed := by
  obtain ⟨F, hF, hle, heq⟩ := hc.clients
  have hout : t ∉ F := by
    rw [hF, ht]
    exact Bool.false_ne_true
  refine ⟨by rw [hc.balance, Nat.add_assoc], insert t F, fun u => ?_, ?_, fun hopen => ?_⟩
  · rw [Finset.mem_insert]
    by_cases hu : u = t
    · rw [hu, Function.update_self]
      exact iff_of_true (.inl rfl) rfl
    · rw [Function.update_of_ne hu, ← hF]
      exact or_iff_right hu
  · rw [Finset.card_insert_of_notMem hout]
    exact Nat.succ_le_succ hle
  · rw [Finset.card_insert_of_notMem hout, heq hopen]

/-- A client that no longer counts is erased from the finite set of those that do (`hF`). -/
theorem mem_erase_iff {F : Finset τ} (hF : ∀ t, t ∈ F ↔ counted t) (t u : τ) :
    u ∈ F.erase t ↔ Function.update counted t false u := by
  rw [Finset.mem_erase]
  by_cases hu : u = t
  · rw [hu, Function.update_self]
    exact iff_of_false (fun h => h.1 rfl) Bool.false_ne_true
  · rw [Function.update_of_ne hu, ← hF]
    exact and_iff_right hu

/-- A release by a client that counts (`ht`) counts one handle less, and the counter was not
zero. -/
theorem Counts.release (hc : Counts acquires releases borrowed counted closed)
    (ht : counted t) :
    Counts acquires (releases + 1) (max 0 (borrowed - 1)) (Function.update counted t false)
      closed := by
  obtain ⟨F, hF, hle, heq⟩ := hc.clients
  have hin : t ∈ F := (hF t).mpr ht
  have hpos : 0 < F.card := Finset.card_pos.mpr ⟨t, hin⟩
  have hbalance := hc.balance
  refine ⟨by omega, F.erase t, mem_erase_iff hF t, ?_, fun hopen => ?_⟩
  · rw [Finset.card_erase_of_mem hin]
    omega
  · rw [Finset.card_erase_of_mem hin, heq hopen]
    omega

/-- A release into a closed pool (`hclosed`) changes no counter, and keeps them in order (`hc`). -/
theorem Counts.discard (hc : Counts acquires releases borrowed counted closed)
    (hclosed : closed = true) (t : τ) :
    Counts acquires releases borrowed (Function.update counted t false) closed := by
  obtain ⟨F, hF, hle, -⟩ := hc.clients
  refine ⟨hc.balance, F.erase t, mem_erase_iff hF t, ?_, fun hopen => ?_⟩
  · exact Nat.le_trans (Finset.card_erase_le) hle
  · rw [hclosed] at hopen
    cases hopen

omit [DecidableEq τ] in
/-- Closing the pool keeps the counters in balance. -/
theorem Counts.close (hc : Counts acquires releases borrowed counted closed) :
    Counts acquires releases borrowed counted true := by
  obtain ⟨F, hF, hle, -⟩ := hc.clients
  refine ⟨hc.balance, F, hF, hle, fun hopen => ?_⟩
  cases hopen

/-! ### Steps -/

/-- What a step can do. -/
inductive Change (s : Clients τ) : Clients τ → Prop where
  /-- A closed pool refuses a call. -/
  | refuse : Change s s
  /-- A client goes on, and neither its handle nor its count changes. -/
  | move (t : τ) (p : Point) (hhandle : p.handle = (s.point t).handle)
    (hcounted : p.counted = (s.point t).counted) (hcloser : p.closer = false)
    (hwaits : s.point t ≠ .waiting) (hreturns : ∀ h, p = .returning h → s.pool.closed = false) :
    Change s (s.moveTo t p)
  /-- A handle is taken from the queue. -/
  | take (t : τ) (store : Handle) (queue : List Handle) (hqueue : s.pool.queue = store :: queue)
    (hhandle : (s.point t).handle = none) (hcounted : (s.point t).counted = false) :
    Change s { s.moveTo t (.taken store) with pool := { s.pool with queue } }
  /-- It is counted. -/
  | count (t : τ) (store : Handle) (hpoint : s.point t = .taken store) :
    Change s { s.moveTo t (.holding store) with
      pool := { s.pool with acquires := s.pool.acquires + 1, borrowed := s.pool.borrowed + 1 } }
  /-- A handle is put back. -/
  | put (t : τ) (store : Handle) (hpoint : s.point t = .returning store) :
    Change s { s.moveTo t .counting with
      pool := { s.pool with queue := store :: s.pool.queue } }
  /-- That is counted. -/
  | uncount (t : τ) (hpoint : s.point t = .counting) :
    Change s { s.moveTo t .idle with
      pool := { s.pool with
        releases := s.pool.releases + 1, borrowed := max 0 (s.pool.borrowed - 1) } }
  /-- A closed pool closes a handle that is released. -/
  | discard (t : τ) (store : Handle) (hpoint : s.point t = .holding store)
    (hclosed : s.pool.closed = true) :
    Change s { s.moveTo t .idle with shut := insert store s.shut }
  /-- The pool is closed. -/
  | shutDown (t : τ) (hpoint : s.point t = .closing) :
    Change s { s.moveTo t .locking with pool := { s.pool with closed := true } }
  /-- The lock is taken. -/
  | lock (t : τ) (hpoint : s.point t = .locking) :
    Change s { s.moveTo t .draining with lock := some t }
  /-- A handle in the queue is closed. -/
  | drain (t : τ) (store : Handle) (queue : List Handle) (hpoint : s.point t = .draining)
    (hqueue : s.pool.queue = store :: queue) :
    Change s { s with pool := { s.pool with queue }, shut := insert store s.shut }
  /-- The queue is empty. -/
  | drained (t : τ) (hpoint : s.point t = .draining) (hqueue : s.pool.queue = []) :
    Change s (s.moveTo t (.sweeping s.pool.all))
  /-- One of all handles is closed. -/
  | sweep (t : τ) (store : Handle) (rest : List Handle)
    (hpoint : s.point t = .sweeping (store :: rest)) :
    Change s { s.moveTo t (.sweeping rest) with shut := insert store s.shut }
  /-- All handles were closed. -/
  | swept (t : τ) (hpoint : s.point t = .sweeping []) :
    Change s { s.moveTo t .idle with pool := { s.pool with all := [] }, lock := none }

/-- A thread that holds nothing and is counted nowhere changes the pool in one of the listed ways
when it takes a handle. -/
theorem change_of_take (hhandle : (s.point t).handle = none)
    (hcounted : (s.point t).counted = false) (h : s.take t = some s') : Change s s' := by
  rw [Clients.take] at h
  split at h
  next => cases h
  next store queue hqueue =>
    obtain rfl := Option.some.inj h
    exact .take t store queue hqueue hhandle hcounted

/-- A thread that goes on at the point where it is changes the pool in one of the listed ways. -/
private theorem change_of_go (h : s.go t = some s') : Change s s' := by
  rw [go] at h
  split at h
  next => cases h
  next => cases h
  next hpoint =>
    have hhandle : (s.point t).handle = none := by rw [hpoint]; rfl
    have hcounted : (s.point t).counted = false := by rw [hpoint]; rfl
    -- a client that finds the queue empty goes on to wait
    cases htake : s.take t with
    | none =>
      rw [htake] at h
      obtain rfl := Option.some.inj h
      exact .move t .waiting hhandle.symm hcounted.symm rfl (by rw [hpoint]; exact nofun) nofun
    | some s₁ =>
      rw [htake] at h
      obtain rfl := Option.some.inj h
      exact change_of_take hhandle hcounted htake
  next hpoint => exact change_of_take (by rw [hpoint]; rfl) (by rw [hpoint]; rfl) h
  next store hpoint =>
    obtain rfl := Option.some.inj h
    exact .count t store hpoint
  next store hpoint =>
    -- the put waits while the queue is full
    split_ifs at h
    obtain rfl := Option.some.inj h
    exact .put t store hpoint
  next hpoint =>
    obtain rfl := Option.some.inj h
    exact .uncount t hpoint
  next hpoint =>
    obtain rfl := Option.some.inj h
    exact .shutDown t hpoint
  next hpoint =>
    split at h
    · obtain rfl := Option.some.inj h
      exact .lock t hpoint
    · cases h
  next hpoint =>
    split at h
    next store queue hqueue =>
      obtain rfl := Option.some.inj h
      exact .drain t store queue hpoint hqueue
    next hqueue =>
      obtain rfl := Option.some.inj h
      exact .drained t hpoint hqueue
  next store rest hpoint =>
    obtain rfl := Option.some.inj h
    exact .sweep t store rest hpoint
  next hpoint =>
    obtain rfl := Option.some.inj h
    exact .swept t hpoint

/-- Every step of the clients changes the pool in one of the listed ways. -/
theorem change_of_step {e : ClientEvent τ} (h : step s e = some s') : Change s s' := by
  cases e with
  | acquire t =>
    rw [step] at h
    split_ifs at h with hidle hclosed
    · obtain rfl := Option.some.inj h
      exact .refuse
    · obtain rfl := Option.some.inj h
      exact .move t .acquiring (by rw [hidle]; rfl) (by rw [hidle]; rfl) rfl
        (by rw [hidle]; exact nofun) nofun
  | release t =>
    rw [step] at h
    split at h
    next store hpoint =>
      split_ifs at h with hclosed
      · obtain rfl := Option.some.inj h
        exact .discard t store hpoint hclosed
      · obtain rfl := Option.some.inj h
        exact .move t (.returning store) (by rw [hpoint]; rfl) (by rw [hpoint]; rfl) rfl
          (by rw [hpoint]; exact nofun) fun _ _ => Bool.eq_false_iff.mpr hclosed
    next => cases h
  | close t =>
    rw [step] at h
    split_ifs at h with hidle hclosed
    · obtain rfl := Option.some.inj h
      exact .refuse
    · obtain rfl := Option.some.inj h
      exact .move t .closing (by rw [hidle]; rfl) (by rw [hidle]; rfl) rfl
        (by rw [hidle]; exact nofun) nofun
  | go t => exact change_of_go h

/-! ### Runs -/

/-- The handles that a `close` has gone through. -/
structure Sweeps (n : ℕ) (s : Clients τ) : Prop where
  /-- Nothing is closed while the pool is open. -/
  opened : s.pool.closed = false → s.shut = ∅
  /-- A client only goes through the handles of a closed pool. -/
  closers : ∀ t, (s.point t).closer → s.pool.closed = true
  /-- The pool forgets the handles when all of them are closed. -/
  all : s.pool.all = List.range n ∨ s.pool.all = [] ∧ ∀ h < n, h ∈ s.shut
  /-- A client has closed the handles that are not left. -/
  sweeping : ∀ t rest, s.point t = .sweeping rest → ∀ h < n, h ∈ rest ∨ h ∈ s.shut

/-- The sweeps stay sound when thread `t` moves to `p`, provided that a closed pool stays closed, no
handle is opened again, a thread that closes finds the pool closed, and a sweep at `p` has shut the
handles it has passed. -/
theorem Sweeps.of_point (hs : Sweeps n s) (hpoint : s'.point = Function.update s.point t p)
    (hclosed : s.pool.closed = true → s'.pool.closed = true) (hall : s'.pool.all = s.pool.all)
    (hshut : s.shut ⊆ s'.shut) (hopened : s'.pool.closed = false → s'.shut = ∅)
    (hcloser : p.closer → s'.pool.closed = true)
    (hrest : ∀ rest, p = .sweeping rest → ∀ h < n, h ∈ rest ∨ h ∈ s'.shut) : Sweeps n s' := by
  refine ⟨hopened, fun u hu => ?_, ?_, fun u rest hu => ?_⟩
  · rw [hpoint] at hu
    by_cases hut : u = t
    · rw [hut, Function.update_self] at hu
      exact hcloser hu
    · rw [Function.update_of_ne hut] at hu
      exact hclosed (hs.closers u hu)
  · rw [hall]
    exact hs.all.imp_right fun h => ⟨h.1, fun k hk => hshut (h.2 k hk)⟩
  · rw [hpoint] at hu
    by_cases hut : u = t
    · rw [hut, Function.update_self] at hu
      exact hrest rest hu
    · rw [Function.update_of_ne hut] at hu
      exact fun k hk => (hs.sweeping u rest hu k hk).imp_right fun h => hshut h

/-- In every run, whoever closes the pool. -/
structure Sound (n : ℕ) (s : Clients τ) : Prop where
  /-- The pool has `n` handles. -/
  size : s.pool.poolSize = n
  /-- Every handle is in one place. -/
  places : Places n s.pool.queue s.handles
  /-- While the pool is open, no handle is lost. -/
  complete : s.pool.closed = false → Complete n s.pool.queue s.handles
  /-- The counters agree. -/
  counts : Counts s.pool.acquires s.pool.releases s.pool.borrowed s.countedAt s.pool.closed
  /-- Handles are closed by those who close the pool. -/
  sweeps : Sweeps n s

/-- A step keeps the places of the handles, and loses none while the pool is open. -/
theorem Change.places (h : Change s s') (hp : Places n s.pool.queue s.handles)
    (hc : s.pool.closed = false → Complete n s.pool.queue s.handles)
    (hcloser : ∀ t, (s.point t).closer → s.pool.closed = true) :
    Places n s'.pool.queue s'.handles ∧
      (s'.pool.closed = false → Complete n s'.pool.queue s'.handles) := by
  -- a client whose handle does not change
  have hkeep {t : τ} {p : Point} {s'' : Clients τ}
      (hpoint : s''.point = Function.update s.point t p) (hhandle : p.handle = (s.point t).handle) :
      s''.handles = s.handles := by
    rw [handles_of_point hpoint, hhandle]
    exact Function.update_eq_self t s.handles
  cases h with
  | refuse => exact ⟨hp, hc⟩
  | move t p hhandle => rw [hkeep rfl hhandle]; exact ⟨hp, hc⟩
  | take t store queue hqueue hhandle =>
    rw [hqueue] at hp hc
    rw [handles_of_point rfl]
    exact ⟨hp.take t, fun hopen => (hc hopen).take hhandle⟩
  | count t store hpoint => rw [hkeep rfl (by rw [hpoint]; rfl)]; exact ⟨hp, hc⟩
  | put t store hpoint =>
    have hhandle : s.handles t = some store := by rw [Clients.handles, hpoint]; rfl
    rw [handles_of_point rfl]
    exact ⟨hp.put hhandle, fun hopen => (hc hopen).put hhandle⟩
  | uncount t hpoint => rw [hkeep rfl (by rw [hpoint]; rfl)]; exact ⟨hp, hc⟩
  | discard t store hpoint hclosed =>
    rw [handles_of_point rfl]
    refine ⟨hp.forget t, fun hopen => ?_⟩
    rw [show s.pool.closed = false from hopen] at hclosed
    cases hclosed
  | shutDown t hpoint =>
    rw [hkeep rfl (by rw [hpoint]; rfl)]
    exact ⟨hp, fun hopen => by cases hopen⟩
  | lock t hpoint => rw [hkeep rfl (by rw [hpoint]; rfl)]; exact ⟨hp, hc⟩
  | drain t store queue hpoint hqueue =>
    rw [hqueue] at hp
    refine ⟨hp.drain, fun hopen => ?_⟩
    have hclosed := hcloser t (by rw [hpoint]; rfl)
    rw [show s.pool.closed = false from hopen] at hclosed
    cases hclosed
  | drained t hpoint hqueue => rw [hkeep rfl (by rw [hpoint]; rfl)]; exact ⟨hp, hc⟩
  | sweep t store rest hpoint => rw [hkeep rfl (by rw [hpoint]; rfl)]; exact ⟨hp, hc⟩
  | swept t hpoint => rw [hkeep rfl (by rw [hpoint]; rfl)]; exact ⟨hp, hc⟩

/-- A step (`h`) keeps the counters in order (`hc`), by cases on the kind of step. -/
theorem Change.counts (h : Change s s')
    (hc : Counts s.pool.acquires s.pool.releases s.pool.borrowed s.countedAt s.pool.closed) :
    Counts s'.pool.acquires s'.pool.releases s'.pool.borrowed s'.countedAt s'.pool.closed := by
  -- a client that counts as before
  have hkeep {t : τ} {p : Point} {s'' : Clients τ}
      (hpoint : s''.point = Function.update s.point t p)
      (hcounted : p.counted = (s.point t).counted) : s''.countedAt = s.countedAt := by
    rw [countedAt_of_point hpoint, hcounted]
    exact Function.update_eq_self t s.countedAt
  cases h with
  | refuse => exact hc
  | move t p hhandle hcounted => rw [hkeep rfl hcounted]; exact hc
  | take t store queue hqueue hhandle hcounted =>
    have htaken : (Point.taken store).counted = (s.point t).counted := hcounted.symm
    rw [hkeep rfl htaken]
    exact hc
  | count t store hpoint =>
    rw [countedAt_of_point rfl]
    exact hc.acquire (by rw [countedAt, hpoint]; rfl)
  | put t store hpoint => rw [hkeep rfl (by rw [hpoint]; rfl)]; exact hc
  | uncount t hpoint =>
    rw [countedAt_of_point rfl]
    exact hc.release (by rw [countedAt, hpoint]; rfl)
  | discard t store hpoint hclosed =>
    rw [countedAt_of_point rfl]
    exact hc.discard hclosed t
  | shutDown t hpoint => rw [hkeep rfl (by rw [hpoint]; rfl)]; exact hc.close
  | lock t hpoint => rw [hkeep rfl (by rw [hpoint]; rfl)]; exact hc
  | drain t store queue hpoint hqueue => exact hc
  | drained t hpoint hqueue => rw [hkeep rfl (by rw [hpoint]; rfl)]; exact hc
  | sweep t store rest hpoint => rw [hkeep rfl (by rw [hpoint]; rfl)]; exact hc
  | swept t hpoint => rw [hkeep rfl (by rw [hpoint]; rfl)]; exact hc

/-- A step keeps account of the handles that are closed. -/
theorem Change.sweeps (h : Change s s') (hs : Sweeps n s) : Sweeps n s' := by
  -- a closed pool does not have to keep handles open
  have hshut {q : Prop} (hclosed : s.pool.closed = true) (hopen : s.pool.closed = false) : q := by
    rw [hopen] at hclosed
    cases hclosed
  have hnot {p : Point} (hp : p.closer = false) (rest : List Handle) (hrest : p = .sweeping rest) :
      ∀ h < n, h ∈ rest ∨ h ∈ s'.shut := by
    rw [hrest] at hp
    cases hp
  cases h with
  | refuse => exact hs
  | move t p hhandle hcounted hcloser =>
    exact hs.of_point rfl id rfl (Finset.Subset.refl _) hs.opened
      (fun h => by rw [hcloser] at h; cases h) (hnot hcloser)
  | take t store queue =>
    exact hs.of_point rfl id rfl (Finset.Subset.refl _) hs.opened (fun h => by cases h) (hnot rfl)
  | count t store =>
    exact hs.of_point rfl id rfl (Finset.Subset.refl _) hs.opened (fun h => by cases h) (hnot rfl)
  | put t store =>
    exact hs.of_point rfl id rfl (Finset.Subset.refl _) hs.opened (fun h => by cases h) (hnot rfl)
  | uncount t =>
    exact hs.of_point rfl id rfl (Finset.Subset.refl _) hs.opened (fun h => by cases h) (hnot rfl)
  | discard t store hpoint hclosed =>
    exact hs.of_point rfl id rfl (Finset.subset_insert _ _) (hshut hclosed) (fun h => by cases h)
      (hnot rfl)
  | shutDown t =>
    exact hs.of_point rfl (fun _ => rfl) rfl (Finset.Subset.refl _) (fun h => by cases h)
      (fun _ => rfl) (fun _ h => by cases h)
  | lock t hpoint =>
    exact hs.of_point rfl id rfl (Finset.Subset.refl _) hs.opened
      (fun _ => hs.closers t (by rw [hpoint]; rfl)) (fun _ h => by cases h)
  | drain t store queue hpoint hqueue =>
    have hclosed := hs.closers t (by rw [hpoint]; rfl)
    exact ⟨hshut hclosed, hs.closers,
      hs.all.imp_right fun h => ⟨h.1, fun k hk => Finset.mem_insert_of_mem (h.2 k hk)⟩,
      fun u rest hu k hk => (hs.sweeping u rest hu k hk).imp_right Finset.mem_insert_of_mem⟩
  | drained t hpoint hqueue =>
    refine hs.of_point rfl id rfl (Finset.Subset.refl _) hs.opened
      (fun _ => hs.closers t (by rw [hpoint]; rfl)) fun rest hrest k hk => ?_
    obtain rfl := Point.sweeping.inj hrest
    rcases hs.all with hall | ⟨-, hall⟩
    · rw [hall]
      exact .inl (List.mem_range.mpr hk)
    · exact .inr (hall k hk)
  | sweep t store rest hpoint =>
    refine hs.of_point rfl id rfl (Finset.subset_insert _ _)
      (hshut (hs.closers t (by rw [hpoint]; rfl)))
      (fun _ => hs.closers t (by rw [hpoint]; rfl)) fun rest' hrest k hk => ?_
    obtain rfl := Point.sweeping.inj hrest
    show k ∈ _ ∨ k ∈ insert store s.shut
    rw [Finset.mem_insert]
    rcases hs.sweeping t _ hpoint k hk with hin | hin
    · rcases List.mem_cons.mp hin with rfl | hin
      · exact .inr (.inl rfl)
      · exact .inl hin
    · exact .inr (.inr hin)
  | swept t hpoint =>
    have hall : ∀ k < n, k ∈ s.shut := fun k hk =>
      (hs.sweeping t _ hpoint k hk).resolve_left List.not_mem_nil
    refine ⟨hs.opened, fun u hu => ?_, .inr ⟨rfl, hall⟩, fun u rest hu k hk => .inr (hall k hk)⟩
    by_cases hut : u = t
    · rw [hut, point_moveTo, Function.update_self] at hu
      cases hu
    · rw [point_moveTo, Function.update_of_ne hut] at hu
      exact hs.closers u hu

/-- No step changes the size of the pool. -/
private theorem poolSize_of_change (h : Change s s') : s'.pool.poolSize = s.pool.poolSize := by
  cases h <;> rfl

/-- One step of any client (`h`) keeps the pool of `n` handles sound (`hs`). -/
theorem Sound.of_step (hs : Sound n s) {e : ClientEvent τ} (h : step s e = some s') :
    Sound n s' := by
  have hchange := change_of_step h
  obtain ⟨hplaces, hcomplete⟩ := hchange.places hs.places hs.complete hs.sweeps.closers
  exact ⟨(poolSize_of_change hchange).trans hs.size, hplaces, hcomplete, hchange.counts hs.counts,
    hchange.sweeps hs.sweeps⟩

omit [DecidableEq τ] in
/-- A new pool is sound, for a size that is raised to one at least. -/
theorem sound_start (poolSize : ℤ) :
    Sound (max 1 poolSize).toNat (start poolSize : Clients τ) := by
  rw [start, StorePool.new_eq]
  refine ⟨rfl, ⟨(List.reverse_perm _).nodup_iff.mpr List.nodup_range, by simp, ?_, ?_⟩, ?_, ?_, ?_⟩
  · intro t h ht
    cases ht
  · intro t t' h ht
    cases ht
  · intro _ h hh
    exact .inl (by simpa using hh)
  · refine ⟨rfl, ∅, fun t => ?_, Nat.zero_le _, fun _ => rfl⟩
    exact iff_of_false (Finset.notMem_empty t) Bool.false_ne_true
  · exact ⟨fun _ => rfl, fun t ht => (nomatch ht), .inl rfl, fun t rest ht => (nomatch ht)⟩

/-- A client has a handle that works. -/
def Works (s : Clients τ) (t : τ) : Prop := ∃ store, s.point t = .holding store ∧ store ∉ s.shut

/-- What the clients can rely on. -/
structure Reliable (n : ℕ) (s : Clients τ) : Prop where
  /-- A handle is with one client at most, and not in the queue at the same time. -/
  exclusive : ∀ t h, s.handles t = some h →
    h ∉ s.pool.queue ∧ ∀ t', s.handles t' = some h → t' = t
  /-- A client that returns its handle does not wait for room in the queue. -/
  returns : ∀ t h, s.point t = .returning h → (step s (.go t)).isSome
  /-- Every handle that was acquired was released, or counts as borrowed. -/
  balance : s.pool.acquires = s.pool.releases + s.pool.borrowed
  /-- While the pool is open, as many count as borrowed as clients are counted. -/
  borrowed : s.pool.closed = false →
    ∃ F : Finset τ, (∀ t, t ∈ F ↔ (s.point t).counted) ∧ s.pool.borrowed = F.card
  /-- While the pool is open, every handle is in the queue or with a client. -/
  complete : s.pool.closed = false → ∀ h < n, h ∈ s.pool.queue ∨ ∃ t, s.handles t = some h
  /-- While the pool is open, every lease works. -/
  works : s.pool.closed = false → ∀ t h, s.point t = .holding h → s.Works t

/-- In a sound state no handle is leased twice, and what the pool counts is what the threads
hold. -/
private theorem Sound.reliable (hs : Sound n s) : Reliable n s where
  exclusive t h ht :=
    ⟨(hs.places.apart t h ht).2, fun t' ht' => hs.places.exclusive t' t h ht' ht⟩
  returns t h ht := by
    have hroom := hs.places.length_lt (show s.handles t = some h by rw [handles, ht]; rfl)
    simp only [step, go, ht, hs.size, if_pos hroom, Option.isSome_some]
  balance := hs.counts.balance
  borrowed hopen := by
    obtain ⟨F, hF, -, heq⟩ := hs.counts.clients
    exact ⟨F, hF, heq hopen⟩
  complete := hs.complete
  works hopen t h ht := ⟨h, ht, by rw [hs.sweeps.opened hopen]; exact Finset.notMem_empty h⟩

/-- In every run of `acquire`, `release` and `close` calls, however their steps interleave, handles
are leased exclusively, no `release` waits, and the counters agree; until the pool is closed, no
handle is lost, and every lease works. -/
theorem run_reliable (poolSize : ℤ) (events : List (ClientEvent τ)) :
    Along step (Reliable (max 1 poolSize).toNat) (start poolSize) events :=
  (along_of_invariant (fun _ _ _ hs h => hs.of_step h) (sound_start poolSize)).imp
    fun _ hs => hs.reliable

/-! ### Closing -/

/-- A `close` has gone through all handles: the pool has forgotten them. -/
def Swept (s : Clients τ) : Prop := s.pool.all = []

/-- The pool is closed, and no handle is left in the queue, or on its way there. -/
def Deserted (s : Clients τ) : Prop :=
  s.pool.closed = true ∧ s.pool.queue = [] ∧ ∀ t h, s.point t ≠ .returning h

/-- Handles that a sweep has shut stay shut through every step. -/
private theorem Change.keeps_swept (h : Change s s') (hs : Swept s) : Swept s' := by
  cases h with
  | swept => rfl
  | _ => exact hs

omit [DecidableEq τ] in
/-- When all handles are closed (`hswept`), no lease works in a pool that has handles (`hn`). -/
private theorem Sound.not_works (hs : Sound n s) (hn : 0 < n) (hswept : Swept s) (t : τ) :
    ¬ s.Works t := by
  rintro ⟨store, hpoint, hopen⟩
  have hlt := (hs.places.apart t store (by rw [handles, hpoint]; rfl)).1
  rcases hs.sweeps.all with hall | ⟨-, hall⟩
  · rw [Swept, hall, List.range_eq_nil] at hswept
    omega
  · exact hopen (hall store hlt)

/-- A step leaves a deserted pool deserted, and those who wait for it waiting. -/
private theorem Change.deserted (h : Change s s') (hd : Deserted s) :
    Deserted s' ∧ ∀ t, s.point t = .waiting → s'.point t = .waiting := by
  obtain ⟨hclosed, hqueue, hreturning⟩ := hd
  -- a client that does not wait goes where it does not put a handle back
  have hmove {t : τ} {p : Point} (hwaits : s.point t ≠ .waiting)
      (hp : ∀ h, p ≠ .returning h) :
      (∀ u h, Function.update s.point t p u ≠ .returning h) ∧
        ∀ u, s.point u = .waiting → Function.update s.point t p u = .waiting := by
    constructor
    · intro u h
      by_cases hu : u = t
      · rw [hu, Function.update_self]
        exact hp h
      · rw [Function.update_of_ne hu]
        exact hreturning u h
    · intro u hwait
      rw [Function.update_of_ne, hwait]
      rintro rfl
      exact hwaits hwait
  cases h with
  | refuse => exact ⟨⟨hclosed, hqueue, hreturning⟩, fun _ h => h⟩
  | move t p hhandle hcounted hcloser hwaits hreturns =>
    obtain ⟨hout, hwait⟩ := hmove hwaits fun h hp => by
      rw [hreturns h hp] at hclosed
      cases hclosed
    exact ⟨⟨hclosed, hqueue, hout⟩, hwait⟩
  | take t store queue hfull =>
    rw [hqueue] at hfull
    cases hfull
  | count t store hpoint =>
    obtain ⟨hout, hwait⟩ := hmove (p := .holding store) (by rw [hpoint]; exact nofun) fun _ => nofun
    exact ⟨⟨hclosed, hqueue, hout⟩, hwait⟩
  | put t store hpoint => exact absurd hpoint (hreturning t store)
  | uncount t hpoint =>
    obtain ⟨hout, hwait⟩ := hmove (p := .idle) (by rw [hpoint]; exact nofun) fun _ => nofun
    exact ⟨⟨hclosed, hqueue, hout⟩, hwait⟩
  | discard t store hpoint =>
    obtain ⟨hout, hwait⟩ := hmove (p := .idle) (by rw [hpoint]; exact nofun) fun _ => nofun
    exact ⟨⟨hclosed, hqueue, hout⟩, hwait⟩
  | shutDown t hpoint =>
    obtain ⟨hout, hwait⟩ := hmove (p := .locking) (by rw [hpoint]; exact nofun) fun _ => nofun
    exact ⟨⟨rfl, hqueue, hout⟩, hwait⟩
  | lock t hpoint =>
    obtain ⟨hout, hwait⟩ := hmove (p := .draining) (by rw [hpoint]; exact nofun) fun _ => nofun
    exact ⟨⟨hclosed, hqueue, hout⟩, hwait⟩
  | drain t store queue hpoint hfull =>
    rw [hqueue] at hfull
    cases hfull
  | drained t hpoint =>
    obtain ⟨hout, hwait⟩ :=
      hmove (p := .sweeping s.pool.all) (by rw [hpoint]; exact nofun) fun _ => nofun
    exact ⟨⟨hclosed, hqueue, hout⟩, hwait⟩
  | sweep t store rest hpoint =>
    obtain ⟨hout, hwait⟩ := hmove (p := .sweeping rest) (by rw [hpoint]; exact nofun) fun _ => nofun
    exact ⟨⟨hclosed, hqueue, hout⟩, hwait⟩
  | swept t hpoint =>
    obtain ⟨hout, hwait⟩ := hmove (p := .idle) (by rw [hpoint]; exact nofun) fun _ => nofun
    exact ⟨⟨hclosed, hqueue, hout⟩, hwait⟩

/-- After a `close` has gone through the handles, no lease works in what follows, those of the
clients that still hold one included. And when a `close` leaves a pool deserted, the clients that
wait in `acquire` wait in everything that follows. -/
theorem run_closed (poolSize : ℤ) {events : List (ClientEvent τ)}
    (hrun : run step (start poolSize) events = some s) (more : List (ClientEvent τ)) :
    (Swept s → Along step (fun s' => ∀ t, ¬ s'.Works t) s more) ∧
      (Deserted s → ∀ t, s.point t = .waiting →
        Along step (fun s' => s'.point t = .waiting) s more) := by
  have hsound : Sound (max 1 poolSize).toNat s :=
    Along.run (along_of_invariant (fun _ _ _ hs h => hs.of_step h) (sound_start poolSize)) hrun
  constructor
  · intro hswept
    have halong : Along step (fun s' => Sound (max 1 poolSize).toNat s' ∧ Swept s') s more :=
      along_of_invariant (fun _ _ _ hs h => ⟨hs.1.of_step h, (change_of_step h).keeps_swept hs.2⟩)
        ⟨hsound, hswept⟩
    exact halong.imp fun s' hs => hs.1.not_works (by omega) hs.2
  · intro hdeserted t hwait
    have halong : Along step (fun s' => Deserted s' ∧ s'.point t = .waiting) s more :=
      along_of_invariant (fun _ _ _ hs h => by
        obtain ⟨hd, hw⟩ := (change_of_step h).deserted hs.1
        exact ⟨hd, hw t hs.2⟩) ⟨hdeserted, hwait⟩
    exact halong.imp fun s' hs => hs.2

/-- The three clients of a pool of one handle. -/
inductive Trio where
  /-- The client that has the handle. -/
  | holder
  /-- The client that waits for it. -/
  | waiter
  /-- The client that closes the pool. -/
  | closer
deriving DecidableEq

/-- The pool is closed while the handle is leased. -/
def closeUnderLease : List (ClientEvent Trio) :=
  [.acquire .holder, .go .holder, .go .holder, .acquire .waiter, .go .waiter, .close .closer,
    .go .closer, .go .closer, .go .closer, .go .closer, .go .closer]

theorem run_closed_closeUnderLease : ∃ s, run step (start 1) closeUnderLease = some s ∧
    s.point .holder = .holding 0 ∧ s.point .waiter = .waiting ∧
    Along step (fun s' => ∀ t, ¬ s'.Works t) s [.release .holder] ∧
      Along step (fun s' => s'.point .waiter = .waiting) s [.release .holder] := by
  obtain ⟨s, hrun, hpoint⟩ : ∃ s, run step (start 1) closeUnderLease = some s ∧
      (s.point .holder = .holding 0 ∧ s.point .waiter = .waiting ∧ s.point .closer = .idle) ∧
        s.pool.all = [] ∧ s.pool.closed = true ∧ s.pool.queue = [] :=
    ⟨_, rfl, ⟨rfl, rfl, rfl⟩, rfl, rfl, rfl⟩
  obtain ⟨⟨hholder, hwaiter, hcloser⟩, hall, hclosed, hqueue⟩ := hpoint
  have hclose := run_closed 1 hrun [.release .holder]
  refine ⟨s, hrun, hholder, hwaiter, hclose.1 hall,
    hclose.2 ⟨hclosed, hqueue, fun t h => ?_⟩ .waiter hwaiter⟩
  cases t with
  | holder => rw [hholder]; exact nofun
  | waiter => rw [hwaiter]; exact nofun
  | closer => rw [hcloser]; exact nofun

end Clients

end EngramDB
