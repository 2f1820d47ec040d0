import EngramDB.Io.Pool.Invariant

/-!
# The pool neither loses nor repeats work

* `Inv.executed_of_hasLeft`: a call that has left its wait has had every job executed once, and none
  of them runs;
* `Stepped.work_lt`: without new calls and spurious wake-ups, every step uses up some of the work
  that is left, so the threads come to rest;
* `Inv.executed_of_quiet`: when they do, every job has been executed and every call is over;
* `neither_loses_nor_repeats` collects this for every run of a pool.
-/

namespace EngramDB

namespace Pool

open Machine Census State

variable {ε α : Type} {s s' : State ε α} {e : Event ε α} {c : ℕ} {call : Call ε α}

/-- The jobs of a call among the submitted ones are its batch. -/
theorem Inv.countP_submitted (hi : Inv s) (hcall : s.calls[c]? = some call)
    (hcaller : call.caller ≠ .submitting) :
    s.submitted.countP (·.call = c) = call.jobs.length := by
  have hperm : (s.submitted.filter (·.call = c)).Perm (call.batch c) := by
    refine (List.perm_ext_iff_of_nodup (hi.nodup.filter _) (nodup_batch call c)).mpr fun j => ?_
    rw [List.mem_filter, hi.mem_submitted, mem_batch, decide_eq_true_eq, and_comm]
    refine and_congr_right fun hj => ?_
    simp only [IsSubmitted, hj, hcall, Option.some.injEq]
    constructor
    · rintro ⟨call', rfl, -, hlt⟩
      exact hlt
    · exact fun hlt => ⟨call, rfl, hcaller, hlt⟩
  rw [List.countP_eq_length_filter, hperm.length_eq]
  simp [Call.batch]

/-- A job that was submitted (`hj`) is in exactly one place: waiting, running or executed. -/
theorem Inv.count_submitted (hi : Inv s) {j : Job} (hj : j ∈ s.submitted) :
    s.queue.count j + s.running.count j + s.executed.count j = 1 := by
  have hcount := hi.conserved.count_eq j
  rwa [List.count_append, List.count_append, List.count_eq_one_of_mem hi.nodup hj] at hcount

/-- A list without jobs of a call does not have job `i` of the call. -/
theorem notMem_of_countP_eq_zero {l : List Job} (h : l.countP (·.call = c) = 0) (i : ℕ) :
    (⟨c, i⟩ : Job) ∉ l := by
  intro hmem
  have hpos : 0 < l.countP (·.call = c) := List.countP_pos_iff.mpr ⟨_, hmem, by simp⟩
  omega

/-- A job has been executed once, and it is neither in the queue nor does it run. -/
def State.ExecutedOnce (s : State ε α) (j : Job) : Prop :=
  s.executed.count j = 1 ∧ j ∉ s.queue ∧ j ∉ s.running

/-- When all jobs of a call are executed, up to the count, each was executed once. -/
theorem Inv.executedOnce_of_countP (hi : Inv s) (hcall : s.calls[c]? = some call)
    (hcaller : call.caller ≠ .submitting)
    (hall : call.jobs.length ≤ s.executed.countP (·.call = c)) :
    ∀ i < call.jobs.length, s.ExecutedOnce ⟨c, i⟩ := by
  intro i hlt
  have hsub := hi.conserved.countP_eq (·.call = c)
  rw [hi.countP_submitted hcall hcaller, List.countP_append, List.countP_append] at hsub
  -- so no job of the call is left in the queue or with a worker
  have hqueue : (⟨c, i⟩ : Job) ∉ s.queue := notMem_of_countP_eq_zero (by omega) i
  have hrunning : (⟨c, i⟩ : Job) ∉ s.running := notMem_of_countP_eq_zero (by omega) i
  have hone := hi.count_submitted ((hi.mem_submitted ⟨c, i⟩).mpr ⟨call, hcall, hcaller, hlt⟩)
  rw [List.count_eq_zero_of_not_mem hqueue, List.count_eq_zero_of_not_mem hrunning] at hone
  exact ⟨by omega, hqueue, hrunning⟩

/-- A call that has left its wait has submitted its batch. -/
theorem Caller.HasLeft.ne_submitting {k : Caller} (h : k.HasLeft) : k ≠ .submitting := by
  rintro rfl
  exact h

/-- A call that has left its wait has had all its jobs executed. -/
theorem Inv.executed_of_hasLeft (hi : Inv s) (hcall : s.calls[c]? = some call)
    (hleft : call.caller.HasLeft) : ∀ i < call.jobs.length, s.ExecutedOnce ⟨c, i⟩ := by
  refine hi.executedOnce_of_countP hcall hleft.ne_submitting ?_
  have hdone := (hi.sound call (List.mem_of_getElem? hcall)).left hleft
  have hcounted := hi.counted c
  rw [doneOf_eq hcall] at hcounted
  omega

/-! ### The work that is left -/

/-- What a worker has left to do before it sleeps, if it finds the queue empty. -/
def Worker.work : Worker → ℕ
  | .waiting => 0
  | .ready => 1
  | .recording _ => 2
  | .ran _ => 5
  | .running _ => 6

/-- What a caller has left to do. Every job of its batch costs a worker's time and a
notification. -/
def Call.work (call : Call ε α) : ℕ :=
  match call.caller with
  | .submitting => 8 * call.jobs.length + 3
  | .notifying left => 2 * left + 4
  | .checking => 2
  | .leaving => 1
  | .waiting | .returned | .resumed _ => 0

/-- What the threads have left to do. -/
def State.work (s : State ε α) : ℕ :=
  (s.workers.map Worker.work).sum + 6 * s.queue.length + (s.calls.map Call.work).sum

/-- A step that the threads of the pool take on their own: no new call, no spurious wake-up. -/
def Event.Own : Event ε α → Prop
  | .scopeRun _ | .wakeWorker _ | .wakeCaller _ => False
  | _ => True

/-- The threads are at rest. -/
def State.Quiet (s : State ε α) : Prop := ∀ e : Event ε α, e.Own → step s e = none

theorem work_oneNotified (call : Call ε α) (left : ℕ) :
    (call.oneNotified left).work = 2 * left + 2 := by
  cases left with
  | zero => rfl
  | succ left =>
    simp only [Call.oneNotified, Call.work]
    omega

private theorem work_drained (call : Call ε α) : call.drained.work = 0 := by
  unfold Call.drained Call.work
  cases call.panics <;> rfl

/-- Every step that the threads take on their own uses up work. -/
theorem Stepped.work_lt (h : Stepped s e s') (hown : e.Own)
    (hsized : ∀ call ∈ s.calls, Fits s.workers.length call.jobs) : s'.work < s.work := by
  simp only [State.work]
  cases h with
  | scopeRun hne hlen => exact hown.elim
  | @submit c call hcall hcaller =>
    have hsum := sum_map_set Call.work call.enqueued hcall
    have hpos := List.length_pos_iff.mpr (hsized call (List.mem_of_getElem? hcall)).1
    have hold : call.work = 8 * call.jobs.length + 3 := by simp only [Call.work, hcaller]
    have hnew : call.enqueued.work = 2 * (call.jobs.length - 1) + 4 := rfl
    simp only [State.enqueue, State.setCall, List.length_append, Call.batch, List.length_map,
      List.length_range]
    omega
  | @notifySome c w left call hcall hcaller hw =>
    have hsum := sum_map_set Call.work (call.oneNotified left) hcall
    have hworkers := sum_map_set Worker.work .ready hw
    have hold : call.work = 2 * left + 4 := by simp only [Call.work, hcaller]
    simp only [work_oneNotified, Worker.work, State.setCall, State.setWorker] at hsum hworkers ⊢
    omega
  | @notifyNone c left call hcall hcaller hnone =>
    have hsum := sum_map_set Call.work (call.oneNotified left) hcall
    have hold : call.work = 2 * left + 4 := by simp only [Call.work, hcaller]
    simp only [work_oneNotified, State.setCall] at hsum ⊢
    omega
  | sleep hw hqueue =>
    have hworkers := sum_map_set Worker.work .waiting hw
    simp only [Worker.work, State.setWorker] at hworkers ⊢
    omega
  | @take w j queue hw hqueue =>
    have hworkers := sum_map_set Worker.work (.running j) hw
    have hlen : s.queue.length = queue.length + 1 := by rw [hqueue, List.length_cons]
    simp only [Worker.work, State.setWorker] at hworkers ⊢
    omega
  | @finish w j hw =>
    have hworkers := sum_map_set Worker.work (.ran j) hw
    simp only [Worker.work, State.setWorker] at hworkers ⊢
    omega
  | @count w j call hw hcall =>
    have hworkers := sum_map_set Worker.work (call.afterCount j) hw
    have hsum := sum_map_set Call.work call.counted hcall
    have hafter : (call.afterCount j).work ≤ 2 := by
      unfold Call.afterCount
      split_ifs <;> simp [Worker.work]
    -- the caller that is woken up looks at its count once more
    have hnew : call.counted.work ≤ call.work + 2 := by
      unfold Call.counted Call.work
      split_ifs with hcaller <;> simp [hcaller]
    have hold : Worker.work (.ran j) = 5 := rfl
    simp only [State.setCall, State.setWorker]
    omega
  | @record w j call hw hcall =>
    have hworkers := sum_map_set Worker.work .ready hw
    have hsum := sum_map_set Call.work (call.recorded j) hcall
    have hnew : (call.recorded j).work = call.work := rfl
    simp only [Worker.work, State.setCall, State.setWorker] at hworkers ⊢
    omega
  | @check c call hcall hcaller =>
    have hsum := sum_map_set Call.work call.checked hcall
    have hold : call.work = 2 := by simp only [Call.work, hcaller]
    have hnew : call.checked.work ≤ 1 := by
      unfold Call.checked Call.work
      split_ifs <;> simp
    simp only [State.setCall]
    omega
  | @drain c call hcall hcaller =>
    have hsum := sum_map_set Call.work call.drained hcall
    have hold : call.work = 1 := by simp only [Call.work, hcaller]
    rw [work_drained] at hsum
    simp only [State.setCall]
    omega
  | wakeWorker hw => exact hown.elim
  | wakeCaller hcall hcaller => exact hown.elim

/-- The threads come to rest after at most as many steps of their own as there is work left. -/
private theorem Inv.length_le_work {es : List (Event ε α)} (hi : Inv s) (hown : ∀ e ∈ es, e.Own)
    (h : run step s es = some s') : es.length ≤ s.work := by
  induction es generalizing s with
  | nil => exact Nat.zero_le _
  | cons e es ih =>
    obtain ⟨t, ht, hrun⟩ := run_cons_eq_some.mp h
    have hlt := (Stepped.of_step ht).work_lt (hown e (by simp)) hi.sized
    have hle := ih (hi.next (.of_step ht)) (fun e he => hown e (by simp [he])) hrun
    rw [List.length_cons]
    omega

/-! ### The pool at rest -/

/-- The call of a job that was executed (`hj`) exists. -/
theorem Inv.exists_call (hi : Inv s) {j : Job} (hj : j ∈ s.executed) :
    ∃ call, s.calls[j.call]? = some call := by
  have hsub := hi.conserved.mem_iff.mp (List.mem_append_right _ hj)
  obtain ⟨call, hcall, -⟩ := (hi.mem_submitted j).mp hsub
  exact ⟨call, hcall⟩

/-- A job that a worker counts or records next has been executed. -/
theorem Inv.mem_executed (hi : Inv s) {j : Job} (hj : j ∈ s.ran ∨ j ∈ s.recording) :
    j ∈ s.executed := by
  have hle := hi.landed j
  have hpos : 0 < s.ran.count j + s.recording.count j := by
    rcases hj with hj | hj
    · have := List.count_pos_iff.mpr hj
      omega
    · have := List.count_pos_iff.mpr hj
      omega
  exact List.count_pos_iff.mp (by omega)

/-- At rest (`hq`), every worker sleeps: one that did anything else could take a step. -/
private theorem Inv.asleep_of_quiet (hi : Inv s) (hq : s.Quiet) :
    ∀ p ∈ s.workers, p = .waiting := by
  intro p hp
  obtain ⟨w, hw⟩ := List.mem_iff_getElem?.mp hp
  -- in any state but the first a worker has a step to take
  cases p with
  | waiting => rfl
  | ready =>
    have hnone := hq (.take w) trivial
    simp only [step, hw, if_true] at hnone
    split at hnone <;> cases hnone
  | running j =>
    have hnone := hq (.finish w) trivial
    simp [step, hw] at hnone
  | ran j =>
    have hnone := hq (.count w) trivial
    have hj : j ∈ s.ran := List.mem_filterMap.mpr ⟨_, hp, rfl⟩
    obtain ⟨call, hcall⟩ := hi.exists_call (hi.mem_executed (.inl hj))
    simp [step, hw, hcall] at hnone
  | recording j =>
    have hnone := hq (.record w) trivial
    have hj : j ∈ s.recording := List.mem_filterMap.mpr ⟨_, hp, rfl⟩
    obtain ⟨call, hcall⟩ := hi.exists_call (hi.mem_executed (.inr hj))
    simp [step, hw, hcall] at hnone

/-- At rest, every caller sleeps or is done with its call. -/
theorem asleep_or_isOver_of_quiet (hq : s.Quiet) (hcall : s.calls[c]? = some call) :
    call.caller = .waiting ∨ call.caller.IsOver := by
  cases hcaller : call.caller with
  | submitting =>
    have hnone := hq (.submit c) trivial
    simp [step, hcall, hcaller] at hnone
  | notifying left =>
    -- a notification can always be made: to a sleeping worker, or to none
    by_cases hsleep : Worker.waiting ∈ s.workers
    · obtain ⟨w, hw⟩ := List.mem_iff_getElem?.mp hsleep
      have hnone := hq (.notifyOne c (some w)) trivial
      simp [step, hcall, hcaller, hw] at hnone
    · have hnone := hq (.notifyOne c none) trivial
      simp [step, hcall, hcaller, hsleep] at hnone
  | checking =>
    have hnone := hq (.check c) trivial
    simp [step, hcall, hcaller] at hnone
  | waiting => exact .inl rfl
  | leaving =>
    have hnone := hq (.drain c) trivial
    simp [step, hcall, hcaller] at hnone
  | returned => exact .inr trivial
  | resumed j => exact .inr trivial

/-- At rest, every call is over, and every job of it has been executed once. -/
theorem Inv.executed_of_quiet (hi : Inv s) (hq : s.Quiet) (hcall : s.calls[c]? = some call) :
    call.caller.IsOver ∧ ∀ i < call.jobs.length, s.ExecutedOnce ⟨c, i⟩ := by
  have hasleep := hi.asleep_of_quiet hq
  -- no worker holds a job
  have hrunning : s.running = [] := by
    refine List.filterMap_eq_nil_iff.mpr fun p hp => ?_
    rw [hasleep p hp]
    rfl
  have hran : s.ran = [] := by
    refine List.filterMap_eq_nil_iff.mpr fun p hp => ?_
    rw [hasleep p hp]
    rfl
  -- the queue is empty, for a caller that has a worker to notify is not at rest
  have hqueue : s.queue = [] := by
    by_contra hne
    refine hi.awake ⟨hne, hasleep, fun call' hcall' howes => ?_⟩
    obtain ⟨c', hc'⟩ := List.mem_iff_getElem?.mp hcall'
    rcases asleep_or_isOver_of_quiet hq hc' with h | h
    · rw [h] at howes
      exact howes
    · cases hk : call'.caller <;> simp_all [Caller.Owes, Caller.IsOver]
  have hcaller : call.caller ≠ .submitting := by
    intro hsub
    rcases asleep_or_isOver_of_quiet hq hcall with h | h
    · rw [h] at hsub
      cases hsub
    · rw [hsub] at h
      exact h
  -- so all its jobs are executed, and counted, too
  have hall : s.executed.countP (·.call = c) = call.jobs.length := by
    rw [← hi.countP_submitted hcall hcaller, ← hi.conserved.countP_eq, hqueue, hrunning,
      List.nil_append, List.nil_append]
  have hdone := hi.counted c
  rw [doneOf_eq hcall, hran, List.countP_nil] at hdone
  refine ⟨?_, hi.executedOnce_of_countP hcall hcaller (Nat.le_of_eq hall.symm)⟩
  rcases asleep_or_isOver_of_quiet hq hcall with h | h
  · have hlt := (hi.sound call (List.mem_of_getElem? hcall)).asleep h
    omega
  · exact h

/-! ### Every run -/

/-- In every state that a pool reaches, whatever the order of the steps of its workers and callers:
a submitted job is in one place, and executed once when its call has left its wait; no job waits for
workers that all sleep while no caller has one left to notify; the threads come to rest after at
most `work` steps of their own; and at rest every call is over and every job has been executed
once. -/
theorem neither_loses_nor_repeats {w : ℕ} {es : List (Event ε α)} {s : State ε α}
    (h : run step (State.start w) es = some s) :
    (∀ j, s.IsSubmitted j → s.queue.count j + s.running.count j + s.executed.count j = 1) ∧
      (∀ c call, s.calls[c]? = some call → call.caller.HasLeft →
        ∀ i < call.jobs.length, s.ExecutedOnce ⟨c, i⟩) ∧
      ¬ s.LostWakeup ∧
      (∀ es' s', (∀ e ∈ es', e.Own) → run step s es' = some s' → es'.length ≤ s.work) ∧
      (s.Quiet → ∀ c call, s.calls[c]? = some call →
        call.caller.IsOver ∧ ∀ i < call.jobs.length, s.ExecutedOnce ⟨c, i⟩) := by
  have hi := Inv.of_run h
  refine ⟨fun j hj => hi.count_submitted ((hi.mem_submitted j).mpr hj),
    fun c call hcall hleft => ?_,
    hi.awake, fun es' s' hown hrun => hi.length_le_work hown hrun, fun hq c call hcall => ?_⟩
  · exact hi.executed_of_hasLeft hcall hleft
  · exact hi.executed_of_quiet hq hcall

/-- One worker runs the one job of a call, and the call returns. -/
def oneJob : List (Event Unit Unit) :=
  [.scopeRun [.ok ()], .submit 0, .take 0, .notifyOne 0 none, .check 0, .finish 0,
    .count 0, .check 0, .drain 0, .take 0]

/-- The state in which `oneJob` ends. -/
def oneJobDone : State Unit Unit where
  workers := [.waiting]
  queue := []
  calls := [{ jobs := [.ok ()], caller := .returned, done := 1, panics := [] }]
  submitted := [⟨0, 0⟩]
  executed := [⟨0, 0⟩]

theorem neither_loses_nor_repeats_oneJob :
    (∀ j, oneJobDone.IsSubmitted j →
        oneJobDone.queue.count j + oneJobDone.running.count j + oneJobDone.executed.count j = 1) ∧
      (∀ c call, oneJobDone.calls[c]? = some call → call.caller.HasLeft →
        ∀ i < call.jobs.length, oneJobDone.ExecutedOnce ⟨c, i⟩) ∧
      ¬ oneJobDone.LostWakeup ∧
      (∀ es' s', (∀ e ∈ es', e.Own) → run step oneJobDone es' = some s' →
        es'.length ≤ oneJobDone.work) ∧
      (oneJobDone.Quiet → ∀ c call, oneJobDone.calls[c]? = some call →
        call.caller.IsOver ∧ ∀ i < call.jobs.length, oneJobDone.ExecutedOnce ⟨c, i⟩) :=
  neither_loses_nor_repeats (w := 1)
    (show run step (State.start 1) oneJob = some oneJobDone from rfl)

end Pool

end EngramDB
