import EngramDB.Io.Pool
import Mathlib.Data.List.Nodup

/-!
# What holds in every state of the pool

A submitted job is in the queue, runs, or has been executed, and it is in one of these places once
(`Inv.conserved`, `Inv.nodup`). The count of a call is the number of its executed jobs, up to those
whose workers have not counted them yet (`Inv.counted`), and its caller sleeps and leaves by that
count (`Inv.sound`). A job in the queue is never left to sleeping workers (`Inv.awake`).

Each field of `Inv` is kept by every step, and `Inv.of_run` puts them together for every run.
-/

namespace EngramDB

namespace Pool

open Machine Census

variable {ε α : Type}

/-- The job whose closure a worker runs. -/
def Worker.running? : Worker → Option Job
  | .running j => some j
  | _ => none

/-- The job whose closure a worker has run and not counted yet. -/
def Worker.ran? : Worker → Option Job
  | .ran j => some j
  | _ => none

/-- The job that a worker has counted and whose panic it has not recorded yet. -/
def Worker.recording? : Worker → Option Job
  | .recording j => some j
  | _ => none

/-- The caller has a worker left to notify. -/
def Caller.Owes : Caller → Prop
  | .notifying _ => True
  | _ => False

/-- The wait of the call is over. -/
def Caller.HasLeft : Caller → Prop
  | .leaving | .returned | .resumed _ => True
  | _ => False

/-- The call is over. -/
def Caller.IsOver : Caller → Prop
  | .returned | .resumed _ => True
  | _ => False

/-- The batch is not empty, and there are enough workers for it. -/
def Fits (workers : ℕ) (jobs : List (Outcome ε α)) : Prop := jobs ≠ [] ∧ jobs.length ≤ workers

/-- A call sleeps only while its count has not reached the number of its jobs, and leaves its wait
only when it has. -/
structure Call.Sound (call : Call ε α) : Prop where
  /-- A sleeping caller waits for a job. -/
  asleep : call.caller = .waiting → call.done < call.jobs.length
  /-- A caller whose wait is over has all jobs counted. -/
  left : call.caller.HasLeft → call.jobs.length ≤ call.done

namespace State

/-- The jobs whose closures run. -/
def running (s : State ε α) : List Job := s.workers.filterMap Worker.running?

/-- The jobs whose closures have been run and that are not counted yet. -/
def ran (s : State ε α) : List Job := s.workers.filterMap Worker.ran?

/-- The counted jobs whose panics are not recorded yet. -/
def recording (s : State ε α) : List Job := s.workers.filterMap Worker.recording?

/-- The job was put into the queue: its call has submitted its batch. -/
def IsSubmitted (s : State ε α) (j : Job) : Prop :=
  ∃ call, s.calls[j.call]? = some call ∧ call.caller ≠ .submitting ∧ j.index < call.jobs.length

/-- The count of call number `c`. -/
def doneOf (s : State ε α) (c : ℕ) : ℕ := (s.calls[c]?.map Call.done).getD 0

/-- A job is in the queue, every worker sleeps, and no caller has a worker left to notify. -/
def LostWakeup (s : State ε α) : Prop :=
  s.queue ≠ [] ∧ (∀ p ∈ s.workers, p = .waiting) ∧ ∀ call ∈ s.calls, ¬ call.caller.Owes

end State

open State

/-- What holds in every state that the pool can reach. -/
structure Inv (s : State ε α) : Prop where
  /-- A submitted job is in the queue, runs, or has been executed. -/
  conserved : (s.queue ++ s.running ++ s.executed).Perm s.submitted
  /-- No job is submitted twice. -/
  nodup : s.submitted.Nodup
  /-- The submitted jobs are the batches of the calls that have submitted. -/
  mem_submitted : ∀ j, j ∈ s.submitted ↔ s.IsSubmitted j
  /-- Every executed job is counted, except those whose workers are about to count them. -/
  counted : ∀ c, s.doneOf c + s.ran.countP (·.call = c) = s.executed.countP (·.call = c)
  /-- What a worker counts or records has been executed. -/
  landed : ∀ j, s.ran.count j + s.recording.count j ≤ s.executed.count j
  /-- Callers sleep and leave by their counts. -/
  sound : ∀ call ∈ s.calls, call.Sound
  /-- Every batch fits the pool. -/
  sized : ∀ call ∈ s.calls, Fits s.workers.length call.jobs
  /-- No wake-up is lost. -/
  awake : ¬ s.LostWakeup

section Views

variable {s s' : State ε α} {c : ℕ} {call : Call ε α} (call' : Call ε α)

/-- After a job is counted, its worker neither runs nor counts a job. -/
@[simp]
theorem running?_afterCount (call : Call ε α) (j : Job) :
    (call.afterCount j).running? = none := by
  unfold Call.afterCount
  split_ifs <;> rfl

/-- A worker that has counted its job has no job to count. -/
@[simp]
theorem ran?_afterCount (call : Call ε α) (j : Job) : (call.afterCount j).ran? = none := by
  unfold Call.afterCount
  split_ifs <;> rfl

/-- A worker that has counted a job records its panic if it panicked. -/
theorem recording?_afterCount (call : Call ε α) (j : Job) :
    (call.afterCount j).recording? = if call.jobPanics j.index then some j else none := by
  unfold Call.afterCount
  split_ifs <;> rfl

/-- A worker that has counted its job does not wait. -/
private theorem afterCount_ne_waiting (call : Call ε α) (j : Job) :
    call.afterCount j ≠ .waiting := by
  unfold Call.afterCount
  split_ifs <;> simp

/-- The calls after one more was entered. -/
theorem getElem?_concat_calls (c : ℕ) :
    (s.calls ++ [call'])[c]? = if c = s.calls.length then some call' else s.calls[c]? := by
  rcases Nat.lt_trichotomy c s.calls.length with hlt | heq | hgt
  · rw [if_neg (Nat.ne_of_lt hlt), List.getElem?_append_left hlt]
  · rw [if_pos heq, heq, List.getElem?_concat_length]
  · rw [if_neg (Nat.ne_of_gt hgt), List.getElem?_eq_none (Nat.le_of_lt hgt),
      List.getElem?_eq_none (by rw [List.length_append, List.length_singleton]; exact hgt)]

/-- The calls after call number `c`, which is there (`hcall`), was replaced by `call'`. -/
theorem getElem?_set_calls (hcall : s.calls[c]? = some call) (c' : ℕ) :
    (s.calls.set c call')[c']? = if c' = c then some call' else s.calls[c']? := by
  obtain ⟨hc, -⟩ := List.getElem?_eq_some_iff.mp hcall
  rcases eq_or_ne c' c with rfl | hne
  · rw [if_pos rfl]
    exact List.getElem?_set_self hc
  · rw [if_neg hne]
    exact List.getElem?_set_ne (Ne.symm hne)

/-- A change of a call that keeps its batch and does not submit it. -/
theorem isSubmitted_of_set (hcall : s.calls[c]? = some call) (hset : s'.calls = s.calls.set c call')
    (hjobs : call'.jobs = call.jobs)
    (hcaller : call'.caller = .submitting ↔ call.caller = .submitting) (j : Job) :
    s'.IsSubmitted j ↔ s.IsSubmitted j := by
  simp only [IsSubmitted, hset, getElem?_set_calls call' hcall]
  split_ifs with hj
  · rw [hj, hcall]
    simp [hjobs, hcaller]
  · rfl

/-- The counts after call number `c` was changed: only its own is another. -/
theorem doneOf_of_set (hcall : s.calls[c]? = some call) (hset : s'.calls = s.calls.set c call')
    (c' : ℕ) : s'.doneOf c' = if c' = c then call'.done else s.doneOf c' := by
  simp only [doneOf, hset, getElem?_set_calls call' hcall]
  split_ifs <;> rfl

/-- The count of a call that is there (`hcall`) is the count that it stores. -/
theorem doneOf_eq (hcall : s.calls[c]? = some call) : s.doneOf c = call.done := by
  rw [doneOf, hcall]
  rfl

/-- A change of a call that does not count a job. -/
theorem doneOf_of_set_of_done_eq (hcall : s.calls[c]? = some call)
    (hset : s'.calls = s.calls.set c call') (hdone : call'.done = call.done) (c' : ℕ) :
    s'.doneOf c' = s.doneOf c' := by
  rw [doneOf_of_set call' hcall hset]
  split_ifs with h
  · rw [h, hdone, doneOf_eq hcall]
  · rfl

/-- What holds of all calls after one of them was changed. -/
theorem forall_mem_of_set {call' : Call ε α} {P : Call ε α → Prop}
    (hset : s'.calls = s.calls.set c call')
    (h : ∀ call ∈ s.calls, P call) (h' : P call') : ∀ call ∈ s'.calls, P call := by
  intro call hcall
  rw [hset] at hcall
  rcases List.mem_or_eq_of_mem_set hcall with hmem | rfl
  · exact h call hmem
  · exact h'

/-- What holds of all batches after a call was changed that keeps its batch. -/
theorem forall_jobs_of_set {call' : Call ε α} {P : List (Outcome ε α) → Prop}
    (hcall : s.calls[c]? = some call)
    (hset : s'.calls = s.calls.set c call') (hjobs : call'.jobs = call.jobs)
    (h : ∀ call ∈ s.calls, P call.jobs) : ∀ call ∈ s'.calls, P call.jobs :=
  forall_mem_of_set hset h (hjobs ▸ h call (List.mem_of_getElem? hcall))

/-- A change of a caller that owes no notification leaves those that owe one. -/
theorem not_owes_of_set {call' : Call ε α} (hcall : s.calls[c]? = some call)
    (hset : s'.calls = s.calls.set c call')
    (hfree : ¬ call.caller.Owes) (h : ∀ call ∈ s'.calls, ¬ call.caller.Owes) :
    ∀ call ∈ s.calls, ¬ call.caller.Owes := by
  intro other hother
  obtain ⟨c', hc'⟩ := List.mem_iff_getElem?.mp hother
  rcases eq_or_ne c' c with rfl | hne
  · rw [hcall, Option.some_inj] at hc'
    exact hc' ▸ hfree
  · refine h other (List.mem_iff_getElem?.mpr ⟨c', ?_⟩)
    rw [hset, List.getElem?_set_ne (Ne.symm hne), hc']

/-- A notification does not change the batch of a call. -/
@[simp]
theorem jobs_oneNotified (call : Call ε α) (left : ℕ) :
    (call.oneNotified left).jobs = call.jobs := by
  cases left <;> rfl

/-- A notification does not change the count of a call. -/
@[simp]
theorem done_oneNotified (call : Call ε α) (left : ℕ) :
    (call.oneNotified left).done = call.done := by
  cases left <;> rfl

/-- Draining the panics does not change the batch of a call. -/
@[simp]
theorem jobs_drained (call : Call ε α) : call.drained.jobs = call.jobs := by
  unfold Call.drained
  cases call.panics <;> rfl

/-- Draining the panics does not change the count of a call. -/
@[simp]
theorem done_drained (call : Call ε α) : call.drained.done = call.done := by
  unfold Call.drained
  cases call.panics <;> rfl

/-- A caller that has drained its panics does not submit. -/
private theorem caller_drained_ne_submitting (call : Call ε α) :
    call.drained.caller ≠ .submitting := by
  unfold Call.drained
  cases call.panics <;> simp

/-- A caller that notifies has submitted. -/
theorem caller_oneNotified_ne_submitting (call : Call ε α) (left : ℕ) :
    (call.oneNotified left).caller ≠ .submitting := by
  cases left <;> simp [Call.oneNotified]

end Views

/-- The jobs of a batch, one for each position. -/
theorem mem_batch {call : Call ε α} {c : ℕ} {j : Job} :
    j ∈ call.batch c ↔ j.call = c ∧ j.index < call.jobs.length := by
  simp only [Call.batch, List.mem_map, List.mem_range]
  constructor
  · rintro ⟨i, hi, rfl⟩
    exact ⟨rfl, hi⟩
  · rintro ⟨rfl, hi⟩
    exact ⟨j.index, hi, rfl⟩

/-- The jobs of a batch are different. -/
theorem nodup_batch (call : Call ε α) (c : ℕ) : (call.batch c).Nodup :=
  List.Nodup.map (fun _ _ h => congrArg Job.index h) List.nodup_range

namespace Stepped

variable {s s' : State ε α} {e : Event ε α}

/-- A job moves from the queue to a worker, and from there to the executed ones. -/
theorem conserved (h : Stepped s e s')
    (hi : (s.queue ++ s.running ++ s.executed).Perm s.submitted) :
    (s'.queue ++ s'.running ++ s'.executed).Perm s'.submitted := by
  rw [List.perm_iff_count] at hi ⊢
  intro j
  have hj := hi j
  simp only [List.count_append, State.running] at hj ⊢
  -- only `submit`, `take` and `finish` move a job from one list to the next
  cases h with
  | scopeRun hne hlen => exact hj
  | submit hcall hcaller =>
    simp only [State.enqueue, State.setCall, List.count_append]
    omega
  | notifySome hcall hcaller hw =>
    have hrun := count_filterMap_set Worker.running? .ready hw j
    simp only [Worker.running?, State.setCall, State.setWorker] at hrun ⊢
    omega
  | notifyNone hcall hcaller hnone => exact hj
  | sleep hw hqueue =>
    have hrun := count_filterMap_set Worker.running? .waiting hw j
    simp only [Worker.running?, State.setWorker] at hrun ⊢
    omega
  | @take w i queue hw hqueue =>
    -- the head of the queue becomes the job of the worker
    have hrun := count_filterMap_set Worker.running? (.running i) hw j
    simp only [Worker.running?, State.setWorker, Option.toList_some, Option.toList_none,
      List.count_nil] at hrun ⊢
    rw [hqueue, List.count_cons] at hj
    rw [List.count_singleton] at hrun
    omega
  | @finish w i hw =>
    have hrun := count_filterMap_set Worker.running? (.ran i) hw j
    simp only [Worker.running?, State.setWorker, Option.toList_some,
      Option.toList_none, List.count_nil, List.count_append] at hrun ⊢
    omega
  | @count w i call hw hcall =>
    have hrun := count_filterMap_set Worker.running? (call.afterCount i) hw j
    rw [running?_afterCount] at hrun
    simp only [Worker.running?, State.setCall, State.setWorker] at hrun ⊢
    omega
  | record hw hcall =>
    have hrun := count_filterMap_set Worker.running? .ready hw j
    simp only [Worker.running?, State.setCall, State.setWorker] at hrun ⊢
    omega
  | check hcall hcaller => exact hj
  | drain hcall hcaller => exact hj
  | wakeWorker hw =>
    have hrun := count_filterMap_set Worker.running? .ready hw j
    simp only [Worker.running?, State.setWorker] at hrun ⊢
    omega
  | wakeCaller hcall hcaller => exact hj

/-- Only a submission changes which jobs are submitted, so that the list of them stays true (`hi`)
through every step. -/
theorem mem_submitted (h : Stepped s e s') (hi : ∀ j, j ∈ s.submitted ↔ s.IsSubmitted j) (j : Job) :
    j ∈ s'.submitted ↔ s'.IsSubmitted j := by
  cases h with
  | @scopeRun jobs hne hlen =>
    -- the new call has not submitted, and the other calls are where they were
    refine (hi j).trans (exists_congr fun call => ?_)
    simp only [getElem?_concat_calls]
    split_ifs with hj
    · rw [hj, List.getElem?_eq_none (Nat.le_refl _)]
      simp only [reduceCtorEq, false_and, Option.some.injEq, false_iff]
      rintro ⟨rfl, hcaller, -⟩
      exact hcaller rfl
    · rfl
  | @submit c call hcall hcaller =>
    have hset := getElem?_set_calls call.enqueued hcall j.call
    simp only [State.enqueue, State.setCall, List.mem_append, hi j, mem_batch, IsSubmitted, hset]
    by_cases hj : j.call = c
    · rw [if_pos hj, hj, hcall]
      simp [Call.enqueued, hcaller]
    · rw [if_neg hj]
      simp [hj]
  | @notifySome c w left call hcall hcaller hw =>
    exact (hi j).trans
      (isSubmitted_of_set (call.oneNotified left) hcall rfl (jobs_oneNotified call left)
      (by simp [caller_oneNotified_ne_submitting, hcaller]) j).symm
  | @notifyNone c left call hcall hcaller hnone =>
    exact (hi j).trans
      (isSubmitted_of_set (call.oneNotified left) hcall rfl (jobs_oneNotified call left)
      (by simp [caller_oneNotified_ne_submitting, hcaller]) j).symm
  | sleep hw hqueue => exact hi j
  | take hw hqueue => exact hi j
  | finish hw => exact hi j
  | @count w i call hw hcall =>
    refine (hi j).trans (isSubmitted_of_set call.counted hcall rfl rfl ?_ j).symm
    simp only [Call.counted]
    split_ifs with hcaller <;> simp [hcaller]
  | @record w i call hw hcall =>
    exact (hi j).trans (isSubmitted_of_set (call.recorded i) hcall rfl rfl Iff.rfl j).symm
  | @check c call hcall hcaller =>
    refine (hi j).trans (isSubmitted_of_set call.checked hcall rfl rfl ?_ j).symm
    simp only [Call.checked, hcaller]
    split_ifs <;> simp
  | @drain c call hcall hcaller =>
    exact (hi j).trans (isSubmitted_of_set call.drained hcall rfl (jobs_drained call)
      (by simp [caller_drained_ne_submitting, hcaller]) j).symm
  | wakeWorker hw => exact hi j
  | @wakeCaller c call hcall hcaller =>
    exact (hi j).trans (isSubmitted_of_set { call with caller := .checking } hcall rfl rfl
      (by simp [hcaller]) j).symm

/-- A batch is submitted once, so that no job is submitted twice (`hi`, `hmem`) after any step. -/
theorem nodup (h : Stepped s e s') (hi : s.submitted.Nodup)
    (hmem : ∀ j, j ∈ s.submitted ↔ s.IsSubmitted j) : s'.submitted.Nodup := by
  cases h with
  | submit hcall hcaller =>
    refine hi.append (nodup_batch _ _) fun j hj hbatch => ?_
    obtain ⟨call', hcall', hcaller', -⟩ := (hmem j).mp hj
    rw [(mem_batch.mp hbatch).1, hcall, Option.some_inj] at hcall'
    exact hcaller' (hcall' ▸ hcaller)
  | _ => exact hi

/-- A job is counted when its worker leaves it, after it has been executed. -/
theorem counted (h : Stepped s e s')
    (hi : ∀ c, s.doneOf c + s.ran.countP (·.call = c) = s.executed.countP (·.call = c)) (c : ℕ) :
    s'.doneOf c + s'.ran.countP (·.call = c) = s'.executed.countP (·.call = c) := by
  have hc := hi c
  simp only [State.ran] at hc ⊢
  -- a job is executed when it finishes and counted as done one step later; in between its worker
  -- has run it
  cases h with
  | @scopeRun jobs hne hlen =>
    refine Eq.trans ?_ hc
    simp only [doneOf, getElem?_concat_calls]
    split_ifs with hlast
    · rw [hlast, List.getElem?_eq_none (Nat.le_refl _)]
      rfl
    · rfl
  | @submit c' call hcall hcaller =>
    rw [doneOf_of_set_of_done_eq call.enqueued hcall rfl rfl]
    exact hc
  | @notifySome c' w left call hcall hcaller hw =>
    have hran := countP_filterMap_set Worker.ran? .ready hw (·.call = c)
    rw [doneOf_of_set_of_done_eq (call.oneNotified left) hcall rfl (done_oneNotified call left)]
    simp only [Worker.ran?, State.setCall, State.setWorker] at hran ⊢
    omega
  | @notifyNone c' left call hcall hcaller hnone =>
    rw [doneOf_of_set_of_done_eq (call.oneNotified left) hcall rfl (done_oneNotified call left)]
    exact hc
  | sleep hw hqueue =>
    have hran := countP_filterMap_set Worker.ran? .waiting hw (·.call = c)
    simp only [Worker.ran?, State.setWorker, doneOf] at hc hran ⊢
    omega
  | @take w i queue hw hqueue =>
    have hran := countP_filterMap_set Worker.ran? (.running i) hw (·.call = c)
    simp only [Worker.ran?, State.setWorker, doneOf] at hc hran ⊢
    omega
  | @finish w i hw =>
    have hran := countP_filterMap_set Worker.ran? (.ran i) hw (·.call = c)
    simp only [Worker.ran?, State.setWorker, doneOf, Option.toList_some, Option.toList_none,
      List.countP_nil, List.countP_append] at hc hran ⊢
    omega
  | @count w i call hw hcall =>
    -- the worker gives up its job and the call counts it, so the sum stays
    have hran := countP_filterMap_set Worker.ran? (call.afterCount i) hw (·.call = c)
    rw [ran?_afterCount] at hran
    rw [doneOf_of_set call.counted hcall rfl]
    simp only [Worker.ran?, State.setCall, State.setWorker, Option.toList_some, Option.toList_none,
      List.countP_nil, List.countP_singleton] at hran ⊢
    by_cases hic : i.call = c
    · subst hic
      rw [doneOf_eq hcall] at hc
      simp only [decide_true, if_true, Call.counted] at hran ⊢
      omega
    · simp only [hic, decide_false, Bool.false_eq_true, if_false, if_neg (Ne.symm hic)] at hran ⊢
      omega
  | @record w i call hw hcall =>
    have hran := countP_filterMap_set Worker.ran? .ready hw (·.call = c)
    rw [doneOf_of_set_of_done_eq (call.recorded i) hcall rfl rfl]
    simp only [Worker.ran?, State.setCall, State.setWorker] at hran ⊢
    omega
  | @check c' call hcall hcaller =>
    rw [doneOf_of_set_of_done_eq call.checked hcall rfl rfl]
    exact hc
  | @drain c' call hcall hcaller =>
    rw [doneOf_of_set_of_done_eq call.drained hcall rfl (done_drained call)]
    exact hc
  | wakeWorker hw =>
    have hran := countP_filterMap_set Worker.ran? .ready hw (·.call = c)
    simp only [Worker.ran?, State.setWorker, doneOf] at hc hran ⊢
    omega
  | @wakeCaller c' call hcall hcaller =>
    rw [doneOf_of_set_of_done_eq { call with caller := .checking } hcall rfl rfl]
    exact hc

/-- A job that a worker counts or records has been executed. -/
theorem landed (h : Stepped s e s')
    (hi : ∀ j, s.ran.count j + s.recording.count j ≤ s.executed.count j) (j : Job) :
    s'.ran.count j + s'.recording.count j ≤ s'.executed.count j := by
  have hj := hi j
  simp only [State.ran, State.recording] at hj ⊢
  cases h with
  | scopeRun hne hlen => exact hj
  | submit hcall hcaller => exact hj
  | notifySome hcall hcaller hw =>
    have hran := count_filterMap_set Worker.ran? .ready hw j
    have hrec := count_filterMap_set Worker.recording? .ready hw j
    simp only [Worker.ran?, Worker.recording?, State.setCall, State.setWorker] at hran hrec ⊢
    omega
  | notifyNone hcall hcaller hnone => exact hj
  | sleep hw hqueue =>
    have hran := count_filterMap_set Worker.ran? .waiting hw j
    have hrec := count_filterMap_set Worker.recording? .waiting hw j
    simp only [Worker.ran?, Worker.recording?, State.setWorker] at hran hrec ⊢
    omega
  | @take w i queue hw hqueue =>
    have hran := count_filterMap_set Worker.ran? (.running i) hw j
    have hrec := count_filterMap_set Worker.recording? (.running i) hw j
    simp only [Worker.ran?, Worker.recording?, State.setWorker] at hran hrec ⊢
    omega
  | @finish w i hw =>
    have hran := count_filterMap_set Worker.ran? (.ran i) hw j
    have hrec := count_filterMap_set Worker.recording? (.ran i) hw j
    simp only [Worker.ran?, Worker.recording?, State.setWorker, Option.toList_some,
      Option.toList_none, List.count_nil, List.count_append] at hran hrec ⊢
    omega
  | @count w i call hw hcall =>
    have hran := count_filterMap_set Worker.ran? (call.afterCount i) hw j
    have hrec := count_filterMap_set Worker.recording? (call.afterCount i) hw j
    rw [ran?_afterCount] at hran
    -- the job is recorded next, or not at all
    have hnext : (call.afterCount i).recording?.toList.count j ≤ [i].count j := by
      rw [recording?_afterCount]
      split_ifs <;> simp
    generalize (call.afterCount i).recording? = next at hnext hrec
    simp only [Worker.ran?, Worker.recording?, State.setCall, State.setWorker, Option.toList_some,
      Option.toList_none, List.count_nil] at hran hrec ⊢
    omega
  | record hw hcall =>
    have hran := count_filterMap_set Worker.ran? .ready hw j
    have hrec := count_filterMap_set Worker.recording? .ready hw j
    simp only [Worker.ran?, Worker.recording?, State.setCall, State.setWorker, Option.toList_none,
      List.count_nil] at hran hrec ⊢
    omega
  | check hcall hcaller => exact hj
  | drain hcall hcaller => exact hj
  | wakeWorker hw =>
    have hran := count_filterMap_set Worker.ran? .ready hw j
    have hrec := count_filterMap_set Worker.recording? .ready hw j
    simp only [Worker.ran?, Worker.recording?, State.setWorker] at hran hrec ⊢
    omega
  | wakeCaller hcall hcaller => exact hj

/-- A step keeps every call sound (`hi`): callers go to sleep and leave by their counts. -/
theorem sound (h : Stepped s e s') (hi : ∀ call ∈ s.calls, call.Sound) :
    ∀ call ∈ s'.calls, call.Sound := by
  cases h with
  | scopeRun hne hlen =>
    intro call hcall
    rcases List.mem_append.mp hcall with hold | hnew
    · exact hi call hold
    · obtain rfl := List.mem_singleton.mp hnew
      exact ⟨by simp [Call.entered], False.elim⟩
  | submit hcall hcaller => exact forall_mem_of_set rfl hi ⟨by simp [Call.enqueued], False.elim⟩
  | @notifySome c w left call hcall hcaller hw =>
    refine forall_mem_of_set rfl hi ?_
    cases left <;> exact ⟨by simp [Call.oneNotified], False.elim⟩
  | @notifyNone c left call hcall hcaller hnone =>
    refine forall_mem_of_set rfl hi ?_
    cases left <;> exact ⟨by simp [Call.oneNotified], False.elim⟩
  | sleep hw hqueue => exact hi
  | take hw hqueue => exact hi
  | finish hw => exact hi
  | @count w j call hw hcall =>
    have hold := hi call (List.mem_of_getElem? hcall)
    refine forall_mem_of_set rfl hi ⟨?_, ?_⟩
    -- counting the last job wakes the caller, and otherwise the count only grows
    · simp only [Call.counted]
      split_ifs with hcaller
      · simp
      · exact fun h => absurd h hcaller
    · simp only [Call.counted]
      split_ifs with hcaller
      · exact False.elim
      · exact fun h => Nat.le_succ_of_le (hold.left h)
  | record hw hcall =>
    have hold := hi _ (List.mem_of_getElem? hcall)
    exact forall_mem_of_set rfl hi ⟨hold.asleep, hold.left⟩
  | @check c call hcall hcaller =>
    refine forall_mem_of_set rfl hi ⟨?_, ?_⟩
    -- the caller sleeps if jobs are missing and leaves if not, as it has just seen
    · simp only [Call.checked]
      split_ifs with hlt
      · exact fun _ => hlt
      · simp
    · simp only [Call.checked]
      split_ifs with hlt
      · exact False.elim
      · exact fun _ => Nat.le_of_not_lt hlt
  | @drain c call hcall hcaller =>
    have hleft := (hi call (List.mem_of_getElem? hcall)).left (by rw [hcaller]; trivial)
    refine forall_mem_of_set rfl hi ?_
    unfold Call.drained
    cases call.panics with
    | nil => exact ⟨by simp, fun _ => hleft⟩
    | cons j js => exact ⟨by simp, fun _ => hleft⟩
  | wakeWorker hw => exact hi
  | wakeCaller hcall hcaller => exact forall_mem_of_set rfl hi ⟨by simp, False.elim⟩

/-- The pool neither grows nor shrinks, whatever step is taken. -/
private theorem length_workers (h : Stepped s e s') : s'.workers.length = s.workers.length := by
  cases h <;> simp [State.setCall, State.setWorker, State.enqueue]

/-- No step changes the batch of a call or the number of workers, and a batch that is entered fits
the pool. -/
theorem sized (h : Stepped s e s') (hi : ∀ call ∈ s.calls, Fits s.workers.length call.jobs) :
    ∀ call ∈ s'.calls, Fits s'.workers.length call.jobs := by
  rw [h.length_workers]
  cases h with
  | scopeRun hne hlen =>
    intro call hcall
    rcases List.mem_append.mp hcall with hold | hnew
    · exact hi call hold
    · obtain rfl := List.mem_singleton.mp hnew
      exact ⟨hne, hlen⟩
  | submit hcall hcaller => exact forall_jobs_of_set hcall rfl (by rfl) hi
  | notifySome hcall hcaller hw => exact forall_jobs_of_set hcall rfl (jobs_oneNotified _ _) hi
  | notifyNone hcall hcaller hnone => exact forall_jobs_of_set hcall rfl (jobs_oneNotified _ _) hi
  | sleep hw hqueue => exact hi
  | take hw hqueue => exact hi
  | finish hw => exact hi
  | count hw hcall => exact forall_jobs_of_set hcall rfl (by rfl) hi
  | record hw hcall => exact forall_jobs_of_set hcall rfl (by rfl) hi
  | check hcall hcaller => exact forall_jobs_of_set hcall rfl (by rfl) hi
  | drain hcall hcaller => exact forall_jobs_of_set hcall rfl (jobs_drained _) hi
  | wakeWorker hw => exact hi
  | wakeCaller hcall hcaller => exact forall_jobs_of_set hcall rfl (by rfl) hi

/-- A worker goes to sleep only when the queue is empty, and a caller that fills the queue owes
notifications until it has made them. -/
theorem awake (h : Stepped s e s') (hi : ¬ s.LostWakeup)
    (hsized : ∀ call ∈ s.calls, Fits s.workers.length call.jobs) : ¬ s'.LostWakeup := by
  rintro ⟨hqueue, hasleep, howes⟩
  cases h with
  | scopeRun hne hlen =>
    exact hi ⟨hqueue, hasleep, fun call hcall => howes call (List.mem_append_left _ hcall)⟩
  | @submit c call hcall hcaller =>
    obtain ⟨hc, -⟩ := List.getElem?_eq_some_iff.mp hcall
    exact howes call.enqueued (List.mem_set hc _) trivial
  | @notifySome c w left call hcall hcaller hw =>
    obtain ⟨hwlt, -⟩ := List.getElem?_eq_some_iff.mp hw
    exact absurd (hasleep .ready (List.mem_set hwlt _)) (by simp)
  | @notifyNone c left call hcall hcaller hnone =>
    -- the pool has a worker, and that worker does not sleep
    obtain ⟨hne, hlen⟩ := hsized call (List.mem_of_getElem? hcall)
    have hpos : 0 < s.workers.length := Nat.lt_of_lt_of_le (List.length_pos_iff.mpr hne) hlen
    obtain ⟨p, hp⟩ := List.exists_mem_of_length_pos hpos
    exact hnone (hasleep p hp ▸ hp)
  | sleep hw hempty => exact hqueue hempty
  | @take w j queue hw hcons =>
    obtain ⟨hwlt, -⟩ := List.getElem?_eq_some_iff.mp hw
    exact absurd (hasleep (.running j) (List.mem_set hwlt _)) (by simp)
  | @finish w j hw =>
    obtain ⟨hwlt, -⟩ := List.getElem?_eq_some_iff.mp hw
    exact absurd (hasleep (.ran j) (List.mem_set hwlt _)) (by simp)
  | @count w j call hw hcall =>
    obtain ⟨hwlt, -⟩ := List.getElem?_eq_some_iff.mp hw
    exact afterCount_ne_waiting call j (hasleep _ (List.mem_set hwlt _))
  | record hw hcall =>
    obtain ⟨hwlt, -⟩ := List.getElem?_eq_some_iff.mp hw
    exact absurd (hasleep .ready (List.mem_set hwlt _)) (by simp)
  | check hcall hcaller =>
    exact hi ⟨hqueue, hasleep, not_owes_of_set hcall rfl (by simp [hcaller, Caller.Owes]) howes⟩
  | drain hcall hcaller =>
    exact hi ⟨hqueue, hasleep, not_owes_of_set hcall rfl (by simp [hcaller, Caller.Owes]) howes⟩
  | wakeWorker hw =>
    obtain ⟨hwlt, -⟩ := List.getElem?_eq_some_iff.mp hw
    exact absurd (hasleep .ready (List.mem_set hwlt _)) (by simp)
  | wakeCaller hcall hcaller =>
    exact hi ⟨hqueue, hasleep, not_owes_of_set hcall rfl (by simp [hcaller, Caller.Owes]) howes⟩

end Stepped

/-- Every step that can happen in a state with the invariant (`hi`) leads to one with the
invariant. -/
theorem Inv.next {s s' : State ε α} {e : Event ε α} (hi : Inv s) (h : Stepped s e s') : Inv s' where
  conserved := h.conserved hi.conserved
  nodup := h.nodup hi.nodup hi.mem_submitted
  mem_submitted := h.mem_submitted hi.mem_submitted
  counted := h.counted hi.counted
  landed := h.landed hi.landed
  sound := h.sound hi.sound
  sized := h.sized hi.sized
  awake := h.awake hi.awake hi.sized

/-- Workers that have just started hold no job, whichever of the three kinds `f` asks for (`hf`). -/
theorem filterMap_replicate_ready {f : Worker → Option Job} (hf : f .ready = none) (w : ℕ) :
    (List.replicate w Worker.ready).filterMap f = [] := by
  simp [hf]

/-- The pool starts with the invariant. -/
theorem Inv.start (w : ℕ) : Inv (State.start w : State ε α) := by
  have hrunning : (State.start w : State ε α).running = [] := filterMap_replicate_ready rfl w
  have hran : (State.start w : State ε α).ran = [] := filterMap_replicate_ready rfl w
  have hrecording : (State.start w : State ε α).recording = [] := filterMap_replicate_ready rfl w
  refine ⟨?_, List.nodup_nil, fun j => ?_, fun c => ?_, fun j => ?_, ?_, ?_, fun h => h.1 rfl⟩
  · rw [hrunning]
    exact List.Perm.refl _
  · simp [State.start, IsSubmitted]
  · rw [hran]
    rfl
  · rw [hran, hrecording]
    exact Nat.le_refl _
  · exact fun call hcall => absurd hcall List.not_mem_nil
  · exact fun call hcall => absurd hcall List.not_mem_nil

/-- Every state that the pool reaches from its start (`h`) has the invariant, by induction on the
run. -/
theorem Inv.of_run {w : ℕ} {es : List (Event ε α)} {s : State ε α}
    (h : run step (State.start w) es = some s) : Inv s :=
  (along_of_invariant (fun _ _ _ hi hstep => hi.next (.of_step hstep)) (Inv.start w)).run h

end Pool

end EngramDB
