import EngramDB.Foundations.Census
import EngramDB.Foundations.Outcome
import EngramDB.Foundations.Runs

/-!
# The resident pool of IO threads

`scope_run` hands a batch of jobs to worker threads that share one queue, and waits until the batch
is done. The machine of this module takes one critical section of one thread at a time, in any
order:

* a worker locks the queue and takes a job or goes to sleep, runs the job's closure, locks the count
  of the job's call, and, if the closure panicked, locks the call's list of panics;
* a caller locks the queue to submit its batch, notifies one worker for each job after the lock is
  released, locks its count until it has reached the number of its jobs, and then locks its list of
  panics;
* a thread that sleeps on a condition variable may wake up without being notified.

A call whose batch is empty returns at once, and one whose batch has more jobs than the pool has
workers runs on scoped threads of its own, so neither touches the pool.
-/

namespace EngramDB

namespace Pool

/-- A job: the call of `scope_run` that submitted it, and its position in the batch. -/
structure Job where
  /-- The call. -/
  call : ℕ
  /-- The position in the batch. -/
  index : ℕ
deriving DecidableEq, Repr

/-- What a worker thread does next. -/
inductive Worker where
  /-- Lock the queue: at the top of its loop, or on waking up. -/
  | ready
  /-- Sleep on the condition variable of the queue, not notified since it went to sleep. -/
  | waiting
  /-- Run the closure of this job, which it took from the queue. -/
  | running (j : Job)
  /-- Lock the count of this job's call: the closure has returned or panicked. -/
  | ran (j : Job)
  /-- Lock the panics of this job's call: the closure panicked, and the job is counted. -/
  | recording (j : Job)
deriving DecidableEq, Repr

/-- What the thread that called `scope_run` does next. -/
inductive Caller where
  /-- Lock the queue and submit the batch. -/
  | submitting
  /-- Notify one worker, and `left` more after it. -/
  | notifying (left : ℕ)
  /-- Lock the count and look whether it has reached the number of jobs. -/
  | checking
  /-- Sleep on the condition variable of the count, not notified since it went to sleep. -/
  | waiting
  /-- Lock the list of panics: the wait is over. -/
  | leaving
  /-- The call has returned normally. -/
  | returned
  /-- The call has resumed the panic of this job. -/
  | resumed (j : Job)
deriving DecidableEq, Repr

/-- One call of `scope_run`: its batch, and what its jobs share with it. A job is what running its
closure comes to. -/
structure Call (ε α : Type) where
  /-- The batch. -/
  jobs : List (Outcome ε α)
  /-- What the calling thread does next. -/
  caller : Caller
  /-- The count of the jobs that are done. -/
  done : ℕ
  /-- The panics of its jobs, in the order in which they were recorded. -/
  panics : List Job

/-- The pool, the calls of `scope_run` so far, and a log of what happened to the jobs. -/
structure State (ε α : Type) where
  /-- The worker threads. -/
  workers : List Worker
  /-- The queue of the jobs that no worker has taken yet. -/
  queue : List Job
  /-- The calls, in the order in which they were made. -/
  calls : List (Call ε α)
  /-- Log: the jobs that were put into the queue. -/
  submitted : List Job
  /-- Log: the jobs whose closure has been run to its end, in the order in which they ended. -/
  executed : List Job

/-- A step of a thread. -/
inductive Event (ε α : Type) where
  /-- A thread calls `scope_run`. -/
  | scopeRun (jobs : List (Outcome ε α))
  /-- `submit_many`: the caller puts its batch into the queue. -/
  | submit (c : ℕ)
  /-- The caller notifies one worker: the one named, or none if no worker sleeps. -/
  | notifyOne (c : ℕ) (target : Option ℕ)
  /-- A worker locks the queue, and takes a job from its front or goes to sleep. -/
  | take (w : ℕ)
  /-- The closure that a worker runs ends. -/
  | finish (w : ℕ)
  /-- A worker counts its job and notifies the caller. -/
  | count (w : ℕ)
  /-- A worker records the panic of its job. -/
  | record (w : ℕ)
  /-- The caller compares its count with the number of its jobs, and goes to sleep or on. -/
  | check (c : ℕ)
  /-- The caller takes the first panic from its list, and resumes it or returns. -/
  | drain (c : ℕ)
  /-- A sleeping worker wakes up without being notified. -/
  | wakeWorker (w : ℕ)
  /-- A sleeping caller wakes up without being notified. -/
  | wakeCaller (c : ℕ)

variable {ε α : Type}

/-- The closure of job `i` of the batch panics. -/
def Call.JobPanics (call : Call ε α) (i : ℕ) : Prop :=
  ∃ b, call.jobs[i]? = some b ∧ b.toOption.isNone

/-- Whether the closure of job `i` panics. -/
def Call.jobPanics (call : Call ε α) (i : ℕ) : Bool :=
  match call.jobs[i]? with
  | some b => b.toOption.isNone
  | none => false

theorem Call.jobPanics_iff {call : Call ε α} {i : ℕ} :
    call.jobPanics i = true ↔ call.JobPanics i := by
  unfold jobPanics JobPanics
  cases call.jobs[i]? <;> simp

/-- The jobs of call number `c`. -/
def Call.batch (call : Call ε α) (c : ℕ) : List Job := (List.range call.jobs.length).map (Job.mk c)

/-- A call as its thread makes it. -/
def Call.entered (jobs : List (Outcome ε α)) : Call ε α where
  jobs := jobs
  caller := .submitting
  done := 0
  panics := []

/-- The batch is in the queue, and there is one worker to notify for each job. -/
def Call.enqueued (call : Call ε α) : Call ε α :=
  { call with caller := .notifying (call.jobs.length - 1) }

/-- One worker was notified, and `left` more are to be. -/
def Call.oneNotified (call : Call ε α) : ℕ → Call ε α
  | 0 => { call with caller := .checking }
  | left + 1 => { call with caller := .notifying left }

/-- The count is compared with the number of jobs. -/
def Call.checked (call : Call ε α) : Call ε α :=
  { call with caller := if call.done < call.jobs.length then .waiting else .leaving }

/-- The panic list is drained: the call resumes its first entry, if there is one. -/
def Call.drained (call : Call ε α) : Call ε α :=
  match call.panics with
  | [] => { call with caller := .returned }
  | j :: _ => { call with caller := .resumed j, panics := [] }

/-- One more job is counted, and the caller wakes up if it sleeps. -/
def Call.counted (call : Call ε α) : Call ε α :=
  { call with
    caller := if call.caller = .waiting then .checking else call.caller
    done := call.done + 1 }

/-- The panic of a job is put into the list. -/
def Call.recorded (call : Call ε α) (j : Job) : Call ε α :=
  { call with panics := call.panics ++ [j] }

/-- What the worker of job `i` does after it has counted the job. -/
def Call.afterCount (call : Call ε α) (j : Job) : Worker :=
  if call.jobPanics j.index then .recording j else .ready

namespace State

/-- Nothing has been called yet, and `w` workers start. -/
def start (w : ℕ) : State ε α where
  workers := List.replicate w .ready
  queue := []
  calls := []
  submitted := []
  executed := []

/-- Worker `w` does `next` next. -/
def setWorker (s : State ε α) (w : ℕ) (next : Worker) : State ε α :=
  { s with workers := s.workers.set w next }

/-- Call `c` becomes `call`. -/
def setCall (s : State ε α) (c : ℕ) (call : Call ε α) : State ε α :=
  { s with calls := s.calls.set c call }

/-- The batch of a call is put behind the queue. -/
def enqueue (s : State ε α) (c : ℕ) (call : Call ε α) : State ε α :=
  { s with queue := s.queue ++ call.batch c, submitted := s.submitted ++ call.batch c }

end State

open State

/-- One critical section of one thread, if that is what the thread does next. -/
def step (s : State ε α) : Event ε α → Option (State ε α)
  | .scopeRun jobs =>
    if jobs ≠ [] ∧ jobs.length ≤ s.workers.length then
      some { s with calls := s.calls ++ [Call.entered jobs] }
    else none
  | .submit c =>
    s.calls[c]?.bind fun call =>
      if call.caller = .submitting then some ((s.enqueue c call).setCall c call.enqueued) else none
  | .notifyOne c target =>
    s.calls[c]?.bind fun call =>
      match call.caller, target with
      | .notifying left, some w =>
        if s.workers[w]? = some .waiting then
          some ((s.setWorker w .ready).setCall c (call.oneNotified left))
        else none
      -- when no worker sleeps, the notification has no effect
      | .notifying left, none =>
        if .waiting ∈ s.workers then none else some (s.setCall c (call.oneNotified left))
      | _, _ => none
  | .take w =>
    if s.workers[w]? = some .ready then
      match s.queue with
      | [] => some (s.setWorker w .waiting)
      | j :: queue => some ({ s with queue := queue }.setWorker w (.running j))
    else none
  | .finish w =>
    match s.workers[w]? with
    | some (.running j) => some ({ s with executed := s.executed ++ [j] }.setWorker w (.ran j))
    | _ => none
  | .count w =>
    match s.workers[w]? with
    | some (.ran j) =>
      s.calls[j.call]?.map fun call =>
        (s.setWorker w (call.afterCount j)).setCall j.call call.counted
    | _ => none
  | .record w =>
    match s.workers[w]? with
    | some (.recording j) =>
      s.calls[j.call]?.map fun call => (s.setWorker w .ready).setCall j.call (call.recorded j)
    | _ => none
  | .check c =>
    s.calls[c]?.bind fun call =>
      if call.caller = .checking then some (s.setCall c call.checked) else none
  | .drain c =>
    s.calls[c]?.bind fun call =>
      if call.caller = .leaving then some (s.setCall c call.drained) else none
  | .wakeWorker w =>
    if s.workers[w]? = some .waiting then some (s.setWorker w .ready) else none
  | .wakeCaller c =>
    s.calls[c]?.bind fun call =>
      if call.caller = .waiting then some (s.setCall c { call with caller := .checking }) else none

/-- Everything that a step can do. -/
inductive Stepped (s : State ε α) : Event ε α → State ε α → Prop where
  | scopeRun {jobs : List (Outcome ε α)} (hne : jobs ≠ []) (hlen : jobs.length ≤ s.workers.length) :
      Stepped s (.scopeRun jobs) { s with calls := s.calls ++ [Call.entered jobs] }
  | submit {c : ℕ} {call : Call ε α} (hcall : s.calls[c]? = some call)
      (hcaller : call.caller = .submitting) :
      Stepped s (.submit c) ((s.enqueue c call).setCall c call.enqueued)
  | notifySome {c w left : ℕ} {call : Call ε α} (hcall : s.calls[c]? = some call)
      (hcaller : call.caller = .notifying left) (hw : s.workers[w]? = some .waiting) :
      Stepped s (.notifyOne c (some w)) ((s.setWorker w .ready).setCall c (call.oneNotified left))
  | notifyNone {c left : ℕ} {call : Call ε α} (hcall : s.calls[c]? = some call)
      (hcaller : call.caller = .notifying left) (hnone : .waiting ∉ s.workers) :
      Stepped s (.notifyOne c none) (s.setCall c (call.oneNotified left))
  | sleep {w : ℕ} (hw : s.workers[w]? = some .ready) (hqueue : s.queue = []) :
      Stepped s (.take w) (s.setWorker w .waiting)
  | take {w : ℕ} {j : Job} {queue : List Job} (hw : s.workers[w]? = some .ready)
      (hqueue : s.queue = j :: queue) :
      Stepped s (.take w) ({ s with queue := queue }.setWorker w (.running j))
  | finish {w : ℕ} {j : Job} (hw : s.workers[w]? = some (.running j)) :
      Stepped s (.finish w) ({ s with executed := s.executed ++ [j] }.setWorker w (.ran j))
  | count {w : ℕ} {j : Job} {call : Call ε α} (hw : s.workers[w]? = some (.ran j))
      (hcall : s.calls[j.call]? = some call) :
      Stepped s (.count w) ((s.setWorker w (call.afterCount j)).setCall j.call call.counted)
  | record {w : ℕ} {j : Job} {call : Call ε α} (hw : s.workers[w]? = some (.recording j))
      (hcall : s.calls[j.call]? = some call) :
      Stepped s (.record w) ((s.setWorker w .ready).setCall j.call (call.recorded j))
  | check {c : ℕ} {call : Call ε α} (hcall : s.calls[c]? = some call)
      (hcaller : call.caller = .checking) : Stepped s (.check c) (s.setCall c call.checked)
  | drain {c : ℕ} {call : Call ε α} (hcall : s.calls[c]? = some call)
      (hcaller : call.caller = .leaving) : Stepped s (.drain c) (s.setCall c call.drained)
  | wakeWorker {w : ℕ} (hw : s.workers[w]? = some .waiting) :
      Stepped s (.wakeWorker w) (s.setWorker w .ready)
  | wakeCaller {c : ℕ} {call : Call ε α} (hcall : s.calls[c]? = some call)
      (hcaller : call.caller = .waiting) :
      Stepped s (.wakeCaller c) (s.setCall c { call with caller := .checking })

/-- A step that can happen (`h`) is one of the kinds of `Stepped`, with its guards. -/
theorem Stepped.of_step {s s' : State ε α} {e : Event ε α} (h : step s e = some s') :
    Stepped s e s' := by
  -- one rule for each event; the guards of the event are the premises of its rule
  cases e with
  | scopeRun jobs =>
    simp only [step] at h
    split_ifs at h with hjobs
    cases h
    exact .scopeRun hjobs.1 hjobs.2
  | submit c =>
    obtain ⟨call, hcall, h⟩ := Option.bind_eq_some_iff.mp h
    split_ifs at h with hcaller
    cases h
    exact .submit hcall hcaller
  | notifyOne c target =>
    obtain ⟨call, hcall, hnotify⟩ := Option.bind_eq_some_iff.mp h
    cases hcaller : call.caller with
    | notifying left =>
      -- the notification wakes a waiting worker, or nobody if none waits
      cases target with
      | some w =>
        simp only [hcaller] at hnotify
        split_ifs at hnotify with hw
        cases hnotify
        exact .notifySome hcall hcaller hw
      | none =>
        simp only [hcaller] at hnotify
        split_ifs at hnotify with hnone
        cases hnotify
        exact .notifyNone hcall hcaller hnone
    | _ => simp [hcaller] at hnotify
  | take w =>
    simp only [step] at h
    split_ifs at h with hw
    split at h
    next hqueue =>
      cases h
      exact .sleep hw hqueue
    next j queue hqueue =>
      cases h
      exact .take hw hqueue
  | finish w =>
    simp only [step] at h
    split at h
    next j hw =>
      cases h
      exact .finish hw
    next => cases h
  | count w =>
    simp only [step] at h
    split at h
    next j hw =>
      obtain ⟨call, hcall, rfl⟩ := Option.map_eq_some_iff.mp h
      exact .count hw hcall
    next => cases h
  | record w =>
    simp only [step] at h
    split at h
    next j hw =>
      obtain ⟨call, hcall, rfl⟩ := Option.map_eq_some_iff.mp h
      exact .record hw hcall
    next => cases h
  | check c =>
    obtain ⟨call, hcall, h⟩ := Option.bind_eq_some_iff.mp h
    split_ifs at h with hcaller
    cases h
    exact .check hcall hcaller
  | drain c =>
    obtain ⟨call, hcall, h⟩ := Option.bind_eq_some_iff.mp h
    split_ifs at h with hcaller
    cases h
    exact .drain hcall hcaller
  | wakeWorker w =>
    simp only [step] at h
    split_ifs at h with hw
    cases h
    exact .wakeWorker hw
  | wakeCaller c =>
    obtain ⟨call, hcall, h⟩ := Option.bind_eq_some_iff.mp h
    split_ifs at h with hcaller
    cases h
    exact .wakeCaller hcall hcaller

end Pool

end EngramDB
