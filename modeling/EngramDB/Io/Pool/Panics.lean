import EngramDB.Io.Batch
import EngramDB.Io.Pool.Work

/-!
# Panics of jobs

A worker counts a job before it records the job's panic, in two critical sections. The last job to
be counted wakes the caller up, which may look at the list of panics in between.

* `Kept.of_run`: the panic of an executed job is recorded, or its worker is about to count or record
  it;
* `along_reraises_iff`: a run re-raises every panic iff each caller that drains its list with a
  panicking job in its batch does so after a panic of the batch was recorded;
* `exists_schedule`: what a call comes to is `scopeRun` for some schedule.
-/

namespace EngramDB

namespace Pool

open Machine Census State

variable {ε α : Type} {s s' : State ε α} {e : Event ε α} {c : ℕ} {call : Call ε α}

/-- No call with a job that panics returns normally, and one that resumes a panic has had all its
jobs executed. -/
def State.Reraises (s : State ε α) : Prop :=
  ∀ (c : ℕ) (call : Call ε α), s.calls[c]? = some call → (∃ i, call.JobPanics i) →
    call.caller ≠ .returned ∧
      ((∃ j, call.caller = .resumed j) → ∀ i < call.jobs.length, s.ExecutedOnce ⟨c, i⟩)

/-- If the step drains the panics of a call with a job that panics, then one of these jobs does not
have its panic still to be recorded. -/
def RecordedInTime (s : State ε α) : Event ε α → Prop
  | .drain c => ∀ call : Call ε α, s.calls[c]? = some call → (∃ i, call.JobPanics i) →
      ∃ i, call.JobPanics i ∧ ⟨c, i⟩ ∉ s.recording
  | _ => True

/-- Where the panics of executed jobs are. -/
structure Kept (s : State ε α) : Prop where
  /-- Until the call is over, the panic of an executed job is recorded or about to be. -/
  kept : ∀ (c : ℕ) (call : Call ε α), s.calls[c]? = some call → ¬ call.caller.IsOver →
    ∀ i, call.JobPanics i →
      s.ran.count ⟨c, i⟩ + s.recording.count ⟨c, i⟩ + call.panics.count ⟨c, i⟩ =
        s.executed.count ⟨c, i⟩
  /-- A worker records the panic of a job that panicked. -/
  recording : ∀ j ∈ s.recording, ∀ call : Call ε α, s.calls[j.call]? = some call →
    call.JobPanics j.index
  /-- The panics that a call has, and the one that it resumes, are panics of its own jobs. -/
  own : ∀ (c : ℕ) (call : Call ε α), s.calls[c]? = some call →
    ∀ j, j ∈ call.panics ∨ call.caller = .resumed j → j.call = c ∧ call.JobPanics j.index

/-- A call that is found after call number `c` was changed is the changed one, at its own number, or
one that was found before at another number. -/
theorem eq_or_of_getElem?_set {call' : Call ε α} (hcall : s.calls[c]? = some call) {c' : ℕ}
    {found : Call ε α} (h : (s.calls.set c call')[c']? = some found) :
    c' = c ∧ found = call' ∨ c' ≠ c ∧ s.calls[c']? = some found := by
  rw [getElem?_set_calls call' hcall] at h
  split_ifs at h with hc
  · exact .inl ⟨hc, (Option.some.inj h).symm⟩
  · exact .inr ⟨hc, h⟩

/-- A change of a call that is not over and keeps its batch and its panics moves no panic. -/
theorem kept_of_set {call' : Call ε α} (hk : Kept s) (hcall : s.calls[c]? = some call)
    (hjobs : call'.jobs = call.jobs) (hpanics : call'.panics = call.panics)
    (hover : ¬ call.caller.IsOver) {c' : ℕ} {found : Call ε α}
    (h : (s.calls.set c call')[c']? = some found) (hfound : ¬ found.caller.IsOver) {i : ℕ}
    (hi : found.JobPanics i) :
    s.ran.count ⟨c', i⟩ + s.recording.count ⟨c', i⟩ + found.panics.count ⟨c', i⟩ =
      s.executed.count ⟨c', i⟩ := by
  rcases eq_or_of_getElem?_set hcall h with ⟨rfl, rfl⟩ | ⟨-, hold⟩
  · rw [hpanics]
    refine hk.kept c' call hcall hover i ?_
    simpa only [Call.JobPanics, hjobs] using hi
  · exact hk.kept c' found hold hfound i hi

/-- A change of a call that keeps its batch and adds no panic. -/
theorem own_of_set {call' : Call ε α} (hk : Kept s) (hcall : s.calls[c]? = some call)
    (hjobs : call'.jobs = call.jobs)
    (hsub : ∀ j, j ∈ call'.panics ∨ call'.caller = .resumed j →
      j ∈ call.panics ∨ call.caller = .resumed j) {c' : ℕ} {found : Call ε α}
    (h : (s.calls.set c call')[c']? = some found) {j : Job}
    (hj : j ∈ found.panics ∨ found.caller = .resumed j) :
    j.call = c' ∧ found.JobPanics j.index := by
  rcases eq_or_of_getElem?_set hcall h with ⟨rfl, rfl⟩ | ⟨-, hold⟩
  · obtain ⟨hjc, hpanics⟩ := hk.own c' call hcall j (hsub j hj)
    exact ⟨hjc, by simpa only [Call.JobPanics, hjobs] using hpanics⟩
  · exact hk.own c' found hold j hj

/-- The number of times that a worker holds a job `x` whose closure has run: one until the job is
counted and, if it panicked, its panic recorded. -/
def Worker.carries (p : Worker) (x : Job) : ℕ :=
  p.ran?.toList.count x + p.recording?.toList.count x

/-- A worker that has counted a job still carries it if the job panics. -/
private theorem carries_afterCount {j x : Job} (h : x = j → call.JobPanics j.index) :
    (call.afterCount j).carries x = [j].count x := by
  rw [Worker.carries, ran?_afterCount, recording?_afterCount]
  split_ifs with hp
  · exact Nat.zero_add _
  · have hne : x ≠ j := fun hx => hp (Call.jobPanics_iff.mpr (h hx))
    rw [List.count_eq_zero_of_not_mem (l := [j]) (by simpa using hne)]
    rfl

@[simp]
theorem panics_oneNotified (call : Call ε α) (left : ℕ) :
    (call.oneNotified left).panics = call.panics := by
  cases left <;> rfl

section Kept

variable {p q : Worker} {w : ℕ} {x : Job} {found : Call ε α} {i : ℕ}

/-- When worker `w` becomes `q`, what the workers carry of a job `x` changes by what `w` carries. -/
private theorem carries_setWorker (hw : s.workers[w]? = some p) (q : Worker) (x : Job) :
    p.carries x + ((s.setWorker w q).ran.count x + (s.setWorker w q).recording.count x) =
      q.carries x + (s.ran.count x + s.recording.count x) := by
  have hran := count_filterMap_set Worker.ran? q hw x
  have hrec := count_filterMap_set Worker.recording? q hw x
  simp only [Worker.carries, State.ran, State.recording, State.setWorker] at hran hrec ⊢
  omega

/-- Let `n` panics of a job `x` be recorded, and let it have been executed `m` times. What the
workers carry of `x` makes up for the difference when worker `w` has become `q`, if it does so with
`q` counted in place of what `w` is now. -/
theorem kept_setWorker {n m : ℕ} (hw : s.workers[w]? = some p) (q : Worker)
    (h : s.ran.count x + s.recording.count x + n + q.carries x = m + p.carries x) :
    (s.setWorker w q).ran.count x + (s.setWorker w q).recording.count x + n = m := by
  have hset := carries_setWorker hw q x
  omega

/-- No job of a call that has just been entered has been executed, and the other calls are as they
were. -/
private theorem kept_entered (hi : Inv s) (hk : Kept s) {jobs : List (Outcome ε α)}
    (hfound : (s.calls ++ [Call.entered jobs])[c]? = some found) (hover : ¬ found.caller.IsOver)
    (hpanics : found.JobPanics i) :
    s.ran.count ⟨c, i⟩ + s.recording.count ⟨c, i⟩ + found.panics.count ⟨c, i⟩ =
      s.executed.count ⟨c, i⟩ := by
  rw [getElem?_concat_calls] at hfound
  split_ifs at hfound with hc
  · obtain rfl := Option.some.inj hfound
    have hnone : (⟨c, i⟩ : Job) ∉ s.executed := by
      intro hmem
      obtain ⟨call, hcall⟩ := hi.exists_call hmem
      rw [List.getElem?_eq_none (Nat.le_of_eq hc.symm)] at hcall
      cases hcall
    have hzero := List.count_eq_zero_of_not_mem hnone
    have hle := hi.landed ⟨c, i⟩
    have hpanicsNil : (Call.entered jobs).panics.count ⟨c, i⟩ = 0 := List.count_nil
    simp only [State.ran, State.recording] at hle ⊢
    omega
  · exact hk.kept c found hfound hover i hpanics

/-- A worker that ran job `j` counts it: the job is still carried if it panics. -/
private theorem kept_counted (hk : Kept s) {j : Job} (hw : s.workers[w]? = some (.ran j))
    (hcall : s.calls[j.call]? = some call)
    (hfound : (s.calls.set j.call call.counted)[c]? = some found) (hover : ¬ found.caller.IsOver)
    (hpanics : found.JobPanics i) :
    (s.setWorker w (call.afterCount j)).ran.count ⟨c, i⟩ +
        (s.setWorker w (call.afterCount j)).recording.count ⟨c, i⟩ + found.panics.count ⟨c, i⟩ =
      s.executed.count ⟨c, i⟩ := by
  have hcarries : (call.afterCount j).carries ⟨c, i⟩ = [j].count ⟨c, i⟩ := by
    refine carries_afterCount fun hx => ?_
    rcases eq_or_of_getElem?_set hcall hfound with ⟨-, rfl⟩ | ⟨hne, -⟩
    · exact hx ▸ hpanics
    · exact absurd (congrArg Job.call hx) hne
  have hold : s.ran.count ⟨c, i⟩ + s.recording.count ⟨c, i⟩ + found.panics.count ⟨c, i⟩ =
      s.executed.count ⟨c, i⟩ := by
    rcases eq_or_of_getElem?_set hcall hfound with ⟨rfl, rfl⟩ | ⟨-, hsame⟩
    · -- counting a job wakes its caller up, which is not over by that
      refine hk.kept j.call call hcall (fun h => hover ?_) i hpanics
      have hawake : call.caller ≠ .waiting := by
        intro hw
        rw [hw] at h
        exact h
      simpa only [Call.counted, if_neg hawake] using h
    · exact hk.kept c found hsame hover i hpanics
  refine kept_setWorker hw _ ?_
  rw [hold, hcarries]
  rfl

/-- A worker records the panic of job `j`: the panic goes from the worker to its call. -/
private theorem kept_recorded (hk : Kept s) {j : Job} (hw : s.workers[w]? = some (.recording j))
    (hcall : s.calls[j.call]? = some call)
    (hfound : (s.calls.set j.call (call.recorded j))[c]? = some found)
    (hover : ¬ found.caller.IsOver) (hpanics : found.JobPanics i) :
    (s.setWorker w .ready).ran.count ⟨c, i⟩ + (s.setWorker w .ready).recording.count ⟨c, i⟩ +
        found.panics.count ⟨c, i⟩ =
      s.executed.count ⟨c, i⟩ := by
  refine kept_setWorker hw .ready ?_
  have hcarries : (Worker.recording j).carries ⟨c, i⟩ = [j].count ⟨c, i⟩ := Nat.zero_add _
  have hready : Worker.ready.carries ⟨c, i⟩ = 0 := rfl
  rw [hcarries, hready, Nat.add_zero]
  rcases eq_or_of_getElem?_set hcall hfound with ⟨rfl, rfl⟩ | ⟨hne, hsame⟩
  · have hcallKept := hk.kept j.call call hcall hover i hpanics
    rw [Call.recorded, List.count_append]
    omega
  · -- the call is not that of the job
    have hother : ⟨c, i⟩ ≠ j := fun h => hne (congrArg Job.call h)
    rw [List.count_eq_zero_of_not_mem (l := [j]) (by simpa using hother), Nat.add_zero]
    exact hk.kept c found hsame hover i hpanics

/-- A call that drains its panics is over, and the other calls are as they were. -/
private theorem kept_drained (hk : Kept s) {c' : ℕ} (hcall : s.calls[c']? = some call)
    (hfound : (s.calls.set c' call.drained)[c]? = some found) (hover : ¬ found.caller.IsOver)
    (hpanics : found.JobPanics i) :
    s.ran.count ⟨c, i⟩ + s.recording.count ⟨c, i⟩ + found.panics.count ⟨c, i⟩ =
      s.executed.count ⟨c, i⟩ := by
  rcases eq_or_of_getElem?_set hcall hfound with ⟨rfl, rfl⟩ | ⟨-, hsame⟩
  · refine absurd ?_ hover
    unfold Call.drained
    cases call.panics <;> trivial
  · exact hk.kept c found hsame hover i hpanics

end Kept

namespace Stepped

/-- The panic of an executed job goes from the worker that ran it to the call. -/
theorem kept (h : Stepped s e s') (hi : Inv s) (hk : Kept s) :
    ∀ (c : ℕ) (call : Call ε α), s'.calls[c]? = some call → ¬ call.caller.IsOver →
      ∀ i, call.JobPanics i →
        s'.ran.count ⟨c, i⟩ + s'.recording.count ⟨c, i⟩ + call.panics.count ⟨c, i⟩ =
          s'.executed.count ⟨c, i⟩ := by
  intro c' found hfound hover i hpanics
  cases h with
  | scopeRun hne hlen => exact kept_entered (s := s) hi hk hfound hover hpanics
  -- the caller goes on, and is not over
  | submit hcall hcaller | check hcall hcaller | wakeCaller hcall hcaller =>
    exact kept_of_set hk hcall (by rfl) (by rfl)
      (by simp [hcaller, Caller.IsOver]) hfound hover hpanics
  | @notifySome c w left call hcall hcaller hw =>
    exact kept_setWorker hw .ready (kept_of_set hk hcall (jobs_oneNotified call left)
      (panics_oneNotified call left) (by simp [hcaller, Caller.IsOver]) hfound hover hpanics)
  | @notifyNone c left call hcall hcaller hnone =>
    exact kept_of_set hk hcall (jobs_oneNotified call left) (panics_oneNotified call left)
      (by simp [hcaller, Caller.IsOver]) hfound hover hpanics
  -- the worker carries nothing before and after
  | sleep hw hqueue | take hw hqueue | wakeWorker hw =>
    exact kept_setWorker hw _ (hk.kept c' found hfound hover i hpanics)
  | @finish w j hw =>
    -- the worker carries the job that is executed
    have hold := hk.kept c' found hfound hover i hpanics
    refine kept_setWorker hw (.ran j) ?_
    have hcarries : (Worker.ran j).carries ⟨c', i⟩ = [j].count ⟨c', i⟩ := Nat.add_zero _
    have hrunning : (Worker.running j).carries ⟨c', i⟩ = 0 := rfl
    show _ = (s.executed ++ [j]).count _ + _
    rw [hcarries, hrunning, List.count_append]
    exact congrArg (· + _) hold
  | count hw hcall => exact kept_counted hk hw hcall hfound hover hpanics
  | record hw hcall => exact kept_recorded hk hw hcall hfound hover hpanics
  | drain hcall hcaller => exact kept_drained (s := s) hk hcall hfound hover hpanics

/-- The batch of a call is the same after a step as before it (`hcall`, `hfound`), as no step
changes the jobs of a call that was entered. -/
private theorem jobs_eq (h : Stepped s e s') {found : Call ε α} (hcall : s.calls[c]? = some call)
    (hfound : s'.calls[c]? = some found) : found.jobs = call.jobs := by
  -- one lemma for all steps that change a call
  have hset : ∀ {c₀ : ℕ} {call₀ call' : Call ε α}, s.calls[c₀]? = some call₀ →
      call'.jobs = call₀.jobs → (s.calls.set c₀ call')[c]? = some found →
        found.jobs = call.jobs := by
    intro c₀ call₀ call' h₀ hjobs h'
    rcases eq_or_of_getElem?_set h₀ h' with ⟨rfl, rfl⟩ | ⟨-, hold⟩
    · rw [hcall, Option.some_inj] at h₀
      rw [hjobs, h₀]
    · rw [hcall, Option.some_inj] at hold
      rw [hold]
  have hsame : s.calls[c]? = some found → found.jobs = call.jobs := by
    intro hold
    rw [hcall, Option.some_inj] at hold
    rw [hold]
  cases h with
  | scopeRun hne hlen =>
    obtain ⟨hc, -⟩ := List.getElem?_eq_some_iff.mp hcall
    rw [List.getElem?_append_left hc] at hfound
    exact hsame hfound
  | submit hcall₀ hcaller => exact hset hcall₀ (by rfl) hfound
  | notifySome hcall₀ hcaller hw => exact hset hcall₀ (jobs_oneNotified _ _) hfound
  | notifyNone hcall₀ hcaller hnone => exact hset hcall₀ (jobs_oneNotified _ _) hfound
  | sleep hw hqueue => exact hsame hfound
  | take hw hqueue => exact hsame hfound
  | finish hw => exact hsame hfound
  | count hw hcall₀ => exact hset hcall₀ (by rfl) hfound
  | record hw hcall₀ => exact hset hcall₀ (by rfl) hfound
  | check hcall₀ hcaller => exact hset hcall₀ (by rfl) hfound
  | drain hcall₀ hcaller => exact hset hcall₀ (jobs_drained _) hfound
  | wakeWorker hw => exact hsame hfound
  | wakeCaller hcall₀ hcaller => exact hset hcall₀ (by rfl) hfound

/-- A worker that records a panic next did so before, or it has just counted a job that panicked. -/
private theorem mem_recording (h : Stepped s e s') {j : Job} (hj : j ∈ s'.recording) :
    j ∈ s.recording ∨ ∃ call, s.calls[j.call]? = some call ∧ call.JobPanics j.index := by
  obtain ⟨p, hp, hpj⟩ := List.mem_filterMap.mp hj
  have hold : p ∈ s.workers → j ∈ s.recording := fun hmem => List.mem_filterMap.mpr ⟨p, hmem, hpj⟩
  -- a worker that is changed to something else does not record
  have hset : ∀ {w : ℕ} {next : Worker}, next.recording? ≠ some j → p ∈ s.workers.set w next →
      j ∈ s.recording := by
    intro w next hnext hmem
    rcases List.mem_or_eq_of_mem_set hmem with hmem | rfl
    · exact hold hmem
    · exact absurd hpj hnext
  cases h with
  | scopeRun hne hlen => exact .inl hj
  | submit hcall hcaller => exact .inl hj
  | notifySome hcall hcaller hw => exact .inl (hset (by simp [Worker.recording?]) hp)
  | notifyNone hcall hcaller hnone => exact .inl hj
  | sleep hw hqueue => exact .inl (hset (by simp [Worker.recording?]) hp)
  | take hw hqueue => exact .inl (hset (by simp [Worker.recording?]) hp)
  | finish hw => exact .inl (hset (by simp [Worker.recording?]) hp)
  | @count w i call hw hcall =>
    -- after its job is counted a worker records its panic, if the job panics
    by_cases hnext : (call.afterCount i).recording? = some j
    · rw [recording?_afterCount] at hnext
      split_ifs at hnext with hpanics
      obtain rfl := Option.some.inj hnext
      exact .inr ⟨call, hcall, Call.jobPanics_iff.mp hpanics⟩
    · exact .inl (hset hnext hp)
  | record hw hcall => exact .inl (hset (by simp [Worker.recording?]) hp)
  | check hcall hcaller => exact .inl hj
  | drain hcall hcaller => exact .inl hj
  | wakeWorker hw => exact .inl (hset (by simp [Worker.recording?]) hp)
  | wakeCaller hcall hcaller => exact .inl hj

/-- After a step, too, a worker that records a job records one that panicked: the job was recorded
before (`hk`), or it has just been counted, and was found to have panicked then. -/
theorem recording (h : Stepped s e s') (hi : Inv s) (hk : Kept s) :
    ∀ j ∈ s'.recording, ∀ call : Call ε α, s'.calls[j.call]? = some call →
      call.JobPanics j.index := by
  intro j hj found hfound
  obtain ⟨call, hcall, hpanics⟩ :
      ∃ call : Call ε α, s.calls[j.call]? = some call ∧ call.JobPanics j.index := by
    rcases h.mem_recording hj with hold | hnew
    · obtain ⟨call, hcall⟩ := hi.exists_call (hi.mem_executed (.inr hold))
      exact ⟨call, hcall, hk.recording j hold call hcall⟩
    · exact hnew
  simpa only [Call.JobPanics, h.jobs_eq hcall hfound] using hpanics

/-- A call has panics of its own jobs only, and resumes one of them. -/
theorem own (h : Stepped s e s') (hk : Kept s) :
    ∀ (c : ℕ) (call : Call ε α), s'.calls[c]? = some call →
      ∀ j, j ∈ call.panics ∨ call.caller = .resumed j → j.call = c ∧ call.JobPanics j.index := by
  intro c' found hfound j hj
  cases h with
  | @scopeRun jobs hne hlen =>
    simp only [getElem?_concat_calls] at hfound
    split_ifs at hfound with hc
    · obtain rfl := Option.some.inj hfound
      simp [Call.entered] at hj
    · exact hk.own c' found hfound j hj
  | @submit c call hcall hcaller =>
    refine own_of_set hk hcall (by rfl) (fun i hi => ?_) hfound hj
    exact hi.imp id fun hresumed => by simp [Call.enqueued] at hresumed
  | @notifySome c w left call hcall hcaller hw =>
    refine own_of_set hk hcall (jobs_oneNotified _ _) (fun i hi => ?_) hfound hj
    cases left <;> simpa [Call.oneNotified, hcaller] using hi
  | @notifyNone c left call hcall hcaller hnone =>
    refine own_of_set hk hcall (jobs_oneNotified _ _) (fun i hi => ?_) hfound hj
    cases left <;> simpa [Call.oneNotified, hcaller] using hi
  | sleep hw hqueue => exact hk.own c' found hfound j hj
  | take hw hqueue => exact hk.own c' found hfound j hj
  | finish hw => exact hk.own c' found hfound j hj
  | @count w i call hw hcall =>
    refine own_of_set hk hcall (by rfl) (fun i hi => ?_) hfound hj
    refine hi.imp id fun hcaller => ?_
    simp only [Call.counted] at hcaller
    split_ifs at hcaller
    exact hcaller
  | @record w i call hw hcall =>
    -- a recorded panic is the one that its worker carried, and all others were recorded before
    rcases eq_or_of_getElem?_set hcall hfound with ⟨rfl, rfl⟩ | ⟨-, hold⟩
    · simp only [Call.recorded, List.mem_append, List.mem_singleton] at hj
      rcases hj with (hj | rfl) | hj
      · exact hk.own i.call call hcall j (.inl hj)
      · exact ⟨rfl,
          hk.recording j (List.mem_filterMap.mpr ⟨_, List.mem_of_getElem? hw, rfl⟩) call hcall⟩
      · exact hk.own i.call call hcall j (.inr hj)
    · exact hk.own c' found hold j hj
  | @check c call hcall hcaller =>
    refine own_of_set hk hcall (by rfl) (fun i hi => ?_) hfound hj
    refine hi.imp id fun hresumed => ?_
    simp only [Call.checked] at hresumed
    split_ifs at hresumed
  | @drain c call hcall hcaller =>
    refine own_of_set hk hcall (jobs_drained _) (fun i hi => .inl ?_) hfound hj
    -- the caller resumes the first of the recorded panics
    unfold Call.drained at hi
    cases hpanics : call.panics with
    | nil => simp [hpanics] at hi
    | cons k ks =>
      simp only [hpanics, List.not_mem_nil, Caller.resumed.injEq, false_or] at hi
      simp [hi]
  | wakeWorker hw => exact hk.own c' found hfound j hj
  | @wakeCaller c call hcall hcaller =>
    refine own_of_set hk hcall (by rfl) (fun i hi => ?_) hfound hj
    exact hi.imp id fun hresumed => by simp at hresumed

end Stepped

/-- Every step keeps track of the panics (`hk`), if the invariant of the pool holds before it
(`hi`): each panic of an executed job is with its worker or with its call. -/
theorem Kept.next (hk : Kept s) (hi : Inv s) (h : Stepped s e s') : Kept s' where
  kept := h.kept hi hk
  recording := h.recording hi hk
  own := h.own hk

/-- The pool starts without panics. -/
theorem Kept.start (w : ℕ) : Kept (State.start w : State ε α) where
  kept c call hcall := by simp [State.start] at hcall
  recording j hj := by
    have hrecording : (State.start w : State ε α).recording = [] := filterMap_replicate_ready rfl w
    rw [hrecording] at hj
    cases hj
  own c call hcall := by simp [State.start] at hcall

/-- A call that has left its wait has no job that is still to be counted. -/
private theorem Inv.notMem_ran_of_hasLeft (hi : Inv s) (hcall : s.calls[c]? = some call)
    (hleft : call.caller.HasLeft) (i : ℕ) : ⟨c, i⟩ ∉ s.ran := by
  have hdone := (hi.sound call (List.mem_of_getElem? hcall)).left hleft
  have hcounted := hi.counted c
  have hsub := hi.conserved.countP_eq (·.call = c)
  rw [hi.countP_submitted hcall hleft.ne_submitting, List.countP_append, List.countP_append] at hsub
  rw [doneOf_eq hcall] at hcounted
  exact notMem_of_countP_eq_zero (by omega) i

/-- When a caller drains its list, the panic of a job is in it or about to be recorded. -/
theorem Kept.count_panics (hk : Kept s) (hi : Inv s) (hcall : s.calls[c]? = some call)
    (hcaller : call.caller = .leaving) {i : ℕ} (hpanics : call.JobPanics i) :
    s.recording.count ⟨c, i⟩ + call.panics.count ⟨c, i⟩ = 1 := by
  have hleft : call.caller.HasLeft := by rw [hcaller]; trivial
  have hlt : i < call.jobs.length := by
    obtain ⟨b, hb, -⟩ := hpanics
    exact (List.getElem?_eq_some_iff.mp hb).1
  have hone := (hi.executed_of_hasLeft hcall hleft i hlt).1
  have hran := List.count_eq_zero_of_not_mem (hi.notMem_ran_of_hasLeft hcall hleft i)
  have hkept := hk.kept c call hcall (by simp [hcaller, Caller.IsOver]) i hpanics
  omega

/-- A drained list has no panic iff every job that panics has its panic still to be recorded. -/
theorem Kept.panics_eq_nil_iff (hk : Kept s) (hi : Inv s) (hcall : s.calls[c]? = some call)
    (hcaller : call.caller = .leaving) :
    call.panics = [] ↔ ∀ i, call.JobPanics i → ⟨c, i⟩ ∈ s.recording := by
  constructor
  · intro hnil i hpanics
    have hone := hk.count_panics hi hcall hcaller hpanics
    rw [hnil, List.count_nil] at hone
    exact List.count_pos_iff.mp (by omega)
  · intro hall
    refine List.eq_nil_iff_forall_not_mem.mpr fun ⟨c', i⟩ hj => ?_
    obtain ⟨rfl, hpanics⟩ := hk.own c call hcall _ (.inl hj)
    have hone := hk.count_panics hi hcall hcaller hpanics
    have hrec := List.count_pos_iff.mpr (hall i hpanics)
    have hlist := List.count_pos_iff.mpr hj
    simp only at hone hrec
    omega

/-- The executed jobs need no mention: a call that resumes a panic has left its wait. -/
theorem Inv.reraises_iff (hi : Inv s) :
    s.Reraises ↔ ∀ (c : ℕ) (call : Call ε α), s.calls[c]? = some call → (∃ i, call.JobPanics i) →
      call.caller ≠ .returned := by
  refine forall₄_congr fun c call hcall _ => and_iff_left ?_
  rintro ⟨j, hresumed⟩
  exact hi.executed_of_hasLeft hcall (by rw [hresumed]; trivial)

/-- A call returns normally in the step that finds its list of panics empty. -/
private theorem Stepped.of_returned (h : Stepped s e s') {found : Call ε α}
    (hfound : s'.calls[c]? = some found) (hreturned : found.caller = .returned) :
    ∃ call : Call ε α, s.calls[c]? = some call ∧ found.jobs = call.jobs ∧
      (call.caller = .returned ∨ e = .drain c ∧ call.caller = .leaving ∧ call.panics = []) := by
  -- one lemma for all steps that change a call and do not make it return
  have hset : ∀ {c₀ : ℕ} {call₀ call' : Call ε α}, s.calls[c₀]? = some call₀ →
      call'.jobs = call₀.jobs → (call'.caller = .returned → call₀.caller = .returned) →
      (s.calls.set c₀ call')[c]? = some found →
      ∃ call : Call ε α, s.calls[c]? = some call ∧ found.jobs = call.jobs ∧
        (call.caller = .returned ∨ e = .drain c ∧ call.caller = .leaving ∧ call.panics = []) := by
    intro c₀ call₀ call' h₀ hjobs hcaller h'
    rcases eq_or_of_getElem?_set h₀ h' with ⟨rfl, rfl⟩ | ⟨-, hold⟩
    · exact ⟨call₀, h₀, hjobs, .inl (hcaller hreturned)⟩
    · exact ⟨found, hold, rfl, .inl hreturned⟩
  cases h with
  | @scopeRun jobs hne hlen =>
    simp only [getElem?_concat_calls] at hfound
    split_ifs at hfound with hc
    · obtain rfl := Option.some.inj hfound
      simp [Call.entered] at hreturned
    · exact ⟨found, hfound, rfl, .inl hreturned⟩
  | submit hcall hcaller => exact hset hcall (by rfl) (by simp [Call.enqueued]) hfound
  | @notifySome c' w left call hcall hcaller hw =>
    exact hset hcall (jobs_oneNotified _ _) (by cases left <;> simp [Call.oneNotified]) hfound
  | @notifyNone c' left call hcall hcaller hnone =>
    exact hset hcall (jobs_oneNotified _ _) (by cases left <;> simp [Call.oneNotified]) hfound
  | sleep hw hqueue => exact ⟨found, hfound, rfl, .inl hreturned⟩
  | take hw hqueue => exact ⟨found, hfound, rfl, .inl hreturned⟩
  | finish hw => exact ⟨found, hfound, rfl, .inl hreturned⟩
  | @count w j call hw hcall =>
    refine hset hcall (by rfl) (fun h => ?_) hfound
    simp only [Call.counted] at h
    split_ifs at h
    exact h
  | record hw hcall => exact hset hcall (by rfl) (by exact id) hfound
  | @check c' call hcall hcaller =>
    refine hset hcall (by rfl) (fun h => ?_) hfound
    simp only [Call.checked] at h
    split_ifs at h
  | @drain c' call hcall hcaller =>
    rcases eq_or_of_getElem?_set hcall hfound with ⟨rfl, rfl⟩ | ⟨-, hold⟩
    · refine ⟨call, hcall, jobs_drained call, .inr ⟨rfl, hcaller, ?_⟩⟩
      unfold Call.drained at hreturned
      cases hpanics : call.panics with
      | nil => rfl
      | cons j js => simp [hpanics] at hreturned
    · exact ⟨found, hold, rfl, .inl hreturned⟩
  | wakeWorker hw => exact ⟨found, hfound, rfl, .inl hreturned⟩
  | wakeCaller hcall hcaller => exact hset hcall (by rfl) (by simp) hfound

/-- A call that has no panic when it drains them (`hnil`) returns normally. -/
private theorem caller_drained (hnil : call.panics = []) : call.drained.caller = .returned := by
  simp [Call.drained, hnil]

/-- A step re-raises the panics iff it does not drain a list too early. -/
theorem Stepped.reraises_iff (h : Stepped s e s') (hi : Inv s) (hk : Kept s) (hre : s.Reraises) :
    s'.Reraises ↔ RecordedInTime s e := by
  rw [(hi.next h).reraises_iff]
  constructor
  · intro hre'
    cases h with
    | @drain c call hcall hcaller =>
      rintro call' hcall' ⟨i, hpanics⟩
      obtain rfl := Option.some.inj (hcall.symm.trans hcall')
      by_contra hlate
      have hall : ∀ i, call.JobPanics i → ⟨c, i⟩ ∈ s.recording := fun i hi =>
        not_not.mp fun hmem => hlate ⟨i, hi, hmem⟩
      -- then the list is empty, and the call returns normally
      have hnil := (hk.panics_eq_nil_iff hi hcall hcaller).mpr hall
      refine hre' c call.drained ?_ ⟨i, ?_⟩ (caller_drained hnil)
      · exact (getElem?_set_calls _ hcall c).trans (if_pos rfl)
      · simpa only [Call.JobPanics, jobs_drained] using hpanics
    | _ => trivial
  · rintro hintime c found hfound ⟨i, hpanics⟩ hreturned
    obtain ⟨call, hcall, hjobs, hcaller⟩ := h.of_returned hfound hreturned
    have hpanics' : ∃ i, call.JobPanics i :=
      ⟨i, by simpa only [Call.JobPanics, hjobs] using hpanics⟩
    rcases hcaller with hcaller | ⟨rfl, hcaller, hnil⟩
    · exact (hre c call hcall hpanics').1 hcaller
    · obtain ⟨i, hi', hmem⟩ := hintime call hcall hpanics'
      exact hmem ((hk.panics_eq_nil_iff hi hcall hcaller).mp hnil i hi')

/-- A pool that has just started has no call that could lose a panic. -/
private theorem reraises_start (w : ℕ) : (State.start w : State ε α).Reraises := by
  intro c call hcall
  simp [State.start] at hcall

/-- Whatever the order of the steps: a run re-raises the panic of every call with a job that panics,
in all states that it goes through, iff whenever a caller of such a call drains its list of panics,
one of the jobs that panic has had its panic recorded already. -/
theorem along_reraises_iff (w : ℕ) (es : List (Event ε α)) :
    Along step State.Reraises (State.start w) es ↔
      AlongSteps step RecordedInTime (State.start w) es :=
  along_iff_alongSteps (I := fun s => Inv s ∧ Kept s)
    (fun _ _ _ hi hre hstep =>
      ⟨⟨hi.1.next (.of_step hstep), hi.2.next hi.1 (.of_step hstep)⟩,
        (Stepped.of_step hstep).reraises_iff hi.1 hi.2 hre⟩)
    ⟨Inv.start w, Kept.start w⟩ (reraises_start w)

/-- The only job of a call panics, and the caller looks for panics after the job is counted and
before its panic is recorded. -/
def earlyDrain : List (Event Unit Unit) :=
  [.scopeRun [.error .panic], .submit 0, .take 0, .notifyOne 0 none, .finish 0, .count 0, .check 0,
    .drain 0]

/-- The call returns normally. -/
theorem not_reraises_earlyDrain :
    ∃ s call, run step (State.start 1) earlyDrain = some s ∧ s.calls[0]? = some call ∧
      call.JobPanics 0 ∧ call.caller = .returned ∧ ¬ s.Reraises := by
  refine ⟨_, _, rfl, rfl, ⟨.error .panic, rfl, rfl⟩, rfl, fun hre => ?_⟩
  exact (hre 0 _ rfl ⟨0, .error .panic, rfl, rfl⟩).1 rfl

/-! ### What a call comes to -/

/-- What the jobs of a call pushed, in the order in which they ended. -/
def State.results (s : State ε α) (c : ℕ) (call : Call ε α) : List α :=
  (s.executed.filter (·.call = c)).filterMap fun j => call.jobs[j.index]?.bind Except.toOption

/-- What a call that is over has come to. -/
def State.outcome (s : State ε α) (c : ℕ) (call : Call ε α) : Option (Outcome ε (List α)) :=
  match call.caller with
  | .returned => some (.ok (s.results c call))
  | .resumed _ => some (.error .panic)
  | _ => none

/-- The entries of a list that `f` keeps, by their positions. -/
private theorem filterMap_range_getElem? {β γ : Type} (f : β → Option γ) (l : List β) :
    (List.range l.length).filterMap (fun i => l[i]?.bind f) = l.filterMap f := by
  have hentries : (List.range l.length).map (l[·]?) = l.map some := by
    apply List.ext_getElem
    · simp
    · intro i h₁ h₂
      simp at h₁
      simp [h₁]
  calc (List.range l.length).filterMap (fun i => l[i]?.bind f)
      = ((List.range l.length).map (l[·]?)).filterMap (·.bind f) := by
        rw [List.filterMap_map]
        rfl
    _ = l.filterMap f := by
        rw [hentries, List.filterMap_map]
        rfl

/-- The executed jobs of a call that has left its wait are its batch. -/
private theorem Inv.executed_perm_batch (hi : Inv s) (hcall : s.calls[c]? = some call)
    (hleft : call.caller.HasLeft) : (s.executed.filter (·.call = c)).Perm (call.batch c) := by
  have hnodup : s.executed.Nodup := (hi.conserved.nodup_iff.mpr hi.nodup).of_append_right
  refine (List.perm_ext_iff_of_nodup (hnodup.filter _) (nodup_batch call c)).mpr fun j => ?_
  rw [List.mem_filter, mem_batch, decide_eq_true_eq]
  constructor
  · rintro ⟨hj, rfl⟩
    have hsub := hi.conserved.mem_iff.mp (List.mem_append_right _ hj)
    obtain ⟨call', hcall', -, hlt⟩ := (hi.mem_submitted j).mp hsub
    obtain rfl := Option.some.inj (hcall.symm.trans hcall')
    exact ⟨rfl, hlt⟩
  · rintro ⟨rfl, hlt⟩
    have hone := (hi.executed_of_hasLeft hcall hleft j.index hlt).1
    exact ⟨List.count_pos_iff.mp (by rw [hone]; exact Nat.one_pos), rfl⟩

/-- The jobs push what they are meant to, in the order in which they end. -/
private theorem Inv.results_perm (hi : Inv s) (hcall : s.calls[c]? = some call)
    (hleft : call.caller.HasLeft) :
    (s.results c call).Perm (call.jobs.filterMap Except.toOption) := by
  refine ((hi.executed_perm_batch hcall hleft).filterMap _).trans ?_
  rw [Call.batch, List.filterMap_map]
  exact List.Perm.of_eq (filterMap_range_getElem? Except.toOption call.jobs)

/-- A call of the pool comes to what `scopeRun` says, for some schedule: the jobs push in some
order, and the caller sees a panic or not. -/
theorem exists_schedule {w : ℕ} {es : List (Event ε α)} (h : run step (State.start w) es = some s)
    (hcall : s.calls[c]? = some call) (hover : call.caller.IsOver) :
    ∃ sched : Schedule α, s.outcome c call = some (scopeRun sched call.jobs) := by
  classical
  obtain ⟨hi, hk⟩ : Inv s ∧ Kept s :=
    (along_of_invariant (P := fun s => Inv s ∧ Kept s)
      (fun _ _ _ hi hstep => ⟨hi.1.next (.of_step hstep), hi.2.next hi.1 (.of_step hstep)⟩)
      ⟨Inv.start w, Kept.start w⟩).run h
  cases hcaller : call.caller with
  | returned =>
    have hperm := hi.results_perm hcall (by rw [hcaller]; trivial)
    refine ⟨{
      finish := fun l =>
        if l = call.jobs.filterMap Except.toOption then s.results c call else l
      finish_perm := fun l => ?_
      panicSeen := false }, ?_⟩
    · split_ifs with hl
      · exact hl ▸ hperm
      · exact List.Perm.refl l
    · simp [State.outcome, hcaller, scopeRun]
  | resumed j =>
    obtain ⟨-, b, hb, hpanics⟩ := hk.own c call hcall j (.inr hcaller)
    have hany : call.jobs.any (fun b => b.toOption.isNone) = true :=
      List.any_eq_true.mpr ⟨b, List.mem_of_getElem? hb, hpanics⟩
    refine ⟨Schedule.inOrder α, ?_⟩
    simp only [State.outcome, hcaller, scopeRun, Schedule.inOrder, hany, and_self, if_true]
  | _ => simp [hcaller, Caller.IsOver] at hover

end Pool

end EngramDB
