import EngramDB.Io.Uring
import Mathlib.Data.List.InsertIdx
import Mathlib.Data.List.Nodup
import Mathlib.Data.List.Perm.Basic

/-!
# What a call on a clean ring returns

On a clean ring the completions that a call takes are its own: those of its chunk, each once
(`Serving.ring`). So what it returns is what reading its requests one after another comes to.

* `Serving.of_reap`: the completions of a chunk, all good, leave the buffers of its requests read;
* `readsOwn_along`: in a run whose calls are all made on a clean ring, every call that returns
  buffers has read its own requests;
* `not_readsOwn_staleCompletion`: a call that fails leaves a completion behind, and the next call
  takes it for one of its own.
-/

namespace EngramDB

namespace Uring

open Machine

/-- What a request is to come to. -/
def Reader.readOne : Reader → Req → Except IoError Bytes
  | .pages => Req.pread
  | .batch => Req.readFull

private theorem Reader.direct_eq_mapM (reader : Reader) (reqs : List Req) :
    reader.direct reqs = reqs.mapM reader.readOne := by
  cases reader <;> rfl

namespace Running

/-- The requests of the submitted chunk, with their positions in it. -/
def pairs (run : Running) : List (Req × ℕ) := run.chunk.zipIdx

variable {run run' : Running} {p : Req × ℕ}

theorem mem_pairs : p ∈ run.pairs ↔ p.2 < run.count ∧ run.reqs[run.start + p.2]? = some p.1 := by
  rw [pairs, List.mem_zipIdx_iff_getElem?, chunk, List.getElem?_take]
  split_ifs with h
  · simp [h]
  · simp [h]

theorem nodup_pairs (run : Running) : run.pairs.Nodup :=
  List.Nodup.of_map Prod.snd (by rw [pairs, List.zipIdx_map_snd]; exact List.nodup_range')

private theorem length_pairs (h : run.start + run.count ≤ run.reqs.length) :
    run.pairs.length = run.count := by
  simp only [pairs, chunk, List.length_zipIdx, List.length_take, List.length_drop]
  omega

/-- A good completion of a request whose buffer has been filled leaves what the request comes to. -/
private theorem onCqe_ok (hp : p ∈ run.pairs) (hbuf : run.bufs[run.start + p.2]? = some p.1.filled)
    (h : run.onCqe (p.1.cqe p.2) = .ok run') :
    ∃ bytes, run.reader.readOne p.1 = .ok bytes ∧
      run' = { run with bufs := run.bufs.set (run.start + p.2) bytes } := by
  obtain ⟨hlt, hreq⟩ := mem_pairs.mp hp
  cases hanswer : p.1.answer with
  | error code => simp [onCqe, Req.cqe, hanswer, Except.map] at h
  | ok bytes =>
    have hle := p.1.answer_le bytes hanswer
    cases hreader : run.reader with
    | pages =>
      cases bytes with
      | nil => simp [onCqe, Req.cqe, hanswer, hreader, Except.map] at h
      | cons b bytes =>
        have hfilled : p.1.filled.take (bytes.length + 1) = b :: bytes := by
          rw [Req.filled, hanswer]
          exact List.take_left' rfl
        simp only [onCqe, Req.cqe, hanswer, hreader, Except.map, List.length_cons, hbuf,
          Except.ok.injEq] at h
        exact ⟨b :: bytes, by simp [Reader.readOne, Req.pread, hanswer], by rw [← h, hfilled]⟩
    | batch =>
      have hchunk : run.chunk[p.2]? = some p.1 := by
        rw [chunk, List.getElem?_take_of_lt hlt, List.getElem?_drop, hreq]
      simp only [onCqe, Req.cqe, hanswer, hreader, Except.map, hchunk, Option.map_some,
        Option.getD_some] at h
      split_ifs at h with hlen
      -- a full read leaves the buffer as the kernel wrote it
      have hlen' : bytes.length = p.1.buf.length := not_not.mp hlen
      have hfilled : p.1.filled = bytes := by
        simp only [Req.filled, hanswer]
        rw [List.drop_of_length_le (by omega), List.append_nil]
      refine ⟨bytes, by simp [Reader.readOne, Req.readFull, hanswer, hlen'], ?_⟩
      obtain ⟨hi, hget⟩ := List.getElem?_eq_some_iff.mp hbuf
      rw [← hfilled, ← hget, List.set_getElem_self]
      exact (Except.ok.inj h).symm.trans (by rw [← hreader])

/-- Requests of the chunk at the same position are the same. -/
theorem eq_of_mem_pairs {q : Req × ℕ} (hp : p ∈ run.pairs) (hq : q ∈ run.pairs) (h : p.2 = q.2) :
    p = q := by
  have hreq := (mem_pairs.mp hp).2
  rw [h, (mem_pairs.mp hq).2] at hreq
  exact Prod.ext (Option.some.inj hreq).symm h

/-- The completions of filled requests, all good, leave what the requests come to, and nothing else
changes. -/
private theorem reapLoop_ok {done : List (Req × ℕ)} {left : List Cqe} (hnodup : done.Nodup)
    (hmem : ∀ p ∈ done, p ∈ run.pairs)
    (hbufs : ∀ p ∈ done, run.bufs[run.start + p.2]? = some p.1.filled)
    (h : run.reapLoop done.length (done.map fun p => p.1.cqe p.2) = (.ok run', left)) :
    left = [] ∧ (∃ bufs, run' = { run with bufs := bufs } ∧ bufs.length = run.bufs.length) ∧
      (∀ p ∈ done, ∃ bytes, run.reader.readOne p.1 = .ok bytes ∧
        run'.bufs[run.start + p.2]? = some bytes) ∧
      ∀ j, (∀ p ∈ done, j ≠ run.start + p.2) → run'.bufs[j]? = run.bufs[j]? := by
  induction done generalizing run with
  | nil =>
    obtain ⟨hrun, rfl⟩ := Prod.mk.inj h
    obtain rfl := Except.ok.inj hrun
    exact ⟨rfl, ⟨run.bufs, rfl, rfl⟩, by simp, fun _ _ => rfl⟩
  | cons p done ih =>
    obtain ⟨hp, hnodup'⟩ := List.nodup_cons.mp hnodup
    have hpmem := hmem p (by simp)
    have hpbuf := hbufs p (by simp)
    -- the other requests have other buffers
    have hne : ∀ q ∈ done, run.start + p.2 ≠ run.start + q.2 := by
      intro q hq heq
      exact hp (eq_of_mem_pairs hpmem (hmem q (by simp [hq])) (by omega) ▸ hq)
    simp only [List.map_cons, List.length_cons, reapLoop] at h
    cases hc : run.onCqe (p.1.cqe p.2) with
    | error e => simp [hc] at h
    | ok run₁ =>
      obtain ⟨bytes, hread, rfl⟩ := onCqe_ok hpmem hpbuf hc
      simp only [hc] at h
      obtain ⟨hleft, ⟨bufs, hrun', hlen⟩, hdone, hother⟩ :=
        @ih { run with bufs := run.bufs.set (run.start + p.2) bytes } hnodup'
          (fun q hq => hmem q (by simp [hq]))
          (fun q hq => (List.getElem?_set_ne (hne q hq)).trans (hbufs q (by simp [hq]))) h
      refine ⟨hleft, ⟨bufs, hrun', by rw [hlen, List.length_set]⟩, fun q hq => ?_, fun j hj => ?_⟩
      · rcases List.mem_cons.mp hq with rfl | hq
        · refine ⟨bytes, hread, (hother _ fun q hq => hne q hq).trans ?_⟩
          exact List.getElem?_set_self (List.getElem?_eq_some_iff.mp hpbuf).1
        · exact hdone q hq
      · rw [hother j fun q hq => hj q (by simp [hq])]
        exact List.getElem?_set_ne (Ne.symm (hj p (by simp)))

end Running

/-- A call whose reads are the only ones on the ring: what is in its buffers, in flight and
queued. -/
structure Serving (s : State) (run : Running) : Prop where
  /-- There is one buffer for each request. -/
  length_bufs : run.bufs.length = run.reqs.length
  /-- The submitted chunk lies among the requests. -/
  chunk_le : run.start + run.count ≤ run.reqs.length
  /-- The requests before the chunk have been read. -/
  served : ∀ j < run.start, ∀ r, run.reqs[j]? = some r →
    ∃ bytes, run.reader.readOne r = .ok bytes ∧ run.bufs[j]? = some bytes
  /-- The requests after the chunk have not. -/
  untouched : ∀ j, run.start + run.count ≤ j → ∀ r, run.reqs[j]? = some r →
    run.bufs[j]? = some r.buf
  /-- Every request of the chunk is queued, with its buffer filled, or in flight. -/
  ring : ∃ done rest : List (Req × ℕ), (done ++ rest).Perm run.pairs ∧
    s.cq = done.map (fun p => p.1.cqe p.2) ∧
    s.inflight = rest.map (fun p =>
      { call := s.log.length, index := run.start + p.2, userData := p.2, req := p.1 }) ∧
    (∀ p ∈ done, run.bufs[run.start + p.2]? = some p.1.filled) ∧
    ∀ p ∈ rest, run.bufs[run.start + p.2]? = some p.1.buf

/-- The call in progress, if there is one, was made on a clean ring, and so were those before it. -/
structure Inv (s : State) : Prop where
  /-- The call in progress has the ring for itself. -/
  serving : ∀ run, s.current = some run → Serving s run
  /-- Every call that is over read its own requests. -/
  readsOwn : s.ReadsOwn

variable {reader : Reader} {s s' : State} {run : Running}

/-- A call on a clean ring starts with the ring for itself. -/
private theorem Serving.of_call (hclean : s.Clean) (reader : Reader) (reqs : List Req) :
    Serving { s with current := some ⟨reader, reqs, reqs.map Req.buf, 0, 0⟩ }
      ⟨reader, reqs, reqs.map Req.buf, 0, 0⟩ where
  length_bufs := List.length_map _
  chunk_le := Nat.zero_le _
  served j hj := absurd hj (Nat.not_lt_zero j)
  untouched j _ r hr := by simp [hr]
  ring := ⟨[], [], by simp [Running.pairs, Running.chunk], hclean.2, hclean.1, by simp, by simp⟩

/-- Between two chunks nothing is in flight and nothing is queued. -/
theorem Serving.clean (h : Serving s run) (hcount : run.count = 0) : s.Clean := by
  obtain ⟨done, rest, hperm, hcq, hinflight, -, -⟩ := h.ring
  have hpairs : run.pairs = [] := by simp [Running.pairs, Running.chunk, hcount]
  rw [hpairs, List.perm_nil, List.append_eq_nil_iff] at hperm
  exact ⟨by rw [hinflight, hperm.2]; rfl, by rw [hcq, hperm.1]; rfl⟩

/-- When the completions of a chunk have all been taken (`hcount`) and requests are left (`hlt`),
the next chunk is submitted and is served like the ones before. -/
private theorem Serving.of_submit (h : Serving s run) (hcount : run.count = 0)
    (hlt : run.start < run.reqs.length) :
    Serving
      { s with
        inflight := s.inflight ++ run.sqes s.log.length
        current := some { run with count := (run.sqes s.log.length).length } }
      { run with count := (run.sqes s.log.length).length } := by
  -- nothing is in flight, so all that will complete was submitted here
  obtain ⟨hinflight, hcq⟩ := h.clean hcount
  have hcountVal : (run.sqes s.log.length).length = min DEPTH (run.reqs.length - run.start) := by
    simp [Running.sqes]
  have hpairs : ({ run with count := (run.sqes s.log.length).length } : Running).pairs =
      ((run.reqs.drop run.start).take DEPTH).zipIdx := by
    simp only [Running.pairs, Running.chunk, hcountVal]
    congr 1
    rw [← List.length_drop, ← List.take_eq_take_min]
  refine ⟨h.length_bufs, ?_, h.served, fun j hj => ?_, [],
    ((run.reqs.drop run.start).take DEPTH).zipIdx, ?_, hcq, ?_, by simp, fun p hp => ?_⟩
  · simp only [hcountVal]
    omega
  · simp only [hcountVal] at hj
    exact h.untouched j (by omega)
  · rw [hpairs, List.nil_append]
  · rw [hinflight]
    rfl
  · rw [← hpairs] at hp
    exact h.untouched _ (by simp only [hcount]; omega) _ (Running.mem_pairs.mp hp).2

/-- A read of the chunk completes: its buffer is filled, and its completion is queued. -/
private theorem Serving.of_complete (h : Serving s run) {k : ℕ} {sqe : Sqe}
    (hk : s.inflight[k]? = some sqe) :
    sqe.call = s.log.length ∧
      Serving
        { s with
          inflight := s.inflight.eraseIdx k
          cq := s.cq ++ [sqe.req.cqe sqe.userData]
          current := some (run.write sqe) }
        (run.write sqe) := by
  obtain ⟨done, rest, hperm, hcq, hinflight, hdone, hrest⟩ := h.ring
  rw [hinflight, List.getElem?_map] at hk
  obtain ⟨p, hp, rfl⟩ := Option.map_eq_some_iff.mp hk
  have hklt := (List.getElem?_eq_some_iff.mp hp).1
  have hpget := (List.getElem?_eq_some_iff.mp hp).2
  -- the completed request moves from the ones in flight to the queued ones
  have hmove : (p :: rest.eraseIdx k).Perm rest := by
    rw [← hpget]
    exact List.getElem_cons_eraseIdx_perm hklt
  have hperm' : (done ++ [p] ++ rest.eraseIdx k).Perm run.pairs := by
    rw [List.append_assoc]
    exact (hmove.append_left done).trans hperm
  have hnodup := hperm'.nodup_iff.mpr run.nodup_pairs
  have hmem : ∀ q ∈ done ++ rest, q ∈ run.pairs := fun q hq => hperm.mem_iff.mp hq
  have hprest : p ∈ rest := List.mem_of_getElem? hp
  have hppairs := hmem p (List.mem_append_right _ hprest)
  have hlt := (Running.mem_pairs.mp hppairs).1
  have hbound : run.start + p.2 < run.bufs.length :=
    (List.getElem?_eq_some_iff.mp (hrest p hprest)).1
  -- the other requests of the chunk have other buffers
  have hother : ∀ q ∈ run.pairs, q ≠ p → run.start + p.2 ≠ run.start + q.2 := fun q hq hne heq =>
    hne (Running.eq_of_mem_pairs hq hppairs (by omega))
  refine ⟨rfl, (List.length_set).trans h.length_bufs, h.chunk_le, fun j hj r hr => ?_,
    fun j hj r hr => ?_, done ++ [p], rest.eraseIdx k, hperm', ?_, ?_, fun q hq => ?_,
    fun q hq => ?_⟩
  · obtain ⟨bytes, hread, hbytes⟩ := h.served j hj r hr
    have hne : run.start + p.2 ≠ j := by
      have : j < run.start := hj
      omega
    exact ⟨bytes, hread, (List.getElem?_set_ne hne).trans hbytes⟩
  · have hne : run.start + p.2 ≠ j := by
      have : run.start + run.count ≤ j := hj
      omega
    exact (List.getElem?_set_ne hne).trans (h.untouched j hj r hr)
  · rw [hcq, List.map_append]
    rfl
  · rw [hinflight, List.eraseIdx_map]
    rfl
  · rcases eq_or_ne q p with rfl | hne
    · exact List.getElem?_set_self hbound
    · have hqdone : q ∈ done := by simpa [hne] using hq
      exact (List.getElem?_set_ne (hother q (hmem q (List.mem_append_left _ hqdone)) hne)).trans
        (hdone q hqdone)
  · have hqrest : q ∈ rest := List.mem_of_mem_eraseIdx hq
    have hne : q ≠ p := by
      rintro rfl
      have hdisjoint := (List.nodup_append.mp hnodup).2.2
      exact hdisjoint q (by simp) q hq rfl
    exact (List.getElem?_set_ne (hother q (hmem q (List.mem_append_right _ hqrest)) hne)).trans
      (hrest q hqrest)

/-- When as many completions are queued as the call waits for, and all are good, the requests of the
chunk have been read. -/
theorem Serving.of_reap (h : Serving s run) {run' : Running} {left : List Cqe}
    (hwait : run.count ≤ s.cq.length) (hreap : run.reapLoop run.count s.cq = (.ok run', left)) :
    Serving
      { s with
        cq := left
        current := some { run' with start := run.start + run.count, count := 0 } }
      { run' with start := run.start + run.count, count := 0 } := by
  obtain ⟨done, rest, hperm, hcq, hinflight, hdone, hrest⟩ := h.ring
  -- every request of the chunk is queued
  have hlen := hperm.length_eq
  rw [Running.length_pairs h.chunk_le, List.length_append] at hlen
  rw [hcq, List.length_map] at hwait
  obtain rfl : rest = [] := List.length_eq_zero_iff.mp (by omega)
  rw [List.append_nil] at hperm
  rw [List.length_nil, Nat.add_zero] at hlen
  rw [hcq, ← hlen] at hreap
  obtain ⟨rfl, ⟨bufs, rfl, hbufs⟩, hread, hother⟩ :=
    Running.reapLoop_ok (hperm.nodup_iff.mpr run.nodup_pairs)
      (fun p hp => hperm.mem_iff.mp hp) hdone
      hreap
  refine ⟨hbufs.trans h.length_bufs, h.chunk_le, fun j hj r hr => ?_, fun j hj r hr => ?_, [], [],
    ?_, rfl, hinflight, by simp, by simp⟩
  · rcases Nat.lt_or_ge j run.start with hjs | hjs
    · obtain ⟨bytes, hone, hbytes⟩ := h.served j hjs r hr
      refine ⟨bytes, hone, (hother j fun p hp => ?_).trans hbytes⟩
      omega
    · -- request `j` is one of the chunk
      have hp : ((r, j - run.start) : Req × ℕ) ∈ run.pairs := by
        refine Running.mem_pairs.mpr ⟨by simp only at hj ⊢; omega, ?_⟩
        rwa [Nat.add_sub_cancel' hjs]
      obtain ⟨bytes, hone, hbytes⟩ := hread _ (hperm.mem_iff.mpr hp)
      rw [Nat.add_sub_cancel' hjs] at hbytes
      exact ⟨bytes, hone, hbytes⟩
  · refine (hother j fun p hp => ?_).trans (h.untouched j (by simpa using hj) r hr)
    have hlt := (Running.mem_pairs.mp (hperm.mem_iff.mp hp)).1
    simp only [Nat.add_zero] at hj
    omega
  · simp [Running.pairs, Running.chunk]

/-- A list of results as long as the list (`hlen`), in which each is what `f` returns for its entry
(`h`), is what `f` returns over the list. -/
theorem mapM_eq_ok {ε β γ : Type} {f : β → Except ε γ} {l : List β} {out : List γ}
    (hlen : out.length = l.length)
    (h : ∀ (j : ℕ) (b : β), l[j]? = some b → ∃ c, f b = .ok c ∧ out[j]? = some c) :
    l.mapM f = .ok out := by
  induction l generalizing out with
  | nil =>
    obtain rfl := List.length_eq_zero_iff.mp hlen
    rfl
  | cons b l ih =>
    cases out with
    | nil => cases hlen
    | cons c out =>
      obtain ⟨c', hf, hc⟩ := h 0 b rfl
      obtain rfl : c = c' := Option.some.inj hc
      have htail := ih (Nat.succ.inj hlen) fun j b' hb' => h (j + 1) b' hb'
      simp [List.mapM_cons, hf, htail, bind, Except.bind, pure, Except.pure]

/-- When no request is left, the call returns what reading its requests comes to. -/
theorem Serving.direct (h : Serving s run) (hend : run.reqs.length ≤ run.start) :
    run.reader.direct run.reqs = .ok run.bufs := by
  rw [Reader.direct_eq_mapM]
  refine mapM_eq_ok h.length_bufs fun j r hr => h.served j ?_ r hr
  have hj := (List.getElem?_eq_some_iff.mp hr).1
  omega

/-- A call that returns an error says nothing about its requests, so the log stays right (`h`). -/
private theorem readsOwn_finish_error (h : s.ReadsOwn) (run : Running) (e : Fault IoError) :
    (s.finish run (.error e)).ReadsOwn := by
  intro f hf
  rcases List.mem_append.mp hf with hf | hf
  · exact h f hf
  · obtain rfl := List.mem_singleton.mp hf
    exact fun bufs hbufs => by cases hbufs

/-- Every step keeps the invariant, if calls are made on a clean ring only. -/
theorem Inv.next {e : Event} (h : Inv s) (hclean : CalledClean s e)
    (hstep : step reader s e = some s') : Inv s' := by
  cases e with
  | call reqs =>
    simp only [step] at hstep
    split_ifs at hstep
    obtain rfl := Option.some.inj hstep
    refine ⟨fun run hrun => ?_, h.readsOwn⟩
    obtain rfl := Option.some.inj hrun
    exact Serving.of_call hclean reader reqs
  | loop =>
    obtain ⟨run, hrun, hstep⟩ := Option.bind_eq_some_iff.mp hstep
    have hserving := h.serving run hrun
    split_ifs at hstep with hcount hlt
    · obtain rfl := Option.some.inj hstep
      refine ⟨fun run' hrun' => ?_, h.readsOwn⟩
      obtain rfl := Option.some.inj hrun'
      exact hserving.of_submit (not_not.mp hcount) hlt
    · obtain rfl := Option.some.inj hstep
      -- the last read is done: its buffers are returned and no call is left
      refine ⟨fun run' hrun' => by simp [State.finish] at hrun', fun f hf => ?_⟩
      rcases List.mem_append.mp hf with hf | hf
      · exact h.readsOwn f hf
      · obtain rfl := List.mem_singleton.mp hf
        intro bufs hbufs
        obtain rfl := Except.ok.inj hbufs
        exact hserving.direct (Nat.le_of_not_lt hlt)
  | complete k =>
    obtain ⟨sqe, hk, rfl⟩ := Option.map_eq_some_iff.mp hstep
    refine ⟨fun run' hrun' => ?_, h.readsOwn⟩
    obtain ⟨run, hrun, hwrite⟩ := Option.map_eq_some_iff.mp hrun'
    -- the kernel serves a request of this call, never one of an earlier call
    obtain ⟨hown, hserving⟩ := (h.serving run hrun).of_complete hk
    rw [if_pos hown] at hwrite
    obtain rfl := hwrite
    simpa only [hrun, Option.map_some, if_pos hown] using hserving
  | reap =>
    obtain ⟨run, hrun, hstep⟩ := Option.bind_eq_some_iff.mp hstep
    split_ifs at hstep with hwait
    split at hstep
    next run' left hreap =>
      obtain rfl := Option.some.inj hstep
      refine ⟨fun run'' hrun'' => ?_, h.readsOwn⟩
      obtain rfl := Option.some.inj hrun''
      exact (h.serving run hrun).of_reap (by omega) hreap
    next e left hreap =>
      obtain rfl := Option.some.inj hstep
      refine ⟨fun run'' hrun'' => by simp [State.finish] at hrun'', ?_⟩
      -- a call that returns an error returns no buffers
      exact readsOwn_finish_error h.readsOwn run e

/-- A thread starts with a clean ring and no call. -/
theorem Inv.start : Inv State.start where
  serving run hrun := by cases hrun
  readsOwn f hf := by cases hf

/-- A call that returns buffers leaves the ring clean, if it was made on a clean ring. -/
theorem Inv.clean_of_returned (h : Inv s) (hrun : s.current = some run) (hcount : run.count = 0)
    (hend : run.reqs.length ≤ run.start) :
    ∃ s', step reader s .loop = some s' ∧
      s'.log.getLast? = some ⟨run.reader, run.reqs, .ok run.bufs⟩ ∧
      s'.Clean := by
  refine ⟨s.finish run (.ok run.bufs), ?_, by simp [State.finish], ?_⟩
  · simp only [step, hrun, Option.bind_some]
    rw [if_neg (by omega), if_neg (by omega)]
  · exact (h.serving run hrun).clean hcount

/-- In a run whose calls are all made on a clean ring, in every state, every call that has returned
buffers has returned what reading its own requests comes to, whatever the order of the completions
and whichever reads fail or meet the end of their file. -/
theorem readsOwn_along (reader : Reader) (es : List Event)
    (h : AlongSteps (step reader) CalledClean State.start es) :
    Along (step reader) State.ReadsOwn State.start es :=
  (along_of_alongSteps (P := Inv)
    (fun _ _ _ hi hclean hstep => hi.next hclean hstep) Inv.start h).imp
    fun _ hi => hi.readsOwn

/-- A request for a page of file 3, and what is read there. -/
def pageReq (off : ℕ) (bytes : Bytes) (h : bytes.length ≤ 4096) : Req where
  fd := 3
  off := off
  buf := List.replicate 4096 0
  answer := .ok bytes
  answer_le bytes' h' := by
    obtain rfl := Except.ok.inj h'
    rwa [List.length_replicate]

/-- A request for a page that fails. -/
def failedReq (off : ℕ) (code : ℕ) : Req where
  fd := 3
  off := off
  buf := List.replicate 4096 0
  answer := .error code
  answer_le bytes h := by cases h

/-- The first of two reads fails and completes last, so the call takes both completions before it
returns its error. Then two pages are read, the second of which completes first. -/
def twoCalls : List Event :=
  [.call [failedReq 0 5, pageReq 4096 [3] (by decide)],
    .loop, .complete 1, .complete 0, .reap,
    .call [pageReq 0 [1, 2] (by decide), pageReq 4096 [3] (by decide)],
    .loop, .complete 1, .complete 0, .reap, .loop]

theorem readsOwn_along_twoCalls : Along (step .pages) State.ReadsOwn State.start twoCalls :=
  readsOwn_along .pages twoCalls (by
    intro s₁ h₁
    refine ⟨⟨rfl, rfl⟩, fun s₂ h₂ => ⟨trivial, fun s₃ h₃ => ⟨trivial, fun s₄ h₄ => ⟨trivial,
      fun s₅ h₅ => ⟨trivial, fun s₆ _ => ⟨?_, fun s₇ _ => ⟨trivial, fun s₈ _ => ⟨trivial,
      fun s₉ _ => ⟨trivial, fun s₁₀ _ => ⟨trivial, fun s₁₁ _ => ⟨trivial, trivial⟩⟩⟩⟩⟩⟩⟩⟩⟩⟩⟩
    -- the failing call has left nothing on the ring
    obtain rfl := Option.some.inj h₁
    obtain rfl := Option.some.inj h₂
    obtain rfl := Option.some.inj h₃
    obtain rfl := Option.some.inj h₄
    obtain rfl := Option.some.inj h₅
    exact ⟨rfl, rfl⟩)

-- both calls return, the first with the error of its failing read
example : ((Machine.run (step .pages) State.start twoCalls).map fun s =>
    s.log.map fun f => f.result.isOk) = some [false, true] := by
  rfl

/-- The first of two reads fails, so the call returns before it takes the completion of the
second. -/
def staleCompletion : List Event :=
  [.call [failedReq 0 5, pageReq 4096 [1, 2, 3, 4] (by decide)],
    .loop, .complete 0, .complete 0, .reap,
    .call [pageReq 0 [5, 6, 7, 8] (by decide), pageReq 4096 [9, 9, 9, 9] (by decide)],
    .loop, .complete 0, .reap, .loop]

/-- The next call takes that completion for the one of its own second read, which has not completed,
and returns a page of zeros. -/
theorem not_readsOwn_staleCompletion :
    ¬ Along (step .pages) State.ReadsOwn State.start staleCompletion := by
  intro h
  have hreads : Finished.ReadsOwn _ :=
    h.run rfl _ (List.mem_cons_of_mem _ (List.mem_singleton_self _))
  have hdirect := hreads [[5, 6, 7, 8], [0, 0, 0, 0]] rfl
  cases hdirect

end Uring

end EngramDB
