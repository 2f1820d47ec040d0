import EngramDB.Core.Layout
import EngramDB.Foundations.Runs
import Mathlib.Data.List.Basic

/-!
# Batched reads through io_uring

A thread keeps one ring for all the calls of a batched reader. A call pushes a chunk of up to 256
reads, submits them, waits until as many completions are queued as it has submitted, and takes that
many completions from the queue. Two readers work this way, each with a ring of its own:

* `IoUringPageReader.read_pages`: one page a request, a short read shortens its page;
* `uring_batch_read`: the requests of `read_many`, a short read is an error.

A completion names its request by the position in the chunk alone. The ring outlives the call, and a
call that meets an error returns at once.

The kernel completes every submitted read once, in any order and at any time. Pushing and submitting
do not fail: a chunk is no longer than the submission queue, which every submission empties.
-/

namespace EngramDB

namespace Uring

/-- Entries of the submission queue: the longest chunk. -/
def DEPTH : ℕ := 256

/-- One read, and what the kernel makes of it. -/
structure Req where
  /-- The file descriptor. -/
  fd : ℤ
  /-- The offset in the file. -/
  off : ℕ
  /-- The buffer to read into, as it is before the read. -/
  buf : Bytes
  /-- The error code of the read, or the bytes that it stores at the start of the buffer. There are
  none at the end of the file. -/
  answer : Except ℕ Bytes
  /-- No more bytes are stored than the buffer has room for. -/
  answer_le : ∀ bytes, answer = .ok bytes → bytes.length ≤ buf.length

/-- A submitted read. -/
structure Sqe where
  /-- The call that submitted it. -/
  call : ℕ
  /-- The position of its buffer among those of the call. -/
  index : ℕ
  /-- The name that its completion will carry: its position in the chunk. -/
  userData : ℕ
  /-- The read. -/
  req : Req

/-- A completion: the name of its read, and the error code or the number of bytes stored. -/
structure Cqe where
  /-- The name of the read. -/
  userData : ℕ
  /-- The result of the read. A negative one is an error code. -/
  result : Except ℕ ℕ

/-- Which reader the ring belongs to. -/
inductive Reader where
  /-- `IoUringPageReader::read_pages_uring`. -/
  | pages
  /-- `uring_batch_read`. -/
  | batch
deriving DecidableEq, Repr

/-- A call in progress. -/
structure Running where
  /-- The reader. -/
  reader : Reader
  /-- The requests. -/
  reqs : List Req
  /-- The buffers of the requests. -/
  bufs : List Bytes
  /-- The position of the first request of the chunk. -/
  start : ℕ
  /-- How many reads of the chunk are submitted: none before the chunk is pushed. -/
  count : ℕ

/-- A call that is over. -/
structure Finished where
  /-- The reader. -/
  reader : Reader
  /-- The requests. -/
  reqs : List Req
  /-- The buffers that it returned, an error, or a panic. -/
  result : Outcome IoError (List Bytes)

/-- The ring of a thread, and the calls on it. -/
structure State where
  /-- The reads that are submitted and not completed. -/
  inflight : List Sqe
  /-- The queued completions. -/
  cq : List Cqe
  /-- The call in progress. -/
  current : Option Running
  /-- The calls that are over, in order. -/
  log : List Finished

/-- What happens on the thread or in the kernel. -/
inductive Event where
  /-- The reader is called. -/
  | call (reqs : List Req)
  /-- The call looks whether requests are left: it submits the next chunk, or returns. -/
  | loop
  /-- The kernel completes one of the submitted reads. -/
  | complete (k : ℕ)
  /-- The wait of the call is over: it takes its completions from the queue. -/
  | reap

namespace Req

/-- The buffer after the read. -/
def filled (r : Req) : Bytes :=
  match r.answer with
  | .ok bytes => bytes ++ r.buf.drop bytes.length
  | .error _ => r.buf

/-- The completion of a read. -/
def cqe (r : Req) (userData : ℕ) : Cqe where
  userData := userData
  result := r.answer.map List.length

/-- `pread` of one page: a short read shortens the page, and no byte at all is an error. -/
def pread (r : Req) : Except IoError Bytes :=
  match r.answer with
  | .error code => .error (.os code)
  | .ok [] => .error (.other "EOF while reading page")
  | .ok (b :: bytes) => .ok (b :: bytes)

/-- A read that must fill its buffer. -/
def readFull (r : Req) : Except IoError Bytes :=
  match r.answer with
  | .error code => .error (.os code)
  | .ok bytes => if bytes.length = r.buf.length then .ok bytes else .error .unexpectedEof

end Req

/-- What a reader is to return: the requests are read one after another, without a ring. For pages
this is `read_pages_pread`. -/
def Reader.direct : Reader → List Req → Except IoError (List Bytes)
  | .pages, reqs => reqs.mapM Req.pread
  | .batch, reqs => reqs.mapM Req.readFull

namespace Running

/-- The requests of the chunk that is submitted. -/
def chunk (run : Running) : List Req := (run.reqs.drop run.start).take run.count

/-- A completion is taken from the queue, and the call goes on, returns an error, or panics. -/
def onCqe (run : Running) (c : Cqe) : Outcome IoError Running :=
  match run.reader, c.result with
  | _, .error code => .error (.error (.os code))
  | .pages, .ok 0 => .error (.error (.other "EOF while reading page"))
  | .pages, .ok (n + 1) =>
    -- `pages[page_idx].truncate(res)`, where an index past the end panics
    match run.bufs[run.start + c.userData]? with
    | some page =>
      .ok { run with bufs := run.bufs.set (run.start + c.userData) (page.take (n + 1)) }
    | none => .error .panic
  | .batch, .ok n =>
    let elen := (run.chunk[c.userData]?.map fun r => r.buf.length).getD 0
    if n ≠ elen then .error (.error .unexpectedEof) else .ok run

/-- The next `n` completions are taken, up to the first that is not good. The completions that are
left in the queue are returned, too. -/
def reapLoop : ℕ → Running → List Cqe → Outcome IoError Running × List Cqe
  | 0, run, cq => (.ok run, cq)
  | _ + 1, _, [] => (.error (.error (.other "no cqe for io_uring read")), [])
  | n + 1, run, c :: cq =>
    match run.onCqe c with
    | .ok run => reapLoop n run cq
    | .error e => (.error e, cq)

/-- The reads of the next chunk of call number `call`. -/
def sqes (run : Running) (call : ℕ) : List Sqe :=
  (((run.reqs.drop run.start).take DEPTH).zipIdx).map fun p =>
    { call := call, index := run.start + p.2, userData := p.2, req := p.1 }

/-- The kernel writes what it has read into the buffer of a request. -/
def write (run : Running) (sqe : Sqe) : Running :=
  { run with bufs := run.bufs.set sqe.index sqe.req.filled }

end Running

namespace State

/-- No read is in flight and no completion is queued. -/
def Clean (s : State) : Prop := s.inflight = [] ∧ s.cq = []

instance (s : State) : Decidable s.Clean :=
  decidable_of_iff (s.inflight.isEmpty ∧ s.cq.isEmpty) (by simp [Clean])

/-- A thread that has not called a reader yet. -/
def start : State where
  inflight := []
  cq := []
  current := none
  log := []

/-- The call in progress is over. -/
def finish (s : State) (run : Running) (result : Outcome IoError (List Bytes)) : State :=
  { s with
    current := none
    log := s.log ++ [{ reader := run.reader, reqs := run.reqs, result := result }] }

end State

/-- One thing that can happen on the ring of a reader. The number of a call is the number of calls
that were over before it. -/
def step (reader : Reader) (s : State) : Event → Option State
  | .call reqs =>
    if s.current.isNone then
      some { s with
        current := some {
          reader := reader, reqs := reqs, bufs := reqs.map Req.buf, start := 0, count := 0 } }
    else none
  | .loop =>
    s.current.bind fun run =>
      if run.count ≠ 0 then none
      else if run.start < run.reqs.length then
        let sqes := run.sqes s.log.length
        some { s with
          inflight := s.inflight ++ sqes
          current := some { run with count := sqes.length } }
      else some (s.finish run (.ok run.bufs))
  | .complete k =>
    s.inflight[k]?.map fun sqe =>
      { s with
        inflight := s.inflight.eraseIdx k
        cq := s.cq ++ [sqe.req.cqe sqe.userData]
        -- the buffers of a call that is over are not those of the call in progress
        current := s.current.map fun run => if sqe.call = s.log.length then run.write sqe else run }
  | .reap =>
    s.current.bind fun run =>
      if run.count = 0 ∨ s.cq.length < run.count then none
      else
        match run.reapLoop run.count s.cq with
        | (.ok run', cq) =>
          some { s with
            cq := cq
            current := some { run' with start := run.start + run.count, count := 0 } }
        | (.error e, cq) => some ({ s with cq := cq }.finish run (.error e))

/-- A call that returned buffers returned what reading its own requests comes to. -/
def Finished.ReadsOwn (f : Finished) : Prop :=
  ∀ bufs, f.result = .ok bufs → f.reader.direct f.reqs = .ok bufs

/-- Every call that is over read its own requests. -/
def State.ReadsOwn (s : State) : Prop := ∀ f ∈ s.log, f.ReadsOwn

/-- The reader is called on a clean ring only. -/
def CalledClean (s : State) : Event → Prop
  | .call _ => s.Clean
  | _ => True

end Uring

end EngramDB
