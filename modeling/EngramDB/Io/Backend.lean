import EngramDB.Core.Layout
import Mathlib.Data.List.Basic
import Mathlib.Tactic.Common

/-!
# IO backends

Positional reads. `Pread` is what the operating system promises about one `read_at`, `IoBackend` is
the contract the readers rely on, and `PreadvBackend` fills a buffer by looping over `read_at`.

A read may be answered differently every time it is issued. Requests therefore carry the name of
the call that issues them, and a backend is a function of the request: quantifying over backends
quantifies over every sequence of answers.
-/

namespace EngramDB

/-- One positional read. -/
structure ReadReq where
  /-- Names the call, so that equal reads may be answered differently. -/
  call : ℕ × ℕ
  /-- Contents of the file. -/
  file : Bytes
  /-- Offset of the first byte. -/
  off : ℕ
  /-- Length of the buffer to fill. -/
  len : ℕ

namespace ReadReq

/-- Number of bytes the file has from the offset on. -/
def available (r : ReadReq) : ℕ := r.file.length - r.off

/-- The buffer after the first `n` bytes of the answer were stored at its start. -/
def fill (r : ReadReq) (buf : Bytes) (n : ℕ) : Bytes :=
  (r.file.drop r.off).take n ++ buf.drop n

/-- Entry by entry, a filled buffer shows the file up to the bytes stored. -/
theorem getElem?_fill (r : ReadReq) {buf : Bytes} {n : ℕ} (hn : n ≤ r.available) (j : ℕ) :
    (r.fill buf n)[j]? = if j < n then r.file[r.off + j]? else buf[j]? := by
  have hlen : ((r.file.drop r.off).take n).length = n := by
    rw [List.length_take, List.length_drop]
    exact Nat.min_eq_left hn
  rw [fill, List.getElem?_append, hlen]
  split_ifs with h
  · rw [List.getElem?_take_of_lt h, List.getElem?_drop]
  · rw [List.getElem?_drop]
    congr 1
    omega

/-- Filling a buffer keeps its length, if what is read fits into it. -/
theorem length_fill (r : ReadReq) {buf : Bytes} {n : ℕ} (hn : n ≤ r.available)
    (hbuf : n ≤ buf.length) : (r.fill buf n).length = buf.length := by
  simp only [fill, List.length_append, List.length_take, List.length_drop, available] at hn ⊢
  omega

end ReadReq

/-- The system's positional read: an error, or the number of bytes stored, which is at most what
was asked for and at most what the file has. -/
structure Pread where
  /-- The answer to a request. -/
  run : ReadReq → Except IoError ℕ
  /-- No more bytes are stored than were asked for and exist. -/
  run_le : ∀ {r n}, run r = .ok n → n ≤ min r.len r.available

/-- Every read succeeds and stores all the bytes asked for that exist. -/
def Pread.Full (os : Pread) : Prop := ∀ r, os.run r = .ok (min r.len r.available)

/-- The system whose reads are never short. -/
def fullPread : Pread where
  run r := .ok (min r.len r.available)
  run_le h := by
    simp only [Except.ok.injEq] at h
    omega

/-- The reads that return all that is there are never short. -/
theorem fullPread_full : fullPread.Full := fun _ => rfl

/-- The contract of a backend: `readAt` reads as much as it can and returns the number of bytes
stored, `readExactAt` fills the buffer or returns an error. The first component of `readExactAt` is
the number of bytes it stored before it returned. -/
structure IoBackend where
  /-- Best-effort read. -/
  readAt : ReadReq → Except IoError ℕ
  /-- Filling read: the bytes stored, and the result. -/
  readExactAt : ReadReq → ℕ × Except IoError Unit
  /-- `readAt` stores no more than was asked for and exists. -/
  readAt_le : ∀ {r n}, readAt r = .ok n → n ≤ min r.len r.available
  /-- `readExactAt` stores no more than was asked for and exists. -/
  readExactAt_le : ∀ r, (readExactAt r).1 ≤ min r.len r.available
  /-- `readExactAt` succeeds only with the buffer filled. -/
  readExactAt_ok : ∀ {r}, (readExactAt r).2 = .ok () → (readExactAt r).1 = r.len

/-- The filling loop over `read_at`: `done` bytes are stored so far, and every round that goes on
stores at least one more. A round that stores nothing has met the end of the file. -/
def platformReadExactAtFrom (os : Pread) (r : ReadReq) : ℕ → ℕ → ℕ × Except IoError Unit
  | 0, done => (done, .ok ())
  | fuel + 1, done =>
    if done < r.len then
      match os.run { r with off := r.off + done, len := r.len - done } with
      | .error e => (done, .error e)
      | .ok n =>
        if n = 0 then (done, .error .unexpectedEof)
        else platformReadExactAtFrom os r fuel (done + n)
    else (done, .ok ())

/-- Fill a buffer of `r.len` bytes from `r.off` on, or fail at the end of the file. -/
def platformReadExactAt (os : Pread) (r : ReadReq) : ℕ × Except IoError Unit :=
  platformReadExactAtFrom os r r.len 0

/-- Reading on gets at most what is asked for and what the file has. -/
private theorem platformReadExactAtFrom_le (os : Pread) (r : ReadReq) (fuel done : ℕ)
    (h : done ≤ min r.len r.available) :
    (platformReadExactAtFrom os r fuel done).1 ≤ min r.len r.available := by
  induction fuel generalizing done with
  | zero => exact h
  | succ fuel ih =>
    rw [platformReadExactAtFrom]
    split_ifs with hlt
    · split
      · exact h
      next n hn =>
        have hle := os.run_le hn
        simp only [ReadReq.available] at hle h ih ⊢
        split_ifs
        · exact h
        · exact ih _ (by omega)
    · exact h

/-- Reading on that ends well, and was given enough rounds, has got all that was asked for. -/
private theorem platformReadExactAtFrom_ok (os : Pread) (r : ReadReq) (fuel done : ℕ)
    (hfuel : r.len ≤ done + fuel) (hdone : done ≤ r.len)
    (h : (platformReadExactAtFrom os r fuel done).2 = .ok ()) :
    (platformReadExactAtFrom os r fuel done).1 = r.len := by
  induction fuel generalizing done with
  | zero =>
    rw [platformReadExactAtFrom]
    omega
  | succ fuel ih =>
    rw [platformReadExactAtFrom] at h ⊢
    split_ifs at h ⊢ with hlt
    · split at h
      · cases h
      next n hn =>
        have hle := os.run_le hn
        simp only [ReadReq.available] at hle
        split_ifs at h ⊢
        exact ih _ (by omega) (by omega) h
    · omega

/-- The standard-library backend: one positional read, and the filling loop over it. -/
def preadvBackend (os : Pread) : IoBackend where
  readAt := os.run
  readExactAt := platformReadExactAt os
  readAt_le := os.run_le
  readExactAt_le r := platformReadExactAtFrom_le os r r.len 0 (Nat.zero_le _)
  readExactAt_ok h := platformReadExactAtFrom_ok os _ _ 0 (by omega) (Nat.zero_le _) h

/-- No read fails, and none stores nothing where the file has bytes; reads may be short. -/
def Pread.Delivers (os : Pread) : Prop :=
  ∀ r : ReadReq, 0 < min r.len r.available → ∃ n, 0 < n ∧ os.run r = .ok n

/-- Reads that are never short deliver. -/
theorem Pread.Full.delivers {os : Pread} (hos : os.Full) : os.Delivers := fun r h => ⟨_, h, hos r⟩

/-- Where reads deliver and the file has the bytes, reading on gets all of them. -/
private theorem platformReadExactAtFrom_of_delivers {os : Pread} (hos : os.Delivers) {r : ReadReq}
    (h : r.off + r.len ≤ r.file.length) (fuel done : ℕ) (hfuel : r.len ≤ done + fuel)
    (hdone : done ≤ r.len) : platformReadExactAtFrom os r fuel done = (r.len, .ok ()) := by
  induction fuel generalizing done with
  | zero =>
    obtain rfl : done = r.len := by omega
    rfl
  | succ fuel ih =>
    rw [platformReadExactAtFrom]
    split_ifs with hlt
    · obtain ⟨n, hn, hrun⟩ := hos { r with off := r.off + done, len := r.len - done } (by
        simp only [ReadReq.available]
        omega)
      have hle := os.run_le hrun
      simp only [ReadReq.available] at hle
      simp only [hrun, Nat.ne_of_gt hn, if_false]
      exact ih (done + n) (by omega) (by omega)
    · obtain rfl : done = r.len := by omega
      rfl

/-- When reads deliver, a filling read inside the file succeeds, short as its rounds may be. -/
theorem platformReadExactAt_of_delivers {os : Pread} (hos : os.Delivers) {r : ReadReq}
    (h : r.off + r.len ≤ r.file.length) : platformReadExactAt os r = (r.len, .ok ()) :=
  platformReadExactAtFrom_of_delivers hos h r.len 0 (by omega) (Nat.zero_le _)

/-- When no read is short, a filling read inside the file succeeds. -/
theorem platformReadExactAt_of_full {os : Pread} (hos : os.Full) {r : ReadReq}
    (h : r.off + r.len ≤ r.file.length) : platformReadExactAt os r = (r.len, .ok ()) :=
  platformReadExactAt_of_delivers hos.delivers h

end EngramDB
