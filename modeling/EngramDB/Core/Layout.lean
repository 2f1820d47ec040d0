import EngramDB.Foundations.Outcome
import Mathlib.Data.Nat.Basic

/-!
# Physical layout of a Store-I table

A table is split into shards of `rowsPerShard` fixed-width rows. `Layout.locate` maps a row id to
its shard, the badge (a 4 KiB-sized group of rows) inside the shard, and the row inside the badge.
Offsets and counts are natural numbers: every product below is the offset of a byte of a shard
file, and a file is far shorter than `2 ^ 64` bytes.
-/

namespace EngramDB

/-- The contents of a file or of a memory buffer. -/
abbrev Bytes := List UInt8

/-- A positional read, a write or an argument check that failed. -/
inductive IoError where
  /-- The file ended inside the buffer to fill. -/
  | unexpectedEof
  /-- An argument was refused, with this message. -/
  | invalidInput (message : String)
  /-- The operating system reported this error code. -/
  | os (code : ℕ)
  /-- Any other failure, with this message. -/
  | other (message : String)
deriving DecidableEq, Repr

/-- Rows per badge: as many rows as fit in `minBytes`, but at least one. -/
def alignedBadgeRows (rowBytes minBytes : ℕ) : ℕ :=
  max (minBytes / max rowBytes 1) 1

/-- Physical layout of a sharded table of fixed-width rows. -/
structure Layout where
  /-- Number of shards. -/
  shards : ℕ
  /-- Rows in each shard. -/
  rowsPerShard : ℕ
  /-- Elements per row. -/
  width : ℕ
  /-- Bytes per row: `width` times the bytes of one element. -/
  rowBytes : ℕ
  /-- Rows per badge. -/
  badgeRows : ℕ
deriving DecidableEq, Repr

namespace Layout

/-- The layout of a table of `width`-element rows of `elemBytes` bytes each. -/
def new (shards rowsPerShard width elemBytes : ℕ) : Layout :=
  { shards, rowsPerShard, width
    rowBytes := width * elemBytes
    badgeRows := alignedBadgeRows (width * elemBytes) 4096 }

/-- Number of rows of the whole table. -/
def totalRows (L : Layout) : ℕ := L.shards * L.rowsPerShard

/-- Bytes in one badge. -/
def badgeBytes (L : Layout) : ℕ := L.badgeRows * L.rowBytes

/-- The shard, the badge within it and the row within the badge of a row id. Both divisors are
runtime values, and a zero one panics. -/
def locate {ε : Type} (L : Layout) (rowid : ℕ) : Outcome ε (ℕ × ℕ × ℕ) :=
  if L.rowsPerShard = 0 ∨ L.badgeRows = 0 then .error .panic
  else
    let shard := rowid / L.rowsPerShard
    let inShard := rowid % L.rowsPerShard
    .ok (shard, inShard / L.badgeRows, inShard % L.badgeRows)

/-- A badge holds at least one row. -/
theorem badgeRows_new_pos (shards rowsPerShard width elemBytes : ℕ) :
    0 < (new shards rowsPerShard width elemBytes).badgeRows := by
  simp only [new, alignedBadgeRows]
  omega

/-- In a layout with rows, every row id is located. -/
theorem locate_eq_ok {ε : Type} {L : Layout} (hrows : 0 < L.rowsPerShard) (hbadge : 0 < L.badgeRows)
    (rowid : ℕ) :
    (L.locate rowid : Outcome ε _) = .ok (rowid / L.rowsPerShard,
      rowid % L.rowsPerShard / L.badgeRows, rowid % L.rowsPerShard % L.badgeRows) := by
  simp only [locate]
  rw [if_neg (by omega)]

/-- The row id names a row of the table. -/
def InRange (L : Layout) (rowid : ℕ) : Prop := rowid < L.totalRows

instance (L : Layout) (rowid : ℕ) : Decidable (L.InRange rowid) :=
  inferInstanceAs (Decidable (_ < _))

/-- A table with a row in range has rows in every shard. -/
theorem InRange.rowsPerShard_pos {L : Layout} {rowid : ℕ} (h : L.InRange rowid) :
    0 < L.rowsPerShard := by
  rcases Nat.eq_zero_or_pos L.rowsPerShard with h0 | hpos
  · simp [InRange, totalRows, h0] at h
  · exact hpos

/-- The shard of a row in range exists. -/
theorem InRange.shard_lt {L : Layout} {rowid : ℕ} (h : L.InRange rowid) :
    rowid / L.rowsPerShard < L.shards :=
  Nat.div_lt_of_lt_mul (by rw [Nat.mul_comm]; exact h)

/-- The place of a row lies in the table: its shard exists, and the bytes of the row end inside the
rows of the shard. -/
def Holds (L : Layout) (place : ℕ × ℕ × ℕ) : Prop :=
  place.1 < L.shards ∧
    place.2.1 * L.badgeBytes + (place.2.2 + 1) * L.rowBytes ≤ L.rowsPerShard * L.rowBytes

/-- A row in range (`h`) is located inside the table, provided that a badge has rows (`hbadge`). -/
theorem InRange.holds {L : Layout} {rowid : ℕ} (h : L.InRange rowid) (hbadge : 0 < L.badgeRows) :
    ∃ place, (∀ ε : Type, (L.locate rowid : Outcome ε _) = .ok place) ∧ L.Holds place := by
  refine ⟨_, fun ε => locate_eq_ok h.rowsPerShard_pos hbadge rowid, h.shard_lt, ?_⟩
  have hrow := Nat.mod_lt rowid h.rowsPerShard_pos
  -- badge and row count the rows of the shard before this one
  have hcount := Nat.div_add_mod (rowid % L.rowsPerShard) L.badgeRows
  calc rowid % L.rowsPerShard / L.badgeRows * L.badgeBytes +
        (rowid % L.rowsPerShard % L.badgeRows + 1) * L.rowBytes
      = (rowid % L.rowsPerShard + 1) * L.rowBytes := by
        rw [badgeBytes, ← Nat.mul_assoc, ← Nat.add_mul, ← Nat.add_assoc,
          Nat.mul_comm (_ / _) L.badgeRows, hcount]
    _ ≤ L.rowsPerShard * L.rowBytes := Nat.mul_le_mul_right _ hrow

end Layout

end EngramDB
