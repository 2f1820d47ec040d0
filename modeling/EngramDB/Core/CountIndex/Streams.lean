import EngramDB.Core.CountIndex
import Mathlib.Algebra.BigOperators.Ring.List

/-!
# Counting a stream of row ids

A reader may hand out fewer bytes than it is asked for: it delivers its bytes in pieces, and a read
takes from the first piece alone. `build_from_bin_stream` asks for the eight bytes of a row id and
does not ask again. A piece that ends inside a row id fails the stream, even if the rest of the row
id follows.

* `countFrom_of_aligned`: if no piece ends inside a row id, every row id is counted;
* `countFrom_of_not_aligned`: otherwise the stream fails.

So a stream of whole row ids is counted exactly when its reader never stops inside one
(`buildFromBinStream_exact_iff`).
-/

namespace EngramDB

namespace CountIndex

variable {src : List Bytes} {rowids : List UInt64} {counts : OrderedDict UInt64 UInt32}

/-- The bytes of row ids, eight of each. -/
def encodeRowids (rowids : List UInt64) : Bytes :=
  rowids.flatMap fun r => LittleEndian.encode 8 r.toNat

theorem length_encodeRowids (rowids : List UInt64) :
    (encodeRowids rowids).length = rowids.length * 8 := by
  rw [encodeRowids, List.length_flatMap]
  simp

/-- The reader delivers its bytes in pieces of any positive size. -/
def Pieces (src : List Bytes) : Prop := ∀ piece ∈ src, piece ≠ []

/-- No piece ends inside a row id. -/
def Aligned (src : List Bytes) : Prop := ∀ piece ∈ src, 8 ∣ piece.length

instance (src : List Bytes) : Decidable (Aligned src) := inferInstanceAs (Decidable (∀ _ ∈ _, _))

private theorem dvd_length_flatten (h : Aligned src) : 8 ∣ src.flatten.length := by
  rw [List.length_flatten]
  refine List.dvd_sum fun n hn => ?_
  obtain ⟨piece, hpiece, rfl⟩ := List.mem_map.mp hn
  exact h piece hpiece

/-- A read of a row id off a reader that is not at its end takes some bytes, at most eight. It takes
all eight if the piece ends at a row id. -/
theorem read_cons {piece : Bytes} {rest : List Bytes} (hpieces : Pieces (piece :: rest)) :
    ∃ word src, read 8 (piece :: rest) = (word, src) ∧ Pieces src ∧
      word ++ src.flatten = (piece :: rest).flatten ∧ word.length = min 8 piece.length ∧
      (word.length = 8 → (Aligned src ↔ Aligned (piece :: rest))) := by
  refine ⟨piece.take 8, if 8 < piece.length then piece.drop 8 :: rest else rest,
    rfl, ?_, ?_, ?_, ?_⟩
  · split_ifs with hlong
    · intro p hp
      rcases List.mem_cons.mp hp with rfl | hp
      · intro hnil
        have := List.drop_eq_nil_iff.mp hnil
        omega
      · exact hpieces p (by simp [hp])
    · exact fun p hp => hpieces p (by simp [hp])
  · split_ifs with hlong
    · rw [List.flatten_cons, List.flatten_cons, ← List.append_assoc, List.take_append_drop]
    · rw [List.flatten_cons, List.take_of_length_le (by omega)]
  · exact List.length_take
  · intro hword
    rw [List.length_take] at hword
    -- a full word leaves the rest of the piece as aligned as the piece was
    have hhead : 8 ∣ piece.length ↔ 8 ∣ (piece.drop 8).length := by
      rw [List.length_drop]
      omega
    split_ifs with hlong
    · rw [Aligned, Aligned, List.forall_mem_cons, List.forall_mem_cons, hhead]
    · rw [Aligned, Aligned, List.forall_mem_cons]
      have hdvd : 8 ∣ piece.length := by omega
      exact (and_iff_right hdvd).symm

/-- If no piece ends inside a row id, every row id is counted. -/
theorem countFrom_of_aligned (hpieces : Pieces src) (haligned : Aligned src)
    (hsrc : src.flatten = encodeRowids rowids) {fuel : ℕ} (hfuel : rowids.length < fuel) :
    countFrom fuel counts src = .ok (rowids.foldl OrderedDict.bump counts) := by
  induction rowids generalizing src counts fuel with
  | nil =>
    obtain ⟨fuel, rfl⟩ := Nat.exists_eq_add_one_of_ne_zero (Nat.ne_of_gt hfuel)
    match src with
    | [] => rfl
    | piece :: rest =>
      have hnil := hpieces piece (by simp)
      rw [List.flatten_cons, encodeRowids, List.flatMap_nil, List.append_eq_nil_iff] at hsrc
      exact absurd hsrc.1 hnil
  | cons r rowids ih =>
    obtain ⟨fuel, rfl⟩ := Nat.exists_eq_add_one_of_ne_zero (Nat.ne_of_gt (Nat.zero_lt_of_lt hfuel))
    match src with
    | [] =>
      have hlen := congrArg List.length hsrc
      rw [encodeRowids, List.flatMap_cons, List.length_append, LittleEndian.length_encode] at hlen
      simp only [List.flatten_nil, List.length_nil] at hlen
      omega
    | piece :: rest =>
      obtain ⟨word, src', hread, hpieces', hflatten, hlen, haligned'⟩ := read_cons hpieces
      have hpos := List.length_pos_iff.mpr (hpieces piece (by simp))
      have hdvd := haligned piece (by simp)
      have hword : word.length = 8 := by omega
      -- the first eight bytes are those of the first row id
      rw [← hflatten, encodeRowids, List.flatMap_cons] at hsrc
      obtain ⟨rfl, hrest⟩ :=
        List.append_inj hsrc (hword.trans (LittleEndian.length_encode 8 r.toNat).symm)
      rw [countFrom, hread]
      dsimp only
      rw [if_neg (by omega), if_neg (by omega), LittleEndian.decode_encode_of_lt r.toNat_lt,
        UInt64.ofNat_toNat, List.foldl_cons]
      exact ih hpieces' ((haligned' hword).mpr haligned) hrest (by simpa using hfuel)

/-- If a piece ends inside a row id, the read up to its end fails. -/
theorem countFrom_of_not_aligned (hpieces : Pieces src) (haligned : ¬ Aligned src) {fuel : ℕ}
    (hfuel : src.flatten.length < fuel) : countFrom fuel counts src = .error partialRowid := by
  induction fuel generalizing src counts with
  | zero => omega
  | succ fuel ih =>
    match src with
    | [] => exact absurd (by simp [Aligned]) haligned
    | piece :: rest =>
      obtain ⟨word, src', hread, hpieces', hflatten, hlen, haligned'⟩ := read_cons hpieces
      have hpos := List.length_pos_iff.mpr (hpieces piece (by simp))
      have hlength := congrArg List.length hflatten
      rw [List.length_append] at hlength
      rw [countFrom, hread]
      dsimp only
      rw [if_neg (by omega)]
      -- a short word ends the count, and behind a full one the rest is not aligned either
      by_cases hword : word.length = 8
      · rw [if_neg (not_not.mpr hword)]
        exact ih hpieces' (fun h => haligned ((haligned' hword).mp h)) (by omega)
      · rw [if_pos hword]

/-- The counts of a stream are the numbers of occurrences, below 2^32 of them. -/
private theorem toNat_iterate (n : ℕ) : ((· + 1)^[n] (0 : UInt32)).toNat = n % 2 ^ 32 := by
  induction n with
  | zero => rfl
  | succ n ih =>
    rw [Function.iterate_succ_apply', UInt32.toNat_add, ih]
    show (n % 2 ^ 32 + 1) % 2 ^ 32 = _
    omega

theorem count_of_stream (r : UInt64) (h : rowids.count r < 2 ^ 32) :
    ((CountIndex.mk (rowids.foldl OrderedDict.bump .empty)).count r).toNat = rowids.count r := by
  have hempty : (OrderedDict.empty : OrderedDict UInt64 UInt32).getD r 0 = 0 := rfl
  rw [count, UInt32.toNat_toUInt64, OrderedDict.getD_foldl_bump, hempty, toNat_iterate,
    Nat.mod_eq_of_lt h]

/-- A stream of whole row ids, fewer than 2^32 times each, is counted exactly iff none of the pieces
in which its reader delivers it ends inside a row id. A stream that ends inside a row id fails. -/
theorem buildFromBinStream_exact_iff {src : List Bytes} (hpieces : Pieces src) :
    (∀ rowids : List UInt64, src.flatten = encodeRowids rowids → (∀ r, rowids.count r < 2 ^ 32) →
      ((∃ idx, buildFromBinStream src = .ok idx ∧ ∀ r, (idx.count r).toNat = rowids.count r) ↔
        Aligned src)) ∧
    (¬ 8 ∣ src.flatten.length → buildFromBinStream src = .error partialRowid) := by
  have hfail : ¬ Aligned src → buildFromBinStream src = .error partialRowid := by
    intro haligned
    rw [buildFromBinStream, countFrom_of_not_aligned hpieces haligned (Nat.lt_succ_self _)]
    rfl
  refine ⟨fun rowids hsrc hcount => ⟨?_, fun haligned => ?_⟩, fun hdvd => ?_⟩
  · rintro ⟨idx, hok, -⟩
    by_contra haligned
    rw [hfail haligned] at hok
    cases hok
  · have hlen : rowids.length < src.flatten.length + 1 := by
      rw [hsrc, length_encodeRowids]
      omega
    refine ⟨⟨rowids.foldl OrderedDict.bump .empty⟩, ?_, fun r => count_of_stream r (hcount r)⟩
    rw [buildFromBinStream, countFrom_of_aligned hpieces haligned hsrc hlen]
    rfl
  · exact hfail fun haligned => hdvd (dvd_length_flatten haligned)

/-- Three row ids, two of them the same, that are delivered in pieces of two and one. -/
def wholePieces : List Bytes :=
  [[5, 0, 0, 0, 0, 0, 0, 0, 3, 0, 0, 0, 0, 0, 0, 0], [5, 0, 0, 0, 0, 0, 0, 0]]

theorem buildFromBinStream_exact_whole :
    Pieces wholePieces ∧
      ((∀ rowids : List UInt64, wholePieces.flatten = encodeRowids rowids →
          (∀ r, rowids.count r < 2 ^ 32) →
        ((∃ idx, buildFromBinStream wholePieces = .ok idx ∧
            ∀ r, (idx.count r).toNat = rowids.count r) ↔ Aligned wholePieces)) ∧
      (¬ 8 ∣ wholePieces.flatten.length →
        buildFromBinStream wholePieces = .error partialRowid)) := by
  have hpieces : Pieces wholePieces := by
    intro piece hpiece
    rcases List.mem_cons.mp hpiece with rfl | hpiece
    · decide
    · rw [List.mem_singleton.mp hpiece]
      decide
  exact ⟨hpieces, buildFromBinStream_exact_iff hpieces⟩

/-- A row id that is delivered in two pieces is not counted. -/
theorem not_exact_of_split : ¬ ∀ (src : List Bytes) (rowids : List UInt64), Pieces src →
    src.flatten = encodeRowids rowids → (∀ r, rowids.count r < 2 ^ 32) →
      ∃ idx, buildFromBinStream src = .ok idx ∧ ∀ r, (idx.count r).toNat = rowids.count r := by
  intro h
  have hpieces : Pieces [[5, 0, 0, 0], [0, 0, 0, 0]] := by
    intro piece hpiece
    rcases List.mem_cons.mp hpiece with rfl | hpiece
    · decide
    · rw [List.mem_singleton.mp hpiece]
      decide
  obtain ⟨idx, hok, -⟩ := h [[5, 0, 0, 0], [0, 0, 0, 0]] [5] hpieces (by decide) fun r => by
    have hle : ([5] : List UInt64).count r ≤ 1 := List.count_le_length
    omega
  have hfail : buildFromBinStream [[5, 0, 0, 0], [0, 0, 0, 0]] = .error partialRowid := rfl
  rw [hfail] at hok
  cases hok

end CountIndex

end EngramDB
