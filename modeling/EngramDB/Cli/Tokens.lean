import EngramDB.Core.Layout
import EngramDB.Foundations.LittleEndian
import EngramDB.Foundations.Slots

/-!
# The token file

`read_tokens_npy` reads the tokens of a file that was written by `np.save`. The file starts with a
magic text and a version, and then declares the length of its header, in two bytes for the first
version and in four bytes for any other. The tokens follow the header.

The reader checks that there are eight bytes, and not that the declared header fits into the file.

* `mapM_index_range'`: reading successive places of a vector;
* `readTokensNpy_of_isNpy`: what is read from a file that starts with the magic text;
* `readsExactly_iff`: the reader does not panic exactly when the declared header fits.
-/

namespace EngramDB

open SlotBuffer

namespace Cli

/-- `\x93NUMPY`. -/
def npyMagic : Bytes := [147, 78, 85, 77, 80, 89]

/-- The words of a file from a place on, the end of `read_tokens_npy`. -/
def readWords (data : Bytes) (start : ℕ) : Outcome String (List UInt32) := do
  let raw ← Outcome.sliceFrom data start
  if raw.length % 4 ≠ 0 then
    throw (.error "npy 数据非 u32 对齐")
  pure ((slots 4 raw).map fun c => UInt32.ofNat (LittleEndian.decode c))

/-- `read_tokens_npy`, for a path and what `std::fs::read` returns for it. The minor version is
skipped. -/
def readTokensNpy (path : String) (file : Except String Bytes) : Outcome String (List UInt32) := do
  let data ← Outcome.ofExcept file
  if data.length < 8 ∨ data.take 6 ≠ npyMagic then
    throw (.error s!"{path.quote} 非 npy（np.save 原生 u32）")
  let idx := 6
  let major ← Outcome.index data idx
  let idx := idx + 1 + 1
  -- version 1 declares the header length in two bytes, every other version in four
  let declared ←
    if major = 1 then [idx, idx + 1].mapM (Outcome.index data)
    else [idx, idx + 1, idx + 2, idx + 3].mapM (Outcome.index data)
  let hlen := LittleEndian.decode declared
  let idx := idx + if major = 1 then 2 else 4
  readWords data (idx + hlen)

/-- A file that starts with the magic text and has two more bytes. -/
def IsNpy (data : Bytes) : Prop := 8 ≤ data.length ∧ data.take 6 = npyMagic

/-- Bytes of the field that declares the length of the header. -/
def lengthField (data : Bytes) : ℕ := if data[6]? = some 1 then 2 else 4

/-- The end of the header that the file declares. -/
def headerEnd (data : Bytes) : ℕ :=
  8 + lengthField data + LittleEndian.decode ((data.drop 8).take (lengthField data))

/-- The reader returns tokens or an error, and tokens are the words behind the declared header, the
lowest byte of each first. -/
def ReadsExactly (path : String) (data : Bytes) : Prop :=
  ∃ r : Except String (List UInt32), readTokensNpy path (.ok data) = Outcome.ofExcept r ∧
    ∀ tokens, r = .ok tokens →
      tokens.flatMap (fun t => LittleEndian.encode 4 t.toNat) = data.drop (headerEnd data)

section Reading

variable {ε : Type} {path : String} {data : Bytes}

/-- Successive places of a vector are read if they are all there. -/
theorem mapM_index_range' {lo : ℕ} (hlo : lo ≤ data.length) (n : ℕ) :
    ((List.range' lo n).mapM (Outcome.index data) : Outcome ε Bytes) =
      if lo + n ≤ data.length then .ok ((data.drop lo).take n) else .error .panic := by
  induction n generalizing lo with
  | zero => exact (if_pos hlo).symm
  | succ n ih =>
    rw [List.range'_succ, List.mapM_cons]
    rcases Nat.lt_or_eq_of_le hlo with hlt | rfl
    · rw [Outcome.index_eq_ok (List.getElem?_eq_getElem hlt), List.drop_eq_getElem_cons hlt, ih hlt]
      by_cases hn : lo + 1 + n ≤ data.length
      · rw [if_pos hn, if_pos (by omega)]
        rfl
      · rw [if_neg hn, if_neg (by omega)]
        rfl
    · have hpanic : (Outcome.index data data.length : Outcome ε UInt8) = .error .panic := by
        rw [Outcome.index, List.getElem?_eq_none (Nat.le_refl _)]
      rw [hpanic, if_neg (by omega)]
      rfl

/-- The words from a place in the file on. -/
theorem readWords_eq (data : Bytes) (start : ℕ) : readWords data start =
    if start ≤ data.length then
      if (data.drop start).length % 4 = 0 then
        .ok ((slots 4 (data.drop start)).map fun c => UInt32.ofNat (LittleEndian.decode c))
      else .error (.error "npy 数据非 u32 对齐")
    else .error .panic := by
  unfold readWords Outcome.sliceFrom
  by_cases hstart : start ≤ data.length
  · rw [if_pos hstart, if_pos hstart, Except.ok_bind]
    by_cases hwords : (data.drop start).length % 4 = 0
    · rw [if_pos hwords, if_neg (not_not.mpr hwords)]
      rfl
    · rw [if_neg hwords, if_pos hwords]
      rfl
  · rw [if_neg hstart, if_neg hstart]
    rfl

/-- A file that does not start with the magic text of a token file (`h`) is refused, and the error
quotes its path. -/
theorem readTokensNpy_of_not_isNpy (h : ¬ IsNpy data) :
    readTokensNpy path (.ok data) = .error (.error s!"{path.quote} 非 npy（np.save 原生 u32）") := by
  have hcheck : data.length < 8 ∨ data.take 6 ≠ npyMagic := by
    rcases not_and_or.mp h with hlen | hmagic
    · exact .inl (Nat.lt_of_not_le hlen)
    · exact .inr hmagic
  exact if_pos hcheck

/-- Behind the magic text, the words from the end of the declared header on are read. -/
theorem readTokensNpy_of_isNpy (h : IsNpy data) :
    readTokensNpy path (.ok data) = readWords data (headerEnd data) := by
  obtain ⟨hlen, hmagic⟩ := h
  have hcheck : ¬ (data.length < 8 ∨ data.take 6 ≠ npyMagic) :=
    not_or.mpr ⟨Nat.not_lt.mpr hlen, not_not.mpr hmagic⟩
  have hmajor : data[6]? = some data[6] := List.getElem?_eq_getElem (by omega)
  have hread := fun n => mapM_index_range' (ε := String) hlen n
  -- a length field that is cut off ends behind the file, and so does the header
  have hcut : ∀ n, lengthField data = n → ¬ 8 + n ≤ data.length →
      readWords data (headerEnd data) = .error .panic := by
    intro n hn hfield
    rw [readWords_eq, if_neg]
    rw [headerEnd, hn]
    omega
  have hstart : ∀ n, lengthField data = n →
      8 + n + LittleEndian.decode ((data.drop 8).take n) = headerEnd data := by
    rintro n rfl
    rfl
  unfold readTokensNpy
  simp only [Outcome.ofExcept_ok, Except.ok_bind, if_neg hcheck, Outcome.index_eq_ok hmajor]
  by_cases hone : data[6] = 1
  · have hfield : lengthField data = 2 := by simp [lengthField, hmajor, hone]
    simp only [if_pos hone]
    show List.mapM (Outcome.index data) (List.range' 8 2) >>= _ = _
    rw [hread]
    split_ifs with hfits
    · rw [← hstart 2 hfield]
      exact Except.ok_bind _ _
    · exact (hcut 2 hfield hfits).symm
  · have hfield : lengthField data = 4 := by simp [lengthField, hmajor, hone]
    simp only [if_neg hone]
    show List.mapM (Outcome.index data) (List.range' 8 4) >>= _ = _
    rw [hread]
    split_ifs with hfits
    · rw [← hstart 4 hfield]
      exact Except.ok_bind _ _
    · exact (hcut 4 hfield hfits).symm

/-- Words that are written again are the bytes that they were read from. -/
private theorem flatMap_encode_words {raw : Bytes} (h : raw.length % 4 = 0) :
    (((slots 4 raw).map fun c => UInt32.ofNat (LittleEndian.decode c)).flatMap
      fun t => LittleEndian.encode 4 t.toNat) = raw := by
  have hword : ∀ c ∈ slots 4 raw,
      LittleEndian.encode 4 (UInt32.ofNat (LittleEndian.decode c)).toNat = c := by
    intro c hc
    have hlen := length_of_mem_slots hc
    have hlt := LittleEndian.decode_lt c
    rw [hlen] at hlt
    rw [UInt32.toNat_ofNat_of_lt' hlt, ← hlen, LittleEndian.encode_decode]
  rw [List.flatMap_map, List.flatMap_congr hword, List.flatMap_id', flatten_slots]
  exact Nat.dvd_of_mod_eq_zero h

end Reading

/-- The reader returns tokens or an error, and the tokens are the words behind the header, exactly
when the header that a file with the magic text declares fits into the file. -/
theorem readsExactly_iff (path : String) (data : Bytes) :
    ReadsExactly path data ↔ (IsNpy data → headerEnd data ≤ data.length) := by
  by_cases hnpy : IsNpy data
  · rw [ReadsExactly, readTokensNpy_of_isNpy hnpy, readWords_eq, forall_prop_of_true hnpy]
    by_cases hfits : headerEnd data ≤ data.length
    · refine iff_of_true ?_ hfits
      rw [if_pos hfits]
      split_ifs with hwords
      · refine ⟨.ok _, rfl, fun tokens htokens => ?_⟩
        cases htokens
        exact flatMap_encode_words hwords
      · exact ⟨.error _, rfl, fun tokens htokens => by cases htokens⟩
    · refine iff_of_false ?_ hfits
      rintro ⟨r, hr, -⟩
      rw [if_neg hfits] at hr
      cases r <;> cases hr
  · refine iff_of_true ⟨.error _, readTokensNpy_of_not_isNpy hnpy, fun tokens htokens => ?_⟩
      fun h => absurd h hnpy
    cases htokens

/-- A file of eight bytes that ends behind its version: the reader panics. -/
theorem not_readsExactly_of_cut : ¬ ReadsExactly "tokens.npy" [147, 78, 85, 77, 80, 89, 1, 0] := by
  rintro ⟨r, hr, -⟩
  have hpanic :
      readTokensNpy "tokens.npy" (.ok [147, 78, 85, 77, 80, 89, 1, 0]) = .error .panic := rfl
  rw [hpanic] at hr
  cases r <;> cases hr

end Cli

end EngramDB
