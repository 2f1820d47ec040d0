import EngramDB.Io.View.KeysFile
import EngramDB.Python.StoreAgreement
import EngramDB.Scripts.Agreement

/-!
# The script that regenerates the keys of a view

`gen_view_keys.py` repeats the random number generator of `build_view` with unbounded integers and a
mask, skips the grams in front of a given one, and writes the row ids of the first token of each
gram after it. Its lines are those of the keys file at the same place (`main_eq`).
-/

namespace EngramDB

open Ngram

/-- The decimal text of an integer. -/
def intText : ℤ → List Char
  | .ofNat n => Nat.toDigits 10 n
  | .negSucc n => '-' :: Nat.toDigits 10 (n + 1)

namespace GenViewKeys

def MASK64 : ℕ := 1 <<< 64 - 1
def MULT : ℕ := 6364136223846793005
def INC : ℕ := 1442695040888963407
def SEED : ℕ := 0xDEADBEEF12345678
def VOCAB : ℕ := 248320

/-- The next state of the generator. -/
def lcg (state : ℕ) : ℕ := (state * MULT + INC) &&& MASK64

/-- The row ids of the first token of a gram, and the state of the generator afterwards. -/
def gram (primes offsets : List ℤ) (state : ℕ) : Py (List ℤ × ℕ) := do
  let s₁ := lcg state
  let s₂ := lcg s₁
  let s₃ := lcg s₂
  let rows ← PleMath.pleRowids
    [((s₁ % VOCAB : ℕ) : ℤ), ((s₂ % VOCAB : ℕ) : ℤ), ((s₃ % VOCAB : ℕ) : ℤ)]
    PleMath.DEFAULT_MULTIPLIERS PleMath.PLE_EOS (some primes) (some offsets) PleMath.PLE_NGRAM_SIZE
    PleMath.PLE_HEADS_PER_NGRAM none
  let first ← Py.item rows 0
  pure (first, s₃)

/-- The lines of some grams. -/
def gramLines (primes offsets : List ℤ) : ℕ → ℕ → Py (List (List Char))
  | 0, _ => pure []
  | grams + 1, state => do
    let (first, state) ← gram primes offsets state
    let rest ← gramLines primes offsets grams state
    pure (first.map intText ++ rest)

/-- The file that the script writes. -/
def main (grams start : ℤ) : Py (List Char) := do
  let primes := PleMath.headVocabSizes PleMath.PLE_BASE PleMath.PLE_HEADS
  let offsets := PleMath.headOffsets (some primes)
  let state := (lcg^[3])^[start.toNat] SEED
  let lines ← gramLines primes offsets grams.toNat state
  pure (Text.unlines lines)

/-- The generator is that of the crate. -/
theorem lcg_toNat (state : UInt64) : lcg state.toNat = (View.lcgNext state).toNat := by
  have hmask : MASK64 = 2 ^ 64 - 1 := rfl
  rw [lcg, hmask, Nat.and_two_pow_sub_one_eq_mod, View.lcgNext, UInt64.toNat_add, UInt64.toNat_mul,
    Nat.mod_add_mod]
  rfl

/-- The generator of the script goes through the numbers of the generator of the crate. -/
private theorem iterate_lcg_toNat (k : ℕ) (state : UInt64) :
    lcg^[k] state.toNat = (View.lcgNext^[k] state).toNat := by
  have hsemi : Function.Semiconj UInt64.toNat View.lcgNext lcg := fun s => (lcg_toNat s).symm
  exact ((hsemi.iterate_right k) state).symm

/-- The tokens of a gram are those of the crate. -/
private theorem tokens_eq (state : UInt64) :
    [((lcg state.toNat % VOCAB : ℕ) : ℤ), ((lcg (lcg state.toNat) % VOCAB : ℕ) : ℤ),
      ((lcg (lcg (lcg state.toNat)) % VOCAB : ℕ) : ℤ)] = pyInts (View.gramTokens state) := by
  have htoken : ∀ s : UInt64, (s % 248320).toUInt32.toNat = s.toNat % VOCAB := by
    intro s
    rw [UInt64.toNat_toUInt32, UInt64.toNat_mod]
    exact Nat.mod_eq_of_lt (lt_trans (Nat.mod_lt _ (by decide)) (by decide))
  rw [lcg_toNat, lcg_toNat, lcg_toNat, pyInts, View.gramTokens]
  simp only [List.map_cons, List.map_nil, htoken]
  rfl

/-- The tokens of a random gram belong to the vocabulary. -/
private theorem vocabulary_gramTokens (state : UInt64) : Vocabulary (View.gramTokens state) := by
  have htoken : ∀ s : UInt64, (s % 248320).toUInt32.toNat < VOCAB_SIZE := by
    intro s
    rw [UInt64.toNat_toUInt32, UInt64.toNat_mod]
    exact lt_of_le_of_lt (Nat.mod_le _ _) (Nat.mod_lt _ (by decide))
  intro t ht
  simp only [View.gramTokens, List.mem_cons, List.not_mem_nil, or_false] at ht
  rcases ht with rfl | rfl | rfl
  · exact htoken _
  · exact htoken _
  · exact htoken _

/-- Given its defaults, `ple_rowids` computes what it computes without them. -/
private theorem rowOf_defaults :
    PleMath.rowOf PleMath.DEFAULT_MULTIPLIERS (some (castColumn realPrimes))
      (some (castColumn realOffsets))
        PleMath.PLE_NGRAM_SIZE PleMath.PLE_HEADS_PER_NGRAM =
      PleMath.rowOf PleMath.DEFAULT_MULTIPLIERS none none PleMath.PLE_NGRAM_SIZE
        PleMath.PLE_HEADS_PER_NGRAM := by
  have hprimes : castColumn realPrimes ≠ [] := by decide
  have hoffsets : castColumn realOffsets ≠ [] := by decide
  funext column
  simp only [PleMath.rowOf, Py.orDefault_some hprimes, Py.orDefault_some hoffsets,
    Py.orDefault_none, PleMath.headVocabSizes_real, PleMath.headOffsets_real]

/-- The table of a gram is that of the crate. -/
private theorem pleRowids_gramTokens (state : UInt64) :
    PleMath.pleRowids (pyInts (View.gramTokens state)) PleMath.DEFAULT_MULTIPLIERS PleMath.PLE_EOS
        (some (castColumn realPrimes)) (some (castColumn realOffsets)) PleMath.PLE_NGRAM_SIZE
        PleMath.PLE_HEADS_PER_NGRAM none = .ok (pyTable (View.gramTable state)) := by
  have hrows := @pleRowids_realTable [PLE_EOS, PLE_EOS] _ (by decide) (vocabulary_gramTokens state)
  have hhistory : pyInts [PLE_EOS, PLE_EOS] = [PleMath.PLE_EOS, PleMath.PLE_EOS] := rfl
  have htable : realTable [PLE_EOS, PLE_EOS] (View.gramTokens state) = View.gramTable state := rfl
  rw [PleMath.pleRowids_eq, hhistory, Option.getD_some, htable] at hrows
  rw [PleMath.pleRowids_eq, rowOf_defaults, Option.getD_none, hrows]

/-- The script draws the grams of the crate. -/
private theorem gram_eq (state : UInt64) :
    gram (castColumn realPrimes) (castColumn realOffsets) state.toNat =
      .ok (castColumn (View.gramRowids state), (View.lcgNext^[3] state).toNat) := by
  obtain ⟨rest, htable⟩ := View.gramTable_eq_cons state
  have hfirst :
      Py.item (pyTable (View.gramTable state)) 0 = .ok (castColumn (View.gramRowids state)) := by
    refine Py.item_eq_ok ?_
    rw [htable]
    rfl
  have hlast : lcg (lcg (lcg state.toNat)) = (View.lcgNext^[3] state).toNat := by
    rw [lcg_toNat, lcg_toNat, lcg_toNat]
    rfl
  simp only [gram]
  rw [tokens_eq, pleRowids_gramTokens, Except.ok_bind, hfirst, Except.ok_bind, hlast]
  rfl

/-- The texts of a column of numbers are their digits. -/
private theorem map_intText_castColumn (column : List ℕ) :
    (castColumn column).map intText = column.map (Nat.toDigits 10) := by
  rw [castColumn, List.map_map]
  rfl

/-- The lines of random grams, with the parameters of the checkpoint, are the digits of the keys of
the crate. -/
private theorem gramLines_eq (grams : ℕ) (state : UInt64) :
    gramLines (castColumn realPrimes) (castColumn realOffsets) grams state.toNat =
      .ok ((View.randomKeys grams state).map (Nat.toDigits 10)) := by
  induction grams generalizing state with
  | zero => rfl
  | succ grams ih =>
    rw [gramLines, gram_eq, Except.ok_bind]
    dsimp only
    rw [ih, Except.ok_bind, map_intText_castColumn, View.randomKeys_succ, List.map_append]
    rfl

/-- The file of the script is that of the grams it is asked for. -/
theorem main_eq (grams start : ℕ) :
    main grams start =
      .ok (View.keysText
        (View.randomKeys grams (View.lcgNext^[3 * start] 0xDEADBEEF12345678))) := by
  have hseed : SEED = (0xDEADBEEF12345678 : UInt64).toNat := rfl
  have hstate : (lcg^[3])^[start] SEED = (View.lcgNext^[3 * start] 0xDEADBEEF12345678).toNat := by
    rw [hseed, ← Function.iterate_mul, iterate_lcg_toNat]
  rw [main, PleMath.headVocabSizes_real, PleMath.headOffsets_real, Int.toNat_natCast,
    Int.toNat_natCast, hstate, gramLines_eq]
  rfl

/-- The lines of the script, for any start and any number of grams, are the lines at the same place
of the keys file of a view of at least as many grams, however many chunks the view was built in. -/
theorem lines_main_eq {env : View.BuildEnv} {g : BadgeGather} {n : ℕ}
    {slotBytes : UInt64} {path : String} {before after : ViewFiles}
    (hbuild : View.buildView env g n slotBytes (some path) before = (.ok (), after))
    (hkept : env.keysKept = none) {start grams : ℕ} (hn : start + grams ≤ n) :
    ∃ text keys, main grams start = .ok text ∧ after.keys = some keys ∧
      Text.lines text = ((Text.lines keys).drop (16 * start)).take (16 * grams) := by
  refine ⟨_, _, main_eq grams start, View.keys_of_buildView hkept hbuild, ?_⟩
  rw [lines_keysText, lines_keysText, ← List.map_drop, ← List.map_take,
    View.take_drop_randomKeys hn]

/-- When nothing fails, a view of random grams is built. -/
private theorem exists_buildView_eq_ok {env : View.BuildEnv} {g : BadgeGather} {n : ℕ}
    {slotBytes : UInt64} (henv : env.Faultless) (hslot : View.RECORD_BYTES ≤ slotBytes.toNat)
    (hfits : View.Fits g (View.randomKeys n 0xDEADBEEF12345678)) (path : String)
    (before : ViewFiles) :
    ∃ after, View.buildView env g n slotBytes (some path) before = (.ok (), after) := by
  have hmakes := @View.makes_writeRandomView env g slotBytes (some path) n hslot hfits
  have hbody := hmakes.returns fun c _ => henv.works c
  rw [View.buildView_eq (henv.works .createKeys)]
  exact ⟨_, View.writeFiles_eq_ok henv hbody before _⟩

/-- A table of one shard that has every row id of 32 bits. -/
def wideTable : BadgeGather where
  layout := Layout.new 1 (2 ^ 32) 160 1
  files := [[]]
  backend := preadvBackend fullPread
  files_length := rfl

/-- Every random key can be gathered from the wide table. -/
private theorem fits_wideTable (n : ℕ) (state : UInt64) :
    View.Fits wideTable (View.randomKeys n state) where
  width_eq := rfl
  width_le := by decide
  badgeRows_pos := by decide
  inRange k hk := by
    have hlt := View.lt_of_mem_randomKeys hk
    show k < 1 * 2 ^ 32
    omega

/-- A view of three grams is built, and the script writes the keys of the last two. -/
theorem lines_main_eq_three : ∃ after,
    View.buildView View.faultlessEnv wideTable 3 2560 (some "keys") ⟨none, none, none⟩ =
      (.ok (), after) ∧
      ∃ text keys, main (2 : ℕ) (1 : ℕ) = .ok text ∧ after.keys = some keys ∧
        Text.lines text = ((Text.lines keys).drop (16 * 1)).take (16 * 2) := by
  obtain ⟨after, hbuild⟩ :=
    @exists_buildView_eq_ok _ wideTable 3 2560 View.faultless_faultlessEnv (by decide)
    (fits_wideTable 3 _) "keys" ⟨none, none, none⟩
  exact ⟨after, hbuild, lines_main_eq hbuild rfl (by decide)⟩

end GenViewKeys

end EngramDB
