import EngramDB.Foundations.Streaming
import EngramDB.Scripts.ExtractRows
import EngramDB.Serve.Rows
import Mathlib.Algebra.Order.BigOperators.Group.List
import Mathlib.Data.Nat.Digits.Defs

/-!
# What repeated extractions leave

A run of the script can end at any file and at any write. What is then in a file is what was there,
or a beginning of its tensor, and a run that returns after any number of such runs has left the
tensors (`finished_of_attempts`), in files from which the table is served (`gather_of_attempts`).
Only a file that had the size of its tensor from the start is kept as it was.
-/

namespace EngramDB

namespace ExtractRows

variable {ckpt : Checkpoint} {env : ExtractEnv} {dst : Rows} {p : ℕ × PyJson}
  {fails : ℕ → Option (ScriptError × ℕ)} {source bytes : Bytes} {nbytes : ℤ}

/-! ### Copying -/

/-- A write appends its bytes, or some of them if it fails. -/
private theorem appends_write (fails : Option (ScriptError × ℕ)) (buf : Bytes) :
    Effect.Appends id (write fails buf) buf := by
  intro out
  cases fails with
  | none => exact ⟨buf, List.prefix_rfl, rfl, fun _ _ => rfl⟩
  | some failure =>
    refine ⟨buf.take failure.2, List.take_prefix _ _, rfl, fun a ha => ?_⟩
    cases ha

/-- The loop appends what remains, as far as the source goes. -/
private theorem appends_copyLoop {fuel n remaining : ℕ} (hfuel : remaining ≤ fuel) :
    Effect.Appends id (copyLoop fails fuel n source remaining) (source.take remaining) := by
  induction fuel generalizing n source remaining with
  | zero =>
    obtain rfl : remaining = 0 := Nat.le_zero.mp hfuel
    exact Effect.appends_nil fun _ => rfl
  | succ fuel ih =>
    rw [copyLoop]
    split_ifs with hzero
    · rw [hzero, List.take_zero]
      exact Effect.appends_nil fun _ => rfl
    · dsimp only
      split_ifs with hempty
      · -- the source has ended
        have hsource : source = [] := by
          rcases List.take_eq_nil_iff.mp hempty with hmin | hnil
          · have hchunk : 0 < CHUNK := by decide
            omega
          · exact hnil
        rw [hsource, List.take_nil]
        exact Effect.appends_nil fun _ => rfl
      · -- a chunk is written, and the loop goes on with what is behind it
        have hbegins : source.take (min CHUNK remaining) <+: source := List.take_prefix _ _
        have hle : (source.take (min CHUNK remaining)).length ≤ remaining := by
          rw [List.length_take]
          omega
        have hpos := List.length_pos_iff.mpr hempty
        set buf := source.take (min CHUNK remaining)
        have hsplit : buf ++ (source.drop buf.length).take (remaining - buf.length) =
            source.take remaining := by
          rw [List.prefix_iff_eq_take.mp hbegins, List.length_take_of_le hbegins.length_le,
            ← List.take_add, Nat.add_sub_cancel' hle]
        rw [← hsplit]
        exact (appends_write _ _).bind fun _ => ih (by omega)

/-- A copy that returns is complete, and any other a beginning. -/
private theorem copy_cases (fails : ℕ → Option (ScriptError × ℕ)) (source : Bytes) (nbytes : ℕ) :
    (copy fails source nbytes).2 <+: source.take nbytes ∧
      ((copy fails source nbytes).1 = .ok () →
        (copy fails source nbytes).2 = source.take nbytes) := by
  have happends : Effect.Appends id (copyLoop fails nbytes 0 source nbytes)
      (source.take nbytes) := appends_copyLoop (Nat.le_refl _)
  obtain ⟨out, hbegins, hout, hall⟩ := happends []
  rw [id_eq, id_eq, List.nil_append] at hout
  rw [copy, hout]
  exact ⟨hbegins, hall ()⟩

/-- When no write fails (`hfails`), the loop that copies a tensor returns. -/
private theorem copyLoop_returns (hfails : ∀ n, fails n = none) (fuel n remaining : ℕ)
    (out : Bytes) :
    (copyLoop fails fuel n source remaining out).1 = .ok () := by
  induction fuel generalizing n source remaining out with
  | zero => rfl
  | succ fuel ih =>
    rw [copyLoop]
    dsimp only
    split_ifs
    · rfl
    · rfl
    · have hwrite : write (fails n) (source.take (min CHUNK remaining)) out =
          (.ok (), out ++ source.take (min CHUNK remaining)) := by
        rw [hfails]
        rfl
      rw [Effect.bind_of_ok hwrite]
      exact ih _ _ _

/-! ### One shard -/

/-- The tensor of a shard, as far as its file has it, and its size. -/
def Copies (ckpt : Checkpoint) (p : ℕ × PyJson) (bytes : Bytes) (nbytes : ℤ) : Prop :=
  ∃ file start source, tensorOf ckpt p.1 p.2 = .ok (file, start, nbytes) ∧
    seek file start = .ok source ∧ bytes = source.take nbytes.toNat

/-- What a run that may be cut off anywhere can make of the file of shard `p.1`: it stays as it was
`before`, or, where it had not the size of the tensor that the checkpoint has for the shard, it is
truncated and some beginning of the tensor is written to it. -/
def Reached (ckpt : Checkpoint) (p : ℕ × PyJson) (before after : Option Bytes) : Prop :=
  after = before ∨ ∃ bytes nbytes, Copies ckpt p bytes nbytes ∧ hasSize before nbytes = false ∧
    ∃ out, out <+: bytes ∧ after = some out

/-- What a run that returns makes of the file of shard `p.1`: where it had the size of the tensor
`before`, the shard is skipped and the file stays as it was, whatever its bytes are, and otherwise
the file has the bytes that stand at the place of the tensor in the checkpoint. -/
def Finished (ckpt : Checkpoint) (p : ℕ × PyJson) (before after : Option Bytes) : Prop :=
  ∃ file start nbytes, tensorOf ckpt p.1 p.2 = .ok (file, start, nbytes) ∧
    if hasSize before nbytes then after = before
    else ∃ bytes, Copies ckpt p bytes nbytes ∧ after = some bytes

/-- What can be reached over one run and then over another can be reached over both. -/
theorem Reached.trans {a b c : Option Bytes} (hab : Reached ckpt p a b)
    (hbc : Reached ckpt p b c) : Reached ckpt p a c := by
  rcases hab with rfl | hab
  · exact hbc
  · rcases hbc with rfl | ⟨bytes, nbytes, hcopies, -, out, hbegins, rfl⟩
    · exact .inr hab
    · -- both are about the one tensor of the shard
      obtain ⟨bytes', nbytes', ⟨file', start', source', htensor', -, -⟩, hsize, -⟩ := hab
      obtain ⟨file, start, source, htensor, -, -⟩ := id hcopies
      have hsame := htensor'.symm.trans htensor
      simp only [Except.ok.injEq, Prod.mk.injEq] at hsame
      exact .inr ⟨bytes, nbytes, hcopies, hsame.2.2 ▸ hsize, out, hbegins, rfl⟩

/-- A run after others that have reached a file finishes it as if it were the first. -/
private theorem Finished.of_reached {a b c : Option Bytes} (hab : Reached ckpt p a b)
    (hbc : Finished ckpt p b c) : Finished ckpt p a c := by
  rcases hab with rfl | ⟨bytes, nbytes, hcopies, hsize, out, hbegins, rfl⟩
  · exact hbc
  · obtain ⟨file, start, nbytes', htensor, hif⟩ := hbc
    obtain ⟨file', start', source, htensor', hseek, rfl⟩ := id hcopies
    have hsame := htensor'.symm.trans htensor
    simp only [Except.ok.injEq, Prod.mk.injEq] at hsame
    obtain ⟨rfl, rfl, rfl⟩ := hsame
    refine ⟨file', start', nbytes, htensor, ?_⟩
    rw [if_neg (by rw [hsize]; exact Bool.false_ne_true)]
    split_ifs at hif with hfull
    · -- a beginning with the size of the tensor is the tensor
      have hlength : (out.length : ℤ) = nbytes := of_decide_eq_true hfull
      have hle : (source.take nbytes.toNat).length ≤ nbytes.toNat := List.length_take_le _ _
      refine ⟨_, hcopies, ?_⟩
      rw [hif, hbegins.eq_of_length_le (by omega)]
    · exact hif

/-- The extraction of a shard leaves the files of all other shards. -/
private theorem extractShard_other (env : ExtractEnv) (ckpt : Checkpoint) (p : ℕ × PyJson)
    (dst : Rows) {j : ℕ} (hj : j ≠ p.1) : (extractShard env ckpt p dst).2 j = dst j := by
  rw [extractShard]
  split
  · rfl
  · split_ifs
    · rfl
    · split
      · rfl
      · split
        · rfl
        · exact Function.update_of_ne hj _ _

/-- The extraction of a shard leaves its file in a state that can be reached, and finished if it
returns. -/
private theorem extractShard_self (env : ExtractEnv) (ckpt : Checkpoint) (p : ℕ × PyJson)
    (dst : Rows) :
    Reached ckpt p (dst p.1) ((extractShard env ckpt p dst).2 p.1) ∧
      ((extractShard env ckpt p dst).1 = .ok () →
        Finished ckpt p (dst p.1) ((extractShard env ckpt p dst).2 p.1)) := by
  rw [extractShard]
  split
  next => exact ⟨.inl rfl, fun h => by cases h⟩
  next file start nbytes htensor =>
    split_ifs with hsize
    · exact ⟨.inl rfl, fun _ => ⟨file, start, nbytes, htensor, by rw [if_pos hsize]⟩⟩
    · have hsize' := Bool.eq_false_iff.mpr hsize
      split
      next => exact ⟨.inl rfl, fun h => by cases h⟩
      next source hseek =>
        split
        next => exact ⟨.inl rfl, fun h => by cases h⟩
        next =>
          have hcopies : Copies ckpt p (source.take nbytes.toNat) nbytes :=
            ⟨file, start, source, htensor, hseek, rfl⟩
          obtain ⟨hbegins, hall⟩ := copy_cases (env.writes p.1) source nbytes.toNat
          dsimp only
          rw [Function.update_self]
          refine ⟨.inr ⟨_, nbytes, hcopies, hsize', _, hbegins, rfl⟩, fun hok => ?_⟩
          refine ⟨file, start, nbytes, htensor, ?_⟩
          rw [if_neg hsize]
          exact ⟨_, hcopies, congrArg some (hall hok)⟩

/-! ### A whole run -/

/-- The loop over the shards, each once (`hnodup`): a file for each shard it reaches, and no other
file changed. -/
theorem forM_extractShard (env : ExtractEnv) (ckpt : Checkpoint) {ps : List (ℕ × PyJson)}
    (hnodup : (ps.map Prod.fst).Nodup) (dst : Rows) :
    (∀ j ∉ ps.map Prod.fst, (forM ps (extractShard env ckpt) dst).2 j = dst j) ∧
      (∀ p ∈ ps, Reached ckpt p (dst p.1) ((forM ps (extractShard env ckpt) dst).2 p.1)) ∧
      ((forM ps (extractShard env ckpt) dst).1 = .ok () →
        ∀ p ∈ ps, Finished ckpt p (dst p.1) ((forM ps (extractShard env ckpt) dst).2 p.1)) := by
  induction ps generalizing dst with
  | nil => exact ⟨fun _ _ => rfl, nofun, fun _ => nofun⟩
  | cons p ps ih =>
    rw [List.map_cons, List.nodup_cons] at hnodup
    obtain ⟨hnotin, hnodup⟩ := hnodup
    have hother := fun j => extractShard_other env ckpt p dst (j := j)
    obtain ⟨hreached, hfinished⟩ := extractShard_self env ckpt p dst
    -- the later shards have other files
    have hne : ∀ q ∈ ps, q.1 ≠ p.1 := fun q hq h => hnotin (h ▸ List.mem_map_of_mem hq)
    rw [List.forM_cons]
    rcases hrun : extractShard env ckpt p dst with ⟨e | ⟨⟩, mid⟩
    · rw [Effect.bind_of_error hrun]
      rw [hrun] at hother hreached
      refine ⟨fun j hj => hother j (List.ne_of_not_mem_cons hj), fun q hq => ?_, nofun⟩
      rcases List.mem_cons.mp hq with rfl | hq
      · exact hreached
      · exact .inl (hother q.1 (hne q hq))
    · rw [Effect.bind_of_ok hrun]
      rw [hrun] at hother hreached hfinished
      obtain ⟨ihOther, ihReached, ihFinished⟩ := ih hnodup mid
      have hself := ihOther p.1 hnotin
      refine ⟨fun j hj => ?_, fun q hq => ?_, fun hok q hq => ?_⟩
      · rw [List.map_cons, List.mem_cons, not_or] at hj
        rw [ihOther j hj.2]
        exact hother j hj.1
      · rcases List.mem_cons.mp hq with rfl | hq
        · rw [hself]
          exact hreached
        · rw [← hother q.1 (hne q hq)]
          exact ihReached q hq
      · rcases List.mem_cons.mp hq with rfl | hq
        · rw [hself]
          exact hfinished rfl
        · rw [← hother q.1 (hne q hq)]
          exact ihFinished hok q hq

section Run

variable {names : List PyJson}

/-- A checkpoint whose index names all shards names 128 of them. -/
theorem length_shardFiles (hnames : shardFiles ckpt = .ok names) : names.length = 128 := by
  obtain ⟨idx, -, hnames⟩ := Except.bind_eq_ok_iff.mp hnames
  obtain ⟨wm, -, hnames⟩ := Except.bind_eq_ok_iff.mp hnames
  rw [Except.length_of_mapM_eq_ok hnames, List.length_range]

/-- The shards are taken in the order of their numbers. -/
theorem map_fst_shards (hnames : shardFiles ckpt = .ok names) :
    ((List.range 128).zip names).map Prod.fst = List.range 128 :=
  List.map_fst_zip (by rw [length_shardFiles hnames, List.length_range])

/-- If the index names all shards, the script is a loop over their numbers and files. -/
theorem main_eq (hnames : shardFiles ckpt = .ok names) :
    main env ckpt = forM ((List.range 128).zip names) (extractShard env ckpt) := by
  rw [main, hnames]
  rfl

/-- Whether it returns or fails, a run leaves the file of every shard in a state that can be reached
from the one before. -/
private theorem main_reached (hnames : shardFiles ckpt = .ok names) {p : ℕ × PyJson}
    (hp : p ∈ (List.range 128).zip names) (env : ExtractEnv) (dst : Rows) :
    Reached ckpt p (dst p.1) ((main env ckpt dst).2 p.1) := by
  have hnodup := (map_fst_shards hnames).symm ▸ List.nodup_range (n := 128)
  rw [main_eq hnames]
  exact (forM_extractShard env ckpt hnodup dst).2.1 p hp

/-- A run that returns has finished the file of every shard. -/
private theorem main_finished (hnames : shardFiles ckpt = .ok names) {p : ℕ × PyJson}
    (hp : p ∈ (List.range 128).zip names) (hok : (main env ckpt dst).1 = .ok ()) :
    Finished ckpt p (dst p.1) ((main env ckpt dst).2 p.1) := by
  have hnodup := (map_fst_shards hnames).symm ▸ List.nodup_range (n := 128)
  rw [main_eq hnames] at hok ⊢
  exact (forM_extractShard env ckpt hnodup dst).2.2 hok p hp

/-- What runs of the script, one after another, leave of a directory. -/
def attempt (ckpt : Checkpoint) (envs : List ExtractEnv) (dst : Rows) : Rows :=
  envs.foldl (fun dst env => (main env ckpt dst).2) dst

/-- Any number of runs, each of which may be cut off, leaves every file in a state that can be
reached. -/
private theorem attempt_reached (hnames : shardFiles ckpt = .ok names) {p : ℕ × PyJson}
    (hp : p ∈ (List.range 128).zip names) (envs : List ExtractEnv) (dst : Rows) :
    Reached ckpt p (dst p.1) (attempt ckpt envs dst p.1) := by
  induction envs generalizing dst with
  | nil => exact .inl rfl
  | cons env envs ih => exact (main_reached hnames hp env dst).trans (ih _)

/-- After any runs, a run that returns finishes what was there before all of them. -/
theorem finished_of_attempts (hnames : shardFiles ckpt = .ok names) {p : ℕ × PyJson}
    (hp : p ∈ (List.range 128).zip names) {envs : List ExtractEnv} {dst : Rows}
    (hok : (main env ckpt (attempt ckpt envs dst)).1 = .ok ()) :
    Finished ckpt p (dst p.1) ((main env ckpt (attempt ckpt envs dst)).2 p.1) :=
  .of_reached (attempt_reached hnames hp envs dst) (main_finished hnames hp hok)

end Run

/-! ### The table of the extracted files -/

/-- The tensor of a shard lies in its file of the checkpoint, under a header that says where. -/
def HoldsTensor (ckpt : Checkpoint) (p : ℕ × PyJson) (tensor : Bytes) : Prop :=
  ∃ text before after h,
    openFile ckpt p.2 = .ok (Safetensors.frame text (before ++ tensor ++ after)) ∧
    8 + text.length + before.length < 2 ^ 63 ∧ ckpt.loads text = .ok h ∧
    tensorEntry h p.1 = .ok ((.int before.length, .int (before.length + tensor.length)),
      .int 2500012, .int 160)

/-- The checkpoint holds a table: 128 tensors of 2500012 rows of 160 bytes. -/
def HoldsTable (ckpt : Checkpoint) (tensor : ℕ → Bytes) : Prop :=
  (∃ names, shardFiles ckpt = .ok names ∧
    ∀ p ∈ (List.range 128).zip names, HoldsTensor ckpt p (tensor p.1)) ∧
  ∀ i < 128, (tensor i).length = 2500012 * 160

/-- The row of the table that a row id names. -/
def tableRow (tensor : ℕ → Bytes) (k : ℕ) : Bytes :=
  SlotBuffer.slot 160 (tensor (k / 2500012)) (k % 2500012)

section Table

variable {tensor : ℕ → Bytes} {before after : Option Bytes}

/-- A checkpoint that holds the tensor of a shard answers with the file, the place and the length of
it, and the file has its bytes there. -/
theorem HoldsTensor.tensorOf_eq {t : Bytes} (h : HoldsTensor ckpt p t) :
    ∃ file start source, tensorOf ckpt p.1 p.2 = .ok (file, start, (t.length : ℤ)) ∧
      seek file start = .ok source ∧ source.take t.length = t := by
  obtain ⟨text, before, after, json, hopen, hsmall, hloads, hentry⟩ := h
  have hlength : Safetensors.headerLength (Safetensors.frame text (before ++ t ++ after)) =
      some text.length := Safetensors.headerLength_frame (by omega)
  have hheader : loadHeader ckpt (Safetensors.frame text (before ++ t ++ after)) =
      .ok (json, text.length) := by
    simp only [loadHeader, hlength]
    rw [if_neg (by omega), Safetensors.header_frame, hloads]
    rfl
  refine ⟨Safetensors.frame text (before ++ t ++ after), 8 + text.length + before.length,
    Safetensors.dataFrom (Safetensors.frame text (before ++ t ++ after)) text.length before.length,
    ?_, ?_, Safetensors.range_frame before t after⟩
  · simp only [tensorOf, hopen, hheader, hentry, Except.mapError, Except.ok_bind, isNumber,
      rangeSize, number, beq_self_eq_true, Bool.and_self, if_true, add_sub_cancel_left]
    rfl
  · have hstart : (8 + (text.length : ℤ) + before.length).toNat =
        8 + text.length + before.length := by omega
    rw [seek, if_neg (by omega), if_neg (by omega), Safetensors.dataFrom, hstart]

/-- Without a failure, the tensor of a shard is extracted. -/
private theorem HoldsTensor.extractShard_returns {t : Bytes} (h : HoldsTensor ckpt p t)
    (hopens : ∀ i, env.opens i = none) (hwrites : ∀ i n, env.writes i n = none) (dst : Rows) :
    (extractShard env ckpt p dst).1 = .ok () := by
  obtain ⟨file, start, source, htensor, hseek, -⟩ := h.tensorOf_eq
  simp only [extractShard, htensor, hseek, hopens]
  split_ifs
  · rfl
  · exact copyLoop_returns (hwrites p.1) _ _ _ _

/-- When no file fails to open (`hopens`) and no write fails (`hwrites`), the script returns, from a
checkpoint that holds a table (`h`). -/
private theorem HoldsTable.main_returns (h : HoldsTable ckpt tensor)
    (hopens : ∀ i, env.opens i = none)
    (hwrites : ∀ i n, env.writes i n = none) (dst : Rows) : (main env ckpt dst).1 = .ok () := by
  obtain ⟨⟨names, hnames, hholds⟩, -⟩ := h
  rw [main_eq hnames]
  generalize (List.range 128).zip names = ps at hholds
  induction ps generalizing dst with
  | nil => rfl
  | cons p ps ih =>
    have hp := (hholds p List.mem_cons_self).extractShard_returns hopens hwrites dst
    rcases hrun : extractShard env ckpt p dst with ⟨result, mid⟩
    rw [hrun] at hp
    obtain rfl : result = .ok () := hp
    rw [List.forM_cons, Effect.bind_of_ok hrun]
    exact ih mid fun q hq => hholds q (List.mem_cons_of_mem _ hq)

/-- A finished file has the size of its tensor, and is the tensor unless another file of that size
was there. -/
private theorem Finished.iff_of_holdsTensor {t : Bytes} (h : HoldsTensor ckpt p t)
    (hfinished : Finished ckpt p before after) :
    ∃ out, after = some out ∧ out.length = t.length ∧
      (out = t ↔ ∀ f, before = some f → f.length = t.length → f = t) := by
  obtain ⟨file, start, source, htensor, hseek, htake⟩ := h.tensorOf_eq
  obtain ⟨file', start', nbytes, htensor', hif⟩ := hfinished
  have hsame := htensor'.symm.trans htensor
  simp only [Except.ok.injEq, Prod.mk.injEq] at hsame
  obtain ⟨rfl, rfl, rfl⟩ := hsame
  split_ifs at hif with hfull
  · -- the file is left alone
    obtain ⟨f, rfl, hf⟩ := (Option.any_eq_true _ _).mp hfull
    have hlength : f.length = t.length := Nat.cast_inj.mp (of_decide_eq_true hf)
    refine ⟨f, hif, hlength, fun hft g hg _ => ?_, fun hkept => hkept f rfl hlength⟩
    rw [← Option.some.inj hg, hft]
  · obtain ⟨bytes, ⟨file, start, source', htensor'', hseek', rfl⟩, rfl⟩ := hif
    have hsame := htensor''.symm.trans htensor
    simp only [Except.ok.injEq, Prod.mk.injEq] at hsame
    obtain ⟨rfl, rfl, -⟩ := hsame
    obtain rfl : source = source' := Except.ok.inj (hseek.symm.trans hseek')
    rw [Int.toNat_natCast, htake]
    refine ⟨t, rfl, rfl, fun _ f hf hlength => absurd ?_ hfull, fun _ => rfl⟩
    rw [hasSize, hf]
    exact decide_eq_true (congrArg Nat.cast hlength)

/-- What a run that returns (`hok`) leaves of a shard (`hi`) after any others: the tensor, unless an
earlier file of its length was kept. -/
private theorem attempts_iff (h : HoldsTable ckpt tensor) {envs : List ExtractEnv}
    (hok : (main env ckpt (attempt ckpt envs dst)).1 = .ok ()) {i : ℕ} (hi : i < 128) :
    ∃ out, (main env ckpt (attempt ckpt envs dst)).2 i = some out ∧
      out.length = 2500012 * 160 ∧
      (out = tensor i ↔ ∀ f, dst i = some f → f.length = (tensor i).length → f = tensor i) := by
  obtain ⟨⟨names, hnames, hholds⟩, hsize⟩ := h
  have hi' : i < names.length := by rwa [length_shardFiles hnames]
  have hp : (i, names[i]) ∈ (List.range 128).zip names := by
    apply List.mem_of_getElem? (i := i)
    rw [List.getElem?_zip_eq_some]
    exact ⟨List.getElem?_range hi, List.getElem?_eq_getElem hi'⟩
  obtain ⟨out, hout, hlength, hiff⟩ :=
    (finished_of_attempts hnames hp hok).iff_of_holdsTensor (hholds _ hp)
  exact ⟨out, hout, hlength.trans (hsize i hi), hiff⟩

/-- Two tables of the full size (`ha`, `hb`) are the same iff their rows are. -/
private theorem tableRow_eq_iff {a b : ℕ → Bytes} (ha : ∀ i < 128, (a i).length = 2500012 * 160)
    (hb : ∀ i < 128, (b i).length = 2500012 * 160) :
    (∀ k < 128 * 2500012, tableRow a k = tableRow b k) ↔ ∀ i < 128, a i = b i := by
  constructor
  · intro h i hi
    refine SlotBuffer.ext_slots (ha i hi) (hb i hi) fun r hr => ?_
    have hrow := h (i * 2500012 + r) (by omega)
    have hshard : (i * 2500012 + r) / 2500012 = i := by omega
    have hinShard : (i * 2500012 + r) % 2500012 = r := by omega
    rwa [tableRow, tableRow, hshard, hinShard] at hrow
  · intro h k hk
    rw [tableRow, tableRow, h _ (by omega)]

/-- Files of the size of the tensors open as a table, and gathers from it have their rows. -/
private theorem gather_of_sizes {os : Pread} (hos : os.Full) {files : Rows} {shown : ℕ → Bytes}
    (hfiles : ∀ i < 128, files i = some (shown i) ∧ (shown i).length = 2500012 * 160)
    (badges : ℕ → Option Bytes) :
    ∃ g, BadgeGather.openWithBackend ⟨files, badges⟩ (Layout.new 128 2500012 160 1)
        (preadvBackend os) = .ok g ∧
      ∀ sched keys out threads, keys ≠ [] → (∀ k ∈ keys, k < 128 * 2500012) →
        out.length = keys.length * 160 →
        g.gatherPp sched keys out threads = .ok (keys.map (tableRow shown)).flatten := by
  have hfile : ∀ i < 128, (TableDir.mk files badges).file i = some (shown i) := by
    intro i hi
    simp only [TableDir.file, (hfiles i hi).1]
  have hpresent : ∀ i < (Layout.new 128 2500012 160 1).shards,
      ((TableDir.mk files badges).file i).isSome := by
    intro i hi
    rw [hfile i hi, Option.isSome_some]
  obtain ⟨g, hg, hlayout, hbackend⟩ : ∃ g, BadgeGather.openWithBackend ⟨files, badges⟩
      (Layout.new 128 2500012 160 1) (preadvBackend os) = .ok g ∧
      g.layout = Layout.new 128 2500012 160 1 ∧ g.backend = preadvBackend os :=
    ⟨_, if_pos hpresent, rfl, rfl⟩
  -- the gather sees the files that the directory shows
  have hgetD : ∀ i < 128, g.files.getD i [] = shown i :=
    fun i hi => Serve.getD_files_of_open hg hi (hfile i hi)
  have hshard : ∀ k < 128 * 2500012, k / 2500012 < 128 := fun k hk => by omega
  have hheld : ∀ k < 128 * 2500012, g.HoldsRow k := by
    intro k hk
    rw [BadgeGather.HoldsRow, BadgeGather.byteOff, hlayout]
    show k % 2500012 * 160 + 160 ≤ (g.files.getD (k / 2500012) []).length
    rw [hgetD _ (hshard k hk), (hfiles _ (hshard k hk)).2]
    omega
  have hrow : ∀ k < 128 * 2500012, g.storedRow k = tableRow shown k := by
    intro k hk
    rw [BadgeGather.storedRow, BadgeGather.fileRow, hlayout]
    show SlotBuffer.slot 160 (g.files.getD (k / 2500012) []) (k % 2500012) = _
    rw [hgetD _ (hshard k hk), tableRow]
  refine ⟨g, hg, fun sched keys out threads hne hkeys hout => ?_⟩
  rw [BadgeGather.gatherPp_of_full (hbackend ▸ preadvBackend_full hos)
    (hlayout ▸ Layout.badgeRows_new_pos _ _ _ _) (by rw [hlayout]; rfl) sched hne
    (fun k hk => ⟨by rw [hlayout]; exact hkeys k hk, hheld k (hkeys k hk)⟩)
    (by rw [hlayout]; exact hout) threads,
    List.map_congr_left fun k hk => hrow k (hkeys k hk)]

/-- The bytes of a text of ASCII characters. -/
def ascii (s : String) : Bytes := s.toList.map fun c => UInt8.ofNat c.toNat

/-- The tensor of every shard. -/
def zeros : Bytes := List.replicate (2500012 * 160) 0

/-- A tensor of zeros has the bytes of one shard. -/
theorem length_zeros : zeros.length = 2500012 * 160 := List.length_replicate

/-- What a header says of a tensor. -/
def zerosEntry : PyJson :=
  .dict [("dtype", .str "F8_E4M3"), ("shape", .list [.int 2500012, .int 160]),
    ("data_offsets", .list [.int 0, .int 400001920])]

/-- The text of an entry of the header. -/
def entryText (i : ℕ) : Bytes :=
  ascii "\"" ++ ascii (tensorName i) ++ ascii ("\": \x7b\"dtype\": \"F8_E4M3\", " ++
    "\"shape\": [2500012, 160], \"data_offsets\": [0, 400001920]\x7d")

/-- The text of the header. -/
def zerosText : Bytes :=
  ascii "\x7b" ++ entryText 0 ++
    ((List.range' 1 127).flatMap fun i => ascii ", " ++ entryText i) ++ ascii "\x7d"

/-- A dictionary with the same value for every tensor. -/
def ofTensors (v : PyJson) : PyJson := .dict ((List.range 128).map fun i => (tensorName i, v))

/-- The checkpoint. -/
def zerosCkpt : Checkpoint where
  index := .ok (.dict [("weight_map", ofTensors (.str "model.safetensors"))])
  file s := if s = "model.safetensors" then some (Safetensors.frame zerosText ([] ++ zeros ++ []))
    else none
  loads text :=
    if text = zerosText then .ok (ofTensors zerosEntry)
    else .error (.valueError "Expecting value")

/-- The disk is full when half of the tensor of the sixth shard is written. -/
def fullDisk : ExtractEnv where
  opens _ := none
  writes i n :=
    if i = 5 ∧ n = 3 then some (.python (.osError "No space left on device"), 7) else none

/-- Nothing fails. -/
def calm : ExtractEnv := ⟨fun _ => none, fun _ _ => none⟩

/-- Every one of the 128 tensors is listed, with the same entry. -/
theorem item_ofTensors {v : PyJson} {i : ℕ} (hi : i < 128) :
    (ofTensors v).item (tensorName i) = .ok v := by
  have hlookup : ∀ names : List ℕ, i ∈ names →
      (names.map fun j => (tensorName j, v)).lookup (tensorName i) = some v := by
    intro names hmem
    induction names with
    | nil => cases hmem
    | cons j names ih =>
      rw [List.map_cons, List.lookup_cons]
      split
      · rfl
      next hne =>
        refine ih ((List.mem_cons.mp hmem).resolve_left fun hij => ?_)
        rw [hij, beq_self_eq_true] at hne
        cases hne
  simp only [ofTensors, PyJson.item, hlookup _ (List.mem_range.mpr hi)]

/-- An ASCII text has as many bytes as characters. -/
theorem length_ascii (s : String) : (ascii s).length = s.length := by
  rw [ascii, List.length_map, String.length_toList]

/-- The text of an entry is at most 256 bytes long. -/
theorem length_entryText_le {i : ℕ} (hi : i < 128) : (entryText i).length ≤ 256 := by
  have hdigits : (toString i).length ≤ 3 := Nat.repr_length i 3 (by decide) (by omega)
  have hname : (tensorName i).length =
      "model.language_model.layers.1.ple.ple_embedding.ngram_embedding.shard_".length +
        (toString i).length + ".weight".length := by
    rw [← String.length_append, ← String.length_append]
    rfl
  have hparts : ("\"" : String).length +
      "model.language_model.layers.1.ple.ple_embedding.ngram_embedding.shard_".length +
      ".weight".length + ("\": \x7b\"dtype\": \"F8_E4M3\", " ++
        "\"shape\": [2500012, 160], \"data_offsets\": [0, 400001920]\x7d" : String).length ≤
      253 := by
    decide +kernel
  simp only [entryText, List.length_append, length_ascii, hname]
  omega

/-- The header of the file of zeros is shorter than a mebibyte. -/
private theorem length_zerosText_lt : zerosText.length < 2 ^ 20 := by
  have hrest : ((List.range' 1 127).flatMap fun i => ascii ", " ++ entryText i).length ≤
      127 * 258 := by
    rw [List.length_flatMap]
    refine (List.sum_le_card_nsmul _ 258 fun n hn => ?_).trans ?_
    · obtain ⟨i, hi, rfl⟩ := List.mem_map.mp hn
      have hlt : i < 128 := by
        rw [List.mem_range'_1] at hi
        omega
      have hcomma : (", " : String).length = 2 := by decide +kernel
      have hentry := length_entryText_le hlt
      rw [List.length_append, length_ascii, hcomma]
      omega
    · rw [List.length_map, List.length_range']
      exact Nat.le_refl _
  have hfirst := length_entryText_le (i := 0) (by decide)
  have hbraces : ("\x7b" : String).length = 1 ∧ ("\x7d" : String).length = 1 := by decide +kernel
  rw [zerosText, List.length_append, List.length_append, List.length_append, length_ascii,
    length_ascii, hbraces.1, hbraces.2]
  omega

/-- The index of the checkpoint of zeros names the same file for all 128 shards. -/
private theorem shardFiles_zerosCkpt :
    shardFiles zerosCkpt = .ok ((List.range 128).map fun _ => .str "model.safetensors") := by
  have hindex : zerosCkpt.index =
      .ok (.dict [("weight_map", ofTensors (.str "model.safetensors"))]) := rfl
  have hmap (v : PyJson) : (PyJson.dict [("weight_map", v)]).item "weight_map" = .ok v := rfl
  rw [shardFiles, hindex, Except.ok_bind, hmap, Except.ok_bind]
  exact Except.mapM_eq_ok fun _ hi => item_ofTensors (List.mem_range.mp hi)

/-- The file of the checkpoint of zeros is the header, framed, and the zeros of one tensor. -/
private theorem openFile_zerosCkpt : openFile zerosCkpt (.str "model.safetensors") =
    .ok (Safetensors.frame zerosText ([] ++ zeros ++ [])) := by
  have hfile : zerosCkpt.file "model.safetensors" =
      some (Safetensors.frame zerosText ([] ++ zeros ++ [])) := by
    simp only [zerosCkpt, if_true]
  rw [openFile, hfile]

/-- The header of the file of zeros is read as the document that lists the tensors. -/
private theorem loads_zerosCkpt : zerosCkpt.loads zerosText = .ok (ofTensors zerosEntry) := by
  simp only [zerosCkpt, if_true]

/-- The checkpoint of zeros holds a table whose tensors are all zeros. -/
theorem holdsTable_zerosCkpt : HoldsTable zerosCkpt fun _ => zeros := by
  refine ⟨⟨_, shardFiles_zerosCkpt, fun p hp => ?_⟩, fun _ _ => length_zeros⟩
  have hi : p.1 < 128 := List.mem_range.mp (List.of_mem_zip hp).1
  have hname : p.2 = .str "model.safetensors" := by
    obtain ⟨_, -, hname⟩ := List.mem_map.mp (List.of_mem_zip hp).2
    exact hname.symm
  have htext := length_zerosText_lt
  refine ⟨zerosText, [], [], ofTensors zerosEntry, ?_, ?_, loads_zerosCkpt, ?_⟩
  · rw [hname, openFile_zerosCkpt]
  · rw [List.length_nil]
    omega
  · rw [tensorEntry, item_ofTensors hi, length_zeros]
    rfl

end Table

end ExtractRows

end EngramDB
