import EngramDB.Io.Batch.ElementSize
import EngramDB.Io.View.Build

/-!
# What a build writes

On a table of rows of 160 bytes, the rows that a gather hands out do not depend on the order in
which its jobs finish, so what a build writes is determined by its row ids.

* `gatherPp_eq_gathered`: the rows of a chunk;
* `appends_writeChunk`, `makes_writeChunk`: a chunk appends its records, and returns iff the calls
  that it makes work;
* `appends_writeChunks`, `makes_writeChunks`: so do the chunks of all row ids.
-/

namespace EngramDB

open SlotBuffer Chunking

namespace View

/-- Rows of 160 bytes for all keys. -/
structure Fits (g : BadgeGather) (keys : List ℕ) : Prop where
  /-- A gather hands out 160 bytes of a row. -/
  width_eq : g.layout.width = ROW_BYTES
  /-- Rows have as many bytes. -/
  width_le : g.layout.width ≤ g.layout.rowBytes
  /-- A badge holds at least one row. -/
  badgeRows_pos : 0 < g.layout.badgeRows
  /-- The keys are rows of the table. -/
  inRange : ∀ k ∈ keys, g.layout.InRange k

/-- If the rows of some keys can be gathered, so can those of fewer. -/
theorem Fits.of_subset {g : BadgeGather} {keys keys' : List ℕ} (h : Fits g keys)
    (hsub : keys' ⊆ keys) :
    Fits g keys' :=
  ⟨h.width_eq, h.width_le, h.badgeRows_pos, fun k hk => h.inRange k (hsub hk)⟩

/-- The rows of a chunk, as a gather hands them out. -/
def gathered (g : BadgeGather) (chunk : List ℕ) : Bytes :=
  match g.gatherPp (Schedule.inOrder _) chunk (List.replicate (chunk.length * ROW_BYTES) 0)
    DEFAULT_GATHER_THREADS with
  | .ok rows => rows
  | .error _ => []

/-- The slots of a chunk. -/
def chunkRecords (g : BadgeGather) (slotBytes : UInt64) (chunk : List ℕ) : List Bytes :=
  (List.range (chunk.length / HEAD_W)).map fun i =>
    padded slotBytes (slot RECORD_BYTES (gathered g chunk) i)

/-- The slots of all row ids. -/
def viewRecords (g : BadgeGather) (slotBytes : UInt64) (keys : List ℕ) : List Bytes :=
  (chunks CHUNK_ROWS keys).flatMap (chunkRecords g slotBytes)

variable {env : BuildEnv} {g : BadgeGather} {slotBytes : UInt64} {chunk keys : List ℕ} {w : Writer}

/-- A chunk has at least one row. -/
theorem CHUNK_ROWS_pos : 0 < CHUNK_ROWS := by decide

/-- A chunk of rows in range is gathered, and what is handed out does not depend on the schedule. -/
theorem gatherPp_eq_gathered (hfits : Fits g chunk) (hne : chunk ≠ [])
    (sched : Schedule JobResult) :
    g.gatherPp sched chunk (List.replicate (chunk.length * ROW_BYTES) 0) DEFAULT_GATHER_THREADS =
        .ok (gathered g chunk) ∧ (gathered g chunk).length = chunk.length * ROW_BYTES := by
  have hout : (List.replicate (chunk.length * ROW_BYTES) (0 : UInt8)).length =
      chunk.length * g.layout.width := by
    rw [List.length_replicate, hfits.width_eq]
  have hgather := fun sched => BadgeGather.gatherPp_eq_ok (g := g) sched hne hfits.inRange
    hfits.badgeRows_pos hfits.width_le hout DEFAULT_GATHER_THREADS
  obtain ⟨out, hok, hlen, hslots⟩ := hgather sched
  obtain ⟨out', hok', hlen', hslots'⟩ := hgather (Schedule.inOrder _)
  have hrows : gathered g chunk = out' := by simp only [gathered, hok']
  have heq : out = out' := by
    refine ext_slots hlen hlen' fun i hi => ?_
    obtain ⟨job, hjob, j, hj⟩ := BadgeGather.exists_jobPairs g DEFAULT_GATHER_THREADS
      (List.getElem?_eq_getElem hi)
    rw [hslots job hjob j _ i hj, hslots' job hjob j _ i hj]
  rw [hrows, hok, heq]
  exact ⟨rfl, by rw [hlen', hfits.width_eq]⟩

/-! ### Appending records -/

/-- A call by itself appends no record, whether it works or not. -/
theorem appends_call (c : BuildCall) : Effect.Appends Writer.records (call env c) [] :=
  Effect.appends_nil fun w => by
    rw [call]
    cases env.fails c <;> rfl

/-- Creating the keys file appends no record. -/
theorem appends_createKeys (keysOut : Option String) :
    Effect.Appends Writer.records (createKeys env keysOut) [] :=
  Effect.appends_nil fun w => by
    simp only [createKeys]
    cases keysOut <;> cases env.fails .createKeys <;> rfl

/-- Writing a key appends no record. -/
private theorem appends_writeKey (key : ℕ) : Effect.Appends Writer.records (writeKey env key) [] :=
  Effect.appends_nil fun w => by
    rw [writeKey]
    cases w.keys with
    | none => rfl
    | some keys =>
      dsimp only [call]
      cases env.fails (.writeKey keys.length) <;> rfl

/-- A record is handed over before its write fails. -/
private theorem appends_writeRecord (rec : Bytes) :
    Effect.Appends Writer.records (writeRecord env slotBytes rec) [padded slotBytes rec] := by
  intro w
  rw [writeRecord]
  split_ifs with h
  · exact ⟨[], List.nil_prefix, by simp, fun a ha => by cases ha⟩
  · refine ⟨_, List.prefix_refl _, ?_, fun _ _ => rfl⟩
    rw [call]
    cases env.fails (.writeRecord w.records.length) <;> rfl

/-- Gathering the rows of a chunk appends no record. -/
private theorem appends_gatherChunk (chunk : List ℕ) :
    Effect.Appends Writer.records (gatherChunk env g chunk) [] :=
  Effect.appends_nil fun w => by
    rw [gatherChunk]
    cases env.fails (.gather w.records.length) <;> rfl

/-- A gather of keys in range that returns has returned their rows, whatever the environment. -/
private theorem eq_gathered_of_gatherChunk (hfits : Fits g chunk) (hne : chunk ≠ [])
    (w : Writer) {out : Bytes}
    (h : (gatherChunk env g chunk w).1 = .ok out) : out = gathered g chunk := by
  rw [gatherChunk] at h
  cases hfails : env.fails (.gather w.records.length) with
  | some e =>
    rw [hfails] at h
    cases h
  | none =>
    rw [hfails, (gatherPp_eq_gathered hfits hne _).1] at h
    cases h
    rfl

/-- Writing a chunk whose keys are in range (`hfits`), with at least one key (`hne`), appends its
records, or some of them if a call fails. -/
theorem appends_writeChunk (hfits : Fits g chunk) (hne : chunk ≠ []) :
    Effect.Appends Writer.records (writeChunk env g slotBytes chunk)
      (chunkRecords g slotBytes chunk) := by
  rw [← List.nil_append (chunkRecords g slotBytes chunk)]
  refine (appends_gatherChunk chunk).bind_of (P := fun out => out = gathered g chunk)
    (fun w out h => eq_gathered_of_gatherChunk hfits hne w h) ?_
  rintro out rfl
  rw [← List.append_nil (chunkRecords g slotBytes chunk)]
  refine Effect.Appends.bind ?_ fun _ => ?_
  · rw [chunkRecords, List.map_eq_flatMap]
    exact Effect.appends_forM fun i _ => appends_writeRecord _
  · have hkeys :
        Effect.Appends Writer.records (forM chunk (writeKey env)) (chunk.flatMap fun _ => []) :=
      Effect.appends_forM fun key _ => appends_writeKey key
    rwa [List.flatMap_eq_nil_iff.mpr fun _ _ => rfl] at hkeys

/-- The chunks of row ids append the records of all of them. -/
theorem appends_writeChunks (hfits : Fits g keys) :
    Effect.Appends Writer.records (forM (chunks CHUNK_ROWS keys) (writeChunk env g slotBytes))
      (viewRecords g slotBytes keys) :=
  Effect.appends_forM fun _ hc => appends_writeChunk
    (hfits.of_subset fun _ hk => mem_of_mem_chunks CHUNK_ROWS_pos hc hk)
    (ne_nil_of_mem_chunks CHUNK_ROWS_pos hc)

/-! ### Making calls -/

/-- The calls for a chunk, after a number of records and, if there is a keys file, a number of row
ids in it. -/
def chunkCalls (records : ℕ) (written : Option ℕ) (chunk : List ℕ) : List BuildCall :=
  .gather records :: ((List.range' records (chunk.length / HEAD_W)).map .writeRecord ++
    written.elim [] fun first => (List.range' first chunk.length).map .writeKey)

/-- The calls for chunks. -/
def chunksCalls : ℕ → Option ℕ → List (List ℕ) → List BuildCall
  | _, _, [] => []
  | records, written, chunk :: rest =>
    chunkCalls records written chunk ++
      chunksCalls (records + chunk.length / HEAD_W) (written.map (· + chunk.length)) rest

/-- What the files have after more records and their row ids. -/
def Writer.append (w : Writer) (records : List Bytes) (keys : List ℕ) : Writer :=
  ⟨w.records ++ records, w.keys.map (· ++ keys)⟩

/-- A call of the build works. -/
abbrev BuildEnv.Works (env : BuildEnv) (c : BuildCall) : Prop := env.fails c = none

/-- A call that works is made and leaves the writer as it was. -/
theorem makes_call (env : BuildEnv) (c : BuildCall) (w : Writer) :
    Effect.Makes env.Works (call env c) w [c] () w where
  returns h := by rw [call, h c (by simp)]
  works_of_ok h c' hc' := by
    obtain rfl := List.mem_singleton.mp hc'
    rw [call] at h
    cases hfails : env.fails c' with
    | none => exact hfails
    | some e =>
      rw [hfails] at h
      cases h

/-- Writing a record that fits into a slot makes one call and appends the padded record. -/
private theorem makes_writeRecord {rec : Bytes} (hrec : rec.length ≤ slotBytes.toNat) (w : Writer) :
    Effect.Makes env.Works (writeRecord env slotBytes rec) w [.writeRecord w.records.length] ()
      ⟨w.records ++ [padded slotBytes rec], w.keys⟩ := by
  refine (makes_call env (.writeRecord w.records.length)
    ⟨w.records ++ [padded slotBytes rec], w.keys⟩).congr ?_
  rw [writeRecord, if_neg (by omega)]

/-- Writing records that all fit into a slot makes a call for each and appends the padded records in
order. -/
private theorem makes_writeRecords (env : BuildEnv) {recs : List Bytes}
    (hrecs : ∀ rec ∈ recs, rec.length ≤ slotBytes.toNat)
    (w : Writer) : Effect.Makes env.Works (forM recs (writeRecord env slotBytes)) w
      ((List.range' w.records.length recs.length).map .writeRecord) ⟨⟩
      ⟨w.records ++ recs.map (padded slotBytes), w.keys⟩ := by
  induction recs generalizing w with
  | nil =>
    refine Effect.makes_nil ?_
    rw [List.map_nil, List.append_nil]
    rfl
  | cons rec recs ih =>
    rw [List.forM_cons, List.length_cons, List.range'_succ, List.map_cons, List.map_cons]
    have hrest :=
      ih (fun r hr => hrecs r (by simp [hr])) ⟨w.records ++ [padded slotBytes rec], w.keys⟩
    simp only [List.length_append, List.length_singleton, List.append_assoc, List.singleton_append]
      at hrest
    exact (makes_writeRecord (hrecs rec (by simp)) w).bind hrest

/-- Writing keys makes a call for each if there is a keys file, and none otherwise. -/
private theorem makes_writeKeys (chunk : List ℕ) (w : Writer) :
    Effect.Makes env.Works (forM chunk (writeKey env)) w
      ((w.keys.map List.length).elim [] fun first => (List.range' first chunk.length).map .writeKey)
        ⟨⟩
      ⟨w.records, w.keys.map (· ++ chunk)⟩ := by
  obtain ⟨records, _ | keys⟩ := w
  · -- without a keys file there is nothing to do
    have hnone : forM chunk (writeKey env) ⟨records, none⟩ = (.ok ⟨⟩, ⟨records, none⟩) := by
      induction chunk with
      | nil => rfl
      | cons key chunk ih =>
        rw [List.forM_cons,
          Effect.bind_of_ok (show writeKey env key ⟨records, none⟩ = (.ok (), _) from rfl)]
        exact ih
    exact Effect.makes_nil hnone
  · simp only [Option.map_some, Option.elim_some]
    -- the keys file grows by the key of every call
    induction chunk generalizing keys with
    | nil =>
      refine Effect.makes_nil ?_
      rw [List.append_nil]
      rfl
    | cons key chunk ih =>
      rw [List.forM_cons, List.length_cons, List.range'_succ, List.map_cons]
      have hrest := ih (keys ++ [key])
      rw [List.length_append, List.length_singleton, List.append_assoc,
        List.singleton_append] at hrest
      have hkey :
          Effect.Makes env.Works (writeKey env key) ⟨records, some keys⟩ [.writeKey keys.length] ()
            ⟨records, some (keys ++ [key])⟩ :=
        (makes_call env (.writeKey keys.length) ⟨records, some (keys ++ [key])⟩).congr rfl
      exact hkey.bind hrest

/-- Gathering the rows of a chunk, whose keys are in range, makes one call and returns the rows. -/
private theorem makes_gatherChunk (hfits : Fits g chunk) (hne : chunk ≠ []) (w : Writer) :
    Effect.Makes env.Works (gatherChunk env g chunk) w [.gather w.records.length]
      (gathered g chunk) w where
  returns h := by
    rw [gatherChunk, h _ (by simp), (gatherPp_eq_gathered hfits hne _).1]
    rfl
  works_of_ok h c hc := by
    obtain rfl := List.mem_singleton.mp hc
    rw [gatherChunk] at h
    cases hfails : env.fails (.gather w.records.length) with
    | none => exact hfails
    | some e =>
      rw [hfails] at h
      cases h

/-- Writing a chunk whose keys are in range (`hfits`), into slots that are wide enough for a record
(`hslot`), makes the calls of the chunk, so that it is written iff they all work. -/
theorem makes_writeChunk (hslot : RECORD_BYTES ≤ slotBytes.toNat) (hfits : Fits g chunk)
    (hne : chunk ≠ []) (w : Writer) : Effect.Makes env.Works (writeChunk env g slotBytes chunk) w
      (chunkCalls w.records.length (w.keys.map List.length) chunk) ⟨⟩
      (w.append (chunkRecords g slotBytes chunk) chunk) := by
  have hrecs :
      ∀ rec ∈ (List.range (chunk.length / HEAD_W)).map (slot RECORD_BYTES (gathered g chunk)),
        rec.length ≤ slotBytes.toNat := by
    intro rec hrec
    obtain ⟨i, -, rfl⟩ := List.mem_map.mp hrec
    exact (List.length_take_le _ _).trans hslot
  have hwrite := makes_writeRecords env hrecs w
  rw [List.forM_map, List.length_map, List.length_range, List.map_map] at hwrite
  exact (makes_gatherChunk hfits hne w).bind (hwrite.bind (makes_writeKeys chunk
    ⟨w.records ++ chunkRecords g slotBytes chunk, w.keys⟩))

/-- A chunk gives one record for every sixteen keys. -/
theorem length_chunkRecords (g : BadgeGather) (slotBytes : UInt64) (chunk : List ℕ) :
    (chunkRecords g slotBytes chunk).length = chunk.length / HEAD_W := by
  rw [chunkRecords, List.length_map, List.length_range]

/-- Writing chunks, in slots wide enough for a record, makes the calls of each chunk in turn and
appends their records and keys. -/
private theorem makes_writeChunkList (env : BuildEnv) {cs : List (List ℕ)}
    (hslot : RECORD_BYTES ≤ slotBytes.toNat) (hcs : ∀ c ∈ cs, Fits g c ∧ c ≠ []) (w : Writer) :
    Effect.Makes env.Works (forM cs (writeChunk env g slotBytes)) w
      (chunksCalls w.records.length (w.keys.map List.length) cs) ⟨⟩
      (w.append (cs.flatMap (chunkRecords g slotBytes)) cs.flatten) := by
  induction cs generalizing w with
  | nil =>
    refine Effect.makes_nil ?_
    simp only [Writer.append, List.flatMap_nil, List.flatten_nil, List.append_nil, Option.map_id']
    rfl
  | cons c cs ih =>
    obtain ⟨hfits, hne⟩ := hcs c (by simp)
    have hrest :=
      ih (fun c' hc' => hcs c' (by simp [hc'])) (w.append (chunkRecords g slotBytes c) c)
    simp only [Writer.append, List.length_append, length_chunkRecords, Option.map_map,
      Function.comp_def, List.append_assoc] at hrest
    rw [List.forM_cons, chunksCalls, List.flatMap_cons, List.flatten_cons]
    refine (makes_writeChunk hslot hfits hne w).bind ?_
    simpa only [Writer.append, Option.map_map, Function.comp_def] using hrest

/-- The chunks of row ids are written iff their calls work. -/
theorem makes_writeChunks (env : BuildEnv) (hslot : RECORD_BYTES ≤ slotBytes.toNat)
    (hfits : Fits g keys) (w : Writer) :
    Effect.Makes env.Works (forM (chunks CHUNK_ROWS keys) (writeChunk env g slotBytes)) w
      (chunksCalls w.records.length (w.keys.map List.length) (chunks CHUNK_ROWS keys)) ⟨⟩
      (w.append (viewRecords g slotBytes keys) keys) := by
  have hmakes := makes_writeChunkList env hslot (fun c hc =>
    ⟨hfits.of_subset fun _ hk => mem_of_mem_chunks CHUNK_ROWS_pos hc hk,
      ne_nil_of_mem_chunks CHUNK_ROWS_pos hc⟩) w
  rwa [flatten_chunks CHUNK_ROWS_pos] at hmakes

/-- Creating the keys file makes a call iff one was asked for, and leaves an empty file then. -/
theorem makes_createKeys (env : BuildEnv) (keysOut : Option String) :
    Effect.Makes env.Works (createKeys env keysOut) ⟨[], none⟩
      (keysOut.elim [] fun _ => [.createKeys]) ()
      ⟨[], keysOut.map fun _ => []⟩ := by
  cases keysOut with
  | none => exact Effect.makes_nil rfl
  | some path =>
    constructor
    · intro h
      simp only [createKeys, h .createKeys (by simp)]
      rfl
    · intro u t h c hc
      obtain rfl := List.mem_singleton.mp hc
      simp only [createKeys] at h
      cases hfails : env.fails .createKeys with
      | none => exact hfails
      | some e =>
        rw [hfails] at h
        cases h

/-- The calls for writing a view of given row ids. -/
def keysCalls (keysOut : Option String) (keys : List ℕ) : List BuildCall :=
  (keysOut.elim [] fun _ => [.createKeys]) ++
    (chunksCalls 0 (keysOut.map fun _ => 0) (chunks CHUNK_ROWS keys) ++ [.flush])

/-- A view of given row ids is written iff the calls for it work. -/
theorem makes_writeKeysView (env : BuildEnv) (hslot : RECORD_BYTES ≤ slotBytes.toNat)
    (hfits : Fits g keys)
    (keysOut : Option String) : Effect.Makes env.Works (writeKeysView env g keys slotBytes keysOut)
      ⟨[], none⟩ (keysCalls keysOut keys) keys.length
      ⟨viewRecords g slotBytes keys, keysOut.map fun _ => keys⟩ := by
  have hchunks := makes_writeChunks env hslot hfits ⟨[], keysOut.map fun _ => []⟩
  simp only [Writer.append, List.length_nil, Option.map_map, Function.comp_def,
    List.nil_append] at hchunks
  exact (makes_createKeys env keysOut).bind
    (hchunks.bind ((makes_call env .flush _).bind (Effect.makes_nil rfl)))

/-! ### The files -/

/-- Nothing fails. -/
structure BuildEnv.Faultless (env : BuildEnv) : Prop where
  /-- Every call works. -/
  works : ∀ c, env.Works c
  /-- All of the keys file reaches it. -/
  keysKept : env.keysKept = none

/-- When nothing fails, what was handed over is in the files. -/
theorem writeFiles_eq_ok (henv : env.Faultless) {start : Writer} {body : Write ℕ} {total : ℕ}
    (hbody : body start = (.ok total, w)) (files : ViewFiles) (manifest : ℕ → Json.Value) :
    writeFiles env files start body manifest =
      (.ok (), ⟨some w.records.flatten, some (manifest total),
        w.keys.elim files.keys (some ∘ keysText)⟩) := by
  obtain ⟨records, keys⟩ := w
  simp only [writeFiles, henv.works .openView, hbody, henv.works .openManifest,
    henv.works .writeManifest]
  cases keys with
  | none => rfl
  | some keys => simp only [keysAfter, henv.keysKept, Option.elim_some, Function.comp_apply]

/-- A build returns only if what it writes to the view does. -/
theorem writeFiles_ok {files : ViewFiles} {start : Writer} {body : Write ℕ}
    {manifest : ℕ → Json.Value} (h : (writeFiles env files start body manifest).1 = .ok ()) :
    ∃ total t, body start = (.ok total, t) := by
  rw [writeFiles] at h
  split at h
  · cases h
  · split at h
    · cases h
    next total t hbody => exact ⟨total, t, hbody⟩

/-- When nothing fails, a view of whole grams is built. -/
theorem buildViewFromKeys_eq_ok (henv : env.Faultless) (hslot : RECORD_BYTES ≤ slotBytes.toNat)
    (hfits : Fits g keys) (hdvd : HEAD_W ∣ keys.length) (keysOut : Option String)
    (files : ViewFiles) :
    buildViewFromKeys env g keys slotBytes keysOut files =
      (.ok (), ⟨some (viewRecords g slotBytes keys).flatten,
        some (keysManifest slotBytes
          s!"provided-keys:{keys.length} shards={g.layout.shards}" keysOut
          keys.length), keysOut.elim files.keys fun _ => some (keysText keys)⟩) := by
  rw [buildViewFromKeys, if_neg (not_not_intro hdvd), writeFiles_eq_ok henv
    ((makes_writeKeysView env hslot hfits keysOut).returns fun c _ => henv.works c)]
  cases keysOut <;> rfl

/-- Nothing fails, and jobs finish in order. -/
def faultlessEnv : BuildEnv where
  sched _ := Schedule.inOrder _
  fails _ := none
  describe _ := ""
  viewKept := 0
  keysKept := none

/-- In this environment every call works. -/
theorem faultless_faultlessEnv : faultlessEnv.Faultless := ⟨fun _ => rfl, rfl⟩

/-- A table of one row of 160 sevens. -/
def sevens : BadgeGather where
  layout := Layout.new 1 1 160 1
  files := [List.replicate 160 7]
  backend := preadvBackend fullPread
  files_length := rfl

/-- Every number of the only row can be gathered. -/
theorem fits_sevens (n : ℕ) : Fits sevens (List.replicate n 0) where
  width_eq := rfl
  width_le := by decide
  badgeRows_pos := by decide
  inRange k hk := by
    rw [List.eq_of_mem_replicate hk]
    decide

end View

end EngramDB
