import EngramDB.Io.Batch.ShortReads
import EngramDB.Serve.Crashes

/-!
# Rows of a fetch

A client pairs the rows of a response with the entries of the array it sent, by position
(`RowsNamed`). The server leaves out the entries that are not unsigned integers, so an array with
such an entry is answered with fewer rows. `fetch_rows_iff` says exactly when every answer to a
fetch is an error or the rows that the entries name.
-/

namespace EngramDB

open Json SlotBuffer

namespace Serve

/-- The bytes are the row of the table that a value names: the row of that number, which the file of
its shard has in full. -/
def NamesRow (files : TableDir) (L : Layout) (v : Value) (row : Bytes) : Prop :=
  ∃ k : UInt64, v.asU64 = some k ∧ L.InRange k.toNat ∧
    ∃ f, files.file (k.toNat / L.rowsPerShard) = some f ∧
      k.toNat % L.rowsPerShard * L.rowBytes + L.rowBytes ≤ f.length ∧
      row = slot L.rowBytes f (k.toNat % L.rowsPerShard)

/-- The bytes are the rows that the entries of an array name, one after another. -/
structure RowsNamed (files : TableDir) (L : Layout) (vs : List Value) (payload : Bytes) : Prop where
  /-- There are `width` bytes for each entry. -/
  length_eq : payload.length = vs.length * L.width
  /-- Each entry has its row in its place. -/
  row : ∀ i v, vs[i]? = some v → NamesRow files L v (slot L.width payload i)

/-- The bytes are the rows that a request asks for. -/
def AnswersRows (srv : Server) (req : Value) (vs : List Value) (payload : Bytes) : Prop :=
  ∃ entry L rowids, resolve srv req = .ok (entry, L, rowids) ∧ RowsNamed entry.files L vs payload

/-- The answer to `fetch` is an error, or a response with the rows as text. -/
def FetchRight (srv : Server) (req : Value) (vs : List Value) : Outcome String Value → Prop
  | .ok resp => (∃ e, resp = errorResponse e) ∨
      ∃ text payload, resp.get "raw_base64" = some (.string text) ∧
        Base64.decode text.toList = some payload ∧ AnswersRows srv req vs payload
  | .error _ => False

/-- The answer to `fetch_raw` is an error, or the rows. -/
def FetchRawRight (srv : Server) (req : Value) (vs : List Value) :
    Outcome String (UInt8 × Bytes) → Prop
  | .ok r => (∃ e, r = binaryError srv e) ∨ (r.1 = KIND_RAW ∧ AnswersRows srv req vs r.2)
  | .error _ => False

/-- The row ids that the server takes from an array. -/
def rowidsOf (vs : List Value) : List ℕ := (vs.filterMap Value.asU64).map UInt64.toNat

/-- What a fetch from a table with all its files must be like, besides that it fits. -/
structure TableServes (files : TableDir) (L : Layout) (backend : IoBackend) (vs : List Value) :
    Prop where
  /-- Every entry is an unsigned integer. -/
  numbers : ∀ v ∈ vs, v.asU64.isSome
  /-- A row is `width` bytes long. -/
  rowBytes_eq : L.rowBytes = L.width
  /-- The bytes of every row are delivered. -/
  delivered : ∀ g, BadgeGather.openWithBackend files L backend = .ok g →
    g.AllDelivered (rowidsOf vs)

/-- What a fetch must be like, unless it is refused. -/
def RowsServed (srv : Server) (backend : IoBackend) (req : Value) (vs : List Value) : Prop :=
  ∀ entry L rowids, resolve srv req = .ok (entry, L, rowids) →
    Fits srv entry.files L rowids ∧
      ((∀ i < L.shards, (entry.files.file i).isSome) → TableServes entry.files L backend vs)

section Gather

variable {srv : Server} {files : TableDir} {L : Layout} {backend : IoBackend} {vs : List Value}

/-- The file of a shard of an open table (`hopen`) is the file that the directory has (`hf`). -/
theorem getD_files_of_open {g : BadgeGather}
    (hopen : BadgeGather.openWithBackend files L backend = .ok g) {i : ℕ} {f : Bytes}
    (hi : i < L.shards) (hf : files.file i = some f) : g.files.getD i [] = f := by
  rw [BadgeGather.openWithBackend] at hopen
  split_ifs at hopen
  cases hopen
  simp [List.getD, hi, hf]

theorem layout_of_open {g : BadgeGather}
    (hopen : BadgeGather.openWithBackend files L backend = .ok g) : g.layout = L := by
  rw [BadgeGather.openWithBackend] at hopen
  split_ifs at hopen
  cases hopen
  rfl

/-- An open table (`hopen`) has the files of all its shards (`hi`). -/
theorem file_of_open {g : BadgeGather}
    (hopen : BadgeGather.openWithBackend files L backend = .ok g) {i : ℕ} (hi : i < L.shards) :
    files.file i = some (g.files.getD i []) := by
  have hfiles : ∀ i < L.shards, (files.file i).isSome := by
    rw [BadgeGather.openWithBackend] at hopen
    split_ifs at hopen with hfiles
    exact hfiles
  obtain ⟨f, hf⟩ := Option.isSome_iff_exists.mp (hfiles i hi)
  rw [hf, getD_files_of_open hopen hi hf]

/-- When all entries are numbers, the row ids are the entries, one by one. -/
theorem getElem?_rowidsOf (hnum : ∀ v ∈ vs, v.asU64.isSome) (i : ℕ) :
    (rowidsOf vs)[i]? = vs[i]?.bind fun v => v.asU64.map UInt64.toNat := by
  induction vs generalizing i with
  | nil => simp [rowidsOf]
  | cons v vs ih =>
    obtain ⟨k, hk⟩ := Option.isSome_iff_exists.mp (hnum v (by simp))
    have hrest := ih (fun u hu => hnum u (by simp [hu]))
    rw [rowidsOf, List.filterMap_cons_some hk, List.map_cons, ← rowidsOf]
    cases i with
    | zero => simp [hk]
    | succ i => simpa using hrest i

theorem length_rowidsOf (hnum : ∀ v ∈ vs, v.asU64.isSome) : (rowidsOf vs).length = vs.length := by
  rw [rowidsOf, List.length_map]
  exact (Value.filterMap_asU64_length_eq_iff vs).mpr hnum

/-- A row of an open table is named by a number iff it matches its file. -/
theorem namesRow_iff_rowMatches {g : BadgeGather}
    (hopen : BadgeGather.openWithBackend files L backend = .ok g) {v : Value} {k : UInt64}
    (hv : v.asU64 = some k) (hk : L.InRange k.toNat) (payload : Bytes) (i : ℕ) :
    NamesRow files L v (slot L.width payload i) ↔ g.RowMatches payload i k.toNat := by
  have hfile := file_of_open hopen hk.shard_lt
  have hlayout := layout_of_open hopen
  rw [BadgeGather.RowMatches, BadgeGather.storedRow, BadgeGather.fileRow, BadgeGather.byteOff,
    hlayout]
  constructor
  · rintro ⟨k', hv', -, f, hf, hle, hrow⟩
    rw [hv, Option.some.injEq] at hv'
    subst hv'
    rw [hfile, Option.some.injEq] at hf
    rw [hf]
    exact ⟨hle, hrow⟩
  · rintro ⟨hle, hrow⟩
    exact ⟨k, hv, hk, _, hfile, hle, hrow⟩

/-- The offset of a row that its file has does not wrap. -/
theorem offsetFits_of_rowMatches {g : BadgeGather}
    (hlt : ∀ {i f}, files.file i = some f → f.length < 2 ^ 63)
    (hopen : BadgeGather.openWithBackend files L backend = .ok g) {k : ℕ} (hk : L.InRange k)
    {payload : Bytes} {i : ℕ} (h : g.RowMatches payload i k) : g.OffsetFits k := by
  have hfile := hlt (file_of_open hopen hk.shard_lt)
  have hle := h.1
  rw [layout_of_open hopen] at hle
  rw [BadgeGather.OffsetFits]
  omega

/-- The rows that entries name are those of numbers, `rowBytes` bytes each, and as long as they are
handed out. -/
theorem RowsNamed.rowBytes_eq {payload : Bytes} (h : RowsNamed files L vs payload) (hne : vs ≠ [])
    : L.rowBytes = L.width := by
  have hpos := List.length_pos_iff.mpr hne
  obtain ⟨k, -, -, f, -, hle, hrow⟩ := h.row 0 vs[0] (List.getElem?_eq_getElem hpos)
  have hwide : (slot L.width payload 0).length = L.width :=
    length_slot (by rw [h.length_eq]; exact Nat.mul_le_mul_right _ hpos)
  rw [hrow, length_slot (by rw [Nat.succ_mul]; exact hle)] at hwide
  exact hwide

theorem RowsNamed.numbers {payload : Bytes} (h : RowsNamed files L vs payload) :
    ∀ v ∈ vs, v.asU64.isSome := by
  intro v hv
  obtain ⟨i, hi⟩ := List.mem_iff_getElem?.mp hv
  obtain ⟨k, hk, -⟩ := h.row i v hi
  rw [hk]
  rfl

/-- The rows of numbers in range are named iff they match their files. -/
theorem rows_iff_rowMatches {g : BadgeGather}
    (hopen : BadgeGather.openWithBackend files L backend = .ok g)
    (hnum : ∀ v ∈ vs, v.asU64.isSome) (hrange : ∀ k ∈ rowidsOf vs, L.InRange k) (payload : Bytes) :
    (∀ i v, vs[i]? = some v → NamesRow files L v (slot L.width payload i)) ↔
      ∀ i k, (rowidsOf vs)[i]? = some k → g.RowMatches payload i k := by
  constructor
  · intro h i k hi
    have hk := hrange k (List.mem_of_getElem? hi)
    rw [getElem?_rowidsOf hnum, Option.bind_eq_some_iff] at hi
    obtain ⟨v, hv, hmap⟩ := hi
    obtain ⟨n, hn, rfl⟩ := Option.map_eq_some_iff.mp hmap
    exact (namesRow_iff_rowMatches hopen hn hk payload i).mp (h i v hv)
  · intro h i v hv
    obtain ⟨n, hn⟩ := Option.isSome_iff_exists.mp (hnum v (List.mem_of_getElem? hv))
    have hi : (rowidsOf vs)[i]? = some n.toNat := by
      rw [getElem?_rowidsOf hnum, hv, Option.bind_some, hn]
      rfl
    exact (namesRow_iff_rowMatches hopen hn (hrange _ (List.mem_of_getElem? hi)) payload i).mpr
      (h i _ hi)

/-- The rows of a table are answered, and they are the ones that the entries name iff the table
serves them. -/
theorem gatherRows_named_iff (backend : IoBackend) (hL : Layout64 L)
    (hlt : ∀ {i f}, files.file i = some f → f.length < 2 ^ 63)
    (hfiles : ∀ i < L.shards, (files.file i).isSome) (hfits : Fits srv files L (rowidsOf vs))
    (sched : Schedule JobResult) :
    ∃ payload, gatherRows srv ⟨backend, sched⟩ files L (rowidsOf vs) = .ok payload ∧
      (RowsNamed files L vs payload ↔ TableServes files L backend vs) := by
  obtain ⟨g, hg, hopen, hgather⟩ :=
    gatherRows_eq_gather ⟨backend, sched⟩ hfits.descriptors hfiles (hfits.out hfiles)
  obtain ⟨-, -, hbadge⟩ := hg ▸ hL.bounds
  have hreq := hfits.gather hfiles g hg
  rw [← List.length_replicate (n := wordMul (rowidsOf vs).length L.width)
    (a := (0 : UInt8))] at hreq
  have hlen : (List.replicate (wordMul (rowidsOf vs).length L.width) (0 : UInt8)).length =
      wordMul (rowidsOf vs).length g.layout.width := by rw [List.length_replicate, hg]
  have hout :
      (List.replicate (wordMul (rowidsOf vs).length L.width) (0 : UInt8)).length < 2 ^ 63 := by
    rw [List.length_replicate]
    exact srv.memory.lt_of_allocates (hfits.out hfiles)
  obtain ⟨payload, hok⟩ := hreq.gatherPp64_eq_ok hbadge hlen hout sched
  have hrange : ∀ k ∈ rowidsOf vs, L.InRange k := hg ▸ hreq.inRange
  have hexact := hreq.length_out hlen
  refine ⟨payload, by rw [hgather, hok]; rfl, ?_⟩
  -- when rows are `width` bytes and in their files, this is the gather with natural numbers
  have hsame : g.layout.width = g.layout.rowBytes →
      ∃ rows, rows.length = (rowidsOf vs).length * g.layout.width ∧
        ((∀ i k, (rowidsOf vs)[i]? = some k → g.RowMatches rows i k) ↔
          g.AllDelivered (rowidsOf vs)) ∧
        ((∀ k ∈ rowidsOf vs, g.OffsetFits k) → payload = rows) := by
    intro hwidth
    obtain ⟨rows, hrows, hrowsLen, hmatches⟩ := BadgeGather.gatherPp_matches_iff sched hreq.nonempty
      hreq.inRange hbadge hwidth hexact DEFAULT_GATHER_THREADS
    refine ⟨rows, hrowsLen, hmatches, fun hoff => ?_⟩
    rw [BadgeGather.gatherPp64_eq_gatherPp hreq hbadge hout hoff, hrows] at hok
    exact (Except.ok.inj hok).symm
  constructor
  · intro hnamed
    have hnum := hnamed.numbers
    have hne : vs ≠ [] := by
      rintro rfl
      exact hreq.nonempty rfl
    have hrb := hnamed.rowBytes_eq hne
    have hmatch := (rows_iff_rowMatches hopen hnum hrange payload).mp hnamed.row
    obtain ⟨rows, -, hiff, heq⟩ := hsame (by rw [hg, hrb])
    have hrows : payload = rows := by
      refine heq fun k hk => ?_
      obtain ⟨i, hi⟩ := List.mem_iff_getElem?.mp hk
      exact offsetFits_of_rowMatches hlt hopen (hrange k hk) (hmatch i k hi)
    refine ⟨hnum, hrb, fun g' hopen' => ?_⟩
    rw [hopen, Except.ok.injEq] at hopen'
    rw [← hopen', ← hiff, ← hrows]
    exact hmatch
  · intro hserves
    obtain ⟨rows, hrowsLen, hiff, heq⟩ := hsame (by rw [hg, hserves.rowBytes_eq])
    have hmatch := hiff.mpr (hserves.delivered g hopen)
    have hrows : payload = rows := by
      refine heq fun k hk => ?_
      obtain ⟨i, hi⟩ := List.mem_iff_getElem?.mp hk
      exact offsetFits_of_rowMatches hlt hopen (hrange k hk) (hmatch i k hi)
    rw [hrows]
    refine ⟨?_, (rows_iff_rowMatches hopen hserves.numbers hrange rows).mpr hmatch⟩
    rw [hrowsLen, length_rowidsOf hserves.numbers, hg]

end Gather

section Responses

variable {srv : Server} {backend : IoBackend} {req : Value} {vs : List Value} {turn : Turn}

/-- A fetch returns an error, or the rows that a request asks for. -/
def RowsRight (srv : Server) (req : Value) (vs : List Value) : Outcome String (Bytes × ℕ) → Prop
  | .ok r => AnswersRows srv req vs r.1
  | .error (.error _) => True
  | .error .panic => False

/-- The row ids of a request that is not refused. -/
theorem rowids_of_resolve (hvs : (req.get "rowids").bind Value.asArray = some vs)
    {entry : TableEntry} {L : Layout} {rowids : List ℕ}
    (h : resolve srv req = .ok (entry, L, rowids)) : rowids = rowidsOf vs := by
  obtain ⟨table, -, h⟩ := Except.bind_eq_ok_iff.mp h
  split at h
  · cases h
  · obtain ⟨L', -, h⟩ := Except.bind_eq_ok_iff.mp h
    obtain ⟨ids, hids, h⟩ := Except.bind_eq_ok_iff.mp h
    rw [requestRowids, hvs] at hids
    cases hids
    cases h
    rfl

/-- The rows of a request that is not refused (`h`) are those of the gather, with the width of the
layout. -/
theorem fetchRawTable_of_resolve {entry : TableEntry} {L : Layout} {rowids : List ℕ}
    (h : resolve srv req = .ok (entry, L, rowids)) :
    fetchRawTable srv turn req =
      (gatherRows srv turn entry.files L rowids).map fun out => (out, L.width) := by
  rw [fetchRawTable, h]
  simp only [Outcome.ofExcept_ok, bind, Except.bind]
  cases gatherRows srv turn entry.files L rowids <;> rfl

/-- No schedule makes a fetch return anything but an error or the rows asked for iff the request is
refused or served. -/
theorem rowsRight_iff (hvs : (req.get "rowids").bind Value.asArray = some vs) :
    (∀ sched, RowsRight srv req vs (fetchRawTable srv ⟨backend, sched⟩ req)) ↔
      RowsServed srv backend req vs := by
  constructor
  · intro hright entry L rowids hresolve
    have hids := rowids_of_resolve hvs hresolve
    have hL := layout64_of_resolve hresolve
    -- a request that does not fit panics, and a panic is not a right answer
    have hfits : Fits srv entry.files L rowids := by
      refine rowsFit_of_fetchRawTable backend (fun hpanic => ?_) _ _ _ hresolve
      have hno := hright (Schedule.inOrder _)
      rwa [hpanic] at hno
    refine ⟨hfits, fun hfiles => ?_⟩
    subst hids
    -- one schedule is enough to see which rows are served
    obtain ⟨payload, hrows, hiff⟩ := gatherRows_named_iff backend hL entry.length_lt
      hfiles hfits (Schedule.inOrder _)
    have hanswer := hright (Schedule.inOrder _)
    rw [fetchRawTable_of_resolve hresolve, hrows] at hanswer
    obtain ⟨entry', L', rowids', hresolve', hnamed⟩ := hanswer
    rw [hresolve, Except.ok.injEq, Prod.mk.injEq, Prod.mk.injEq] at hresolve'
    obtain ⟨rfl, rfl, -⟩ := hresolve'
    exact hiff.mp hnamed
  · intro hserved sched
    -- a request that names no table is answered with an error, as is one whose files are missing
    cases hresolve : resolve srv req with
    | error e =>
      rw [fetchRawTable, hresolve]
      trivial
    | ok r =>
      obtain ⟨entry, L, rowids⟩ := r
      obtain ⟨hfits, hserves⟩ := hserved entry L rowids hresolve
      have hids := rowids_of_resolve hvs hresolve
      subst hids
      rw [fetchRawTable_of_resolve hresolve]
      by_cases hfiles : ∀ i < L.shards, (entry.files.file i).isSome
      · obtain ⟨payload, hrows, hiff⟩ := gatherRows_named_iff backend
          (layout64_of_resolve hresolve) entry.length_lt hfiles hfits sched
        rw [hrows]
        exact ⟨entry, L, _, hresolve, hiff.mpr (hserves hfiles)⟩
      · rw [gatherRows_eq_error hfits.descriptors hfiles]
        trivial

/-- A request whose rows are fetched names a table and has an array of row ids. -/
theorem request_of_fetchRawTable {r : Bytes × ℕ} (h : fetchRawTable srv turn req = .ok r) :
    ∃ table rowids, requestTable req = .ok table ∧ requestRowids req = .ok rowids := by
  cases hresolve : resolve srv req with
  | error e =>
    rw [fetchRawTable, hresolve] at h
    cases h
  | ok r =>
    obtain ⟨table, htable, hrest⟩ := Except.bind_eq_ok_iff.mp hresolve
    split at hrest
    · cases hrest
    · obtain ⟨L, -, hrest⟩ := Except.bind_eq_ok_iff.mp hrest
      obtain ⟨rowids, hrowids, -⟩ := Except.bind_eq_ok_iff.mp hrest
      exact ⟨table, rowids, htable, hrowids⟩

/-- The response to `fetch` is right iff the rows are. -/
private theorem fetchRight_iff (hcmd : requestCmd req = "fetch") :
    FetchRight srv req vs (handleRequest srv turn req) ↔
      RowsRight srv req vs (fetchRawTable srv turn req) := by
  have hhandle : handleRequest srv turn req = respond errorResponse (fetchTable srv turn req) := by
    simp only [handleRequest, hcmd]
  rw [hhandle, fetchTable]
  cases hraw : fetchRawTable srv turn req with
  | error fault =>
    cases fault with
    | panic => exact Iff.rfl
    | error e => exact iff_of_true (.inl ⟨e, rfl⟩) trivial
  | ok r =>
    obtain ⟨raw, width⟩ := r
    obtain ⟨table, rowids, htable, hrowids⟩ := request_of_fetchRawTable hraw
    simp only [htable, hrowids, Outcome.ofExcept_ok, bind, Except.bind, pure, Except.pure, respond]
    constructor
    · rintro (⟨e, he⟩ | ⟨text, payload, htext, hdecode, hrows⟩)
      · -- the first fields differ
        simp [errorResponse] at he
      · cases htext
        rw [String.toList_ofList, decode_base64Encode, Option.some.injEq] at hdecode
        exact hdecode ▸ hrows
    · refine fun hrows => .inr ⟨_, raw, rfl, ?_, hrows⟩
      rw [String.toList_ofList, decode_base64Encode]

/-- The response to `fetch_raw` is right iff the rows are. -/
private theorem fetchRawRight_iff (hcmd : requestCmd req = "fetch_raw") :
    FetchRawRight srv req vs (binaryDispatch srv turn req) ↔
      RowsRight srv req vs (fetchRawTable srv turn req) := by
  have hdispatch : binaryDispatch srv turn req =
      respond (binaryError srv) ((fetchRawTable srv turn req).map fun r => (KIND_RAW, r.1)) := by
    simp only [binaryDispatch, hcmd]
  rw [hdispatch]
  cases fetchRawTable srv turn req with
  | error fault =>
    cases fault with
    | panic => exact Iff.rfl
    | error e => exact iff_of_true (.inl ⟨e, rfl⟩) trivial
  | ok r =>
    constructor
    · rintro (⟨e, he⟩ | ⟨-, hrows⟩)
      · -- the kinds differ
        exact absurd (congrArg Prod.fst he) (by decide : KIND_RAW ≠ KIND_JSON)
      · exact hrows
    · exact fun hrows => .inr ⟨rfl, hrows⟩

end Responses

/-- For a request whose row ids are an array `vs` (`hvs`), no schedule makes the answer to a `fetch`
or a `fetch_raw` anything but an error or the rows that its entries name, iff the request is refused
or served: entries that are no numbers of 64 bits are left out without an error. -/
theorem fetch_rows_iff {srv : Server} {req : Value} {vs : List Value}
    (hvs : (req.get "rowids").bind Value.asArray = some vs) (backend : IoBackend) :
    (requestCmd req = "fetch" →
      ((∀ sched, FetchRight srv req vs (handleRequest srv ⟨backend, sched⟩ req)) ↔
        RowsServed srv backend req vs)) ∧
    (requestCmd req = "fetch_raw" →
      ((∀ sched, FetchRawRight srv req vs (binaryDispatch srv ⟨backend, sched⟩ req)) ↔
        RowsServed srv backend req vs)) := by
  constructor
  · intro hcmd
    rw [← rowsRight_iff hvs]
    exact forall_congr' fun sched => fetchRight_iff hcmd
  · intro hcmd
    rw [← rowsRight_iff hvs]
    exact forall_congr' fun sched => fetchRawRight_iff hcmd

/-- A request for row `-1` and row `0`. -/
def negativeRow : Value :=
  .object [("cmd", .string "fetch_raw"), ("table", .string "t"),
    ("rowids", .array [.negInt (-1), .posInt 0])]

theorem fetch_rows_iff_negativeRow :
    (requestCmd negativeRow = "fetch" →
      ((∀ sched, FetchRight oneRowServer negativeRow [.negInt (-1), .posInt 0]
        (handleRequest oneRowServer ⟨preadvBackend fullPread, sched⟩ negativeRow)) ↔
        RowsServed oneRowServer (preadvBackend fullPread) negativeRow [.negInt (-1), .posInt 0])) ∧
    (requestCmd negativeRow = "fetch_raw" →
      ((∀ sched, FetchRawRight oneRowServer negativeRow [.negInt (-1), .posInt 0]
        (binaryDispatch oneRowServer ⟨preadvBackend fullPread, sched⟩ negativeRow)) ↔
        RowsServed oneRowServer (preadvBackend fullPread) negativeRow
          [.negInt (-1), .posInt 0])) :=
  fetch_rows_iff (by rfl) (preadvBackend fullPread)

/-- The answer to that request is row `0` alone. -/
theorem not_fetchRawRight_negativeRow :
    binaryDispatch oneRowServer ⟨preadvBackend fullPread, Schedule.inOrder _⟩ negativeRow =
      .ok (KIND_RAW, [7]) ∧
    ¬ FetchRawRight oneRowServer negativeRow [.negInt (-1), .posInt 0]
      (binaryDispatch oneRowServer ⟨preadvBackend fullPread, Schedule.inOrder _⟩ negativeRow) := by
  have hrun : binaryDispatch oneRowServer ⟨preadvBackend fullPread, Schedule.inOrder _⟩
      negativeRow = .ok (KIND_RAW, [7]) := by decide +kernel
  refine ⟨hrun, ?_⟩
  rw [hrun]
  rintro (⟨e, he⟩ | ⟨-, entry, L, rowids, hresolve, hnamed⟩)
  · exact absurd (congrArg Prod.fst he) (by decide : KIND_RAW ≠ KIND_JSON)
  · -- `-1` is not the number of a row
    obtain ⟨k, hk, -⟩ := hnamed.row 0 _ rfl
    cases hk

end Serve

end EngramDB
