import EngramDB.Cli.View.Verified
import EngramDB.Serve.Checked

/-!
# Serving a view that is published

`view_read` answers with a record of a view, `fetch` with rows of a table. When `view build` has
published the view of a table, both say the same about every gram (`viewRead_eq_fetch`).
-/

namespace EngramDB

open Json SlotBuffer View

namespace Serve

/-- Open a view and read a record into a buffer of the width of a slot. -/
def readViewRecord (os : Pread) (describe : IoError → String) (files : ViewFiles) (index : ℕ) :
    Except String Bytes := do
  let reader ← (ViewReader.openFiles files).mapError describe
  let (result, buf) := reader.readRecord os index (List.replicate reader.slotBytes.toNat 0)
  let n ← result.mapError describe
  pure (buf.take n)

/-- The index of a request. One that is not an unsigned integer counts as zero. -/
def requestIndex (req : Value) : ℕ := (((req.get "index").bind Value.asU64).getD 0).toNat

/-- The record that a request asks for. Memory for a slot is taken to be there. -/
def viewReadOf (os : Pread) (describe : IoError → String) (disk : Cli.Disk) (req : Value) :
    Except String Bytes :=
  match (req.get "path").bind Value.asStr with
  | some path => readViewRecord os describe (disk.viewFiles path) (requestIndex req)
  | none => .error "view_read requires path"

/-- The response to `view_read` carries these bytes, in the frame or as text. -/
def CarriesRecord (srv : Server) (turn : Turn) (req : Value) (record : Bytes) : Prop :=
  binaryDispatch srv turn req = .ok (KIND_RAW, record) ∧
    ∃ resp text, handleRequest srv turn req = .ok resp ∧
      resp.get "slot_base64" = some (.string text) ∧ Base64.decode text.toList = some record

/-- The response is this error. -/
def CarriesError (srv : Server) (turn : Turn) (req : Value) (e : String) : Prop :=
  binaryDispatch srv turn req = .ok (binaryError srv e) ∧
    handleRequest srv turn req = .ok (errorResponse e)

variable {srv : Server} {turn : Turn} {req : Value} {os : Pread} {g : BadgeGather}

/-! ### Records -/

/-- A record that exists (`hi`), in a view that opens (`hopen`) and whose reads deliver (`hos`), is
read in full. -/
private theorem readViewRecord_eq_ok (hos : os.Delivers) {describe : IoError → String}
    {files : ViewFiles}
    {r : ViewReader} {i : ℕ} (hopen : ViewReader.openFiles files = .ok r) (hi : i < r.count) :
    readViewRecord os describe files i = .ok (r.record i) := by
  have hpos := ViewReader.slotBytes_pos hi
  have hbuf : 0 < (List.replicate r.slotBytes.toNat (0 : UInt8)).length := by
    rwa [List.length_replicate]
  have hread := ViewReader.readRecord_of_delivers hos hi hbuf
  rw [List.length_replicate, Nat.min_self, List.drop_replicate, Nat.sub_self, List.replicate_zero,
    List.append_nil] at hread
  simp only [readViewRecord, hopen, Except.mapError, Except.ok_bind, hread]
  show Except.ok (List.take _ (List.take _ _)) = _
  rw [List.take_take, Nat.min_self, List.take_of_length_le]
  rw [ViewReader.record, slot]
  exact List.length_take_le _ _

/-- A record that does not exist (`hi`) in a view that opens (`hopen`) is an error that names its
number. -/
private theorem readViewRecord_eq_error {describe : IoError → String} {files : ViewFiles}
    {r : ViewReader} {i : ℕ} (hopen : ViewReader.openFiles files = .ok r) (hi : r.count ≤ i) :
    readViewRecord os describe files i = .error (describe (r.outOfRange i)) := by
  simp only [readViewRecord, hopen, Except.mapError, Except.ok_bind, ViewReader.readRecord,
    if_pos hi]
  rfl

/-- A request for a record of a view. -/
structure AsksRecord (req : Value) (view : String) (index : ℕ) : Prop where
  /-- The command. -/
  cmd_eq : requestCmd req = "view_read"
  /-- The view. -/
  path_eq : (req.get "path").bind Value.asStr = some view
  /-- The record. -/
  index_eq : requestIndex req = index

/-- The response to a request for a record (`h`) that was read (`hread`) has the bytes of the
record. -/
private theorem AsksRecord.carriesRecord {disk : Cli.Disk} {view : String} {i : ℕ} {record : Bytes}
    (h : AsksRecord req view i) (hview : srv.viewRead = viewReadOf os srv.describe disk)
    (hread : readViewRecord os srv.describe (disk.viewFiles view) i = .ok record) (turn : Turn) :
    CarriesRecord srv turn req record := by
  have hrecord : srv.viewRead req = .ok record := by
    rw [hview, viewReadOf, h.path_eq, h.index_eq]
    exact hread
  have hhandle : handleRequest srv turn req = .ok (.object [("ok", .bool true),
      ("index", .posInt (((req.get "index").bind Value.asU64).getD 0)),
      ("slot_base64", .string (String.ofList (base64Encode record)))]) := by
    simp only [handleRequest, h.cmd_eq, h.path_eq, hrecord]
    rfl
  refine ⟨?_, _, _, hhandle, rfl, ?_⟩
  · simp only [binaryDispatch, h.cmd_eq, h.path_eq, hrecord]
    rfl
  · rw [String.toList_ofList, decode_base64Encode]

/-- The response to a request for a record (`h`) that could not be read (`hread`) has the text of
the error. -/
private theorem AsksRecord.carriesError {disk : Cli.Disk} {view : String} {i : ℕ} {e : String}
    (h : AsksRecord req view i) (hview : srv.viewRead = viewReadOf os srv.describe disk)
    (hread : readViewRecord os srv.describe (disk.viewFiles view) i = .error e) (turn : Turn) :
    CarriesError srv turn req e := by
  have herror : srv.viewRead req = .error e := by
    rw [hview, viewReadOf, h.path_eq, h.index_eq]
    exact hread
  constructor
  · simp only [binaryDispatch, h.cmd_eq, h.path_eq, herror]
    rfl
  · simp only [handleRequest, h.cmd_eq, h.path_eq, herror]
    rfl

/-! ### Rows -/

private theorem rowidsOf_map_posInt (keys : List UInt64) :
    rowidsOf (keys.map .posInt) = keys.map UInt64.toNat := by
  rw [rowidsOf, List.filterMap_map]
  congr 1
  exact (List.filterMap_congr fun _ _ => rfl).trans List.filterMap_some

/-- Rows that are named by numbers are the stored rows. -/
private theorem RowsNamed.eq_gramRows {files : TableDir} {L : Layout} {backend : IoBackend}
    {keys : List UInt64} {payload : Bytes} (h : RowsNamed files L (keys.map .posInt) payload)
    (hopen : BadgeGather.openWithBackend files L backend = .ok g)
    (hserves : View.Serves g (keys.map UInt64.toNat)) :
    payload = gramRows g (keys.map UInt64.toNat) := by
  have hlayout := layout_of_open hopen
  have hwidth : L.width = L.rowBytes := hlayout ▸ hserves.width_eq_rowBytes
  have hwide : ∀ p ∈ (keys.map UInt64.toNat).map g.storedRow, p.length = L.width := by
    intro p hp
    obtain ⟨k, hk, rfl⟩ := List.mem_map.mp hp
    rw [BadgeGather.length_storedRow (hserves.holds k hk), hlayout, hwidth]
  refine ext_slots h.length_eq ?_ fun i hi => ?_
  · rw [gramRows, length_flatten hwide, List.length_map, List.length_map, List.length_map]
  · rw [List.length_map] at hi
    have hkey : keys[i]? = some keys[i] := List.getElem?_eq_getElem hi
    obtain ⟨k, hk, hrange, f, hf, -, hrow⟩ := h.row i (.posInt keys[i])
      (by rw [List.getElem?_map, hkey]; rfl)
    obtain rfl := Option.some.inj hk
    have hstored : slot L.width (gramRows g (keys.map UInt64.toNat)) i =
        g.storedRow keys[i].toNat :=
      slot_flatten hwide (by rw [List.getElem?_map, List.getElem?_map, hkey]; rfl)
    rw [hrow, hstored, BadgeGather.storedRow, BadgeGather.fileRow, hlayout,
      getD_files_of_open hopen hrange.shard_lt hf]

/-- A request that resolves to some keys (`hresolve`) of a table that serves them (`hserves`) is
answered with their rows, if memory lasts for them (`hlasts`). -/
private theorem fetchRawTable_eq_gramRows {entry : TableEntry} {L : Layout}
    {keys : List UInt64} (hresolve : resolve srv req = .ok (entry, L, keys.map UInt64.toNat))
    (hopen : BadgeGather.openWithBackend entry.files L (preadvBackend os) = .ok g)
    (hserves : View.Serves g (keys.map UInt64.toNat)) (hne : keys ≠ [])
    (hlasts : Lasts srv.memory L keys.length) (sched : Schedule JobResult) :
    fetchRawTable srv ⟨preadvBackend os, sched⟩ req =
      .ok (gramRows g (keys.map UInt64.toNat), L.width) := by
  have hlayout := layout_of_open hopen
  have hids := rowidsOf_map_posInt keys
  have hnum : ∀ v ∈ keys.map Value.posInt, v.asU64.isSome := by
    intro v hv
    obtain ⟨k, -, rfl⟩ := List.mem_map.mp hv
    rfl
  have hne' : keys.map UInt64.toNat ≠ [] := fun h => hne (List.map_eq_nil_iff.mp h)
  have hwidth : L.width = L.rowBytes := hlayout ▸ hserves.width_eq_rowBytes
  -- nothing in the gather can panic, and all its rows are delivered
  have hfits : Fits srv entry.files L (keys.map UInt64.toNat) :=
    Lasts.fits (by rwa [List.length_map]) hne' (hlayout ▸ hserves.inRange) (Nat.le_of_eq hwidth)
  have hfiles : ∀ i < L.shards, (entry.files.file i).isSome := by
    intro i hi
    rw [file_of_open hopen hi]
    rfl
  rw [← hids] at hfits
  obtain ⟨payload, hrows, hnamed⟩ := gatherRows_named_iff (preadvBackend os)
    (layout64_of_resolve hresolve) entry.length_lt hfiles hfits sched
  have hnamed : RowsNamed entry.files L (keys.map .posInt) payload := by
    refine hnamed.mpr ⟨hnum, hwidth.symm, fun g' hg' => ?_⟩
    obtain rfl := Except.ok.inj (hopen.symm.trans hg')
    rw [hids]
    exact allDelivered_of_full hserves.full hserves.badgeRows_pos hserves.width_eq_rowBytes hne'
      fun k hk => ⟨hserves.inRange k hk, hserves.holds k hk⟩
  rw [hids, hnamed.eq_gramRows hopen hserves] at hrows
  rw [fetchRawTable_of_resolve hresolve, hrows]
  rfl

/-! ### Rows and records -/

/-- A server of a table and of views on a disk. -/
structure ServesDisk (srv : Server) (os : Pread) (disk : Cli.Disk) (rowsDir table : String)
    (entry : TableEntry) : Prop where
  /-- The table is there. -/
  root_eq : srv.root table = some entry
  /-- Its files are those in the directory. -/
  files_eq : entry.files = disk.table rowsDir
  /-- Views are read from the disk. -/
  viewRead_eq : srv.viewRead = viewReadOf os srv.describe disk

/-- A request for the rows of a gram, with the layout that the table was built with. -/
structure AsksGram (req : Value) (disk : Cli.Disk) (rowsDir table : String) (entry : TableEntry)
    (L : Layout) (gram : List UInt64) : Prop where
  /-- The table. -/
  table_eq : requestTable req = .ok table
  /-- The rows. -/
  rowids_eq : requestRowids req = .ok gram
  /-- The layout, from the manifest or the request. -/
  layout_eq : resolveLayout entry.manifest req = .ok L
  /-- It is that of the files in the directory. -/
  layoutForDir_eq : Cli.layoutForDir rowsDir (disk.table rowsDir) = .ok L

/-- A table that opens is the same through another backend. -/
private theorem exists_open_of_openTable {env : Cli.ViewEnv} {disk : Cli.Disk} {rowsDir : String}
    {backend : Option String} {L : Layout} (h : Cli.openTable env disk rowsDir backend = .ok g)
    (hL : Cli.layoutForDir rowsDir (disk.table rowsDir) = .ok L) (b : IoBackend) :
    ∃ g' : BadgeGather, BadgeGather.openWithBackend (disk.table rowsDir) L b = .ok g' ∧
      g'.layout = g.layout ∧ g'.files = g.files ∧ g'.backend = b := by
  obtain ⟨layout, hlayout, h⟩ := Except.bind_eq_ok_iff.mp h
  obtain ⟨name, -, h⟩ := Except.bind_eq_ok_iff.mp h
  obtain rfl := Except.ok.inj (hlayout.symm.trans hL)
  rw [BadgeGather.openWithBackend] at h ⊢
  split_ifs at h ⊢
  · obtain rfl := Except.ok.inj h
    exact ⟨_, rfl, rfl, rfl, rfl⟩
  · cases h

/-- A table with the files of a whole one is whole, if no read is short. -/
private theorem intact_congr {g' : BadgeGather} (h : Intact g) (hlayout : g'.layout = g.layout)
    (hfiles : g'.files = g.files) (hfull : g'.backend.Full) : Intact g' where
  width_eq := hlayout ▸ h.width_eq
  width_eq_rowBytes := hlayout ▸ h.width_eq_rowBytes
  badgeRows_pos := hlayout ▸ h.badgeRows_pos
  full := hfull
  complete := by
    rw [BadgeGather.Complete, hlayout, hfiles]
    exact h.complete

/-- A request for a gram (`h`) of a table that the server has (`hroot`) resolves to the layout of
the table and the row ids of the gram. -/
theorem AsksGram.resolve_eq {disk : Cli.Disk} {rowsDir table : String} {entry : TableEntry}
    {L : Layout} {gram : List UInt64} (h : AsksGram req disk rowsDir table entry L gram)
    (hroot : srv.root table = some entry) :
    resolve srv req = .ok (entry, L, gram.map UInt64.toNat) := by
  simp only [resolve, h.table_eq, Except.ok_bind, hroot, h.layout_eq, h.rowids_eq]
  rfl

/-- The `i`-th record of a view that is published is what a fetch of the `i`-th gram of its keys
file answers, with zeros up to the width of the slots of the view as it is opened. The fetch has to
ask with the layout that the table was built with (`AsksGram`), and there has to be memory for the
rows of a gram. A record behind the last gram is an error. -/
theorem viewRead_eq_fetch (hos : os.Full) {disk : Cli.Disk} {rowsDir view keysOut table : String}
    {keys : List UInt64} {m : Json.Value} {entry : TableEntry} {viewRead : Value} {i : ℕ}
    (h : Cli.Published disk rowsDir view keysOut keys m)
    (hserver : ServesDisk srv os disk rowsDir table entry)
    (hview : AsksRecord viewRead view i) (turn : Turn) :
    ∃ r, ViewReader.openFiles (disk.viewFiles view) = .ok r ∧
      RECORD_BYTES ≤ r.slotBytes.toNat ∧
      (∀ gram, (slots HEAD_W keys)[i]? = some gram →
        ∀ fetch L, AsksGram fetch disk rowsDir table entry L gram → Lasts srv.memory L HEAD_W →
          ∀ sched, ∃ rows, rows.length = RECORD_BYTES ∧
            Carries srv ⟨preadvBackend os, sched⟩ fetch rows ∧
            CarriesRecord srv turn viewRead
              (rows ++ List.replicate (r.slotBytes.toNat - RECORD_BYTES) 0)) ∧
      (keys.length / HEAD_W ≤ i → ∃ e, CarriesError srv turn viewRead e) := by
  obtain ⟨env, backend, g, slotBytes, r, hopen, hintact, hserves, hslot, hreader, hshows⟩ := h.shows
  have hcount : r.count = keys.length / HEAD_W := by rw [hshows.count_eq, List.length_map]
  refine ⟨r, hreader, hshows.slotBytes_eq ▸ hslot, ?_, ?_⟩
  · intro gram hgram fetch L hfetch hlasts sched
    have hi : i < r.count := by
      rw [hcount, ← length_slots]
      exact (List.getElem?_eq_some_iff.mp hgram).1
    have hmem := List.mem_of_getElem? hgram
    have hlength : gram.length = HEAD_W := length_of_mem_slots hmem
    have hgramNat : (slots HEAD_W (keys.map UInt64.toNat))[i]? = some (gram.map UInt64.toNat) := by
      rw [slots_map, List.getElem?_map, hgram]
      rfl
    -- the table as the server opens it has the same rows
    obtain ⟨g', hopen', hlayout, hfiles, hbackend⟩ :=
      exists_open_of_openTable hopen hfetch.layoutForDir_eq (preadvBackend os)
    have hserves' : View.Serves g' (gram.map UInt64.toNat) := by
      refine (intact_congr hintact hlayout hfiles (hbackend ▸ preadvBackend_full hos)).serves ?_
      intro k hk
      rw [hlayout]
      have hcountNat : i < (keys.map UInt64.toNat).length / HEAD_W := by
        rwa [List.length_map, ← hcount]
      rw [getElem?_slots hcountNat] at hgramNat
      rw [← Option.some.inj hgramNat, slot] at hk
      exact hserves.inRange k (List.mem_of_mem_drop (List.mem_of_mem_take hk))
    have hraw := fetchRawTable_eq_gramRows (hfetch.resolve_eq hserver.root_eq)
      (hserver.files_eq ▸ hopen') hserves' (List.ne_nil_of_length_pos (by rw [hlength]; decide))
      (hlength.symm ▸ hlasts) sched
    have hread : readViewRecord os srv.describe (disk.viewFiles view) i = .ok (r.record i) :=
      readViewRecord_eq_ok hos.delivers hreader hi
    have hlen : (gramRows g (gram.map UInt64.toNat)).length = RECORD_BYTES :=
      hserves.length_gramRows (List.mem_of_getElem? hgramNat)
    rw [hshows.record_eq i _ hgramNat, padded, hlen, ← hshows.slotBytes_eq] at hread
    rw [Cli.gramRows_congr hlayout hfiles (gram.map UInt64.toNat)] at hraw
    exact ⟨_, hlen, carries_of_fetchRawTable hraw,
      hview.carriesRecord hserver.viewRead_eq hread turn⟩
  · intro hi
    exact ⟨_, hview.carriesError hserver.viewRead_eq
      (readViewRecord_eq_error hreader (hcount.trans_le hi)) turn⟩

private theorem length_lt_of_file {data : Bytes} (hdata : data.length < 2 ^ 63) {i : ℕ} {f : Bytes}
    (h : TableDir.file ⟨fun i => if i = 0 then some data else none, fun _ => none⟩ i = some f) :
    f.length < 2 ^ 63 := by
  by_cases hi : i = 0
  · simp only [TableDir.file, if_pos hi, Option.some.injEq] at h
    exact h ▸ hdata
  · simp [TableDir.file, hi] at h

/-- The table of sevens, without a manifest. -/
def sevensEntry : TableEntry where
  manifest := none
  files := Cli.sevensDir
  length_lt := length_lt_of_file (by rw [List.length_replicate]; decide)

/-- A server of this table, and of a view of it with one gram. -/
def oneGramServer : Server :=
  { oneRowServer with
    root := fun table => if table = "t" then some sevensEntry else none
    viewRead := viewReadOf fullPread (fun _ => "") Cli.oneGramDisk }

/-- A request for the gram, as rows of the table. -/
def gramRequest : Value :=
  .object [("cmd", .string "fetch_raw"), ("table", .string "t"),
    ("rowids", .array (List.replicate 16 (.posInt 0))), ("shards", .posInt 1),
    ("rows_per_shard", .posInt 2500012), ("width", .posInt 160)]

/-- A request for the gram, as a record of the view. -/
def recordRequest : Value :=
  .object [("cmd", .string "view_read"), ("path", .string "v.bin"), ("index", .posInt 0)]

theorem viewRead_eq_fetch_oneGramServer : ∃ r rows,
    ViewReader.openFiles (Cli.oneGramDisk.viewFiles "v.bin") = .ok r ∧
      Carries oneGramServer ⟨preadvBackend fullPread, Schedule.inOrder _⟩ gramRequest rows ∧
        CarriesRecord oneGramServer ⟨preadvBackend fullPread, Schedule.inOrder _⟩ recordRequest
          (rows ++ List.replicate (r.slotBytes.toNat - RECORD_BYTES) 0) := by
  have hserver : ServesDisk oneGramServer fullPread Cli.oneGramDisk "rows" "t" sevensEntry :=
    ⟨rfl, rfl, rfl⟩
  have hview : AsksRecord recordRequest "v.bin" 0 := ⟨rfl, rfl, rfl⟩
  have hfetch : AsksGram gramRequest Cli.oneGramDisk "rows" "t" sevensEntry
      (Layout.new 1 2500012 160 1) (List.replicate 16 0) := ⟨rfl, rfl, rfl, rfl⟩
  have hlasts : Lasts oneGramServer.memory (Layout.new 1 2500012 160 1) HEAD_W :=
    ⟨by decide, by decide, by decide, by decide⟩
  have hgram : (slots HEAD_W (List.replicate 16 (0 : UInt64)))[0]? =
      some (List.replicate 16 0) := by decide
  obtain ⟨r, hopen, -, hrecord, -⟩ := viewRead_eq_fetch fullPread_full Cli.published_oneGramDisk
    hserver hview ⟨preadvBackend fullPread, Schedule.inOrder _⟩
  obtain ⟨rows, -, hrows⟩ := hrecord _ hgram gramRequest _ hfetch hlasts (Schedule.inOrder _)
  exact ⟨r, rows, hopen, hrows⟩

end Serve

end EngramDB
