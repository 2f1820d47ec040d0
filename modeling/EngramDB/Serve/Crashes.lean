import EngramDB.Io.Batch.Machine.Fits
import EngramDB.Native
import EngramDB.Serve

/-!
# Requests that crash

The bindings and the server hand the row ids of a request to the gather without a look at them. A
request that is not refused before crashes unless it fits (`BadgeGather.Fits`):

* `Native.fetch_noPanic_iff` and `Native.engramdbStoreFetch_noPanic_iff`: the bindings;
* `Serve.fetchRawTable_noPanic_iff`: the server;
* `Serve.answersLines_iff`: a connection sends one response for each line iff no line crashes it.
-/

namespace EngramDB

open Json

namespace BadgeGather

/-- Whether a request fits depends on the layout of the table alone. -/
private theorem Fits.of_layout_eq {a : Allocator} {g g' : BadgeGather} {keys : List ℕ}
    {threads outLen : ℕ} (h : Fits a g keys threads outLen) (hlayout : g.layout = g'.layout) :
    Fits a g' keys threads outLen := by
  have hjobs : g'.jobs keys threads = g.jobs keys threads := by
    simp only [jobs, tasks, hlayout]
  refine ⟨h.nonempty, ?_, ?_, ?_, ?_, ?_⟩
  · exact hlayout ▸ h.inRange
  · rw [PageFits, ← hlayout]
    exact h.page
  · rw [hjobs, ← hlayout]
    exact h.rows
  · exact hlayout ▸ h.width_le
  · exact hlayout ▸ h.out_le

end BadgeGather

namespace Layout

/-- The row width of a layout that was computed in words fits into a word. -/
theorem rowBytes_new64_lt (shards rowsPerShard width elemBytes : ℕ) :
    (new64 shards rowsPerShard width elemBytes).rowBytes < 2 ^ 64 :=
  wordMul_lt width elemBytes

end Layout

namespace Native

variable {a : Allocator}

/-- The gather of a binding panics for no schedule iff the request fits. -/
theorem StoreHandle.gather_noPanic_iff (h : StoreHandle) {keys : List ℕ} {out : Bytes} {threads : ℕ}
    (hlen : out.length = wordMul keys.length h.width.toNat) (hout : out.length < 2 ^ 63) :
    (∀ sched, h.batch.gatherPp64 a sched keys out threads ≠ .error .panic) ↔
      BadgeGather.Fits a h.batch keys threads out.length := by
  obtain ⟨shards, rowsPerShard, hlayout⟩ := h.layout_eq
  refine BadgeGather.gatherPp64_noPanic_iff ?_ ?_ ?_ ?_ hout
  · rw [hlayout]
    exact Layout.rowBytes_new64_lt _ _ _ _
  · rw [hlayout]
    exact h.width.toNat_lt
  · rw [hlayout]
    exact Layout.badgeRows_new64_pos _ _ _ _
  · rw [hlayout]
    exact hlen

/-- What the row ids given to `Store.fetch` must be like. -/
def Store.RowsFit (a : Allocator) (s : Store) (rowids : List UInt64) : Prop :=
  rowids = [] ∨ (a.allocates (wordMul rowids.length s.width.toNat) ∧
    BadgeGather.Fits a s.batch (rowids.map UInt64.toNat) s.threads
      (wordMul rowids.length s.width.toNat))

/-- A fetch panics under no schedule iff its rows fit. -/
theorem fetch_noPanic_iff (s : Store) (rowids : List UInt64) :
    (∀ sched, s.fetch a sched rowids ≠ .error .panic) ↔ s.RowsFit a rowids := by
  by_cases hne : rowids = []
  · simp [Store.fetch, Store.RowsFit, hne]
  · by_cases halloc : a.allocates (wordMul rowids.length s.width.toNat)
    · simp only [Store.fetch, Store.RowsFit, hne, halloc, if_false, false_or, true_and,
        a.zeros_eq_ok halloc, bind, Except.bind]
      rw [s.gather_noPanic_iff, List.length_replicate]
      · rw [List.length_replicate, List.length_map]
      · rw [List.length_replicate]
        exact a.lt_of_allocates halloc
    · refine iff_of_false (fun hall => hall (Schedule.inOrder _) ?_) ?_
      · simp only [Store.fetch, if_neg hne, a.zeros_eq_panic halloc]
        rfl
      · simp [Store.RowsFit, hne, halloc]

/-- What the row ids given to `engramdbStoreFetch` must be like, unless a pointer is null or the
buffer is refused. -/
def StoreHandle.RowsFit (a : Allocator) (h : StoreHandle) (rowids : List UInt64) (out : Buffer) :
    Prop :=
  let need := rowids.length * h.width.toNat
  need < 2 ^ 64 → need ≠ 0 → need ≤ out.1.length →
    BadgeGather.Fits a h.batch (rowids.map UInt64.toNat) DEFAULT_GATHER_THREADS need

/-- Turning a result into a status code adds no panic and hides none. -/
private theorem fetchStatus_eq_panic_iff {buf : Bytes} {need : ℕ} {x : Outcome IoError Bytes} :
    fetchStatus buf need x = .error .panic ↔ x = .error .panic := by
  match x with
  | .ok rows => simp [fetchStatus]
  | .error (.error e) => simp [fetchStatus]
  | .error .panic => simp [fetchStatus]

/-- A fetch over the C interface panics under no schedule iff a pointer is null or the rows fit. -/
theorem engramdbStoreFetch_noPanic_iff (handle : Option StoreHandle) (rowids : Option (List UInt64))
    (out : Option Buffer) :
    (∀ sched, engramdbStoreFetch a sched handle rowids out ≠ .error .panic) ↔
      ∀ h ∈ handle, ∀ ids ∈ rowids, ∀ buf ∈ out, h.RowsFit a ids buf := by
  match handle, rowids, out with
  | none, _, none => simp [engramdbStoreFetch]
  | none, _, some _ => simp [engramdbStoreFetch]
  | some _, none, none => simp [engramdbStoreFetch]
  | some _, none, some _ => simp [engramdbStoreFetch]
  | some _, some _, none => simp [engramdbStoreFetch]
  | some h, some ids, some buf =>
    simp only [Option.mem_some_iff, forall_eq']
    obtain ⟨need, hneed⟩ : ∃ need, need = ids.length * h.width.toNat := ⟨_, rfl⟩
    simp only [engramdbStoreFetch, StoreHandle.RowsFit, ← hneed]
    -- a product that overflows is noticed and answered with a status
    by_cases hmul : 2 ^ 64 ≤ need
    · simp only [if_pos hmul]
      exact iff_of_true (fun _ => by simp) fun hlt => absurd hmul (by omega)
    · by_cases hcap : need = 0 ∨ buf.1.length < need
      · simp only [if_neg hmul, if_pos hcap]
        exact iff_of_true (fun _ => by simp) fun _ hpos hle => absurd hcap (by omega)
      · -- the buffer is taken, and the gather decides
        have hlen : (buf.1.take need).length = need := by
          rw [List.length_take]
          omega
        have hbuf := buf.2
        have hwrap : (buf.1.take need).length =
            wordMul (ids.map UInt64.toNat).length h.width.toNat := by
          rw [hlen, List.length_map, wordMul_eq (by omega), hneed]
        simp only [if_neg hmul, if_neg hcap, ne_eq, fetchStatus_eq_panic_iff]
        rw [← ne_eq, h.gather_noPanic_iff hwrap (by omega), hlen]
        exact ⟨fun hfits _ _ _ => hfits, fun hfits => hfits (by omega) (by omega) (by omega)⟩

end Native

namespace Serve

variable {srv : Server} {req : Value}

/-! ### The rows of a request -/

/-- The layout of a request is made of 64-bit numbers. -/
def Layout64 (L : Layout) : Prop :=
  ∃ shards rowsPerShard width elemBytes : UInt64,
    L = .new64 shards.toNat rowsPerShard.toNat width.toNat elemBytes.toNat

/-- In a layout of words the sizes fit into a word, and a badge has a row. -/
theorem Layout64.bounds {L : Layout} (h : Layout64 L) :
    L.rowBytes < 2 ^ 64 ∧ L.width < 2 ^ 64 ∧ 0 < L.badgeRows := by
  obtain ⟨shards, rowsPerShard, width, elemBytes, rfl⟩ := h
  exact ⟨Layout.rowBytes_new64_lt _ _ _ _, width.toNat_lt, Layout.badgeRows_new64_pos _ _ _ _⟩

/-- A layout that was read from a manifest is one of words. -/
private theorem layout64_of_layoutFromManifest {manifest : Value} {L : Layout}
    (h : layoutFromManifest manifest = some L) : Layout64 L := by
  simp only [layoutFromManifest, Option.bind_eq_bind, Option.bind_eq_some_iff, Option.pure_def,
    Option.some.injEq] at h
  obtain ⟨l, -, s, -, shards, -, r, -, rowsPerShard, -, w, -, width, -, rfl⟩ := h
  exact ⟨shards, rowsPerShard, width, _, rfl⟩

/-- The layout of a request, its own or that of the manifest, is one of words. -/
private theorem layout64_of_resolveLayout {manifest : Option Value} {L : Layout}
    (h : resolveLayout manifest req = .ok L) : Layout64 L := by
  cases manifest with
  | some m =>
    simp only [resolveLayout] at h
    split at h
    next L' hL =>
      cases h
      exact layout64_of_layoutFromManifest hL
    next => cases h
  | none =>
    obtain ⟨shards, -, h⟩ := Except.bind_eq_ok_iff.mp h
    obtain ⟨rowsPerShard, -, h⟩ := Except.bind_eq_ok_iff.mp h
    obtain ⟨width, -, h⟩ := Except.bind_eq_ok_iff.mp h
    cases h
    exact ⟨shards, rowsPerShard, width, _, rfl⟩

/-- The layout that a request resolves to is one of words. -/
theorem layout64_of_resolve {entry : TableEntry} {L : Layout} {rowids : List ℕ}
    (h : resolve srv req = .ok (entry, L, rowids)) : Layout64 L := by
  obtain ⟨table, -, h⟩ := Except.bind_eq_ok_iff.mp h
  split at h
  · cases h
  · obtain ⟨L', hL, h⟩ := Except.bind_eq_ok_iff.mp h
    obtain ⟨ids, -, h⟩ := Except.bind_eq_ok_iff.mp h
    cases h
    exact layout64_of_resolveLayout hL

/-- What the row ids of a request that is not refused must be like. A table without all its shard
files is refused, too, but only after there was room for the descriptors. -/
structure Fits (srv : Server) (files : TableDir) (L : Layout) (rowids : List ℕ) : Prop where
  /-- There is memory for the descriptors. -/
  descriptors : srv.memory.allocates (4 * L.shards)
  /-- There is memory for the rows. -/
  out : (∀ i < L.shards, (files.file i).isSome) →
    srv.memory.allocates (wordMul rowids.length L.width)
  /-- The gather does not panic. -/
  gather : (∀ i < L.shards, (files.file i).isSome) → ∀ g : BadgeGather, g.layout = L →
    BadgeGather.Fits srv.memory g rowids DEFAULT_GATHER_THREADS (wordMul rowids.length L.width)

/-- What a request must be like, unless it is refused. -/
def RowsFit (srv : Server) (req : Value) : Prop :=
  ∀ entry L rowids, resolve srv req = .ok (entry, L, rowids) → Fits srv entry.files L rowids

/-- A table that lacks a shard file (`hfiles`) is refused with the error of the system, when there
is memory for the descriptors (`hdesc`). -/
theorem gatherRows_eq_error {turn : Turn} {files : TableDir} {L : Layout} {rowids : List ℕ}
    (hdesc : srv.memory.allocates (4 * L.shards))
    (hfiles : ¬ ∀ i < L.shards, (files.file i).isSome) :
    gatherRows srv turn files L rowids = .error (.error (srv.describe (.os 2))) := by
  rw [gatherRows, openShards, if_pos hdesc, BadgeGather.openWithBackend, if_neg hfiles]
  rfl

/-- On a table with its files, and with memory for the rows, the gather decides. -/
theorem gatherRows_eq_gather (turn : Turn) {files : TableDir} {L : Layout} {rowids : List ℕ}
    (hdesc : srv.memory.allocates (4 * L.shards))
    (hfiles : ∀ i < L.shards, (files.file i).isSome)
    (hout : srv.memory.allocates (wordMul rowids.length L.width)) :
    ∃ g : BadgeGather, g.layout = L ∧
      BadgeGather.openWithBackend files L turn.backend = .ok g ∧
      gatherRows srv turn files L rowids =
        (g.gatherPp64 srv.memory turn.sched rowids
          (List.replicate (wordMul rowids.length L.width) 0) DEFAULT_GATHER_THREADS).mapErr
            srv.describe := by
  have hopen : BadgeGather.openWithBackend files L turn.backend = .ok
      { layout := L
        files := (List.range L.shards).map fun i => (files.file i).getD []
        backend := turn.backend
        files_length := by rw [List.length_map, List.length_range] } := if_pos hfiles
  refine ⟨_, rfl, hopen, ?_⟩
  rw [gatherRows, openShards, if_pos hdesc, hopen, srv.memory.zeros_eq_ok hout]
  rfl

/-- A request that does not panic when the jobs finish in order fits. -/
private theorem fits_of_gatherRows {backend : IoBackend} {files : TableDir} {L : Layout}
    {rowids : List ℕ} (hL : Layout64 L)
    (h : gatherRows srv ⟨backend, Schedule.inOrder _⟩ files L rowids ≠ .error .panic) :
    Fits srv files L rowids := by
  have hdesc : srv.memory.allocates (4 * L.shards) := by
    by_contra hdesc
    refine h ?_
    rw [gatherRows, openShards, if_neg hdesc]
    rfl
  -- the buffer is made only after all shards were opened
  have hout : (∀ i < L.shards, (files.file i).isSome) →
      srv.memory.allocates (wordMul rowids.length L.width) := by
    intro hfiles
    by_contra hout
    refine h ?_
    rw [gatherRows, openShards, if_pos hdesc, BadgeGather.openWithBackend, if_pos hfiles,
      srv.memory.zeros_eq_panic hout]
    rfl
  refine ⟨hdesc, hout, fun hfiles g hg => ?_⟩
  obtain ⟨g', hg', -, hgather⟩ := gatherRows_eq_gather ⟨backend, Schedule.inOrder _⟩ hdesc hfiles
    (hout hfiles)
  rw [hgather, ne_eq, Outcome.mapErr_eq_panic_iff] at h
  obtain ⟨hrb, hw, hbadge⟩ := hg' ▸ hL.bounds
  have hfits := BadgeGather.fits_of_inOrder hrb hw hbadge
    (by rw [List.length_replicate]; exact srv.memory.lt_of_allocates (hout hfiles)) h
  rw [List.length_replicate] at hfits
  exact hfits.of_layout_eq (hg'.trans hg.symm)

/-- A request that fits (`h`), over a layout of words (`hL`), does not panic, whatever the backend
and the schedule. -/
private theorem Fits.gatherRows_ne_panic {files : TableDir} {L : Layout} {rowids : List ℕ}
    (h : Fits srv files L rowids) (hL : Layout64 L) (turn : Turn) :
    gatherRows srv turn files L rowids ≠ .error .panic := by
  by_cases hfiles : ∀ i < L.shards, (files.file i).isSome
  · obtain ⟨g, hg, -, hgather⟩ := gatherRows_eq_gather turn h.descriptors hfiles (h.out hfiles)
    obtain ⟨hrb, hw, hbadge⟩ := hg ▸ hL.bounds
    have hlen : (List.replicate (wordMul rowids.length L.width) (0 : UInt8)).length =
        wordMul rowids.length g.layout.width := by rw [List.length_replicate, hg]
    rw [hgather, ne_eq, Outcome.mapErr_eq_panic_iff]
    refine (BadgeGather.gatherPp64_noPanic_iff hrb hw hbadge hlen ?_).mpr ?_ turn.sched
    · rw [List.length_replicate]
      exact srv.memory.lt_of_allocates (h.out hfiles)
    · rw [List.length_replicate]
      exact h.gather hfiles g hg
  · rw [gatherRows_eq_error h.descriptors hfiles]
    simp

/-- A request that does not panic when the jobs finish in order is refused or fits. -/
theorem rowsFit_of_fetchRawTable (backend : IoBackend)
    (h : fetchRawTable srv ⟨backend, Schedule.inOrder _⟩ req ≠ .error .panic) :
    RowsFit srv req := by
  intro entry L rowids hresolve
  have hrows : gatherRows srv ⟨backend, Schedule.inOrder _⟩ entry.files L rowids ≠
      .error .panic := by
    intro hpanic
    refine h ?_
    rw [fetchRawTable, hresolve]
    simp only [Outcome.ofExcept_ok, bind, Except.bind, hpanic]
  exact fits_of_gatherRows (layout64_of_resolve hresolve) hrows

/-- A request that is refused or fits does not panic. -/
theorem RowsFit.fetchRawTable_ne_panic (h : RowsFit srv req) (turn : Turn) :
    fetchRawTable srv turn req ≠ .error .panic := by
  rw [fetchRawTable]
  cases hresolve : resolve srv req with
  | error e => simp [bind, Except.bind]
  | ok r =>
    obtain ⟨entry, L, rowids⟩ := r
    have hrows := (h entry L rowids hresolve).gatherRows_ne_panic
      (layout64_of_resolve hresolve) turn
    simp only [Outcome.ofExcept_ok, bind, Except.bind]
    split
    next e he =>
      rintro ⟨⟩
      exact hrows he
    next => simp [pure, Except.pure]

/-- No schedule makes a fetch panic iff the request is refused or fits. -/
theorem fetchRawTable_noPanic_iff (backend : IoBackend) :
    (∀ sched, fetchRawTable srv ⟨backend, sched⟩ req ≠ .error .panic) ↔ RowsFit srv req :=
  ⟨fun h => rowsFit_of_fetchRawTable backend (h _),
    fun h sched => h.fetchRawTable_ne_panic ⟨backend, sched⟩⟩

/-! ### Lines -/

/-- Turning an error into a reply adds no panic and hides none. -/
theorem respond_eq_panic_iff {α : Type} {onError : String → α} {x : Outcome String α} :
    respond onError x = .error .panic ↔ x = .error .panic := by
  match x with
  | .ok a => simp [respond]
  | .error (.error e) => simp [respond]
  | .error .panic => simp [respond]

/-- A response is never an error: errors are answered. -/
theorem respond_ne_error {α : Type} {onError : String → α} {x : Outcome String α} (e : String) :
    respond onError x ≠ .error (.error e) := by
  match x with
  | .ok a => simp [respond]
  | .error (.error e) => simp [respond]
  | .error .panic => simp [respond]

/-- A fetch with a reply in JSON panics iff the raw fetch does. -/
private theorem fetchTable_eq_panic_iff {turn : Turn} :
    fetchTable srv turn req = .error .panic ↔ fetchRawTable srv turn req = .error .panic := by
  rw [fetchTable]
  cases fetchRawTable srv turn req with
  | error fault => simp [bind, Except.bind]
  | ok r =>
    simp only [bind, Except.bind, reduceCtorEq, iff_false]
    cases requestTable req with
    | error e => simp [Outcome.ofExcept]
    | ok table =>
      cases requestRowids req with
      | error e => simp [Outcome.ofExcept]
      | ok rowids => simp [Outcome.ofExcept, pure, Except.pure]

/-- Only a fetch can panic. -/
theorem handleRequest_eq_panic_iff {turn : Turn} :
    handleRequest srv turn req = .error .panic ↔
      requestCmd req = "fetch" ∧ fetchRawTable srv turn req = .error .panic := by
  rw [← fetchTable_eq_panic_iff]
  unfold handleRequest
  split
  next h => simp [h]
  next h => simp [h]
  next h => simp [h, respond_eq_panic_iff]
  next h =>
    simp only [h]
    split
    · cases srv.viewRead req <;> simp [respond_eq_panic_iff, Outcome.ofExcept, Except.map]
    · simp
  next _ _ hfetch _ => exact iff_of_false (by simp) fun h => hfetch h.1

/-- A request is answered or panics. -/
private theorem handleRequest_ne_error {turn : Turn} (e : String) :
    handleRequest srv turn req ≠ .error (.error e) := by
  unfold handleRequest
  split
  · simp
  · simp
  · exact respond_ne_error e
  · split
    · exact respond_ne_error e
    · simp
  · simp

/-- What a line must be like: blank, no JSON, another command, refused, or a fetch that fits. -/
def LineFits (srv : Server) (line : List Char) : Prop :=
  ∀ req, Text.trim line ≠ [] → srv.parse (Text.trim line) = .ok req → requestCmd req = "fetch" →
    RowsFit srv req

/-- A line that is not blank and fits is answered. -/
private theorem LineFits.handleLine_eq_ok {line : List Char} (h : LineFits srv line)
    (hblank : Text.trim line ≠ []) (turn : Turn) :
    ∃ resp, handleLine srv turn (Text.trim line) = .ok resp := by
  unfold handleLine
  split
  next req hreq =>
    match hresp : handleRequest srv turn req with
    | .ok resp => exact ⟨resp, rfl⟩
    | .error (.error e) => exact absurd hresp (handleRequest_ne_error e)
    | .error .panic =>
      obtain ⟨hcmd, hpanic⟩ := handleRequest_eq_panic_iff.mp hresp
      exact absurd hpanic ((h req hblank hreq hcmd).fetchRawTable_ne_panic turn)
  next e _ => exact ⟨_, rfl⟩

/-- A line that is answered when the jobs finish in order fits. -/
private theorem lineFits_of_handleLine {backend : IoBackend} {line : List Char} {resp : Value}
    (h : handleLine srv ⟨backend, Schedule.inOrder _⟩ (Text.trim line) = .ok resp) :
    LineFits srv line := by
  intro req _ hreq hcmd
  refine rowsFit_of_fetchRawTable backend fun hpanic => ?_
  have hresp := handleRequest_eq_panic_iff.mpr ⟨hcmd, hpanic⟩
  simp only [handleLine, hreq, hresp] at h
  cases h

/-- The lines that want a response. -/
def requests (lines : List (List Char)) : List (List Char) :=
  lines.filter fun line => Text.trim line ≠ []

/-- Every line is answered once. -/
def AnswersLines (srv : Server) (turns : ℕ → Turn) (lines : List (List Char)) : Prop :=
  (handleConnection srv turns 0 (lines.map .ok)).1.length = (requests lines).length

/-- When every line fits (`h`), there is an answer for every request on the connection. -/
private theorem length_handleConnection {turns : ℕ → Turn} {lines : List (List Char)}
    (h : ∀ line ∈ lines, LineFits srv line) (n : ℕ) :
    (handleConnection srv turns n (lines.map .ok)).1.length = (requests lines).length := by
  induction lines generalizing n with
  | nil => rfl
  | cons line lines ih =>
    have hrest := ih (fun l hl => h l (by simp [hl])) (n + 1)
    simp only [requests] at hrest ⊢
    by_cases hblank : Text.trim line = []
    · simpa [handleConnection, hblank] using hrest
    · obtain ⟨resp, hresp⟩ := (h line (by simp)).handleLine_eq_ok hblank (turns n)
      simpa [handleConnection, hblank, hresp] using hrest

/-- A connection that answers all its lines when the jobs finish in order had lines that fit. -/
private theorem lineFits_of_answersLines {backend : IoBackend} {lines : List (List Char)} {n : ℕ}
    (h : (handleConnection srv (fun _ => ⟨backend, Schedule.inOrder _⟩) n
      (lines.map .ok)).1.length =
      (requests lines).length) : ∀ line ∈ lines, LineFits srv line := by
  induction lines generalizing n with
  | nil => simp
  | cons line lines ih =>
    by_cases hblank : Text.trim line = []
    · have hrest := ih (n := n + 1) (by simpa [handleConnection, requests, hblank] using h)
      intro l hl
      rcases List.mem_cons.mp hl with rfl | hl
      · exact fun _ hne => absurd hblank hne
      · exact hrest l hl
    · simp only [List.map_cons, handleConnection, if_neg hblank] at h
      split at h
      next resp hresp =>
        have hrest := ih (n := n + 1) (by simpa [requests, hblank] using h)
        intro l hl
        rcases List.mem_cons.mp hl with rfl | hl
        · exact lineFits_of_handleLine hresp
        · exact hrest l hl
      next => simp [requests, hblank] at h

/-- Whatever the schedules, every line is answered once iff every line fits. -/
theorem answersLines_iff (srv : Server) (lines : List (List Char)) :
    (∀ turns, AnswersLines srv turns lines) ↔ ∀ line ∈ lines, LineFits srv line :=
  ⟨fun h => lineFits_of_answersLines (h fun _ => ⟨preadvBackend fullPread, Schedule.inOrder _⟩),
    fun h _ => length_handleConnection h 0⟩

end Serve

/-- What no schedule makes panic: the lines of a connection are answered one by one, and the server,
the Python store and the C store fetch without a panic, each exactly for the requests that fit. -/
theorem rowRequests_noPanic_iff (srv : Serve.Server) (lines : List (List Char))
    (backend : IoBackend)
    (req : Value) (a : Allocator) (store : Native.Store) (rowids : List UInt64)
    (handle : Option Native.StoreHandle) (ids : Option (List UInt64)) (out : Option Native.Buffer) :
    ((∀ turns, Serve.AnswersLines srv turns lines) ↔ ∀ line ∈ lines, Serve.LineFits srv line) ∧
    ((∀ sched, Serve.fetchRawTable srv ⟨backend, sched⟩ req ≠ .error .panic) ↔
      Serve.RowsFit srv req) ∧
    ((∀ sched, store.fetch a sched rowids ≠ .error .panic) ↔ store.RowsFit a rowids) ∧
    ((∀ sched, Native.engramdbStoreFetch a sched handle ids out ≠ .error .panic) ↔
      ∀ h ∈ handle, ∀ rowids ∈ ids, ∀ buf ∈ out, h.RowsFit a rowids buf) :=
  ⟨Serve.answersLines_iff srv lines, Serve.fetchRawTable_noPanic_iff backend,
    Native.fetch_noPanic_iff store rowids, Native.engramdbStoreFetch_noPanic_iff handle ids out⟩

/-- A store of one row of one byte. -/
def oneRowStore : Native.Store where
  batch :=
    { layout := .new64 1 1 1 1
      files := [[7]]
      backend := preadvBackend fullPread
      files_length := by decide }
  width := .ofNat 1
  layout_eq := ⟨.ofNat 1, .ofNat 1, rfl⟩
  threads := DEFAULT_GATHER_THREADS

/-- A request for no rows. -/
def noRows : Value :=
  .object [("cmd", .string "fetch"), ("table", .string "t"), ("rowids", .array [])]

/-- The line of that request. -/
def noRowsLine : List Char :=
  "\x7b\"cmd\": \"fetch\", \"table\": \"t\", \"rowids\": []\x7d".toList

/-- The manifest of a table of one row of one byte. -/
def oneRowManifest : Value :=
  .object [("layout", .object [("shards", .posInt 1), ("rows_per_shard", .posInt 1),
    ("width", .posInt 1)])]

/-- A server with a table `t` of one row of one byte, which reads every line as `noRows`. -/
def oneRowServer : Serve.Server where
  root table := if table = "t" then
      some
        { manifest := some oneRowManifest
          files := ⟨fun i => if i = 0 then some [7] else none, fun _ => none⟩
          length_lt := by
            intro i f h
            by_cases hi : i = 0
            · simp only [TableDir.file, if_pos hi, Option.some.injEq] at h
              rw [← h]
              decide
            · simp [TableDir.file, hi] at h }
    else none
  memory := .upTo (2 ^ 32) (by decide)
  parse _ := .ok noRows
  parseSlice _ := .ok noRows
  print _ := []
  describe _ := ""
  listTables := .null
  viewRead _ := .error ""

/-- A line without rows is not answered, and a row beyond the table ends the caller of a binding. -/
theorem not_answersLines_noRows :
    ¬ Serve.AnswersLines oneRowServer (fun _ => ⟨preadvBackend fullPread, Schedule.inOrder _⟩)
      [noRowsLine] ∧
    oneRowStore.fetch oneRowServer.memory (Schedule.inOrder _) [1] = .error .panic ∧
    Native.engramdbStoreFetch oneRowServer.memory (Schedule.inOrder _)
      (some oneRowStore.toStoreHandle) (some [1]) (some ⟨[0], by decide⟩) = .error .panic := by
  refine ⟨?_, by rfl, by rfl⟩
  rw [Serve.AnswersLines]
  decide +kernel

end EngramDB
