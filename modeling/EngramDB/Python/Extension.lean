import EngramDB.Io.View.Built
import EngramDB.Python.PleMemory
import EngramDB.Python.RealRows
import EngramDB.Serve.Crashes

/-!
# Stores and views of the Python extension

`Store` and `View` are classes of the native extension. A memory uses the attribute `width` and the
method `fetch` of a store, and the attribute `slot_bytes` and the method `read_records` of a view.
`width` is a getter. `slot_bytes` is a method, and `int(view.slot_bytes)` is a `TypeError`: without
`head_dim`, no memory is made over a view.

* `Store.fetch_eq_ok`, `View.readRecords_eq_ok`: the bytes that the methods return;
* `PleMemory.exists_new`: a memory with defaults for everything but its source and the size of a
  head;
* `BuiltView.raisesOrPlaces`: a memory over a view that is made without the size of a head.
-/

namespace EngramDB

open SlotBuffer

namespace Py

/-- A number as an unsigned word of 64 bits. -/
def word (x : ℤ) : Py UInt64 :=
  if 0 ≤ x ∧ x < 2 ^ 64 then .ok (.ofNat x.toNat) else .error .overflowError

/-- What a call of the native library returns or raises. -/
def ofOutcome {α : Type} (describe : IoError → String) : Outcome IoError α → Py α
  | .ok a => .ok a
  | .error (.error e) => .error (.osError (describe e))
  | .error .panic => .error .panic

private theorem word_toNat (v : UInt64) : word (v.toNat : ℤ) = .ok v := by
  rw [word, if_pos ⟨Int.natCast_nonneg _, by exact_mod_cast v.toNat_lt⟩, Int.toNat_natCast,
    UInt64.ofNat_toNat]

theorem mapM_word (vs : List UInt64) : (vs.map fun v => (v.toNat : ℤ)).mapM word = .ok vs := by
  induction vs with
  | nil => rfl
  | cons v vs ih => rw [List.map_cons, List.mapM_cons, word_toNat, ih]; rfl

end Py

namespace Native

/-- What the system does while the extension is used. -/
structure System where
  /-- Which requests for memory are met. -/
  memory : Allocator
  /-- Reads of a view. -/
  os : Pread
  /-- The schedule of a gather. -/
  gathers : Schedule JobResult
  /-- The schedule of a read of several records. -/
  reads : Schedule (Option IoError)
  /-- The text of an error. -/
  describe : IoError → String

/-- A view opened by the Python extension. -/
structure View where
  /-- The reader of its file. -/
  reader : ViewReader

/-- Open a view. -/
def View.new (files : ViewFiles) : Except IoError View := (ViewReader.openFiles files).map View.mk

/-- Read records by their slots. -/
def View.readRecords (sys : System) (v : View) (indices : List ℕ) : Outcome IoError Bytes := do
  let out ← sys.memory.zeros (wordMul indices.length v.reader.slotBytes.toNat)
  match v.reader.readRecords sys.os sys.reads indices out with
  | (.ok (), out) => return out
  | (.error fault, _) => throw fault

variable {σ : Type} {sys : System}

/-- A store as a memory sees it. -/
def Store.object (sys : System) (s : Store) : PyStore σ where
  width := .int s.width.toNat
  fetch rowids := PyM.lift do
    let ids ← rowids.mapM Py.word
    Py.ofOutcome sys.describe (s.fetch sys.memory sys.gathers ids)

/-- A view as a memory sees it: `slot_bytes` is not a getter. -/
def View.object (sys : System) (v : View) : PyView σ where
  slotBytes := .method
  readRecords slots := PyM.lift do
    let indices ← slots.mapM Py.word
    Py.ofOutcome sys.describe (v.readRecords sys (indices.map UInt64.toNat))

/-! ### What the methods return -/

/-- The rows of the table have the width of the store. -/
theorem StoreHandle.width_layout (h : StoreHandle) : h.batch.layout.width = h.width.toNat := by
  obtain ⟨shards, rowsPerShard, hlayout⟩ := h.layout_eq
  rw [hlayout]
  rfl

/-- With memory for them, the rows of a table are fetched. -/
theorem Store.fetch_eq_ok {s : Store} {ids : List UInt64}
    (hserves : View.Serves s.batch (ids.map UInt64.toNat))
    (hfiles : ∀ f ∈ s.batch.files, f.length < 2 ^ 63) (hfits : s.RowsFit sys.memory ids) :
    s.fetch sys.memory sys.gathers ids =
      .ok ((ids.map UInt64.toNat).map s.batch.storedRow).flatten := by
  rcases hfits with rfl | ⟨hmem, hfits⟩
  · rfl
  have hne : ids ≠ [] := fun h => hfits.nonempty (by rw [h, List.map_nil])
  set out : Bytes := List.replicate (wordMul ids.length s.width.toNat) 0 with hout
  have hlen : out.length = wordMul (ids.map UInt64.toNat).length s.batch.layout.width := by
    rw [hout, List.length_replicate, List.length_map, s.width_layout]
  have hsmall : out.length < 2 ^ 63 := by
    rw [hout, List.length_replicate]
    exact sys.memory.lt_of_allocates hmem
  have hfits' :
      BadgeGather.Fits sys.memory s.batch (ids.map UInt64.toNat) s.threads out.length := by
    rwa [hout, List.length_replicate]
  -- a row that is in its file starts at an offset of the file
  have hoff : ∀ k ∈ ids.map UInt64.toNat, s.batch.OffsetFits k := by
    intro k hk
    have hholds := hserves.holds k hk
    have hfile :=
      hfiles _ (List.getElem_mem (s.batch.files_length ▸ (hserves.inRange k hk).shard_lt))
    rw [BadgeGather.HoldsRow, List.getD_eq_getElem _ _
      (s.batch.files_length ▸ (hserves.inRange k hk).shard_lt)] at hholds
    rw [BadgeGather.OffsetFits]
    omega
  rw [fetch, if_neg hne, Allocator.zeros_eq_ok _ hmem, Except.ok_bind, ← hout,
    BadgeGather.gatherPp64_eq_gatherPp hfits' hserves.badgeRows_pos hsmall hoff]
  exact BadgeGather.gatherPp_of_full hserves.full hserves.badgeRows_pos hserves.width_eq_rowBytes _
    hfits.nonempty (fun k hk => ⟨hserves.inRange k hk, hserves.holds k hk⟩)
    (hfits'.length_out hlen) s.threads

/-- Records in range (`hin`) are read, over a system that delivers (`hos`) and with memory for them
(`hmem`). -/
theorem View.readRecords_eq_ok (hos : sys.os.Delivers) {v : View} {indices : List ℕ}
    (hin : ∀ i ∈ indices, i < v.reader.count)
    (hmem : sys.memory.allocates (indices.length * v.reader.slotBytes.toNat)) :
    v.readRecords sys indices = .ok (indices.map v.reader.record).flatten := by
  have hlt := sys.memory.lt_of_allocates hmem
  have hword : wordMul indices.length v.reader.slotBytes.toNat =
      indices.length * v.reader.slotBytes.toNat := wordMul_eq (by omega)
  have hlen : (List.replicate (indices.length * v.reader.slotBytes.toNat) (0 : UInt8)).length =
      indices.length * v.reader.slotBytes.toNat := List.length_replicate
  have hread := ViewReader.readRecordsParallel_eq_ok hos sys.reads hin (Nat.le_of_eq hlen.symm)
    (by omega) DEFAULT_GATHER_THREADS
  rw [List.drop_of_length_le (Nat.le_of_eq hlen), List.append_nil] at hread
  rw [readRecords, hword, Allocator.zeros_eq_ok _ hmem, Except.ok_bind,
    ViewReader.readRecords, hread]
  rfl

end Native

namespace PleMemory

variable {σ : Type}

theorem length_defaults :
    (PleMath.headVocabSizes PleMath.PLE_BASE 16).length = 16 ∧
      (PleMath.headOffsets (some (PleMath.headVocabSizes PleMath.PLE_BASE 16))).length = 16 := by
  have hsizes : PleMath.headVocabSizes PleMath.PLE_BASE 16 = castColumn realPrimes :=
    PleMath.headVocabSizes_real
  rw [hsizes, PleMath.headOffsets_real]
  exact ⟨rfl, rfl⟩

/-- With defaults for everything but its source and the size of a head, a memory is made when it has
a source and the size is positive. -/
theorem exists_new (store : Option (PyStore σ)) (view : Option (PyView σ))
    (slotIndex : Option (PyLookup σ)) (given : Option ℤ) {source : PleSource σ} {headDim : ℤ}
    (hsource : chosenSource { store, view, slotIndex, headDim := given } = .ok source)
    (hdim : chosenHeadDim { store, view, slotIndex, headDim := given } source = .ok headDim)
    (hindexed : ¬ (view.isSome ∧ slotIndex.isNone)) (hpos : 0 < headDim) :
    ∃ mem, new { store, view, slotIndex, headDim := given } = .ok mem ∧ mem.source = source ∧
      mem.numHeads = 16 ∧ mem.headDim = headDim.toNat := by
  obtain ⟨mem, hnew⟩ : ∃ mem, new { store, view, slotIndex, headDim := given } = .ok mem := by
    have hsizes :
        ((none.getD (PleMath.headVocabSizes PleMath.PLE_BASE (intOr none 16).toNat)).length : ℤ) =
          intOr none 16 := congrArg Nat.cast length_defaults.1
    have hoffsets : ((none.getD (PleMath.headOffsets (some (none.getD (PleMath.headVocabSizes
        PleMath.PLE_BASE (intOr none 16).toNat))))).length : ℤ) = intOr none 16 :=
      congrArg Nat.cast length_defaults.2
    have hngram : 2 ≤ intOr none 3 := by decide
    have hheads : intOr none 16 = (intOr none 3 - 1) * intOr none 8 := by decide
    rw [new_eq, hsource, Except.ok_bind, hdim, Except.ok_bind]
    clear hdim
    rcases store with _ | store <;> rcases view with _ | view
    any_goals cases hsource
    -- a view alone, or a store alone
    all_goals
      unfold new
      simp only [pure_bind]
      rw [dif_pos hpos, dif_pos hngram, dif_pos hheads, dif_pos hsizes, dif_pos hoffsets,
        if_neg fun h => hindexed ⟨h.1, h.2.1⟩]
      exact ⟨_, rfl⟩
  have hfrom := madeFrom_of_new hnew
  obtain rfl : source = mem.source := Except.ok.inj (hsource.symm.trans hfrom.source)
  obtain rfl : headDim = mem.headDim := Except.ok.inj (hdim.symm.trans hfrom.headDim)
  exact ⟨mem, hnew, rfl, hfrom.numHeads, (Int.toNat_natCast _).symm⟩

/-- Over a view of the extension, no memory is made without the size of a head. -/
theorem new_of_view {args : Args σ} {sys : Native.System} {v : Native.View}
    (hstore : args.store = none)
    (hview : args.view = some (v.object sys)) (hdim : args.headDim = none) :
    new args = .error (.typeError ("int() argument must be a string, a bytes-like object or a real "
      ++ "number, not 'builtin_function_or_method'")) := by
  obtain ⟨store, view, slotIndex, headDim⟩ := args
  obtain rfl := hstore
  obtain rfl := hview
  obtain rfl := hdim
  rfl

end PleMemory

/-! ### Views that were built -/

/-- A view of a table that was built from row ids and opened. -/
structure BuiltView where
  /-- The table. -/
  table : BadgeGather
  /-- The row ids. -/
  keys : List ℕ
  /-- The slot width. -/
  slotBytes : UInt64
  /-- What the system does during the build. -/
  env : View.BuildEnv
  /-- The path of the keys file to write. -/
  keysOut : Option String
  /-- The files before the build. -/
  before : ViewFiles
  /-- The files after the build. -/
  after : ViewFiles
  /-- The view. -/
  view : Native.View
  /-- The table has the rows. -/
  serves : View.Serves table keys
  /-- A record fits into a slot. -/
  slot_le : View.RECORD_BYTES ≤ slotBytes.toNat
  /-- A slot can be divided among the heads. -/
  dvd : View.HEAD_W ∣ slotBytes.toNat
  /-- The build returned. -/
  built : View.buildViewFromKeys env table keys slotBytes keysOut before = (.ok (), after)
  /-- The view was opened from what the build left. -/
  opened : Native.View.new after = .ok view

namespace BuiltView

variable {σ : Type} (b : BuiltView)

/-- An index maps every tuple that it finds to a slot with the gram. -/
def Maps (lookup : PyLookup σ) : Prop :=
  ∀ row s slot s', lookup row s = (.ok slot, s') →
    ∃ i : ℕ, slot = i ∧ (slots View.HEAD_W b.keys)[i]? = some (row.map Int.toNat)

/-- Of the bytes that a memory fetches, the head `h` of the tuple `i` gets the row that the tuple
names. -/
def PlacesRows (mem : PleMemory σ) : Prop :=
  ∀ rows s raw s', mem.fetchRaw rows s = (.ok raw, s') →
    ∀ i row, rows[i]? = some row → ∀ h k, row[h]? = some k →
      (raw.drop (i * mem.recordBytes + h * mem.headDim)).take View.ROW_BYTES =
        b.table.storedRow k.toNat

/-- A memory over the view that is made without the size of a head either raises, or it places the
rows. -/
def RaisesOrPlaces (sys : Native.System) : Prop :=
  ∀ (σ : Type) (args : PleMemory.Args σ) (lookup : PyLookup σ), args.store = none →
    args.view = some (b.view.object sys) → args.slotIndex = some lookup → b.Maps lookup →
      args.headDim = none →
        (∃ e, PleMemory.new args = .error e) ∨ ∃ mem, PleMemory.new args = .ok mem ∧
          b.PlacesRows mem

end BuiltView

/-- Whatever the width of its slots, a memory over a view that is made without the size of a head
raises a type error, as `slot_bytes` of the extension is a method and not a number, and so no such
memory places a head wrongly. -/
theorem BuiltView.raisesOrPlaces (b : BuiltView) (sys : Native.System) : b.RaisesOrPlaces sys :=
  fun _ _ _ hstore hview _ _ hdim => .inl ⟨_, PleMemory.new_of_view hstore hview hdim⟩

/-- When nothing fails, whole grams of a table can be stored in a view with slots of this width. -/
theorem BuiltView.exists_of_serves {table : BadgeGather} {keys : List ℕ}
    (hserves : View.Serves table keys) (hkeys : View.HEAD_W ∣ keys.length) {slotBytes : UInt64}
    (hslot : View.RECORD_BYTES ≤ slotBytes.toNat) (hdvd : View.HEAD_W ∣ slotBytes.toNat) :
    ∃ b : BuiltView, b.table = table ∧ b.keys = keys ∧ b.slotBytes = slotBytes :=
  ⟨{ table, keys, slotBytes
     env := View.faultlessEnv
     keysOut := none
     before := View.noFiles
     after := _
     view := _
     serves := hserves
     slot_le := hslot
     dvd := hdvd
     built :=
       View.buildViewFromKeys_eq_ok View.faultless_faultlessEnv hslot hserves.toFits hkeys none _
     opened := rfl }, rfl, rfl, rfl⟩

end EngramDB
