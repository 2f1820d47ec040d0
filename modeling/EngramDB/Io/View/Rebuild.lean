import EngramDB.Foundations.Runs
import EngramDB.Io.View.Grams
import EngramDB.Io.View.Reads
import EngramDB.Io.View.Streaming

/-!
# Building a view again

A build truncates the view in place and writes its manifest at the very end. A build that fails in
between leaves records of its own under the manifest of an earlier build.

* `run_cases`: what a build leaves, by how far it comes;
* `servesOneBuild_of_safe`: in every run of builds of which none leaves two slots or more under a
  manifest with another slot width, the view serves the records of one build;
* `not_servesOneBuild_wideSlots`: with another slot width, it serves what no build has written.
-/

namespace EngramDB

open SlotBuffer

namespace View

/-- What a view is built from. -/
inductive ViewSource where
  /-- This number of random grams. -/
  | random (n : ℕ)
  /-- Given row ids. -/
  | keys (keys : List ℕ)
  /-- The row ids of a file. -/
  | keysFile (keysIn : KeyLines)

/-- The row ids of the grams, as far as they can be read. -/
def ViewSource.rowids : ViewSource → List ℕ
  | .random n => randomKeys n 0xDEADBEEF12345678
  | .keys ids => ids
  | .keysFile (.ok lines) => linesKeys lines
  | .keysFile (.error _) => []

/-- A build of a view. -/
structure ViewBuild where
  /-- The table. -/
  table : BadgeGather
  /-- What the view is built from. -/
  source : ViewSource
  /-- The slot width. -/
  slotBytes : UInt64
  /-- The path of the keys file to write. -/
  keysOut : Option String
  /-- What the system does. -/
  env : BuildEnv
  /-- The table has the rows. -/
  serves : Serves table source.rowids
  /-- A record fits into a slot. -/
  slot_le : RECORD_BYTES ≤ slotBytes.toNat

namespace ViewBuild

variable (b : ViewBuild)

/-- The build: its result, and the files afterwards. -/
def run (files : ViewFiles) : Outcome IoError Unit × ViewFiles :=
  match b.source with
  | .random n => buildView b.env b.table n b.slotBytes b.keysOut files
  | .keys keys => buildViewFromKeys b.env b.table keys b.slotBytes b.keysOut files
  | .keysFile keysIn => buildViewFromKeysFile b.env b.table keysIn b.slotBytes b.keysOut files

/-- The grams. -/
def grams : List (List ℕ) := slots HEAD_W b.source.rowids

/-- The slots of the view. -/
def records : List Bytes := b.grams.map fun gram => padded b.slotBytes (gramRows b.table gram)

/-- The build comes to truncating the view. -/
def Opens : Prop :=
  (match b.source with
    | .random _ => ∀ c ∈ (b.keysOut.elim [] fun _ => [BuildCall.createKeys]), b.env.Works c
    | .keys keys => HEAD_W ∣ keys.length
    | .keysFile keysIn => ∃ lines, keysIn = .ok lines) ∧ b.env.Works .openView

/-- The row ids can all be read, and are those of whole grams. -/
def Complete : Prop :=
  match b.source with
  | .keysFile (.ok lines) => (∀ line ∈ lines, IsRowidLine line) ∧
    HEAD_W ∣ (linesKeys lines).length ∧
      0 < (linesKeys lines).length
  | _ => True

/-- The calls for writing the view. -/
def calls : List BuildCall :=
  match b.source with
  | .random _ =>
    chunksCalls 0 (b.keysOut.map fun _ => 0) (Chunking.chunks CHUNK_ROWS b.source.rowids) ++
      [.flush]
  | _ => keysCalls b.keysOut b.source.rowids

/-- The view is written, so that what is left is its manifest. -/
def Written : Prop := b.Complete ∧ ∀ c ∈ b.calls, b.env.Works c

variable {b}

/-- The records of a build are those of the keys of its source. -/
theorem records_eq (b : ViewBuild) : b.records = viewRecords b.table b.slotBytes b.source.rowids :=
  (viewRecords_eq b.serves b.slotBytes).symm

end ViewBuild

/-! ### What a build leaves -/

section Files

variable {env : BuildEnv} {files : ViewFiles} {start : Writer} {body : Write ℕ}
  {manifest : ℕ → Json.Value}
  {recs : List Bytes}

/-- A view file that cannot be opened (`h`) is left alone, and so is its manifest. -/
theorem writeFiles_of_not_openView (h : ¬ env.Works .openView) :
    (writeFiles env files start body manifest).2.view = files.view ∧
      (writeFiles env files start body manifest).2.manifest = files.manifest := by
  cases hopen : env.fails .openView with
  | none => exact absurd hopen h
  | some e => simp only [writeFiles, hopen, and_self]

/-- What truncating a view and writing it leaves, by how far it comes. -/
structure Leaves (env : BuildEnv) (written : Prop) (records : List Bytes) (slotBytes : UInt64)
    (before after : ViewFiles) : Prop where
  /-- There are records from the start, and not more than a failed build hands over. -/
  view : ∃ view, after.view = some view ∧ view <+: records.flatten ∧
    (¬ written → view.length ≤ env.viewKept)
  /-- Before the manifest is opened it stays as it is. -/
  manifest_of_not : ¬ written ∨ ¬ env.Works .openManifest → after.manifest = before.manifest
  /-- A manifest whose write fails is cut off. -/
  manifest_cut : written → env.Works .openManifest → ¬ env.Works .writeManifest →
    after.manifest = some .null
  /-- A manifest that is written has the slot width. -/
  manifest_written : written → env.Works .openManifest → env.Works .writeManifest →
    ∃ m, after.manifest = some m ∧ m.get "slot_bytes" = some (.posInt slotBytes)

/-- Writing the files of a view leaves the manifest of the build only if all its records are
written: here `body` appends the records `recs` to an empty file, returns iff `written`, and
`manifest` names the slot width. -/
theorem leaves_writeFiles (hopen : env.Works .openView)
    (happends : Effect.Appends Writer.records body recs)
    (hstart : start.records = []) {written : Prop}
    (hwritten : (∃ n t, body start = (.ok n, t)) ↔ written) {slotBytes : UInt64}
    (hmanifest : ∀ n, (manifest n).get "slot_bytes" = some (.posInt slotBytes)) :
    Leaves env written recs slotBytes files (writeFiles env files start body manifest).2 := by
  -- what reaches the view is a prefix of the records, whatever fails
  obtain ⟨l, hl, hout, hall⟩ := happends start
  rw [hstart, List.nil_append] at hout
  simp only [writeFiles, hopen]
  rcases hbody : body start with ⟨e | n, t⟩
  · -- the view is not finished
    have hnot : ¬ written := by
      rw [← hwritten]
      rintro ⟨n, t', h⟩
      rw [hbody] at h
      cases h
    obtain ⟨rest, hrest⟩ := hl
    rw [hbody] at hout
    refine ⟨⟨_, rfl, ?_, fun _ => List.length_take_le _ _⟩, fun _ => rfl, fun h => absurd h hnot,
      fun h => absurd h hnot⟩
    refine (List.take_prefix _ _).trans ?_
    rw [show t.records = l from hout, ← hrest, List.flatten_append]
    exact List.prefix_append _ _
  · have hdone : written := hwritten.mp ⟨n, t, hbody⟩
    obtain rfl : l = recs := hall n (by rw [hbody])
    rw [hbody] at hout
    have hview : t.records.flatten <+: l.flatten := by rw [show t.records = l from hout]
    -- the view is finished, and the manifest can fail to open or to be written
    cases hopenM : env.fails .openManifest with
    | some e =>
      exact ⟨⟨_, rfl, hview, fun h => absurd hdone h⟩, fun _ => rfl,
        fun _ h => absurd h (by simp [BuildEnv.Works, hopenM]),
        fun _ h => absurd h (by simp [BuildEnv.Works, hopenM])⟩
    | none =>
      have hworks : ¬ (¬ written ∨ ¬ env.Works .openManifest) := by
        rintro (h | h)
        · exact h hdone
        · exact h hopenM
      cases hwriteM : env.fails .writeManifest with
      | some e =>
        exact ⟨⟨_, rfl, hview, fun h => absurd hdone h⟩, fun h => absurd h hworks, fun _ _ _ => rfl,
          fun _ _ h => absurd h (by simp [BuildEnv.Works, hwriteM])⟩
      | none =>
        exact ⟨⟨_, rfl, hview, fun h => absurd hdone h⟩, fun h => absurd h hworks,
          fun _ _ h => absurd hwriteM h, fun _ _ _ => ⟨_, rfl, hmanifest n⟩⟩

end Files

/-! ### The three builders -/

section Bodies

variable {env : BuildEnv} {g : BadgeGather} {slotBytes : UInt64} {keysOut : Option String}
  {keys : List ℕ} {lines : List (Except IoError (List Char))}

/-- A build from random keys appends the records of these keys, and stops with some of them if a
call fails. -/
private theorem appends_writeRandomView {n : ℕ} (hfits : Fits g (randomKeys n 0xDEADBEEF12345678)) :
    Effect.Appends Writer.records (writeRandomView env g n slotBytes)
      (viewRecords g slotBytes (randomKeys n 0xDEADBEEF12345678)) := by
  rw [writeRandomView, writeRandom_eq env g slotBytes n n (Nat.le_refl n),
    ← List.append_nil (viewRecords g slotBytes _)]
  refine (appends_writeChunks hfits).bind fun _ => ?_
  exact (appends_call .flush).bind fun _ => Effect.appends_nil fun _ => rfl

/-- A build from random keys in which all calls work makes those of its chunks and a flush. -/
theorem makes_writeRandomView {n : ℕ} (hslot : RECORD_BYTES ≤ slotBytes.toNat)
    (hfits : Fits g (randomKeys n 0xDEADBEEF12345678)) :
    Effect.Makes env.Works (writeRandomView env g n slotBytes) ⟨[], keysOut.map fun _ => []⟩
      (chunksCalls 0 (keysOut.map fun _ => 0)
        (Chunking.chunks CHUNK_ROWS (randomKeys n 0xDEADBEEF12345678)) ++ [.flush]) (n * HEAD_W)
      ⟨viewRecords g slotBytes (randomKeys n 0xDEADBEEF12345678),
        keysOut.map fun _ => randomKeys n 0xDEADBEEF12345678⟩ := by
  have hchunks := makes_writeChunks env hslot hfits ⟨[], keysOut.map fun _ => []⟩
  simp only [Writer.append, List.length_nil, Option.map_map, Function.comp_def,
    List.nil_append] at hchunks
  rw [writeRandomView, writeRandom_eq env g slotBytes n n (Nat.le_refl n)]
  exact hchunks.bind ((makes_call env .flush _).bind (Effect.makes_nil rfl))

/-- A build from a list of keys appends the records of these keys. -/
private theorem appends_writeKeysView (hfits : Fits g keys) :
    Effect.Appends Writer.records (writeKeysView env g keys slotBytes keysOut)
      (viewRecords g slotBytes keys) := by
  rw [writeKeysView, ← List.nil_append (viewRecords g slotBytes keys)]
  refine (appends_createKeys keysOut).bind fun _ => ?_
  rw [← List.append_nil (viewRecords g slotBytes keys)]
  refine (appends_writeChunks hfits).bind fun _ => ?_
  exact (appends_call .flush).bind fun _ => Effect.appends_nil fun _ => rfl

/-- A build from the lines of a file appends the records of the keys on them. -/
private theorem appends_writeLinesView (hfits : Fits g (linesKeys lines)) :
    Effect.Appends Writer.records (writeLinesView env g lines slotBytes keysOut)
      (viewRecords g slotBytes (linesKeys lines)) := by
  have hempty : ([] : List ℕ).length < CHUNK_ROWS := CHUNK_ROWS_pos
  rw [writeLinesView, ← List.nil_append (viewRecords g slotBytes (linesKeys lines))]
  refine (appends_createKeys keysOut).bind fun _ => ?_
  rw [← bind_assoc, ← List.append_nil (viewRecords g slotBytes (linesKeys lines))]
  refine (appends_readLines hfits hempty 0).bind fun total => ?_
  split_ifs
  · exact Effect.appends_of_error (fun _ => rfl) (fun _ _ h => by cases h) _
  · exact (appends_call .flush).bind fun _ => Effect.appends_nil fun _ => rfl

/-- The view of the row ids of lines is written iff all lines can be read, they have whole grams
together, at least one, and the calls work. -/
private theorem writeLinesView_ok_iff (hslot : RECORD_BYTES ≤ slotBytes.toNat)
    (hfits : Fits g (linesKeys lines)) :
    (∃ n t, writeLinesView env g lines slotBytes keysOut ⟨[], none⟩ = (.ok n, t)) ↔
      ((∀ line ∈ lines, IsRowidLine line) ∧ HEAD_W ∣ (linesKeys lines).length ∧
        0 < (linesKeys lines).length) ∧ ∀ c ∈ keysCalls keysOut (linesKeys lines), env.Works c := by
  have hmakes := makes_writeKeysView env hslot hfits keysOut
  constructor
  · rintro ⟨n, t, h⟩
    have hlines := writeLinesView_ok h
    rw [writeLinesView_eq env g slotBytes keysOut hlines.1 hlines.2.2 hlines.2.1] at h
    exact ⟨hlines, hmakes.works_of_ok h⟩
  · rintro ⟨⟨hlines, hdvd, hpos⟩, hworks⟩
    rw [writeLinesView_eq env g slotBytes keysOut hlines hpos hdvd]
    exact ⟨_, _, hmakes.returns hworks⟩

end Bodies

namespace ViewBuild

/-- A build that does not come to truncating the view leaves it and its manifest alone. -/
theorem run_of_not_opens (b : ViewBuild) (files : ViewFiles) : ¬ b.Opens →
    (b.run files).2.view = files.view ∧ (b.run files).2.manifest = files.manifest := by
  obtain ⟨table, source, slotBytes, keysOut, env, -, -⟩ := b
  intro h
  cases source with
  | random n =>
    dsimp only [run, buildView]
    rcases hkeys : createKeys env keysOut ⟨[], none⟩ with ⟨fault | u, start⟩
    · exact ⟨rfl, rfl⟩
    · exact writeFiles_of_not_openView fun hopen =>
        h ⟨(makes_createKeys env keysOut).works_of_ok hkeys, hopen⟩
  | keys keys =>
    dsimp only [run, buildViewFromKeys]
    by_cases hdvd : HEAD_W ∣ keys.length
    · rw [if_neg (not_not_intro hdvd)]
      exact writeFiles_of_not_openView fun hopen => h ⟨hdvd, hopen⟩
    · rw [if_pos hdvd]
      exact ⟨rfl, rfl⟩
  | keysFile keysIn =>
    cases keysIn with
    | error e => exact ⟨rfl, rfl⟩
    | ok lines => exact writeFiles_of_not_openView fun hopen => h ⟨⟨lines, rfl⟩, hopen⟩

/-- What a build that truncates the view leaves. -/
theorem leaves_run (b : ViewBuild) (files : ViewFiles) : b.Opens →
    Leaves b.env b.Written b.records b.slotBytes files (b.run files).2 := by
  rw [records_eq]
  obtain ⟨table, source, slotBytes, keysOut, env, hserves, hslot⟩ := b
  rintro ⟨hsource, hopen⟩
  cases source with
  | random n =>
    have hkeys := (makes_createKeys env keysOut).returns hsource
    simp only [run, buildView, hkeys]
    refine leaves_writeFiles hopen (appends_writeRandomView hserves.toFits) rfl ?_ fun _ => rfl
    rw [(makes_writeRandomView hslot hserves.toFits).ok_iff]
    exact (and_iff_right trivial).symm
  | keys keys =>
    rw [show run _ files = buildViewFromKeys env table keys slotBytes keysOut files from rfl,
      buildViewFromKeys, if_neg (not_not_intro hsource)]
    refine leaves_writeFiles hopen (appends_writeKeysView hserves.toFits) rfl ?_ fun _ => rfl
    rw [(makes_writeKeysView env hslot hserves.toFits keysOut).ok_iff]
    exact (and_iff_right trivial).symm
  | keysFile keysIn =>
    obtain ⟨lines, rfl⟩ := hsource
    exact leaves_writeFiles hopen (appends_writeLinesView hserves.toFits) rfl
      (writeLinesView_ok_iff hslot hserves.toFits) fun _ => rfl

end ViewBuild

/-! ### Runs -/

namespace ViewBuild

/-- Bytes of the view when it is complete. -/
def viewBytes (b : ViewBuild) : ℕ := b.grams.length * b.slotBytes.toNat

/-- A manifest has the slot width of the build, or at least `left` bytes have no two slots of the
width that it has, or it has one gram. -/
def Agrees (b : ViewBuild) (manifest : Option Json.Value) (left : ℕ) : Prop :=
  b.slotBytes = (slotOf ⟨none, manifest, none⟩).1 ∨
    left < 2 * (slotOf ⟨none, manifest, none⟩).1.toNat ∨
    (slotOf ⟨none, manifest, none⟩).2 = 1

variable {b : ViewBuild}

/-- A manifest that agrees with the records on the disk agrees when fewer are left. -/
theorem Agrees.of_le {manifest : Option Json.Value} {left left' : ℕ} (h : b.Agrees manifest left)
    (hle : left' ≤ left) : b.Agrees manifest left' :=
  h.imp_right fun h => h.imp_left fun h => Nat.lt_of_le_of_lt hle h

/-- Every record of a build fills one slot. -/
theorem length_of_mem_records {rec : Bytes} (h : rec ∈ b.records) :
    rec.length = b.slotBytes.toNat := by
  rw [records_eq] at h
  exact b.serves.length_of_mem_viewRecords b.slot_le h

/-- The records of a build have the bytes of its view together. -/
theorem length_flatten_records : b.records.flatten.length = b.viewBytes := by
  rw [length_flatten fun _ h => length_of_mem_records h, viewBytes, records, List.length_map]

/-- The slots of a build have the rows of their grams at their starts. -/
private theorem take_drop_records {i : ℕ} {gram : List ℕ} (h : b.grams[i]? = some gram) :
    (b.records.flatten.drop (i * b.slotBytes.toNat)).take RECORD_BYTES = gramRows b.table gram := by
  have hgram := b.serves.length_gramRows (List.mem_of_getElem? h)
  have hrec : b.records[i]? = some (padded b.slotBytes (gramRows b.table gram)) := by
    rw [records, List.getElem?_map, h]
    rfl
  obtain ⟨hlt, heq⟩ := List.getElem?_eq_some_iff.mp hrec
  rw [drop_flatten fun _ hp => length_of_mem_records hp, List.drop_eq_getElem_cons hlt, heq,
    List.flatten_cons, padded, List.append_assoc, ← hgram, List.take_left]

end ViewBuild

/-- A path and the builds to it so far. -/
structure ViewPath where
  /-- The files. -/
  files : ViewFiles
  /-- The builds, first to last. -/
  builds : List ViewBuild

namespace ViewPath

/-- No files yet. -/
def start : ViewPath := ⟨noFiles, []⟩

/-- One more build, which may fail. -/
def step (s : ViewPath) (b : ViewBuild) : Option ViewPath :=
  some ⟨(b.run s.files).2, s.builds ++ [b]⟩

/-- If the view can be opened, then there is one build whose grams all its records are. -/
def ServesOneBuild (s : ViewPath) : Prop :=
  ∀ r, ViewReader.openFiles s.files = .ok r → ∃ b ∈ s.builds, ∀ i < r.count, ∃ gram,
    b.grams[i]? = some gram ∧ ∀ os : Pread, os.Delivers → ∀ buf : Bytes, RECORD_BYTES ≤ buf.length →
      ∃ n out, r.readRecord os i buf = (.ok n, out) ∧ out.take RECORD_BYTES = gramRows b.table gram

/-- A build that truncates the view and does not write its manifest leaves bytes that the manifest
it leaves agrees with. -/
structure Safe (s : ViewPath) (b : ViewBuild) : Prop where
  /-- The view is not finished. -/
  unwritten : b.Opens → ¬ b.Written → b.Agrees s.files.manifest (min b.viewBytes b.env.viewKept)
  /-- The manifest cannot be opened. -/
  unopened : b.Opens → b.Written → ¬ b.env.Works .openManifest →
    b.Agrees s.files.manifest b.viewBytes
  /-- The manifest is cut off. -/
  cut : b.Opens → b.Written → b.env.Works .openManifest → ¬ b.env.Works .writeManifest →
    b.Agrees (some .null) b.viewBytes

/-- The view is a part of the slots of one build, and the manifest agrees with it. -/
structure Inv (s : ViewPath) : Prop where
  /-- A record fits into a slot. -/
  width_le : RECORD_BYTES ≤ (slotOf s.files).1.toNat
  /-- What the view has is from the start of one build. -/
  holds : ∀ view, s.files.view = some view → ∃ b ∈ s.builds, view <+: b.records.flatten ∧
    b.Agrees s.files.manifest view.length

/-- Before the first build there are no files, and nothing is to hold of them. -/
theorem inv_start : start.Inv := ⟨by decide, fun view h => by cases h⟩

variable {s s' : ViewPath} {b : ViewBuild}

/-- A build that is safe in a state with the invariant (`hinv`, `hsafe`) leads to one with the
invariant, whichever of its calls fail. -/
theorem Inv.step (hinv : s.Inv) (hsafe : s.Safe b) (hstep : s.step b = some s') : s'.Inv := by
  cases hstep
  by_cases hopens : b.Opens
  · have hleaves := b.leaves_run s.files hopens
    obtain ⟨view, hview, hpre, hkept⟩ := hleaves.view
    have hlen : view.length ≤ b.viewBytes := b.length_flatten_records ▸ hpre.length_le
    have hb : b ∈ s.builds ++ [b] := by simp
    -- what is left is a part of this build, so that only the manifest matters
    have hkeeps : ∀ manifest, (b.run s.files).2.manifest = manifest →
        RECORD_BYTES ≤ (slotOf ⟨none, manifest, none⟩).1.toNat → b.Agrees manifest view.length →
        Inv ⟨(b.run s.files).2, s.builds ++ [b]⟩ := by
      rintro manifest rfl hwidth hagrees
      refine ⟨hwidth, fun view' hview' => ⟨b, hb, ?_⟩⟩
      obtain rfl : view = view' := Option.some.inj (hview.symm.trans hview')
      exact ⟨hpre, hagrees⟩
    by_cases hwritten : b.Written
    · by_cases hopen : b.env.Works .openManifest
      · by_cases hwrite : b.env.Works .writeManifest
        · obtain ⟨m, hm, hslot⟩ := hleaves.manifest_written hwritten hopen hwrite
          have hwidth : (slotOf ⟨none, some m, none⟩).1 = b.slotBytes := by
            simp only [slotOf, hslot]
            rfl
          exact hkeeps _ hm (hwidth ▸ b.slot_le) (.inl hwidth.symm)
        · exact hkeeps _ (hleaves.manifest_cut hwritten hopen hwrite) (by decide)
            ((hsafe.cut hopens hwritten hopen hwrite).of_le hlen)
      · exact hkeeps _ (hleaves.manifest_of_not (.inr hopen)) hinv.width_le
          ((hsafe.unopened hopens hwritten hopen).of_le hlen)
    · exact hkeeps _ (hleaves.manifest_of_not (.inl hwritten)) hinv.width_le
        ((hsafe.unwritten hopens hwritten).of_le (Nat.le_min.mpr ⟨hlen, hkept hwritten⟩))
  · -- the files are as before
    obtain ⟨hview, hmanifest⟩ := b.run_of_not_opens s.files hopens
    refine ⟨?_, fun view h => ?_⟩
    · simp only [slotOf, hmanifest]
      exact hinv.width_le
    · obtain ⟨b', hb', hheld⟩ := hinv.holds view (hview ▸ h)
      exact ⟨b', List.mem_append_left _ hb', by rwa [hmanifest]⟩

/-- Where the manifest agrees with a build, the records that can be read are at the slots of the
build: the widths are the same, or only the first record can be read. -/
private theorem index_mul_eq {view : Bytes} {manifest : Option Json.Value}
    (hagrees : b.Agrees manifest view.length)
    {i : ℕ} (hi : i < ViewReader.countOf view (slotOf ⟨none, manifest, none⟩).1
      (slotOf ⟨none, manifest, none⟩).2) :
    i * (slotOf ⟨none, manifest, none⟩).1.toNat = i * b.slotBytes.toNat := by
  have hfile := Nat.lt_of_lt_of_le hi (ViewReader.countOf_le _ _ _)
  -- the slots are as wide as they were, or only the first record is there to be read
  rcases hagrees with hslot | hleft | hgrans
  · rw [hslot]
  · have hone : view.length / (slotOf ⟨none, manifest, none⟩).1.toNat < 2 :=
      Nat.div_lt_of_lt_mul (by rwa [Nat.mul_comm])
    obtain rfl : i = 0 := by omega
    rw [Nat.zero_mul, Nat.zero_mul]
  · rw [hgrans, ViewReader.countOf, if_pos (by decide)] at hi
    have hone : i < (1 : UInt64).toNat := Nat.lt_of_lt_of_le hi (Nat.min_le_right _ _)
    obtain rfl : i = 0 := by
      simp only [UInt64.toNat_one] at hone
      omega
    rw [Nat.zero_mul, Nat.zero_mul]

/-- A view with the invariant serves the records of one build. -/
private theorem Inv.servesOneBuild (hinv : s.Inv) : s.ServesOneBuild := by
  intro r hopen
  cases hview : s.files.view with
  | none =>
    simp only [ViewReader.openFiles, hview] at hopen
    cases hopen
  | some view =>
    obtain ⟨b, hb, hpre, hagrees⟩ := hinv.holds view hview
    rw [ViewReader.openFiles_eq_ok hview] at hopen
    cases hopen
    refine ⟨b, hb, fun i hi => ?_⟩
    have hmul : i * (slotOf s.files).1.toNat = i * b.slotBytes.toNat := index_mul_eq hagrees hi
    have hfits := ViewReader.slot_fits hi
    have hwidth := hinv.width_le
    have hrec := ViewReader.length_record hi
    dsimp only at hfits hrec
    rw [Nat.succ_mul, hmul] at hfits
    -- the record of the build at this place
    have hlt : i < b.grams.length := by
      have hle := hpre.length_le
      rw [b.length_flatten_records, ViewBuild.viewBytes] at hle
      have hpos : 0 < RECORD_BYTES := by decide
      exact Nat.lt_of_mul_lt_mul_right (Nat.lt_of_lt_of_le (by omega) (hfits.trans hle))
    obtain ⟨gram, hgram⟩ : ∃ gram, b.grams[i]? = some gram := ⟨_, List.getElem?_eq_getElem hlt⟩
    refine ⟨gram, hgram, fun os hos buf hbuf => ?_⟩
    have hbuf0 : 0 < buf.length := Nat.lt_of_lt_of_le (by decide) hbuf
    refine ⟨_, _, ViewReader.readRecord_of_delivers hos hi hbuf0, ?_⟩
    have hwant : RECORD_BYTES ≤ min (slotOf s.files).1.toNat buf.length :=
      Nat.le_min.mpr ⟨hwidth, hbuf⟩
    rw [← b.take_drop_records hgram, List.take_append_of_le_length, List.take_take,
      Nat.min_eq_left hwant, ViewReader.record, slot, List.take_take, Nat.min_eq_left hwidth]
    · -- the view has it
      dsimp only
      rw [hmul]
      obtain ⟨rest, hrest⟩ := hpre
      rw [← hrest, List.drop_append_of_le_length (by omega), List.take_append_of_le_length]
      rw [List.length_drop]
      omega
    · rw [List.length_take, hrec]
      exact Nat.le_min.mpr ⟨hwant, hwidth⟩

/-- In every run of builds each of which is safe in the state in which it starts (`h`), the view
serves the records of one build after every build, whichever of their calls fail. -/
theorem servesOneBuild_of_safe {builds : List ViewBuild}
    (h : Machine.AlongSteps step Safe start builds) :
    Machine.Along step ServesOneBuild start builds :=
  (Machine.along_of_alongSteps (fun _ _ _ hinv hsafe hstep => hinv.step hsafe hstep)
    inv_start h).imp
    fun _ hinv => hinv.servesOneBuild

/-- A build in which nothing fails and whose row ids can all be read is safe. -/
private theorem safe_of_faultless (henv : b.env.Faultless) (hcomplete : b.Complete) (s : ViewPath) :
    s.Safe b where
  unwritten _ h := absurd ⟨hcomplete, fun c _ => henv.works c⟩ h
  unopened _ _ h := absurd (henv.works _) h
  cut _ _ _ h := absurd (henv.works _) h

/-- A build of grams of the only row serves them. -/
theorem serves_sevens (n : ℕ) : Serves sevens (List.replicate n 0) where
  toFits := fits_sevens n
  width_eq_rowBytes := rfl
  full := preadvBackend_full fullPread_full
  holds k hk := by
    rw [List.eq_of_mem_replicate hk]
    have hlen : (List.replicate 160 (7 : UInt8)).length = 160 := List.length_replicate
    exact Nat.le_of_eq hlen.symm

/-- A build of two grams of sevens. -/
def twoGrams (slotBytes : UInt64) (hslot : RECORD_BYTES ≤ slotBytes.toNat) (env : BuildEnv) :
    ViewBuild where
  table := sevens
  source := .keys (List.replicate 32 0)
  slotBytes := slotBytes
  keysOut := none
  env := env
  serves := serves_sevens 32
  slot_le := hslot

/-- The build of two grams of the only row, as a run. -/
theorem run_twoGrams {slotBytes : UInt64} (hslot : RECORD_BYTES ≤ slotBytes.toNat) (env : BuildEnv)
    (files : ViewFiles) : (twoGrams slotBytes hslot env).run files =
      buildViewFromKeys env sevens (List.replicate 32 0) slotBytes none files := rfl

theorem servesOneBuild_of_safe_twoGrams :
    Machine.Along step ServesOneBuild start [twoGrams 2560 (by decide) faultlessEnv,
      twoGrams 4096 (by decide) faultlessEnv] := by
  have hsafe : ∀ slotBytes hslot s, Safe s (twoGrams slotBytes hslot faultlessEnv) := by
    intro slotBytes hslot s
    have hcomplete : (twoGrams slotBytes hslot faultlessEnv).Complete := trivial
    exact safe_of_faultless faultless_faultlessEnv hcomplete s
  exact servesOneBuild_of_safe fun _ _ => ⟨hsafe _ _ _, fun _ _ => ⟨hsafe _ _ _, trivial⟩⟩

/-- The manifest cannot be opened. -/
def fullDisk : BuildEnv where
  sched _ := Schedule.inOrder _
  fails c := if c = .openManifest then some (.os 28) else none
  describe _ := "No space left on device (os error 28)"
  viewKept := 0
  keysKept := none

/-- Two builds run one after another, the second over the files of the first. -/
theorem run_two (b b' : ViewBuild) : Machine.run step start [b, b'] =
    some ⟨(b'.run (b.run noFiles).2).2, [b, b']⟩ := rfl

/-- What a build leaves that cannot open the manifest: its view, and the manifest that was there. -/
private theorem buildViewFromKeys_of_not_openManifest {env : BuildEnv} {g : BadgeGather}
    {slotBytes : UInt64}
    {keys : List ℕ} (hslot : RECORD_BYTES ≤ slotBytes.toNat) (hfits : Fits g keys)
    (hdvd : HEAD_W ∣ keys.length) (hopen : env.Works .openView)
    (hcalls : ∀ c ∈ keysCalls none keys, env.Works c) {e : IoError}
    (hmanifest : env.fails .openManifest = some e) (files : ViewFiles) :
    (buildViewFromKeys env g keys slotBytes none files).2 =
      ⟨some (viewRecords g slotBytes keys).flatten, files.manifest, files.keys⟩ := by
  have hbody := (makes_writeKeysView env hslot hfits none).returns hcalls
  rw [buildViewFromKeys, if_neg (not_not_intro hdvd)]
  simp only [writeFiles, hopen, hbody, hmanifest]
  rfl

/-- The view of slots of 4096 bytes has zeros where a slot of 2560 bytes starts. -/
private theorem wideSlots_view (hslot : RECORD_BYTES ≤ (4096 : UInt64).toNat) :
    (viewRecords sevens 4096 (List.replicate 32 0)).flatten.length = 8192 ∧
      (viewRecords sevens 4096 (List.replicate 32 0)).flatten[2560]? = some 0 := by
  have hwidth : ∀ p ∈ viewRecords sevens 4096 (List.replicate 32 0), p.length = 4096 :=
    fun p hp => (serves_sevens 32).length_of_mem_viewRecords hslot hp
  have hslots :
      slots HEAD_W (List.replicate 32 0) = List.replicate 2 (List.replicate 16 0) := by decide
  have hgram : (gramRows sevens (List.replicate 16 0)).length = RECORD_BYTES :=
    (serves_sevens 32).length_gramRows
      (by rw [hslots]; exact List.mem_replicate.mpr ⟨by decide, rfl⟩)
  refine ⟨?_, ?_⟩
  · rw [length_flatten hwidth, length_viewRecords, List.length_replicate]
    rfl
  · have hpadded : (padded 4096 (gramRows sevens (List.replicate 16 0)))[2560]? = some 0 := by
      rw [padded, List.getElem?_append_right (show _ ≤ 2560 from Nat.le_of_eq hgram), hgram]
      exact List.getElem?_replicate_of_lt (by decide)
    rw [getElem?_flatten hwidth 2560, viewRecords_eq (serves_sevens 32), hslots, List.map_replicate,
      Nat.div_eq_of_lt (by decide), Nat.mod_eq_of_lt (by decide)]
    exact hpadded

/-- Slots of 4096 bytes under a manifest for slots of 2560: the second record that is served starts
in the padding of the first. -/
theorem not_servesOneBuild_wideSlots : ∃ s, Machine.run step start
    [twoGrams 2560 (by decide) faultlessEnv, twoGrams 4096 (by decide) fullDisk] = some s ∧
      ¬ s.ServesOneBuild := by
  have hnarrow : RECORD_BYTES ≤ (2560 : UInt64).toNat := by decide
  have hwide : RECORD_BYTES ≤ (4096 : UInt64).toNat := by decide
  have hdvd : HEAD_W ∣ (List.replicate 32 0).length := by decide
  obtain ⟨manifest, hfirst, hslotOf⟩ : ∃ manifest,
      ((twoGrams 2560 hnarrow faultlessEnv).run noFiles).2.manifest = some manifest ∧
        ∀ view keys, slotOf ⟨view, some manifest, keys⟩ = (2560, 2) := by
    rw [run_twoGrams, buildViewFromKeys_eq_ok faultless_faultlessEnv hnarrow (fits_sevens 32) hdvd]
    exact ⟨_, rfl, fun _ _ => rfl⟩
  have hsecond := buildViewFromKeys_of_not_openManifest hwide (fits_sevens 32) hdvd
    (show fullDisk.Works .openView from rfl)
      (by decide) rfl ((twoGrams 2560 hnarrow faultlessEnv).run noFiles).2
  rw [← run_twoGrams hwide, hfirst] at hsecond
  obtain ⟨hlen, hbyte⟩ := wideSlots_view hwide
  generalize (viewRecords sevens 4096 (List.replicate 32 0)).flatten = flat at hsecond hlen hbyte
  have hrun :
      Machine.run step start [twoGrams 2560 hnarrow faultlessEnv, twoGrams 4096 hwide fullDisk] =
        some ⟨⟨some flat, some manifest, ((twoGrams 2560 hnarrow faultlessEnv).run noFiles).2.keys⟩,
          [twoGrams 2560 hnarrow faultlessEnv, twoGrams 4096 hwide fullDisk]⟩ := by
    rw [run_two, hsecond]
  refine ⟨_, hrun, fun hserves => ?_⟩
  -- the reader finds two records of 2560 bytes
  obtain ⟨r, hopen, hfile, hslot, hcount⟩ : ∃ r, ViewReader.openFiles ⟨some flat, some manifest,
      ((twoGrams 2560 hnarrow faultlessEnv).run noFiles).2.keys⟩ = .ok r ∧ r.file = flat ∧
        r.slotBytes = 2560 ∧ 1 < r.count := by
    refine ⟨_, ViewReader.openFiles_eq_ok rfl, rfl, by rw [hslotOf], ?_⟩
    simp only [hslotOf, ViewReader.countOf, hlen]
    decide
  obtain ⟨b, hb, hall⟩ := hserves r hopen
  obtain ⟨gram, hgram, hread⟩ := hall 1 hcount
  have hbuf : (List.replicate 2560 (0 : UInt8)).length = r.slotBytes.toNat := by
    rw [List.length_replicate, hslot]
    rfl
  obtain ⟨n, out, hrec, htake⟩ := hread fullPread fullPread_full.delivers (List.replicate 2560 0)
    (by rw [List.length_replicate]; decide)
  rw [ViewReader.readRecord_eq_readSlot _ hcount hbuf,
    ViewReader.readSlot_eq_ok fullPread_full.delivers hcount hbuf] at hrec
  cases hrec
  -- the first byte is one of padding, and that of the gram is a seven
  have hserved : (gramRows b.table gram)[0]? = some 0 := by
    rw [← htake, List.getElem?_take_of_lt (by decide), ViewReader.record, hslot,
      hfile, getElem?_slot]
    exact hbyte
  have hseven : (gramRows b.table gram)[0]? = some 7 := by
    obtain ⟨htable, hgrams⟩ :
        b.table = sevens ∧ b.grams = List.replicate 2 (List.replicate 16 0) := by
      have hslots :
          slots HEAD_W (List.replicate 32 0) = List.replicate 2 (List.replicate 16 0) := by decide
      simp only [List.mem_cons, List.not_mem_nil, or_false] at hb
      rcases hb with rfl | rfl <;> exact ⟨rfl, hslots⟩
    rw [hgrams] at hgram
    rw [htable, List.eq_of_mem_replicate (List.mem_of_getElem? hgram)]
    rfl
  rw [hserved] at hseven
  cases hseven

end ViewPath

end View

end EngramDB
