import EngramDB.V41.HashState

/-!
# Runs of the V4.1 hash state

The cache holds what earlier calls wrote, and what was in the memory before. A caller goes on where
a sequence ends, goes back to an earlier position, or starts a new sequence at position zero. The
reference machine keeps the sequences themselves instead of a cache; what a call gives there for a
position is the hash of the live window of the sequence up to it.

* `forward_eq_feed`: a call that goes on inside the sequences gives what the reference machine
  gives;
* `run_eq`: so does every run of such calls, whatever the cache holds at the start.
-/

namespace EngramDB

namespace V41

open SlotBuffer LiveWindow

/-- The sequences with a part behind `startPos` replaced. -/
def replaceFrom (streams : List (List ℤ)) (startPos : ℕ) (compressed : List (List ℤ)) :
    List (List ℤ) :=
  List.zipWith (fun stream new => stream.take startPos ++ new) streams compressed ++
    streams.drop compressed.length

namespace HashTables

variable (tables : HashTables) (columns : List ℤ → List (List ℤ))

/-- The ids of the positions that a call covers, from the sequence itself. -/
def streamIds (startPos seqlen : ℕ) (stream : List ℤ) : List (List (List ℤ)) :=
  (List.range' startPos seqlen).map fun p =>
    columns (window DEAD tables.padId tables.layout.maxNgramSize (stream.take (p + 1)).reverse)

/-- A call of the reference machine, for sequences of up to `width` tokens. The ids of the tokens
seen from a position are `columns`. -/
def feed (width : ℕ) (streams : List (List ℤ)) (input : HashInput) (startPos : ℕ) :
    Py (List (List (List (List ℤ)))) × List (List ℤ) :=
  match compress tables.tokenMap input with
  | .error e => (.error e, streams)
  | .ok compressed =>
    if compressed.length ≤ streams.length ∧ (∀ new ∈ compressed, new.length = input.seqlen) ∧
        (0 < input.seqlen → startPos + input.seqlen ≤ width) then
      let streams := replaceFrom streams startPos compressed
      if tables.layout.maxNgramSize < 2 then (.error sizeError, streams)
      else (.ok ((streams.take compressed.length).map
        (tables.streamIds columns startPos input.seqlen)), streams)
    else (.error sizeError, streams)

/-- The results of a run of the reference machine. -/
def run (width : ℕ) : List (List ℤ) → List (HashInput × ℕ) →
    List (Py (List (List (List (List ℤ)))))
  | _, [] => []
  | streams, (input, startPos) :: calls =>
    let (out, streams) := tables.feed columns width streams input startPos
    out :: run width streams calls

/-- Every sequence of the batch reaches up to where the call starts. -/
def Continues (streams : List (List ℤ)) (input : HashInput) (startPos : ℕ) : Prop :=
  ∀ stream ∈ streams.take input.inputIds.length, startPos ≤ stream.length

/-- Every call of a run goes on inside the sequences that the calls before it left. -/
def ContinuesAlong (width : ℕ) : List (List ℤ) → List (HashInput × ℕ) → Prop
  | _, [] => True
  | streams, (input, startPos) :: calls =>
    Continues streams input startPos ∧
      ContinuesAlong width (tables.feed columns width streams input startPos).2 calls

instance (streams : List (List ℤ)) (input : HashInput) (startPos : ℕ) :
    Decidable (Continues streams input startPos) := by
  unfold Continues
  infer_instance

instance decidableContinuesAlong (width : ℕ) :
    (streams : List (List ℤ)) → (calls : List (HashInput × ℕ)) →
      Decidable (tables.ContinuesAlong columns width streams calls)
  | _, [] => .isTrue trivial
  | streams, (input, startPos) :: calls =>
    have := decidableContinuesAlong width (tables.feed columns width streams input startPos).2 calls
    inferInstanceAs (Decidable (Continues streams input startPos ∧ _))

end HashTables

/-- The results of a run of the module. -/
def NgramHashState.run : NgramHashState → List (HashInput × ℕ) →
    List (Py (List (List (List (List ℤ)))))
  | _, [] => []
  | state, (input, startPos) :: calls =>
    let (out, state) := state.forward input startPos
    out :: state.run calls

/-- The rows of the cache begin with the sequences. -/
def Cache.Records (cache : Cache) (streams : List (List ℤ)) : Prop :=
  List.Forall₂ (fun row stream => stream <+: row) cache.rows streams

section Step

variable {row stream new : List ℤ} {startPos seqlen : ℕ}

/-- A row that is overwritten inside its sequence begins with the new sequence. -/
theorem take_append_prefix_store (h : stream <+: row) (hstart : startPos ≤ stream.length) :
    stream.take startPos ++ new <+: store row startPos new := by
  have htake : row.take startPos = stream.take startPos := by
    obtain ⟨rest, rfl⟩ := h
    rw [List.take_append_of_le_length hstart]
  rw [store, htake]
  exact List.prefix_append _ _

/-- What is read off a row that begins with a sequence is what the sequence gives. -/
private theorem rowIds_eq_streamIds (state : NgramHashState) (h : stream <+: row)
    (hlen : startPos + seqlen ≤ stream.length) :
    state.rowIds startPos seqlen row =
      state.toHashTables.streamIds state.columns startPos seqlen stream := by
  refine List.map_congr_left fun p hp => ?_
  have hp' := List.mem_range'_1.mp hp
  have hle := h.length_le
  have htake : row.take (p + 1) = stream.take (p + 1) := by
    obtain ⟨rest, rfl⟩ := h
    rw [List.take_append_of_le_length (by omega)]
  rw [scan_eq_window (by omega), htake]

end Step

/-- Rows that begin with the sequences are written to rows that begin with the replaced ones. -/
private theorem forall₂_prefix_replaceFrom {rows streams compressed : List (List ℤ)} {startPos : ℕ}
    (h : List.Forall₂ (fun row stream => stream <+: row) rows streams)
    (hlen : compressed.length ≤ rows.length)
    (hstart : ∀ stream ∈ streams.take compressed.length, startPos ≤ stream.length) :
    List.Forall₂ (fun row stream => stream <+: row) (writeRows rows startPos compressed)
      (replaceFrom streams startPos compressed) := by
  induction compressed generalizing rows streams with
  | nil => simpa [writeRows, replaceFrom] using h
  | cons new compressed ih =>
    cases h with
    | nil => simp at hlen
    | cons hrow hrest =>
      refine List.Forall₂.cons ?_ (ih hrest (by simpa using hlen) fun stream hmem => ?_)
      · exact take_append_prefix_store hrow (hstart _ (by simp))
      · exact hstart stream (by simp [hmem])

/-- In the rows of the batch, the sequences end where the call does. -/
private theorem forall₂_take_replaceFrom {rows streams compressed : List (List ℤ)}
    {startPos seqlen : ℕ} (h : List.Forall₂ (fun row stream => stream <+: row) rows streams)
    (hlen : compressed.length ≤ rows.length)
    (hstart : ∀ stream ∈ streams.take compressed.length, startPos ≤ stream.length)
    (hcols : ∀ new ∈ compressed, new.length = seqlen) :
    List.Forall₂ (fun row stream => stream <+: row ∧ stream.length = startPos + seqlen)
      ((writeRows rows startPos compressed).take compressed.length)
      ((replaceFrom streams startPos compressed).take compressed.length) := by
  induction compressed generalizing rows streams with
  | nil => exact List.Forall₂.nil
  | cons new compressed ih =>
    cases h with
    | nil => simp at hlen
    | @cons row stream rows streams hrow hrest =>
      have hhead : startPos ≤ stream.length := hstart stream (by simp)
      refine List.Forall₂.cons ⟨take_append_prefix_store hrow hhead, ?_⟩
        (ih hrest (by simpa using hlen) (fun stream hmem => ?_) fun new hmem => ?_)
      · rw [List.length_append, List.length_take, Nat.min_eq_left hhead, hcols new (by simp)]
      · exact hstart stream (by simp [hmem])
      · exact hcols new (by simp [hmem])

section Refinement

variable {state : NgramHashState} {streams : List (List ℤ)} {input : HashInput} {startPos : ℕ}

/-- A call that goes on inside the sequences gives what the reference machine gives, and leaves a
cache that begins with the sequences it leaves. -/
theorem forward_eq_feed (h : state.cache.Records streams)
    (hcont : HashTables.Continues streams input startPos) :
    (state.forward input startPos).1 =
        (state.toHashTables.feed state.columns state.cache.width streams input startPos).1 ∧
      (state.forward input startPos).2.toHashTables = state.toHashTables ∧
      (state.forward input startPos).2.cache.width = state.cache.width ∧
      (state.forward input startPos).2.cache.Records
        (state.toHashTables.feed state.columns state.cache.width streams input startPos).2 := by
  have hrows : state.cache.rows.length = streams.length := h.length_eq
  rw [NgramHashState.forward, HashTables.feed]
  cases hcompress : compress state.tokenMap input with
  | error e => exact ⟨rfl, rfl, rfl, h⟩
  | ok compressed =>
    by_cases hfits : state.cache.Fits startPos input.seqlen compressed
    · have hfits' := hfits
      rw [Cache.Fits, hrows] at hfits'
      have hstart : ∀ stream ∈ streams.take compressed.length, startPos ≤ stream.length := by
        intro stream hmem
        refine hcont stream (List.mem_of_mem_take (i := compressed.length) ?_)
        rwa [List.take_take, Nat.min_eq_left (length_compress hcompress).le]
      have hrecords := forall₂_prefix_replaceFrom h hfits.1 hstart
      simp only [dif_pos hfits, if_pos hfits']
      split_ifs
      · exact ⟨rfl, rfl, rfl, hrecords⟩
      · refine ⟨congrArg Except.ok ?_, rfl, rfl, hrecords⟩
        -- row by row, what is read off the cache is what the sequence gives
        have hbatch := forall₂_take_replaceFrom h hfits.1 hstart hfits.2.1
        rw [← List.forall₂_eq_eq_eq, List.forall₂_map_left_iff, List.forall₂_map_right_iff]
        exact hbatch.imp fun row stream hrow => rowIds_eq_streamIds _ hrow.1 hrow.2.ge
    · have hfits' := hfits
      rw [Cache.Fits, hrows] at hfits'
      simp only [dif_neg hfits, if_neg hfits']
      exact ⟨trivial, trivial, trivial, h⟩

/-- Whatever the cache holds at the start, a run of calls that each go on inside the sequences gives
what the reference machine gives. -/
theorem run_eq_of_records {calls : List (HashInput × ℕ)} (h : state.cache.Records streams)
    (hcont : state.toHashTables.ContinuesAlong state.columns state.cache.width streams calls) :
    state.run calls = state.toHashTables.run state.columns state.cache.width streams calls := by
  induction calls generalizing state streams with
  | nil => rfl
  | cons call calls ih =>
    obtain ⟨input, startPos⟩ := call
    obtain ⟨hhead, hrest⟩ := hcont
    obtain ⟨hout, htables, hwidth, hrecords⟩ := forward_eq_feed h hhead
    show (state.forward input startPos).1 :: (state.forward input startPos).2.run calls =
      (state.toHashTables.feed state.columns state.cache.width streams input startPos).1 ::
        state.toHashTables.run state.columns state.cache.width
          (state.toHashTables.feed state.columns state.cache.width streams input startPos).2 calls
    have hnext : (state.forward input startPos).2.toHashTables.ContinuesAlong
        (state.forward input startPos).2.columns (state.forward input startPos).2.cache.width
        (state.toHashTables.feed state.columns state.cache.width streams input startPos).2
        calls := by
      rw [htables, hwidth]
      exact hrest
    rw [hout, ih hrecords hnext, htables, hwidth]

end Refinement

/-- Every row of a cache begins with the empty sequence. -/
private theorem records_replicate_nil (cache : Cache) :
    cache.Records (List.replicate cache.rows.length []) := by
  rw [Cache.Records, List.forall₂_iff_get]
  refine ⟨by simp, fun i hi hi' => ?_⟩
  simp

/-- A run from no sequences at all: the results are those of the sequences, whatever was in the
memory of the cache before, and whatever earlier calls left behind the positions gone back to. -/
theorem run_eq (state : NgramHashState) (calls : List (HashInput × ℕ))
    (hcont : state.toHashTables.ContinuesAlong state.columns state.cache.width
      (List.replicate state.cache.rows.length []) calls) :
    state.run calls = state.toHashTables.run state.columns state.cache.width
      (List.replicate state.cache.rows.length []) calls :=
  run_eq_of_records (records_replicate_nil _) hcont

/-- A batch, a step of its first sequence, and a step that goes back to the second token. -/
def smallCalls : List (HashInput × ℕ) :=
  [(smallInput, 0), (smallStep, 3), (smallStep, 1)]

theorem run_eq_smallCalls :
    smallState.run smallCalls = smallState.toHashTables.run smallState.columns 6 [[], []]
      smallCalls :=
  run_eq smallState smallCalls (by decide)

end V41

end EngramDB
