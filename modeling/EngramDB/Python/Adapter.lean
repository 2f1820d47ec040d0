import EngramDB.Python.PleSequenceStore.Batches

/-!
# The adapter of a model

`PleMemoryAdapter` feeds every row of a batch to the sequence of its id, and puts what the rows give
together as one result. One row of tokens stands for a batch of one.

* `feedRow_eq_ok`, `feedRow_eq_error`: what one turn of the loop does to the store;
* `mapM_feedRow_traces`: after the rows of a batch, the store is what their trace says.
-/

namespace EngramDB

open PleSequenceStore

/-- What one row gives: its bytes, or its tensor. -/
inductive AdapterRow (α : Type) where
  /-- `step.raw`. -/
  | raw (bytes : Bytes)
  /-- `step.e_t`. -/
  | tensor (t : Tensor α)

/-- The tensor, if there is one. -/
def AdapterRow.tensor? {α : Type} : AdapterRow α → Option (Tensor α)
  | raw _ => none
  | tensor t => some t

/-- The tensor of token ids. -/
inductive InputIds where
  /-- One axis: the tokens of one sequence. -/
  | one (tokens : List ℤ)
  /-- Two axes: rows of one length. -/
  | two (width : ℕ) (rows : List (List ℤ)) (length_row : ∀ row ∈ rows, row.length = width)

namespace InputIds

/-- Whether there is one axis. -/
def was1d : InputIds → Bool
  | one _ => true
  | two .. => false

/-- The rows of the batch: one row of tokens is a batch of one. -/
def rows : InputIds → List (List ℤ)
  | one tokens => [tokens]
  | two _ rows _ => rows

/-- All rows of one matrix of ids have one length. -/
theorem length_eq {input : InputIds} {row row' : List ℤ} (h : row ∈ input.rows)
    (h' : row' ∈ input.rows) :
    row.length = row'.length := by
  cases input with
  | one tokens => rw [List.mem_singleton.mp h, List.mem_singleton.mp h']
  | two width rows length_row => rw [length_row row h, length_row row' h']

end InputIds

namespace PleMemoryAdapter

variable {α σ : Type}

/-- `seq_ids`, by default the places of the rows. -/
def seqIdsOf (batchSize : ℕ) : Option (List ℤ) → Py (List ℤ)
  | none => .ok ((List.range batchSize).map fun b : ℕ => (b : ℤ))
  | some seqIds =>
    if seqIds.length ≠ batchSize then
      .error (.valueError s!"seq_ids length {seqIds.length} != batch size {batchSize}")
    else .ok seqIds

/-- The rows of the batch with their ids. -/
def batch (input : InputIds) (seqIds : Option (List ℤ)) : Py (List (ℤ × List ℤ)) :=
  (seqIdsOf input.rows.length seqIds).map fun ids => ids.zip input.rows

/-- What the loop keeps of an answer. -/
def outputOf (asTensor : Bool) (a : PleStep × Option (Tensor α)) : Py (AdapterRow α) :=
  if asTensor then
    match a.2 with
    | some t => .ok (.tensor t)
    | none => .error (.runtimeError "PleMemoryAdapter failed to produce e_t")
  else .ok (.raw a.1.raw)

/-- One turn of the loop: feed a row to the sequence of its id. -/
def feedRow (mem : PleMemory σ) (fmt : TensorFormat α) (asTensor : Bool) (row : ℤ × List ℤ) :
    PyM (σ × PleSequenceStore ℤ) (AdapterRow α) := do
  let a ← PleSequenceStore.feedAs mem fmt asTensor row.1 row.2
  PyM.lift (outputOf asTensor a)

/-- `torch.stack(outputs, dim=0)`. -/
def stack (outputs : List (AdapterRow α)) : Py (AdapterRow α) :=
  match Tensor.stack (outputs.filterMap AdapterRow.tensor?) with
  | some t => .ok (.tensor t)
  | none => .error (.runtimeError "stack expects each tensor to be equal size")

/-- `out.squeeze(0)`. -/
def squeeze : AdapterRow α → AdapterRow α
  | .tensor t => .tensor t.squeeze
  | .raw bytes => .raw bytes

/-- The result that is put together from what the rows gave. Without rows it is an empty list. -/
def assemble (was1d asTensor : Bool) (outputs : List (AdapterRow α)) : Py (Option (AdapterRow α)) :=
  match outputs with
  | [] => .ok none
  | first :: rest => do
    let out ← if asTensor ∧ 1 < (first :: rest).length then stack (first :: rest) else .ok first
    .ok (some (if was1d ∧ asTensor then squeeze out else out))

/-- `forward(input_ids, seq_ids, as_tensor=…)`. -/
def forward (mem : PleMemory σ) (fmt : TensorFormat α) (input : InputIds) (seqIds : Option (List ℤ))
    (asTensor : Bool) : PyM (σ × PleSequenceStore ℤ) (Option (AdapterRow α)) := do
  let rows ← PyM.lift (batch input seqIds)
  let outputs ← rows.mapM (feedRow mem fmt asTensor)
  PyM.lift (assemble input.was1d asTensor outputs)

variable {mem : PleMemory σ} {fmt : TensorFormat α} {asTensor : Bool} {s s' : σ}
  {store store' : PleSequenceStore ℤ} {row : ℤ × List ℤ}

/-- The rows of a batch are rows of the input. -/
theorem mem_rows_of_batch {input : InputIds} {seqIds : Option (List ℤ)} {rows : List (ℤ × List ℤ)}
    (h : batch input seqIds = .ok rows) (hrow : row ∈ rows) : row.2 ∈ input.rows := by
  unfold batch at h
  cases hids : seqIdsOf input.rows.length seqIds with
  | error e =>
    rw [hids] at h
    cases h
  | ok ids =>
    rw [hids] at h
    cases h
    exact (List.of_mem_zip hrow).2

/-- A row that gives something has been answered from the sequence of its id, which is left as it is
after the step. -/
theorem feedRow_eq_ok {out : AdapterRow α}
    (h : feedRow mem fmt asTensor row (s, store) = (.ok out, (s', store'))) :
    ∃ a, PleSequence.answer mem fmt asTensor (store.find mem row.1).history row.2 s = (.ok a, s') ∧
      outputOf asTensor a = .ok out ∧
        Leaves store row.1 ((store.find mem row.1).after mem a.1) store' := by
  obtain ⟨a, ⟨t, store₁⟩, hfeed, hout⟩ := PyM.bind_eq_ok_iff.mp h
  rw [PyM.lift_apply, Prod.mk.injEq, Prod.mk.injEq] at hout
  obtain ⟨hout, rfl, rfl⟩ := hout
  obtain ⟨hanswer, hleaves⟩ := feedAs_eq_ok hfeed
  exact ⟨a, hanswer, hout, hleaves⟩

/-- The context of the sequence whose row was fed (`h`) has that row behind it. -/
private theorem context_of_feedRow {out : AdapterRow α}
    (h : feedRow mem fmt asTensor row (s, store) = (.ok out, (s', store'))) :
    ∃ seq, Leaves store row.1 seq store' ∧
      seq.context = [row.2].foldl (PleSequence.feedTokens mem) (store.find mem row.1).context := by
  obtain ⟨⟨step, eT⟩, hanswer, -, hleaves⟩ := feedRow_eq_ok h
  refine ⟨_, hleaves, ?_⟩
  rw [PleSequence.context_after, (PleSequence.answer_eq_ok hanswer).1]
  rfl

/-- After rows that give something, the store is what their trace says. -/
theorem mapM_feedRow_traces {store₀ : PleSequenceStore ℤ} {x : BatchTrace ℤ}
    {rows : List (ℤ × List ℤ)} {outputs : List (AdapterRow α)} (h : x.Traces mem store₀ store)
    (hrun : rows.mapM (feedRow mem fmt asTensor) (s, store) = (.ok outputs, (s', store'))) :
    (x.feedRows store₀.maxSequences rows).Traces mem store₀ store' := by
  induction rows generalizing x s store outputs with
  | nil =>
    cases hrun
    exact h
  | cons row rows ih =>
    rw [List.mapM_cons] at hrun
    obtain ⟨out, ⟨t, store₁⟩, hrow, hrest⟩ := PyM.bind_eq_ok_iff.mp hrun
    obtain ⟨outs, ⟨t', store₂⟩, hrows, hpure⟩ := PyM.bind_eq_ok_iff.mp hrest
    cases hpure
    obtain ⟨seq, hleaves, hcontext⟩ := context_of_feedRow hrow
    exact ih (h.use hleaves hcontext) hrows

/-- Bytes as the entries of a tensor. -/
def byteFormat : TensorFormat UInt8 where
  itemsize := 1
  itemsize_pos := Nat.one_pos
  entry raw := raw.headD 0

end PleMemoryAdapter

end EngramDB
