import EngramDB.Python.Adapter

/-!
# Results of the adapter

A batch should give one result for each of its rows, the one that feeding this row alone to its
sequence gives. But only tensors of two rows or more are stacked, and raw bytes are those of the
first row; and one row of tokens loses its axis when there is one token. A row can also lose its
sequence, if an earlier row of the batch drops it.

* `mapM_feedRow_eq_ok_iff`: what the loop gives, row by row;
* `turnsFrom_eq_iff`: every row gives what it gives alone iff it is so for the rows that lost their
  sequence;
* `onePerRow_iff`: when the result has one entry for each row.
-/

namespace EngramDB

open PleSequenceStore

namespace PleMemoryAdapter

variable {α σ : Type}

/-- The entries of a result along its first axis. Bytes are numbers, and no results of rows. -/
def entriesOf : Option (AdapterRow α) → Option (List (AdapterRow α))
  | none => some []
  | some (.raw _) => none
  | some (.tensor t) => t.unstack.map (List.map AdapterRow.tensor)

/-- What a row gives to a sequence with a given history. -/
def rowAnswer (mem : PleMemory σ) (fmt : TensorFormat α) (asTensor : Bool) (s : σ)
    (history tok : List ℤ) : Py (AdapterRow α) :=
  (PleSequence.answer mem fmt asTensor history tok s).1 >>= outputOf asTensor

/-- The history of a new sequence. -/
def freshHistory (mem : PleMemory σ) : List ℤ := List.replicate (mem.ngramSize - 1) mem.eos

/-- What feeding a row alone to its sequence gives. -/
def alone (mem : PleMemory σ) (fmt : TensorFormat α) (asTensor : Bool) (s : σ)
    (store : PleSequenceStore ℤ) (row : ℤ × List ℤ) : Py (AdapterRow α) :=
  (feedRow mem fmt asTensor row (s, store)).1

/-- The rows have tokens: there is a row, and a row is not empty. -/
def Proper : InputIds → Prop
  | .one _ => True
  | .two width rows _ => rows ≠ [] ∧ 0 < width

/-- The result of a batch has one entry for each row, the one that the row gives alone; the tensor
of one row of tokens has a place for every entry of every head of every token. -/
def OnePerRow (mem : PleMemory σ) (fmt : TensorFormat α) (asTensor : Bool) (s : σ)
    (store : PleSequenceStore ℤ) (input : InputIds) (batch : List (ℤ × List ℤ))
    (result : Py (Option (AdapterRow α))) : Prop :=
  match input with
  | .two .. => ∃ out entries, result = .ok out ∧ entriesOf out = some entries ∧
      entries.map Except.ok = batch.map (alone mem fmt asTensor s store)
  | .one tokens => asTensor = true →
      ∃ t, result = .ok (some (.tensor t)) ∧ t.shape = [tokens.length, mem.numHeads, mem.headDim]

/-- The ids after those of some rows were used. -/
def idsAfter (maxSequences : Option ℤ) (ids : List ℤ) (rows : List (ℤ × List ℤ)) : List ℤ :=
  rows.foldl (fun ids row => useId maxSequences ids row.1) ids

/-- Every row whose sequence is dropped by the rows before it gives to a new sequence what it gives
to its own. -/
def DroppedAlike (mem : PleMemory σ) (fmt : TensorFormat α) (asTensor : Bool) (s : σ)
    (store : PleSequenceStore ℤ) (ids : List ℤ) (batch : List (ℤ × List ℤ)) : Prop :=
  ∀ before row after, batch = before ++ row :: after → row.1 ∈ store.seqs.keys →
    row.1 ∉ idsAfter store.maxSequences ids before →
      rowAnswer mem fmt asTensor s (freshHistory mem) row.2 =
        rowAnswer mem fmt asTensor s (store.find mem row.1).history row.2

/-- The shapes for which the result has one entry for each row. -/
def Stacks (mem : PleMemory σ) (fmt : TensorFormat α) (asTensor : Bool) (s : σ)
    (store : PleSequenceStore ℤ) (input : InputIds) (batch : List (ℤ × List ℤ)) : Prop :=
  match input with
  | .two .. => asTensor = true ∧ 2 ≤ batch.length ∧
      DroppedAlike mem fmt asTensor s store store.seqs.keys batch
  | .one tokens => asTensor = true → 2 ≤ tokens.length

/-- What the rows give, each to the sequence that its id has when its turn comes. -/
def turnsFrom (mem : PleMemory σ) (fmt : TensorFormat α) (asTensor : Bool) (s : σ)
    (store : PleSequenceStore ℤ) : List ℤ → List (ℤ × List ℤ) → List (Py (AdapterRow α))
  | _, [] => []
  | ids, row :: rows =>
    rowAnswer mem fmt asTensor s
        (if row.1 ∈ store.seqs.keys ∧ row.1 ∉ ids then freshHistory mem
          else (store.find mem row.1).history)
        row.2 ::
      turnsFrom mem fmt asTensor s store (useId store.maxSequences ids row.1) rows

variable {mem : PleMemory σ} {fmt : TensorFormat α} {asTensor : Bool} {s s' : σ}
  {store store' : PleSequenceStore ℤ}

/-- With room, a row gives what it gives to the sequence of its id. -/
theorem alone_of_room (h : ¬ store.NoRoom) (row : ℤ × List ℤ) :
    alone mem fmt asTensor s store row =
      rowAnswer mem fmt asTensor s (store.find mem row.1).history row.2 := by
  obtain ⟨store₁, -, hfeed⟩ := feedAs_of_room mem fmt asTensor row.1 row.2 s h
  unfold alone feedRow rowAnswer
  rcases hanswer :
    PleSequence.answer mem fmt asTensor (store.find mem row.1).history row.2 s with ⟨e | a, t⟩
  · rw [hanswer] at hfeed
    rw [PyM.bind_of_error hfeed]
    rfl
  · rw [hanswer] at hfeed
    rw [PyM.bind_of_ok hfeed]
    rfl

/-- Every row gives what it gives alone iff it is so for the rows that lost their sequence. -/
theorem turnsFrom_eq_iff (hroom : ¬ store.NoRoom) {ids : List ℤ} {rows : List (ℤ × List ℤ)} :
    turnsFrom mem fmt asTensor s store ids rows = rows.map (alone mem fmt asTensor s store) ↔
      DroppedAlike mem fmt asTensor s store ids rows := by
  induction rows generalizing ids with
  | nil =>
    refine iff_of_true rfl ?_
    rintro before row after heq
    cases before <;> cases heq
  | cons row rows ih =>
    rw [turnsFrom, List.map_cons, List.cons.injEq, ih, alone_of_room hroom]
    constructor
    · rintro ⟨hfirst, hrest⟩ before row' after heq hheld hdropped
      rcases before with _ | ⟨first, before⟩
      · obtain ⟨rfl, -⟩ := List.cons.inj heq
        rwa [if_pos ⟨hheld, hdropped⟩] at hfirst
      · obtain ⟨rfl, hrows⟩ := List.cons.inj heq
        exact hrest before row' after hrows hheld hdropped
    · intro h
      refine ⟨?_, fun before row' after heq hheld hdropped => ?_⟩
      · split_ifs with hdropped
        · exact h [] row rows rfl hdropped.1 hdropped.2
        · rfl
      · exact h (row :: before) row' after (by rw [heq]; rfl) hheld hdropped

/-- The state of the loop: the ids that are held, and the sequences that the rows to come will
find. -/
structure Turn (mem : PleMemory σ) (store store' : PleSequenceStore ℤ) (ids : List ℤ)
    (rows : List (ℤ × List ℤ)) : Prop where
  /-- The bound stays. -/
  maxSequences : store'.maxSequences = store.maxSequences
  /-- The ids. -/
  keys : store'.seqs.keys = ids
  /-- There is room for a sequence. -/
  room : ¬ store'.NoRoom
  /-- An id that was not used yet has its sequence, unless it was dropped. -/
  history : ∀ row ∈ rows, (store'.find mem row.1).history =
    if row.1 ∈ store.seqs.keys ∧ row.1 ∉ ids then freshHistory mem
      else (store.find mem row.1).history

/-- Before the first row, the store is the one of the batch. -/
theorem turn_start (hroom : ¬ store.NoRoom) (rows : List (ℤ × List ℤ)) :
    Turn mem store store store.seqs.keys rows where
  maxSequences := rfl
  keys := rfl
  room := hroom
  history _ _ := (if_neg fun h => h.2 h.1).symm

/-- When a row has had its turn, in which its sequence was found or created (`hleaves`), it is the
turn of the next one, whose id is another (`hids`). -/
theorem Turn.next {ids : List ℤ} {row : ℤ × List ℤ} {rows : List (ℤ × List ℤ)} {seq : PleSequence}
    {store₁ : PleSequenceStore ℤ} (h : Turn mem store store' ids (row :: rows))
    (hids : row.1 ∉ rows.map Prod.fst) (hleaves : Leaves store' row.1 seq store₁) :
    Turn mem store store₁ (useId store.maxSequences ids row.1) rows where
  maxSequences := hleaves.maxSequences.trans h.maxSequences
  keys := by rw [hleaves.keys, h.maxSequences, h.keys]
  room hroom := by
    have hmem := mem_useId (k := row.1) store'.maxSequences store'.seqs.keys
    rw [← hleaves.keys, hroom.2] at hmem
    cases hmem
  history row' hrow' := by
    have hne : row'.1 ≠ row.1 := fun heq => hids (heq ▸ List.mem_map_of_mem hrow')
    have hbefore := h.history row' (List.mem_cons_of_mem _ hrow')
    have hstays := hleaves.get?_of_ne row'.1 hne
    rw [h.maxSequences, h.keys] at hstays
    by_cases hmem : row'.1 ∈ useId store.maxSequences ids row.1
    · -- the sequence stays
      have hold : row'.1 ∈ ids := mem_of_mem_useId hne hmem
      rw [if_neg fun hand => hand.2 hold] at hbefore
      rw [if_pos hmem] at hstays
      have hfound : store'.seqs.get? row'.1 ≠ none := by
        rw [Ne, OrderedDict.get?_eq_none_iff, h.keys]
        exact not_not_intro hold
      obtain ⟨found, hfound⟩ := Option.ne_none_iff_exists'.mp hfound
      rw [if_neg fun hand => hand.2 hmem, ← hbefore, find, find, hstays, hfound]
      rfl
    · -- the id has no sequence, or no longer
      rw [if_neg hmem] at hstays
      rw [find, hstays]
      by_cases hheld : row'.1 ∈ store.seqs.keys
      · rw [if_pos ⟨hheld, hmem⟩]
        rfl
      · rw [if_neg fun hand => hheld hand.1, find, OrderedDict.get?_eq_none_iff.mpr hheld]
        rfl

/-- Over a memory whose fetches depend on the rows alone (`hfetch`), and rows with different ids
(`hids`), the loop returns iff every row returns in its turn, and gives what the turns give. -/
theorem mapM_feedRow_eq_ok_iff (hfetch : ∀ rows, (mem.fetchRaw rows).Stateless)
    {ids : List ℤ} {rows : List (ℤ × List ℤ)} (hids : (rows.map Prod.fst).Nodup)
    (h : Turn mem store store' ids rows) (t : σ) {outputs : List (AdapterRow α)} :
    (∃ stop, rows.mapM (feedRow mem fmt asTensor) (s, store') = (.ok outputs, stop)) ↔
      turnsFrom mem fmt asTensor t store ids rows = outputs.map Except.ok := by
  induction rows generalizing s store' ids outputs with
  | nil =>
    rw [turnsFrom]
    constructor
    · rintro ⟨stop, hrun⟩
      cases hrun
      rfl
    · intro heq
      obtain rfl : outputs = [] := List.map_eq_nil_iff.mp heq.symm
      exact ⟨_, rfl⟩
  | cons row rows ih =>
    obtain ⟨hrow, hrows⟩ := List.nodup_cons.mp hids
    rw [turnsFrom, ← h.history row List.mem_cons_self, List.mapM_cons]
    -- the answer does not depend on the state of the memory
    have hstateless := PleSequence.stateless_answer fmt asTensor hfetch
      (store'.find mem row.1).history row.2 s t
    obtain ⟨store₁, hleaves, hfeed⟩ := feedAs_of_room mem fmt asTensor row.1 row.2 s h.room
    rw [rowAnswer, ← hstateless]
    rcases hanswer : PleSequence.answer mem fmt asTensor (store'.find mem row.1).history row.2 s
      with ⟨e | a, s₁⟩
    · rw [hanswer] at hfeed
      have hrun : feedRow mem fmt asTensor row (s, store') = (.error e, (s₁, store₁)) :=
        PyM.bind_of_error hfeed
      rw [PyM.bind_of_error hrun]
      constructor
      · rintro ⟨stop, heq⟩
        cases heq
      · intro heq
        cases outputs <;> cases heq
    rw [hanswer] at hfeed
    dsimp only at hfeed
    rcases hout : outputOf asTensor a with e | out
    · have hrun : feedRow mem fmt asTensor row (s, store') = (.error e, _) :=
        (PyM.bind_of_ok hfeed).trans (by rw [hout]; rfl)
      rw [PyM.bind_of_error hrun]
      constructor
      · rintro ⟨stop, heq⟩
        cases heq
      · intro heq
        rw [Except.ok_bind, hout] at heq
        cases outputs <;> cases heq
    · have hrun : feedRow mem fmt asTensor row (s, store') = (.ok out, _) :=
        (PyM.bind_of_ok hfeed).trans (by rw [hout]; rfl)
      rw [PyM.bind_of_ok hrun, Except.ok_bind, hout]
      constructor
      · rintro ⟨stop, heq⟩
        obtain ⟨outs, stop', hrest, hpure⟩ := PyM.bind_eq_ok_iff.mp heq
        cases hpure
        rw [List.map_cons, (ih hrows (h.next hrow (hleaves.set _))).mp ⟨_, hrest⟩]
      · intro heq
        rcases outputs with _ | ⟨first, outs⟩
        · cases heq
        obtain ⟨hfirst, hrest⟩ := List.cons.inj heq
        obtain rfl : out = first := Except.ok.inj hfirst
        obtain ⟨stop, hmap⟩ := (ih hrows (h.next hrow (hleaves.set _))).mpr hrest
        exact ⟨stop, PyM.bind_of_ok hmap⟩

/-- Without a tensor a row gives bytes, with a tensor one that has a place for every entry of every
head of every token. -/
theorem rowAnswer_eq_ok {history tok : List ℤ} {out : AdapterRow α}
    (h : rowAnswer mem fmt asTensor s history tok = .ok out) :
    (asTensor = false → ∃ bytes, out = .raw bytes) ∧
      (asTensor = true → tok ≠ [] ∧
        ∃ t, out = .tensor t ∧ t.shape = [tok.length, mem.numHeads, mem.headDim]) := by
  obtain ⟨⟨step, eT⟩, hanswer, hout⟩ := Except.bind_eq_ok_iff.mp h
  unfold outputOf at hout
  constructor
  · intro hraw
    rw [hraw, if_neg Bool.false_ne_true] at hout
    exact ⟨_, (Except.ok.inj hout).symm⟩
  · intro htensor
    rw [htensor, if_pos rfl] at hout
    -- an empty row has no tensor to return
    have htok : tok ≠ [] := by
      rintro rfl
      rw [PleSequence.answer_nil] at hanswer
      cases hanswer
      cases hout
    obtain ⟨s', hs'⟩ :
        ∃ s', PleSequence.answer mem fmt asTensor history tok s = (.ok (step, eT), s') :=
      ⟨_, Prod.ext hanswer rfl⟩
    obtain ⟨t, rfl, hshape⟩ := (PleSequence.answer_eq_ok hs').2 htok htensor
    exact ⟨htok, t, (Except.ok.inj hout).symm, hshape⟩

/-- A row that is fed alone and returns gives something, unless it gives an empty tensor. -/
theorem exists_alone_eq_ok {row : ℤ × List ℤ} (htok : row.2 ≠ [])
    (h : ∃ a, (PleSequenceStore.feedAs mem fmt asTensor row.1 row.2 (s, store)).1 = .ok a) :
    ∃ out, alone mem fmt asTensor s store row = .ok out := by
  obtain ⟨⟨step, eT⟩, ha⟩ := h
  obtain ⟨⟨t, store₁⟩, hfeed⟩ : ∃ stop,
      PleSequenceStore.feedAs mem fmt asTensor row.1 row.2 (s, store) = (.ok (step, eT), stop) :=
    ⟨_, Prod.ext ha rfl⟩
  obtain ⟨hanswer, -⟩ := feedAs_eq_ok hfeed
  unfold alone feedRow
  rw [PyM.bind_of_ok hfeed]
  cases hmode : asTensor with
  | false => exact ⟨_, rfl⟩
  | true =>
    obtain ⟨u, rfl, -⟩ := (PleSequence.answer_eq_ok hanswer).2 htok hmode
    exact ⟨_, rfl⟩

/-- What a row gives in its turn is what it gives to some history. -/
private theorem mem_turnsFrom {ids : List ℤ} {rows : List (ℤ × List ℤ)} {r : Py (AdapterRow α)}
    (h : r ∈ turnsFrom mem fmt asTensor s store ids rows) :
    ∃ history, ∃ row ∈ rows, r = rowAnswer mem fmt asTensor s history row.2 := by
  induction rows generalizing ids with
  | nil => cases h
  | cons row rows ih =>
    rcases List.mem_cons.mp h with rfl | h
    · exact ⟨_, row, List.mem_cons_self, rfl⟩
    · obtain ⟨history, row', hrow', heq⟩ := ih h
      exact ⟨history, row', List.mem_cons_of_mem _ hrow', heq⟩

/-- Every row has a turn. -/
private theorem length_turnsFrom {ids : List ℤ} {rows : List (ℤ × List ℤ)} :
    (turnsFrom mem fmt asTensor s store ids rows).length = rows.length := by
  induction rows generalizing ids with
  | nil => rfl
  | cons row rows ih => rw [turnsFrom, List.length_cons, List.length_cons, ih]

/-- Outputs each of which is a tensor of the shape (`h`) are a list of tensors of this shape. -/
private theorem exists_tensors {outputs : List (AdapterRow α)} {shape : List ℕ}
    (h : ∀ out ∈ outputs, ∃ t : Tensor α, out = .tensor t ∧ t.shape = shape) :
    ∃ ts : List (Tensor α), outputs = ts.map .tensor ∧ ∀ t ∈ ts, t.shape = shape := by
  induction outputs with
  | nil => exact ⟨[], rfl, by simp⟩
  | cons out outputs ih =>
    obtain ⟨t, rfl, ht⟩ := h _ List.mem_cons_self
    obtain ⟨ts, rfl, hts⟩ := ih fun out hout => h out (List.mem_cons_of_mem _ hout)
    exact ⟨t :: ts, rfl, List.forall_mem_cons.mpr ⟨ht, hts⟩⟩

/-- Two tensors or more are stacked, and the result has them as its entries. -/
theorem assemble_tensors {ts : List (Tensor α)} {shape : List ℕ} (hlen : 2 ≤ ts.length)
    (hshape : ∀ t ∈ ts, t.shape = shape) :
    ∃ out, assemble false true (ts.map .tensor) = .ok out ∧
      entriesOf out = some (ts.map .tensor) := by
  rcases ts with _ | ⟨t, _ | ⟨u, ts⟩⟩
  · cases hlen
  · simp at hlen
  have hne : t :: u :: ts ≠ [] := List.cons_ne_nil _ _
  obtain ⟨stacked, hstack⟩ := Tensor.stack_isSome hne hshape
  have htensors : stack ((t :: u :: ts).map .tensor) = .ok (.tensor stacked) := by
    unfold stack
    have hid : AdapterRow.tensor? ∘ AdapterRow.tensor (α := α) = some := rfl
    rw [List.filterMap_map, hid, List.filterMap_some, hstack]
  have hmany : true = true ∧ 1 < ((t :: u :: ts).map AdapterRow.tensor).length := ⟨rfl, by simp⟩
  refine ⟨some (.tensor stacked), ?_, ?_⟩
  · unfold assemble
    rw [List.map_cons] at htensors hmany ⊢
    dsimp only
    rw [if_pos hmany, htensors]
    rfl
  · rw [entriesOf, Tensor.unstack_stack hstack]
    rfl

/-- There are as many ids as rows, given or counted. -/
private theorem length_seqIdsOf {n : ℕ} {seqIds : Option (List ℤ)} {ids : List ℤ}
    (h : seqIdsOf n seqIds = .ok ids) : ids.length = n := by
  cases seqIds with
  | none =>
    cases h
    rw [List.length_map, List.length_range]
  | some seqIds =>
    unfold seqIdsOf at h
    dsimp only at h
    split_ifs at h with hlen
    cases h
    exact not_not.mp hlen

/-- A batch that was made of an input (`h`) has an id for every row of it. -/
theorem length_batch {input : InputIds} {seqIds : Option (List ℤ)} {pairs : List (ℤ × List ℤ)}
    (h : batch input seqIds = .ok pairs) : pairs.length = input.rows.length := by
  unfold batch at h
  cases hids : seqIdsOf input.rows.length seqIds with
  | error e =>
    rw [hids] at h
    cases h
  | ok ids =>
    rw [hids] at h
    cases h
    rw [List.length_zip, length_seqIdsOf hids, Nat.min_self]

/-- A single row of tokens that is accepted (`h`) makes a batch of one. -/
private theorem batch_one {tokens : List ℤ} {seqIds : Option (List ℤ)} {pairs : List (ℤ × List ℤ)}
    (h : batch (.one tokens) seqIds = .ok pairs) : ∃ seqId, pairs = [(seqId, tokens)] := by
  obtain ⟨row, rfl⟩ := List.length_eq_one_iff.mp (length_batch h)
  have hrow := mem_rows_of_batch h (List.mem_singleton_self row)
  exact ⟨row.1, by rw [← List.mem_singleton.mp hrow]⟩

/-- A matrix with rows (`hne`) that is accepted (`h`) makes a batch with rows. -/
private theorem ne_nil_of_batch {width : ℕ} {rows : List (List ℤ)}
    {length_row : ∀ row ∈ rows, row.length = width}
    {seqIds : Option (List ℤ)} {pairs : List (ℤ × List ℤ)}
    (h : batch (.two width rows length_row) seqIds = .ok pairs) (hne : rows ≠ []) : pairs ≠ [] := by
  rintro rfl
  exact hne (List.length_eq_zero_iff.mp (length_batch h).symm)

/-- A batch returns what is put together from the outputs of its loop. -/
theorem forward_eq_ok_iff {input : InputIds} {seqIds : Option (List ℤ)} {rows : List (ℤ × List ℤ)}
    (hbatch : batch input seqIds = .ok rows) {out : Option (AdapterRow α)} :
    (forward mem fmt input seqIds asTensor (s, store)).1 = .ok out ↔
      ∃ outputs, (∃ stop, rows.mapM (feedRow mem fmt asTensor) (s, store) = (.ok outputs, stop)) ∧
        assemble input.was1d asTensor outputs = .ok out := by
  unfold forward
  rw [hbatch, PyM.bind_of_ok (PyM.lift_apply _ _)]
  rcases hrun : rows.mapM (feedRow mem fmt asTensor) (s, store) with ⟨e | outputs, stop⟩
  · rw [PyM.bind_of_error hrun]
    constructor
    · rintro ⟨⟩
    · rintro ⟨outputs, ⟨stop, h⟩, -⟩
      cases h
  · rw [PyM.bind_of_ok hrun]
    constructor
    · intro h
      exact ⟨outputs, ⟨stop, rfl⟩, h⟩
    · rintro ⟨outputs', ⟨stop', h⟩, hassemble⟩
      cases h
      exact hassemble

/-- Rows that all give something give a list of outputs. -/
private theorem exists_outputs {f : ℤ × List ℤ → Py (AdapterRow α)} {rows : List (ℤ × List ℤ)}
    (h : ∀ row ∈ rows, ∃ out, f row = .ok out) :
    ∃ outputs : List (AdapterRow α), rows.map f = outputs.map Except.ok := by
  induction rows with
  | nil => exact ⟨[], rfl⟩
  | cons row rows ih =>
    obtain ⟨out, hout⟩ := h row List.mem_cons_self
    obtain ⟨outputs, houtputs⟩ := ih fun row hrow => h row (List.mem_cons_of_mem _ hrow)
    exact ⟨out :: outputs, by rw [List.map_cons, hout, houtputs, List.map_cons]⟩

/-- Rows of one length that are fed, each to some sequence, give tensors of one shape, or bytes. -/
theorem outputs_of_turns {ids : List ℤ} {rows : List (ℤ × List ℤ)} {width : ℕ}
    {outputs : List (AdapterRow α)} (hwidth : ∀ row ∈ rows, row.2.length = width)
    (h : turnsFrom mem fmt asTensor s store ids rows = outputs.map Except.ok) :
    outputs.length = rows.length ∧ (asTensor = false → ∀ out ∈ outputs, ∃ bytes, out = .raw bytes) ∧
      (asTensor = true → ∃ ts : List (Tensor α), outputs = ts.map .tensor ∧
        ∀ t ∈ ts, t.shape = [width, mem.numHeads, mem.headDim]) := by
  have hturn : ∀ out ∈ outputs, ∃ history, ∃ row ∈ rows,
      rowAnswer mem fmt asTensor s history row.2 = .ok out := by
    intro out hout
    have hmem : Except.ok out ∈ turnsFrom mem fmt asTensor s store ids rows := by
      rw [h]
      exact List.mem_map_of_mem hout
    obtain ⟨history, row, hrow, heq⟩ := mem_turnsFrom hmem
    exact ⟨history, row, hrow, heq.symm⟩
  refine ⟨?_, fun hraw out hout => ?_, fun htensor => exists_tensors fun out hout => ?_⟩
  · rw [← length_turnsFrom, h, List.length_map]
  · obtain ⟨history, row, -, heq⟩ := hturn out hout
    exact (rowAnswer_eq_ok heq).1 hraw
  · obtain ⟨history, row, hrow, heq⟩ := hturn out hout
    obtain ⟨-, t, rfl, hshape⟩ := (rowAnswer_eq_ok heq).2 htensor
    rw [hwidth row hrow] at hshape
    exact ⟨t, rfl, hshape⟩

/-- The result of a batch has one entry for each row iff tensors are asked for, there are two rows
or more, and no row loses by the loss of its sequence. -/
theorem onePerRow_two_iff (hfetch : ∀ rows, (mem.fetchRaw rows).Stateless) {width : ℕ}
    {rows : List (List ℤ)} {length_row : ∀ row ∈ rows, row.length = width}
    {seqIds : Option (List ℤ)}
    {pairs : List (ℤ × List ℤ)} (hbatch : batch (.two width rows length_row) seqIds = .ok pairs)
    (hwidth : 0 < width) (hne : pairs ≠ []) (hids : (pairs.map Prod.fst).Nodup)
    (hreturns : ∀ row ∈ pairs,
      ∃ a, (PleSequenceStore.feedAs mem fmt asTensor row.1 row.2 (s, store)).1 = .ok a) :
    OnePerRow mem fmt asTensor s store (.two width rows length_row) pairs
        (forward mem fmt (.two width rows length_row) seqIds asTensor (s, store)).1 ↔
      Stacks mem fmt asTensor s store (.two width rows length_row) pairs := by
  have hpairs : ∀ row ∈ pairs, row.2.length = width := fun row hrow =>
    length_row _ (mem_rows_of_batch hbatch hrow)
  have htok : ∀ row ∈ pairs, row.2 ≠ [] := fun row hrow hnil => by
    have hlen := hpairs row hrow
    rw [hnil, List.length_nil] at hlen
    omega
  have hroom : ¬ store.NoRoom := by
    intro hroom
    obtain ⟨row, hrow⟩ := List.exists_mem_of_ne_nil _ hne
    obtain ⟨a, ha⟩ := hreturns row hrow
    rw [feedAs_of_noRoom hroom] at ha
    cases ha
  have hloop : ∀ outputs : List (AdapterRow α),
      (∃ stop, pairs.mapM (feedRow mem fmt asTensor) (s, store) = (.ok outputs, stop)) ↔
        turnsFrom mem fmt asTensor s store store.seqs.keys pairs = outputs.map Except.ok :=
    fun outputs => mapM_feedRow_eq_ok_iff hfetch hids (turn_start hroom pairs) s
  have halone : ∀ row ∈ pairs, ∃ out, alone mem fmt asTensor s store row = .ok out :=
    fun row hrow => exists_alone_eq_ok (htok row hrow) (hreturns row hrow)
  constructor
  · rintro ⟨out, entries, hresult, hentries, hmap⟩
    obtain ⟨outputs, hrun, hassemble⟩ := (forward_eq_ok_iff hbatch).mp hresult
    have hturns := (hloop outputs).mp hrun
    obtain ⟨hlen, hraw, htensor⟩ := outputs_of_turns hpairs hturns
    cases hmode : asTensor with
    | false =>
      -- the bytes of the first row
      exfalso
      rcases outputs with _ | ⟨first, outputs⟩
      · exact hne (List.length_eq_zero_iff.mp hlen.symm)
      obtain ⟨bytes, rfl⟩ := hraw hmode first List.mem_cons_self
      subst hmode
      cases hassemble
      cases hentries
    | true =>
      obtain ⟨ts, rfl, hshape⟩ := htensor hmode
      rcases ts with _ | ⟨t, _ | ⟨u, ts⟩⟩
      · exact absurd (List.length_eq_zero_iff.mp hlen.symm) hne
      · -- the entries of a single tensor are those of its tokens
        exfalso
        subst hmode
        cases hassemble
        obtain ⟨us, hus, rfl⟩ := Option.map_eq_some_iff.mp hentries
        obtain ⟨row, rfl⟩ := List.length_eq_one_iff.mp hlen.symm
        obtain ⟨u, rfl⟩ : ∃ u, us = [u] := by
          have hone := congrArg List.length hmap
          rw [List.length_map, List.length_map, List.length_map] at hone
          exact List.length_eq_one_iff.mp hone
        have hu : alone mem fmt true s store row = .ok (.tensor u) := (List.cons.inj hmap).1.symm
        rw [alone_of_room hroom] at hu
        obtain ⟨-, v, hv, hvshape⟩ := (rowAnswer_eq_ok hu).2 rfl
        cases hv
        have hushape :=
          Tensor.shape_of_mem_unstack (hshape t List.mem_cons_self) hus List.mem_cons_self
        have hrank := congrArg List.length (hushape.symm.trans hvshape)
        exact absurd hrank (by simp)
      · have htwo : 2 ≤ (t :: u :: ts).length := by simp
        obtain ⟨out', hout', hentries'⟩ := assemble_tensors htwo hshape
        subst hmode
        obtain rfl : out = out' := Except.ok.inj (hassemble.symm.trans hout')
        obtain rfl := Option.some.inj (hentries.symm.trans hentries')
        refine ⟨rfl, ?_, (turnsFrom_eq_iff hroom).mp (hturns.trans hmap)⟩
        rw [← hlen, List.length_map]
        exact htwo
  · rintro ⟨hmode, hlen, hdropped⟩
    obtain ⟨outputs, houtputs⟩ := exists_outputs halone
    have hturns := ((turnsFrom_eq_iff hroom).mpr hdropped).trans houtputs
    obtain ⟨hcount, -, htensor⟩ := outputs_of_turns hpairs hturns
    obtain ⟨ts, rfl, hshape⟩ := htensor hmode
    have htwo : 2 ≤ ts.length := by
      rw [List.length_map] at hcount
      omega
    obtain ⟨out, hout, hentries⟩ := assemble_tensors htwo hshape
    subst hmode
    exact ⟨out, ts.map .tensor,
      (forward_eq_ok_iff hbatch).mpr ⟨_, (hloop _).mpr hturns, hout⟩, hentries, houtputs.symm⟩

/-- One row of tokens gives a tensor of all its tokens iff there are two tokens or more. -/
private theorem onePerRow_one_iff (hfetch : ∀ rows, (mem.fetchRaw rows).Stateless) {tokens : List ℤ}
    {seqIds : Option (List ℤ)} {pairs : List (ℤ × List ℤ)}
    (hbatch : batch (.one tokens) seqIds = .ok pairs)
    (hreturns : ∀ row ∈ pairs,
      ∃ a, (PleSequenceStore.feedAs mem fmt asTensor row.1 row.2 (s, store)).1 = .ok a) :
    OnePerRow mem fmt asTensor s store (.one tokens) pairs
        (forward mem fmt (.one tokens) seqIds asTensor (s, store)).1 ↔
      Stacks mem fmt asTensor s store (.one tokens) pairs := by
  obtain ⟨seqId, rfl⟩ := batch_one hbatch
  have hroom : ¬ store.NoRoom := by
    intro hroom
    obtain ⟨a, ha⟩ := hreturns _ (List.mem_singleton_self _)
    rw [feedAs_of_noRoom hroom] at ha
    cases ha
  have hids : ([(seqId, tokens)].map Prod.fst).Nodup := List.nodup_singleton seqId
  have hloop : ∀ outputs : List (AdapterRow α),
      (∃ stop, [(seqId, tokens)].mapM (feedRow mem fmt asTensor) (s, store) = (.ok outputs, stop)) ↔
        turnsFrom mem fmt asTensor s store store.seqs.keys [(seqId, tokens)] =
          outputs.map Except.ok :=
    fun outputs => mapM_feedRow_eq_ok_iff hfetch hids (turn_start hroom _) s
  have hlength : ∀ row ∈ [(seqId, tokens)], row.2.length = tokens.length := by
    rintro row hrow
    rw [List.mem_singleton.mp hrow]
  cases hmode : asTensor with
  | false =>
    exact iff_of_true (fun h => absurd h Bool.false_ne_true) fun h => absurd h Bool.false_ne_true
  | true =>
    subst hmode
    constructor
    · intro h _
      obtain ⟨t, hresult, ht⟩ := h rfl
      obtain ⟨outputs, hrun, hassemble⟩ := (forward_eq_ok_iff hbatch).mp hresult
      have hturns := (hloop outputs).mp hrun
      obtain ⟨hcount, -, -⟩ := outputs_of_turns hlength hturns
      obtain ⟨out, rfl⟩ := List.length_eq_one_iff.mp hcount
      obtain ⟨htok, u, rfl, hu⟩ := (rowAnswer_eq_ok (List.cons.inj hturns).1).2 rfl
      cases hassemble
      -- the axis of one token is taken away
      have hone : tokens.length ≠ 1 := by
        intro hone
        rw [hone] at hu ht
        have hrank := congrArg List.length ((Tensor.shape_squeeze hu).symm.trans ht)
        exact absurd hrank (by simp)
      have hzero : tokens.length ≠ 0 := fun hzero => htok (List.length_eq_zero_iff.mp hzero)
      omega
    · intro h _
      have htwo : 2 ≤ tokens.length := h rfl
      have htok : tokens ≠ [] := by
        rintro rfl
        cases htwo
      obtain ⟨out, hout⟩ := exists_alone_eq_ok htok (hreturns _ (List.mem_singleton_self _))
      have hdropped : DroppedAlike mem fmt true s store store.seqs.keys [(seqId, tokens)] := by
        intro before row after heq hheld hlost
        rcases before with _ | ⟨first, before⟩
        · exact absurd hheld hlost
        · have hnil := (List.cons.inj heq).2
          cases before <;> cases hnil
      have hturns := (turnsFrom_eq_iff hroom).mpr hdropped
      rw [List.map_singleton, hout] at hturns
      obtain ⟨-, u, rfl, hu⟩ := (rowAnswer_eq_ok (List.cons.inj hturns).1).2 rfl
      have hassemble : assemble true true [.tensor u] = .ok (some (.tensor u)) := by
        show Except.ok (some (AdapterRow.tensor u.squeeze)) = _
        rw [Tensor.squeeze_of_ne hu (show tokens.length ≠ 1 by omega)]
      exact ⟨u, (forward_eq_ok_iff hbatch).mpr ⟨[.tensor u], (hloop _).mpr hturns, hassemble⟩, hu⟩

/-- Over a memory whose fetches depend on the rows alone (`hfetch`), a proper batch (`hproper`) with
different ids (`hids`), each of whose feeds returns (`hreturns`), has one entry for each of its rows
in the result iff the shapes stack: a matrix of tokens has at least two rows, is returned as a
tensor, and a sequence that the batch drops answers like a fresh one; a single row that is returned
as a tensor has at least two tokens. -/
theorem onePerRow_iff (hfetch : ∀ rows, (mem.fetchRaw rows).Stateless) {input : InputIds}
    (hproper : Proper input) {seqIds : Option (List ℤ)} {pairs : List (ℤ × List ℤ)}
    (hbatch : batch input seqIds = .ok pairs) (hids : (pairs.map Prod.fst).Nodup)
    (hreturns : ∀ row ∈ pairs,
      ∃ a, (PleSequenceStore.feedAs mem fmt asTensor row.1 row.2 (s, store)).1 = .ok a) :
    OnePerRow mem fmt asTensor s store input pairs
        (forward mem fmt input seqIds asTensor (s, store)).1 ↔
      Stacks mem fmt asTensor s store input pairs := by
  cases input with
  | one tokens => exact onePerRow_one_iff hfetch hbatch hreturns
  | two width rows length_row =>
    obtain ⟨hrows, hwidth⟩ := hproper
    exact onePerRow_two_iff hfetch hbatch hwidth (ne_nil_of_batch hbatch hrows) hids hreturns

/-- Two rows of one token, for new sequences. -/
theorem onePerRow_iff_twoRows : OnePerRow PleSequence.smokeMemory byteFormat true ()
    (.new none 32) (.two 1 [[1], [2]] (by decide)) [(10, [1]), (20, [2])]
    (forward PleSequence.smokeMemory byteFormat (.two 1 [[1], [2]] (by decide)) (some [10, 20]) true
      ((), .new none 32)).1 := by
  have hreturns : ∀ row ∈ [((10 : ℤ), [(1 : ℤ)]), (20, [2])], ∃ a, (PleSequenceStore.feedAs
      PleSequence.smokeMemory byteFormat true row.1 row.2 ((), .new none 32)).1 = .ok a := by
    intro row hrow
    rcases List.mem_cons.mp hrow with rfl | hrow
    · exact ⟨_, rfl⟩
    · obtain rfl := List.mem_singleton.mp hrow
      exact ⟨_, rfl⟩
  have hproper : Proper (.two 1 [[1], [2]] (by decide)) := ⟨by decide, by decide⟩
  refine (onePerRow_iff (fun _ _ _ => rfl) hproper rfl (by decide) hreturns).mpr
    ⟨rfl, by decide, ?_⟩
  intro before row after _ hheld
  cases hheld

/-- One row of one token: the result has no axis for the rows. -/
theorem not_onePerRow_singleRow :
    let input : InputIds := .two 1 [[1]] (by decide)
    let result :=
      (forward PleSequence.smokeMemory byteFormat input (some [10]) true ((), .new none 32)).1
    (∃ t : Tensor UInt8, result = .ok (some (.tensor t)) ∧ t.shape = [1, 2, 4]) ∧
      ¬ OnePerRow PleSequence.smokeMemory byteFormat true ()
        (.new none 32) input [(10, [1])] result := by
  intro input result
  refine ⟨⟨_, rfl, rfl⟩, fun h => ?_⟩
  have hreturns : ∀ row ∈ [((10 : ℤ), [(1 : ℤ)])], ∃ a, (PleSequenceStore.feedAs
      PleSequence.smokeMemory byteFormat true row.1 row.2 ((), .new none 32)).1 = .ok a := by
    intro row hrow
    obtain rfl := List.mem_singleton.mp hrow
    exact ⟨_, rfl⟩
  have hstacks := (onePerRow_two_iff (fun _ _ _ => rfl) rfl (by decide) (by decide) (by decide)
    hreturns).mp h
  exact absurd hstacks.2.1 (by decide)

end PleMemoryAdapter

end EngramDB
