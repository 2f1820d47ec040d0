import EngramDB.Foundations.Runs
import EngramDB.Serve
import EngramDB.Serve.Session

/-!
# Every call returns its own reply

The bytes on a connection are the requests that the server has not read and the reply that the
client waits for (`InSync`), as long as every call finds the connection quiet and the Rust server
writes replies of less than `2 ^ 32` bytes.

* `InSync.step`: such a step keeps the connection in sync;
* `returnsOwn_along`: so every call of such a run that returns, returns its own reply;
* `not_returnsOwn_afterTimeout`: a call after a timeout returns the reply of the call before.
-/

namespace EngramDB

open Framing Machine

namespace Serve

/-- The bytes of a reply whose length has 32 bits are a frame. -/
private theorem replyBytes_eq_encodeFrame {kind : ServerKind} {r : Reply} {bytes : Bytes}
    (hlen : kind = .rust → r.2.length + 1 < 2 ^ 32) (h : replyBytes kind r = some bytes) :
    r.2.length + 1 < 2 ^ 32 ∧ bytes = encodeFrame (r.1 :: r.2) := by
  cases kind with
  | rust =>
    have hlt := hlen rfl
    have hword : (1 + UInt32.ofNat r.2.length).toNat = r.2.length + 1 := by
      rw [UInt32.toNat_add, UInt32.toNat_ofNat_of_lt' (by simp [UInt32.size]; omega),
        UInt32.toNat_one, Nat.mod_eq_of_lt (by omega), Nat.add_comm]
    refine ⟨hlt, ?_⟩
    cases h
    rw [hword, encodeFrame, List.append_assoc]
    rfl
  | python =>
    simp only [replyBytes] at h
    split_ifs at h with hlt
    cases h
    exact ⟨hlt, rfl⟩

namespace Session

variable {kind : ServerKind} {dispatch : ℕ → Bytes → Option Reply} {s s' : Session}

/-- The server reads the requests in the order in which they were sent. -/
def ServerInSync (s : Session) : Prop :=
  match s.server with
  | .reading r => r.WellFormed ∧
      r.consumed ++ s.toServer = (s.sent.drop s.answered).flatMap encodeFrame
  | .answering body => s.sent[s.answered]? = some body ∧
      s.toServer = (s.sent.drop (s.answered + 1)).flatMap encodeFrame
  | .closed => True

/-- The last request has no reply yet, and the client has read nothing of it. -/
def Unanswered (s : Session) (r : Reader) : Prop :=
  r = Reader.start ∧ s.toClient = [] ∧ (s.server = .closed ∨ s.answered + 1 = s.sent.length)

/-- What the client has read and what is on the way is the reply to the last request. -/
def Answered (dispatch : ℕ → Bytes → Option Reply) (s : Session) (r : Reader) : Prop :=
  s.answered = s.sent.length ∧ ∃ body reply, s.sent[s.sent.length - 1]? = some body ∧
    dispatch (s.sent.length - 1) body = some reply ∧ reply.2.length + 1 < 2 ^ 32 ∧
      r.consumed ++ s.toClient = encodeFrame (reply.1 :: reply.2)

/-- What is known of a connection whose steps are in turn. -/
structure InSync (dispatch : ℕ → Bytes → Option Reply) (s : Session) : Prop where
  /-- The server reads the requests in order. -/
  server : s.ServerInSync
  /-- The client waits for the reply to the last request. -/
  client : ∀ r, s.client = .waiting r →
    r.WellFormed ∧ (s.Unanswered r ∨ s.Answered dispatch r)
  /-- Only requests that were sent are answered. -/
  answered_le : s.answered ≤ s.sent.length
  /-- The length of a request has 32 bits. -/
  sent_lt : ∀ body ∈ s.sent, body.length < 2 ^ 32
  /-- Every call that returned, returned its own reply. -/
  returnsOwn : s.ReturnsOwn dispatch

private theorem inSync_init (dispatch : ℕ → Bytes → Option Reply) : InSync dispatch init where
  server := ⟨Reader.wellFormed_start, rfl⟩
  client _ h := by cases h
  answered_le := Nat.le_refl _
  sent_lt _ h := by cases h
  returnsOwn _ h := by cases h

/-- Every request that is quiet was answered, unless the connection was closed. -/
theorem InSync.answered_eq (h : InSync dispatch s) (hserver : s.server = .reading Reader.start)
    (hnil : s.toServer = []) : s.answered = s.sent.length := by
  have hsync := h.server
  rw [ServerInSync, hserver, hnil] at hsync
  have hdrop : s.sent.drop s.answered = [] := by
    by_contra hne
    obtain ⟨body, hbody⟩ := List.exists_mem_of_ne_nil _ hne
    have hframe := List.flatMap_eq_nil_iff.mp hsync.2.symm body hbody
    exact encodeFrame_ne_nil body hframe
  exact Nat.le_antisymm h.answered_le (List.drop_eq_nil_iff.mp hdrop)

/-- What returned before stays right when a request is sent. -/
theorem ReturnsOwn.append (h : s.ReturnsOwn dispatch) (body : Bytes) :
    ∀ p ∈ s.returned, ∃ b, (s.sent ++ [body])[p.1]? = some b ∧ dispatch p.1 b = some p.2 := by
  intro p hp
  obtain ⟨b, hb, hdispatch⟩ := h p hp
  refine ⟨b, ?_, hdispatch⟩
  rw [List.getElem?_append_left (List.getElem?_eq_some_iff.mp hb).1, hb]

/-- A call that finds the connection quiet keeps it in sync. -/
theorem InSync.call (h : InSync dispatch s) (hquiet : s.Quiet) {body : Bytes}
    (hlen : body.length < 2 ^ 32) :
    InSync dispatch
      { s with
        client := .waiting Reader.start
        toServer := s.toServer ++ encodeFrame body
        sent := s.sent ++ [body] } := by
  obtain ⟨hclient, hserver⟩ := hquiet
  refine ⟨?_, ?_, ?_, ?_, h.returnsOwn.append body⟩
  -- a quiet server has closed, or has answered all that was sent and reads the next frame
  · rcases hserver with hclosed | ⟨hreading, hnil⟩
    · simp only [ServerInSync, hclosed]
    · have hanswered := h.answered_eq hreading hnil
      simp only [ServerInSync, hreading]
      refine ⟨Reader.wellFormed_start, ?_⟩
      rw [hanswered, List.drop_left, hnil]
      simp [Reader.start, Reader.consumed]
  · rintro r ⟨⟩
    refine ⟨Reader.wellFormed_start, .inl ⟨rfl, hclient, ?_⟩⟩
    rcases hserver with hclosed | ⟨hreading, hnil⟩
    · exact .inl hclosed
    · refine .inr ?_
      rw [List.length_append, List.length_singleton]
      exact congrArg (· + 1) (h.answered_eq hreading hnil)
  · show s.answered ≤ (s.sent ++ [body]).length
    rw [List.length_append]
    exact Nat.le_add_right_of_le h.answered_le
  · intro b hb
    rcases List.mem_append.mp hb with hb | hb
    · exact h.sent_lt b hb
    · rw [List.mem_singleton.mp hb]
      exact hlen

/-- A call that raises keeps the connection in sync. -/
theorem InSync.raise (h : InSync dispatch s) : InSync dispatch s.raise where
  server := h.server
  client _ hr := by cases hr
  answered_le := h.answered_le
  sent_lt := h.sent_lt
  returnsOwn := h.returnsOwn

/-- What a receive returns is of the reply to the last request. -/
theorem InSync.recv (h : InSync dispatch s) {n : ℕ}
    (hstep : s.step kind dispatch (.recv n) = some s') :
    InSync dispatch s' := by
  cases hclient : s.client with
  | idle => simp [Session.step, hclient] at hstep
  | waiting r =>
    simp only [Session.step, hclient] at hstep
    split_ifs at hstep with hn
    obtain ⟨hpos, hmissing, hle⟩ := hn
    obtain ⟨hr, hnone | ⟨hanswered, body, reply, hbody, hreply, hlen, hstream⟩⟩ :=
      h.client r hclient
    · -- there is nothing to receive
      rw [hnone.2.1, List.length_nil] at hle
      omega
    -- what has come and what is on its way make up the one frame of the reply
    · have hsplit : r.consumed ++ s.toClient.take n ++ s.toClient.drop n =
          encodeFrame (reply.1 :: reply.2) ++ [] := by
        rw [List.append_assoc, List.take_append_drop, hstream, List.append_nil]
      have hpiece : (s.toClient.take n).length ≤ r.missing := by
        rw [List.length_take]
        omega
      rcases Reader.feed_of_consumed hr hpiece (by simpa using hlen) hsplit with
        ⟨r', hfeed, hr', hrest⟩ | ⟨hfeed, -⟩
      · rw [hfeed] at hstep
        cases hstep
        refine ⟨h.server, ?_, h.answered_le, h.sent_lt, h.returnsOwn⟩
        rintro r'' ⟨⟩
        rw [List.append_nil] at hrest
        exact ⟨hr', .inr ⟨hanswered, body, reply, hbody, hreply, hlen, hrest⟩⟩
      · -- the reply is complete
        rw [hfeed] at hstep
        cases hstep
        refine ⟨h.server, (fun _ hr => by cases hr), h.answered_le, h.sent_lt, fun p hp => ?_⟩
        rcases List.mem_append.mp hp with hp | hp
        · exact h.returnsOwn p hp
        · rw [List.mem_singleton.mp hp]
          exact ⟨body, hbody, hreply⟩

/-- What the server reads in a step (`hstep`) belongs to the next request, so the connection stays
in sync. -/
theorem InSync.serverRead (h : InSync dispatch s) {n : ℕ}
    (hstep : s.step kind dispatch (.serverRead n) = some s') : InSync dispatch s' := by
  cases hserver : s.server with
  | answering body => simp [Session.step, hserver] at hstep
  | closed => simp [Session.step, hserver] at hstep
  | reading r =>
    simp only [Session.step, hserver] at hstep
    split_ifs at hstep with hn
    obtain ⟨hpos, hmissing, hle⟩ := hn
    have hsync := h.server
    simp only [ServerInSync, hserver] at hsync
    obtain ⟨hr, hstream⟩ := hsync
    -- the client still waits for the same
    have hclient : ∀ server toServer, server ≠ .closed → ∀ r', s.client = .waiting r' →
        r'.WellFormed ∧ (Unanswered { s with server := server, toServer := toServer } r' ∨
          Answered dispatch { s with server := server, toServer := toServer } r') := by
      intro server toServer _ r' hr'
      obtain ⟨hwf, ⟨hstart, hnil, hlast⟩ | hanswered⟩ := h.client r' hr'
      · refine ⟨hwf, .inl ⟨hstart, hnil, .inr (hlast.resolve_left ?_)⟩⟩
        rw [hserver]
        simp
      · exact ⟨hwf, .inr hanswered⟩
    cases hdrop : s.sent.drop s.answered with
    | nil =>
      -- every request was answered, so there is nothing to read
      rw [hdrop, List.flatMap_nil, List.append_eq_nil_iff] at hstream
      rw [hstream.2, List.length_nil] at hle
      omega
    | cons body rest =>
      have hget : s.sent[s.answered]? = some body := by
        rw [← List.head?_drop, hdrop]
        rfl
      have hrest : s.sent.drop (s.answered + 1) = rest := by
        rw [← List.tail_drop, hdrop]
        rfl
      rw [hdrop, List.flatMap_cons] at hstream
      have hsplit : r.consumed ++ s.toServer.take n ++ s.toServer.drop n =
          encodeFrame body ++ rest.flatMap encodeFrame := by
        rw [List.append_assoc, List.take_append_drop, hstream]
      have hpiece : (s.toServer.take n).length ≤ r.missing := by
        rw [List.length_take]
        omega
      rcases Reader.feed_of_consumed hr hpiece
        (h.sent_lt body (List.mem_of_getElem? hget)) hsplit with
        ⟨r', hfeed, hr', hmore⟩ | ⟨hfeed, hmore⟩
      · rw [hfeed] at hstep
        cases hstep
        refine ⟨?_, hclient _ _ (by simp), h.answered_le, h.sent_lt, h.returnsOwn⟩
        refine ⟨hr', ?_⟩
        rw [hmore, hdrop, List.flatMap_cons]
      · rw [hfeed] at hstep
        cases hstep
        refine ⟨?_, hclient _ _ (by simp), h.answered_le, h.sent_lt, h.returnsOwn⟩
        refine ⟨hget, ?_⟩
        rw [hmore, hrest]

/-- A reply whose length has 32 bits is that of the request that was read. -/
theorem InSync.answer (h : InSync dispatch s)
    (hlen : kind = .rust → ∀ r ∈ s.reply dispatch, r.2.length + 1 < 2 ^ 32)
    (hstep : s.step kind dispatch .answer = some s') : InSync dispatch s' := by
  cases hserver : s.server with
  | reading r => simp [Session.step, hserver] at hstep
  | closed => simp [Session.step, hserver] at hstep
  | answering body =>
    have hsync := h.server
    simp only [ServerInSync, hserver] at hsync
    obtain ⟨hget, hrest⟩ := hsync
    have hlt := (List.getElem?_eq_some_iff.mp hget).1
    simp only [Session.step, hserver] at hstep
    split at hstep
    next bytes hbytes =>
      cases hstep
      obtain ⟨reply, hreply, hbytes⟩ := Option.bind_eq_some_iff.mp hbytes
      -- the reply is sent in one piece, as a frame
      obtain ⟨hword, rfl⟩ := replyBytes_eq_encodeFrame
        (fun hrust => hlen hrust reply (by rw [Session.reply, hserver]; exact hreply)) hbytes
      refine ⟨⟨Reader.wellFormed_start, hrest⟩, fun r hr => ?_, hlt, h.sent_lt, h.returnsOwn⟩
      obtain ⟨hwf, ⟨rfl, hnil, hlast⟩ | ⟨hanswered, -⟩⟩ := h.client r hr
      · -- the client waits for this reply
        have hone : s.answered + 1 = s.sent.length := hlast.resolve_left (by rw [hserver]; simp)
        have hindex : s.sent.length - 1 = s.answered := by omega
        refine ⟨hwf, .inr ⟨hone, body, reply, ?_, ?_, hword, ?_⟩⟩
        · rw [hindex]
          exact hget
        · rw [hindex]
          exact hreply
        · rw [hnil]
          rfl
      · omega
    next =>
      cases hstep
      -- no reply can be framed: the server closes, and the client waits on
      refine ⟨trivial, fun r hr => ?_, h.answered_le, h.sent_lt, h.returnsOwn⟩
      obtain ⟨hwf, ⟨hstart, hnil, -⟩ | hanswered⟩ := h.client r hr
      · exact ⟨hwf, .inl ⟨hstart, hnil, .inl rfl⟩⟩
      · exact ⟨hwf, .inr hanswered⟩

/-- A step that is in turn keeps the connection in sync. -/
theorem InSync.step (h : InSync dispatch s) {e : SessionEvent} (hturn : s.InTurn kind dispatch e)
    (hstep : s.step kind dispatch e = some s') : InSync dispatch s' := by
  cases e with
  | call body =>
    simp only [Session.step] at hstep
    split_ifs at hstep with hidle hlen
    · cases hstep
      exact h.call (hturn hlen) hlen
    · cases hstep
      exact h
  | recv n => exact h.recv hstep
  | timeout =>
    simp only [Session.step] at hstep
    split_ifs at hstep
    cases hstep
    exact h.raise
  | eof =>
    simp only [Session.step] at hstep
    split_ifs at hstep
    cases hstep
    exact h.raise
  | serverRead n => exact h.serverRead hstep
  | answer => exact h.answer hturn hstep

end Session

/-- In a run whose calls find the connection quiet, and in which the length of every reply of the
Rust server has 32 bits (`h`), every call that returns, returns its own reply. -/
theorem returnsOwn_along (kind : ServerKind) (dispatch : ℕ → Bytes → Option Reply)
    {events : List SessionEvent}
    (h : AlongSteps (Session.step kind dispatch) (Session.InTurn kind dispatch) .init events) :
    Along (Session.step kind dispatch) (Session.ReturnsOwn dispatch) .init events :=
  (along_of_alongSteps (fun _ _ _ hsync hturn hstep => hsync.step hturn hstep)
    (Session.inSync_init dispatch) h).imp fun _ hsync => hsync.returnsOwn

/-! ### Two requests on a connection -/

/-- The text of a request for one row of table `t`. -/
def rowBody (row : Char) : Bytes :=
  ("\x7b\"cmd\": \"fetch_raw\", \"table\": \"t\", \"rowids\": [".toList ++ row ::
    "]\x7d".toList).map fun c => UInt8.ofNat c.toNat

/-- A request for one row of table `t`. -/
def rowRequest (row : UInt64) : Json.Value :=
  .object [("cmd", .string "fetch_raw"), ("table", .string "t"), ("rowids", .array [.posInt row])]

/-- A server with a table `t` of two rows of one byte each, `7` and `9`. -/
def twoRowServer : Server where
  root table := if table = "t" then
      some
        { manifest := some (.object [("layout", .object [("shards", .posInt 1),
            ("rows_per_shard", .posInt 2), ("width", .posInt 1)])])
          files := ⟨fun i => if i = 0 then some [7, 9] else none, fun _ => none⟩
          length_lt := by
            intro i f h
            by_cases hi : i = 0
            · simp only [TableDir.file, if_pos hi, Option.some.injEq] at h
              rw [← h]
              decide
            · simp [TableDir.file, hi] at h }
    else none
  memory := .upTo (2 ^ 20) (by decide)
  parse _ := .error ""
  parseSlice body := .ok (rowRequest (if body = rowBody '0' then 0 else 1))
  print _ := []
  describe _ := ""
  listTables := .null
  viewRead _ := .error ""

/-- The replies of that server. -/
def twoRowReplies (_ : ℕ) (body : Bytes) : Option Reply :=
  binaryReply twoRowServer ⟨preadvBackend fullPread, Schedule.inOrder _⟩ body

/-- Two calls, one after the other. -/
def oneByOne : List SessionEvent :=
  [.call (rowBody '0'), .serverRead 4, .serverRead (rowBody '0').length, .answer, .recv 4, .recv 2,
    .call (rowBody '1'), .serverRead 4, .serverRead (rowBody '1').length, .answer, .recv 4, .recv 2]

theorem returnsOwn_along_oneByOne :
    Along (Session.step .rust twoRowReplies) (Session.ReturnsOwn twoRowReplies) .init oneByOne :=
  returnsOwn_along .rust twoRowReplies (by decide +kernel)

/-- The first call times out before the server has read the request. -/
def afterTimeout : List SessionEvent :=
  [.call (rowBody '0'), .timeout, .serverRead 4, .serverRead (rowBody '0').length, .answer,
    .call (rowBody '1'), .recv 4, .recv 2]

/-- The second call returns the reply to the first. -/
theorem not_returnsOwn_afterTimeout :
    ¬ Along (Session.step .rust twoRowReplies) (Session.ReturnsOwn twoRowReplies) .init
      afterTimeout := by
  intro h
  have hrun : (run (Session.step .rust twoRowReplies) .init afterTimeout).map
      (fun s => (s.sent, s.returned)) = some ([rowBody '0', rowBody '1'], [(1, (1, [7]))]) := by
    decide +kernel
  obtain ⟨s, hs, hfinal⟩ := Option.map_eq_some_iff.mp hrun
  obtain ⟨hsent, hreturned⟩ := Prod.mk.inj hfinal
  obtain ⟨body, hbody, hreply⟩ := h.run hs (1, (1, [7])) (by rw [hreturned]; simp)
  rw [hsent] at hbody
  cases hbody
  revert hreply
  decide +kernel

end Serve

end EngramDB
