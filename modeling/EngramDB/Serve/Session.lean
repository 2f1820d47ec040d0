import EngramDB.Core.Layout
import EngramDB.Foundations.Framing

/-!
# A client on a binary connection

`EngramDBClient.request` sends a frame with a JSON request and reads a frame with the reply, over a
connection to one of the two binary servers (`handle_binary_connection` in Rust, `_BinaryHandler` in
Python). The connection is two byte streams, and either end reads a stream in pieces of any size.

A receive that times out raises in the client and leaves the connection as it is, so that the bytes
of the reply stay on the stream, or are yet to come.
-/

namespace EngramDB

open Framing

namespace Serve

/-- The two servers. -/
inductive ServerKind where
  /-- `handle_binary_connection`. -/
  | rust
  /-- `_BinaryHandler`. -/
  | python
deriving DecidableEq, Repr

/-- The reply to a request: its kind and its payload. -/
abbrev Reply := UInt8 × Bytes

/-- The bytes that a server writes for a reply. The Rust server computes the length in 32 bits,
`1u32 + payload.len() as u32`; the Python server fails to write a length of more than four bytes,
and closes the connection. -/
def replyBytes (kind : ServerKind) (r : Reply) : Option Bytes :=
  match kind with
  | .rust => some (be32 (1 + UInt32.ofNat r.2.length).toNat ++ [r.1] ++ r.2)
  | .python =>
    let frame := r.1 :: r.2
    if frame.length < 2 ^ 32 then some (be32 frame.length ++ frame) else none

/-- Where the client is. -/
inductive ClientState where
  /-- Between two calls. -/
  | idle
  /-- In a call, reading the reply. -/
  | waiting (r : Reader)
deriving DecidableEq, Repr

/-- Where the server is. -/
inductive ServerState where
  /-- Reading a request. -/
  | reading (r : Reader)
  /-- Computing the reply to a request. -/
  | answering (body : Bytes)
  /-- The connection was closed. -/
  | closed
deriving DecidableEq, Repr

/-- A connection and its two ends. -/
structure Session where
  /-- The client. -/
  client : ClientState
  /-- The server. -/
  server : ServerState
  /-- Bytes on the way to the server. -/
  toServer : Bytes
  /-- Bytes on the way to the client. -/
  toClient : Bytes
  /-- The requests sent so far. -/
  sent : List Bytes
  /-- How many of them were answered. -/
  answered : ℕ
  /-- The calls that returned: the number of the request, and what was returned. -/
  returned : List (ℕ × Reply)
deriving DecidableEq, Repr

/-- A new connection. -/
def Session.init : Session where
  client := .idle
  server := .reading Reader.start
  toServer := []
  toClient := []
  sent := []
  answered := 0
  returned := []

/-- What can happen on a connection. -/
inductive SessionEvent where
  /-- The client calls `request`, with this JSON text. -/
  | call (body : Bytes)
  /-- A receive of the client returns so many bytes. -/
  | recv (n : ℕ)
  /-- A receive of the client times out. -/
  | timeout
  /-- A receive of the client finds the connection closed. -/
  | eof
  /-- The server reads so many bytes. -/
  | serverRead (n : ℕ)
  /-- The server answers the request that it has read. -/
  | answer
deriving DecidableEq, Repr

namespace Session

/-- The call ends with an exception. -/
def raise (s : Session) : Session := { s with client := .idle }

/-- The call has read the frame of a reply. An empty one raises. -/
def finish (s : Session) (frame : Bytes) : Session :=
  match frame with
  | [] => s.raise
  | kind :: payload =>
    { s with
      client := .idle
      returned := s.returned ++ [(s.sent.length - 1, (kind, payload))] }

/-- One step of a connection. `dispatch n body` is what the server computes for request `n`, or
nothing if the handler dies over it. -/
def step (kind : ServerKind) (dispatch : ℕ → Bytes → Option Reply) (s : Session) :
    SessionEvent → Option Session
  | .call body =>
    if s.client = .idle then
      -- `to_bytes(4, "big")` raises before anything is sent
      if body.length < 2 ^ 32 then
        some
          { s with
            client := .waiting Reader.start
            toServer := s.toServer ++ encodeFrame body
            sent := s.sent ++ [body] }
      else some s
    else none
  | .recv n =>
    match s.client with
    | .idle => none
    | .waiting r =>
      if 0 < n ∧ n ≤ r.missing ∧ n ≤ s.toClient.length then
        let s' := { s with toClient := s.toClient.drop n }
        match r.feed (s.toClient.take n) with
        | .inl r' => some { s' with client := .waiting r' }
        | .inr frame => some (s'.finish frame)
      else none
  | .timeout => if s.client ≠ .idle then some s.raise else none
  | .eof => if s.client ≠ .idle ∧ s.server = .closed ∧ s.toClient = [] then some s.raise else none
  | .serverRead n =>
    match s.server with
    | .reading r =>
      if 0 < n ∧ n ≤ r.missing ∧ n ≤ s.toServer.length then
        let s' := { s with toServer := s.toServer.drop n }
        match r.feed (s.toServer.take n) with
        | .inl r' => some { s' with server := .reading r' }
        | .inr body => some { s' with server := .answering body }
      else none
    | _ => none
  | .answer =>
    match s.server with
    | .answering body =>
      match (dispatch s.answered body).bind (replyBytes kind) with
      | some bytes =>
        some
          { s with
            server := .reading Reader.start
            toClient := s.toClient ++ bytes
            answered := s.answered + 1 }
      | none => some { s with server := .closed }
    | _ => none

/-- Every call that returned, returned what the server computes for its request. -/
def ReturnsOwn (dispatch : ℕ → Bytes → Option Reply) (s : Session) : Prop :=
  ∀ p ∈ s.returned, ∃ body, s.sent[p.1]? = some body ∧ dispatch p.1 body = some p.2

/-- Nothing of an earlier request is left: no byte of it is on the way, and the server is not at
work on it. -/
def Quiet (s : Session) : Prop :=
  s.toClient = [] ∧ (s.server = .closed ∨ (s.server = .reading Reader.start ∧ s.toServer = []))

/-- The reply that the server is about to write. -/
def reply (dispatch : ℕ → Bytes → Option Reply) (s : Session) : Option Reply :=
  match s.server with
  | .answering body => dispatch s.answered body
  | _ => none

/-- What a step must be like: a call finds the connection quiet, and a reply of the Rust server has
a length of 32 bits. -/
def InTurn (kind : ServerKind) (dispatch : ℕ → Bytes → Option Reply) (s : Session) :
    SessionEvent → Prop
  | .call body => body.length < 2 ^ 32 → s.Quiet
  | .answer => kind = .rust → ∀ r ∈ s.reply dispatch, r.2.length + 1 < 2 ^ 32
  | _ => True

instance (s : Session) : Decidable s.Quiet :=
  inferInstanceAs (Decidable (_ = [] ∧ (_ = _ ∨ (_ = _ ∧ _ = []))))

instance (kind : ServerKind) (dispatch : ℕ → Bytes → Option Reply) (s : Session) :
    (e : SessionEvent) → Decidable (s.InTurn kind dispatch e)
  | .call body => inferInstanceAs (Decidable (body.length < 2 ^ 32 → s.Quiet))
  | .answer => inferInstanceAs
      (Decidable (kind = .rust → ∀ r ∈ s.reply dispatch, r.2.length + 1 < 2 ^ 32))
  | .recv _ => .isTrue trivial
  | .timeout => .isTrue trivial
  | .eof => .isTrue trivial
  | .serverRead _ => .isTrue trivial

end Session

end Serve

end EngramDB
