import EngramDB.Foundations.Json
import EngramDB.Foundations.Text
import EngramDB.Io.Batch.Machine
import EngramDB.Io.Batch.Open
import EngramDB.Serve.Base64

/-!
# The TCP server

One process serves the tables under a root directory. A request is a JSON object, one on each line
(`handleConnection`) or one in each binary frame (`binaryDispatch`). Both fetch the rows of a table
with `fetchRawTable`: the layout comes from the manifest of the table or, without one, from the
request, and the row ids are the entries of an array that are unsigned integers.

The server is a release build, and memory for the text of a response is taken to be there.
-/

namespace EngramDB

open Json

namespace Serve

/-- A directory under the root. -/
structure TableEntry where
  /-- `manifest.json`, if it is there and parses. -/
  manifest : Option Value
  /-- The shard files. -/
  files : TableDir
  /-- A file has less than `2 ^ 63` bytes. -/
  length_lt : ∀ {i f}, files.file i = some f → f.length < 2 ^ 63

/-- A running server. -/
structure Server where
  /-- The directories under the root, by the path they are reached by. -/
  root : String → Option TableEntry
  /-- The memory of the machine. -/
  memory : Allocator
  /-- The JSON parser, of a text. -/
  parse : List Char → Except String Value
  /-- The JSON parser, of bytes. -/
  parseSlice : Bytes → Except String Value
  /-- The JSON printer. -/
  print : Value → Bytes
  /-- The text of an IO error. -/
  describe : IoError → String
  /-- The answer to `list_tables`. -/
  listTables : Value
  /-- The answer to `view_read`: the record, or an error. -/
  viewRead : Value → Except String Bytes

/-- What serving a request leaves open. -/
structure Turn where
  /-- The answers to the reads. -/
  backend : IoBackend
  /-- The order in which the jobs of the gather finish. -/
  sched : Schedule JobResult

/-! ### Layouts -/

/-- The layout in a manifest. -/
def layoutFromManifest (manifest : Value) : Option Layout := do
  let l ← manifest.get "layout"
  let shards ← (← l.get "shards").asU64
  let rowsPerShard ← (← l.get "rows_per_shard").asU64
  let width ← (← l.get "width").asU64
  let elemBytes := ((l.get "elem_bytes").bind Value.asU64).getD 1
  pure (.new64 shards.toNat rowsPerShard.toNat width.toNat elemBytes.toNat)

/-- A layout parameter of a request. -/
def requestParam (req : Value) (key : String) : Except String UInt64 :=
  match (req.get key).bind Value.asU64 with
  | some n => .ok n
  | none => .error ("no manifest; fetch requires " ++ key)

/-- The layout of a table: that of its manifest, or that of the request. -/
def resolveLayout (manifest : Option Value) (req : Value) : Except String Layout :=
  match manifest with
  | some m =>
    match layoutFromManifest m with
    | some L => .ok L
    | none => .error "manifest missing layout?"
  | none => do
    let shards ← requestParam req "shards"
    let rowsPerShard ← requestParam req "rows_per_shard"
    let width ← requestParam req "width"
    -- an `elem_bytes` of another type counts as missing
    let elemBytes := ((req.get "elem_bytes").bind Value.asU64).getD 1
    pure (.new64 shards.toNat rowsPerShard.toNat width.toNat elemBytes.toNat)

/-! ### Fetching rows -/

/-- The table of a request. -/
def requestTable (req : Value) : Except String String :=
  match (req.get "table").bind Value.asStr with
  | some table => .ok table
  | none => .error "fetch requires table"

/-- The row ids of a request: those entries of the array that are unsigned integers. -/
def requestRowids (req : Value) : Except String (List UInt64) :=
  match (req.get "rowids").bind Value.asArray with
  | some vs => .ok (vs.filterMap Value.asU64)
  | none => .error "fetch requires rowids array"

/-- Open the shards of a table, after making room for a descriptor of 4 bytes each. -/
def openShards (a : Allocator) (files : TableDir) (L : Layout) (backend : IoBackend) :
    Outcome IoError BadgeGather :=
  if a.allocates (4 * L.shards) then .ofExcept (BadgeGather.openWithBackend files L backend)
  else .error .panic

/-- What a request asks for: the table, its layout and the row ids. -/
def resolve (srv : Server) (req : Value) : Except String (TableEntry × Layout × List ℕ) := do
  let table ← requestTable req
  match srv.root table with
  | none => .error ("table not found: " ++ table)
  | some entry =>
    let L ← resolveLayout entry.manifest req
    let rowids ← requestRowids req
    pure (entry, L, rowids.map UInt64.toNat)

/-- Open a table and gather rows of it. -/
def gatherRows (srv : Server) (turn : Turn) (files : TableDir) (L : Layout) (rowids : List ℕ) :
    Outcome String Bytes := do
  let batch ← (openShards srv.memory files L turn.backend).mapErr srv.describe
  let out ← srv.memory.zeros (wordMul rowids.length L.width)
  (batch.gatherPp64 srv.memory turn.sched rowids out DEFAULT_GATHER_THREADS).mapErr srv.describe

/-- The rows of a request, and the width of a row. -/
def fetchRawTable (srv : Server) (turn : Turn) (req : Value) : Outcome String (Bytes × ℕ) := do
  let (entry, L, rowids) ← Outcome.ofExcept (resolve srv req)
  let out ← gatherRows srv turn entry.files L rowids
  pure (out, L.width)

/-- The response to `fetch`. -/
def fetchTable (srv : Server) (turn : Turn) (req : Value) : Outcome String Value := do
  let (raw, width) ← fetchRawTable srv turn req
  let table ← Outcome.ofExcept (requestTable req)
  let rowids ← Outcome.ofExcept (requestRowids req)
  pure (.object [("ok", .bool true), ("table", .string table),
    ("num_rows", .posInt (UInt64.ofNat rowids.length)), ("width", .posInt (UInt64.ofNat width)),
    ("raw_base64", .string (String.ofList (base64Encode raw)))])

/-! ### Requests -/

/-- The response that reports an error. -/
def errorResponse (e : String) : Value := .object [("ok", .bool false), ("error", .string e)]

/-- The response to `ping`. -/
def pong : Value := .object [("ok", .bool true), ("pong", .bool true)]

/-- The command of a request. -/
def requestCmd (req : Value) : String := ((req.get "cmd").bind Value.asStr).getD ""

/-- An error becomes a response, a panic stays one. -/
def respond {α : Type} (onError : String → α) : Outcome String α → Outcome String α
  | .error (.error e) => .ok (onError e)
  | x => x

/-- The response to a request on a line. -/
def handleRequest (srv : Server) (turn : Turn) (req : Value) : Outcome String Value :=
  match requestCmd req with
  | "ping" => .ok pong
  | "list_tables" => .ok srv.listTables
  | "fetch" => respond errorResponse (fetchTable srv turn req)
  | "view_read" =>
    match (req.get "path").bind Value.asStr with
    | some _ =>
      respond errorResponse ((Outcome.ofExcept (srv.viewRead req)).map fun data =>
        .object [("ok", .bool true),
          ("index", .posInt (((req.get "index").bind Value.asU64).getD 0)),
          ("slot_base64", .string (String.ofList (base64Encode data)))])
    | none => .ok (errorResponse "view_read requires path")
  | other => .ok (errorResponse ("unknown command: " ++ other))

/-- The first byte of a binary response: the payload is JSON. -/
def KIND_JSON : UInt8 := 0

/-- The first byte of a binary response: the payload is a record or rows. -/
def KIND_RAW : UInt8 := 1

/-- A binary response that reports an error. -/
def binaryError (srv : Server) (e : String) : UInt8 × Bytes :=
  (KIND_JSON, srv.print (errorResponse e))

/-- The response to a binary request: its kind and its payload. -/
def binaryDispatch (srv : Server) (turn : Turn) (req : Value) : Outcome String (UInt8 × Bytes) :=
  match requestCmd req with
  | "ping" => .ok (KIND_JSON, srv.print pong)
  | "list_tables" => .ok (KIND_JSON, srv.print srv.listTables)
  | "fetch_raw" =>
    respond (binaryError srv) ((fetchRawTable srv turn req).map fun r => (KIND_RAW, r.1))
  | "view_read" =>
    match (req.get "path").bind Value.asStr with
    | some _ =>
      respond (binaryError srv) ((Outcome.ofExcept (srv.viewRead req)).map fun data =>
        (KIND_RAW, data))
    | none => .ok (binaryError srv "view_read requires path")
  | other => .ok (binaryError srv ("unknown command: " ++ other))

/-- The reply to the body of a binary frame, or nothing if the handler dies over it. -/
def binaryReply (srv : Server) (turn : Turn) (body : Bytes) : Option (UInt8 × Bytes) :=
  match srv.parseSlice body with
  | .ok req => (binaryDispatch srv turn req).toOption
  | .error e => some (binaryError srv ("bad json: " ++ e))

/-! ### A connection of lines -/

/-- The response to a line that is not blank. -/
def handleLine (srv : Server) (turn : Turn) (line : List Char) : Outcome String Value :=
  match srv.parse line with
  | .ok req => handleRequest srv turn req
  | .error e => .ok (errorResponse ("bad json: " ++ e))

/-- Serve the lines of a connection from the `n`-th on: the responses sent, and how the handler
ends. A line that cannot be read ends the connection, and a blank line is skipped. -/
def handleConnection (srv : Server) (turns : ℕ → Turn) :
    ℕ → List (Except String (List Char)) → List Value × Outcome String Unit
  | _, [] => ([], .ok ())
  | _, .error e :: _ => ([], .error (.error e))
  | n, .ok line :: lines =>
    let line := Text.trim line
    if line = [] then handleConnection srv turns (n + 1) lines
    else
      match handleLine srv (turns n) line with
      | .ok resp =>
        let rest := handleConnection srv turns (n + 1) lines
        (resp :: rest.1, rest.2)
      | .error fault => ([], .error fault)

end Serve

end EngramDB
