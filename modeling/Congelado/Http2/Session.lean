import Congelado.Lib.OrderedMap
import Congelado.Lib.Transition
import Congelado.Http2.Stream

/-!
# The session of a server

`Session::receive` takes one frame from the reader: its header, which is kept until the payload is
there, and then the payload, on the stream of the connection or on the one of the frame. A
`ConnectionError` closes the connection, a `StreamError` resets the stream, and nothing else is
caught. A stream that is closed keeps its slot, empty.

`ServerFlow::on_read` calls it once for each read. The runs of `server` are those of a connection
after its preface: what is read, and the responses that handlers send later.
-/

namespace Congelado.Http2

open Codec Attempt Action

/-! ### The session -/

inductive Status
  | running
  /-- `m_closer` was called. -/
  | closed
  /-- Something was thrown out of `receive`. -/
  | failed (thrown : Thrown)
  deriving DecidableEq

structure Session where
  conn : Connection := {}
  safeHeader : Option FrameHeader := none
  /-- `m_streams`, whose closed streams have empty slots. -/
  streams : List (ℕ × Option Stream) := []
  /-- The streams whose handlers have kept the function that sends their responses. -/
  pending : List ℕ := []
  status : Status := .running

namespace Session

def onConnection (f : Action Thrown Connection) : Action Thrown Session :=
  zoom Session.conn (fun conn s => { s with conn }) f

variable (id : ℕ)

def slot (s : Session) : Option (Option Stream) := OrderedMap.find id s.streams

def setSlot (stream : Option Stream) (s : Session) : Session :=
  { s with streams := OrderedMap.put id stream s.streams }

/-- An action on `*m_streams.at(id)`. -/
def onStream (f : Action Thrown Context) : Action Thrown Session := fun s =>
  match s.slot id with
  | none => throw .outOfRange s
  | some none => throw (.fault .nullStream) s
  | some (some stream) =>
    { state := { s with conn := (f ⟨s.conn, stream⟩).state.conn }.setSlot id
        (some (f ⟨s.conn, stream⟩).state.stream)
      thrown := (f ⟨s.conn, stream⟩).thrown }

/-! ### Headers -/

/-- `ReadFrameHeaderAdaptor` on the reader. -/
def nextHeader (s : Session) : Except Thrown FrameHeader := do
  let bytes ← s.conn.reader.read headerSize
  readFrameHeader s.conn.localSettings.maxFrameSize bytes

/-- Streams above the one that a `GOAWAY` named are refused. -/
def checkStreamId (header : FrameHeader) : Action Thrown Session := fun s =>
  if s.conn.remoteSettings.lastStreamId < header.streamId then
    throw (.connectionError .protocolError s.conn.remoteSettings.lastStreamId) s
  else done s

/-- The windows of the streams are raised by what the settings have changed. -/
def raiseWindows : Action Thrown Session := fun s =>
  if 0 < s.conn.remoteSettings.deltaWindowOnSettings then
    andThen (each (fun entry => onStream entry.1
        (Stream.updateSendWindow s.conn.remoteSettings.deltaWindowOnSettings.toNat)) s.streams)
      (onConnection (modify fun c => { c with
        remoteSettings := { c.remoteSettings with deltaWindowOnSettings := 0 } })) s
  else done s

/-- The first header after the settings of the peer makes them final. -/
def settleSettings : Action Thrown Session := fun s =>
  if s.conn.remoteSettings.state = .acknowledged then
    andThen raiseWindows (onConnection (modify fun c => { c with
      remoteSettings := { c.remoteSettings with state := .implemented } })) s
  else done s

/-- `receive_header`, and what is done before the header is kept. -/
def receiveHeader : Action Thrown Session :=
  reading nextHeader fun header =>
    andThen (onConnection (Connection.consume headerSize)) <|
    andThen (checkStreamId header) <|
    andThen settleSettings <|
    modify fun s => { s with safeHeader := some header }

/-! ### Streams and responses -/

def getOrCreateStream : Action Thrown Session := fun s =>
  match s.slot id with
  | some (some _) => done s
  | some none =>
    throw (.connectionError .protocolError s.conn.remoteSettings.lastStreamId) s
  | none =>
    if id % 2 = 0 then throw (connectionError .protocolError) s
    else done (s.setSlot id (some (.create id s.conn.remoteSettings.initialWindowSize)))

def markStreamClosed : Action Thrown Session := fun s =>
  if id = 0 then throw (connectionError .protocolError) s
  else
    match s.slot id with
    | some _ => done (s.setSlot id none)
    | none => throw (.connectionError .protocolError s.conn.remoteSettings.lastStreamId) s

/-- The frames of a response are sent as one node. -/
def sendFrames (frames : List Frame) (s : Session) : Session :=
  { s with conn := { s.conn with log := s.conn.log ++ frames.map .sent } }

def setEncodingTable (encodingTable : HPackTable) (s : Session) : Session :=
  { s with conn := { s.conn with encodingTable } }

variable (host : Host) (id : ℕ)

/-- `send_response`. -/
def sendResponse : Action Thrown Session := fun s =>
  match s.slot id with
  | none => throw .outOfRange s
  | some none => throw (.fault .nullStream) s
  | some (some stream) =>
    let frameSize := s.conn.localSettings.maxFrameSize
    match HpackEncoder.call host.hit frameSize true stream.response.headers.getHeaders
      s.conn.encodingTable with
    | .outOfBounds => throw (.fault .outOfBounds) s
    | .threw _ table e => throw (.codec e) (s.setEncodingTable table)
    | .finished chunks table =>
      markStreamClosed id ((s.setEncodingTable table).sendFrames
        (headerFrames stream.response.streamId chunks ++ stream.response.bodyFrames frameSize))

/-- The response is set to the one that a handler has left. -/
def setResponse (response : Response) : Action Thrown Session :=
  onStream id (modify fun c => { c with stream := { c.stream with response } })

/-- The answer to a handler that has thrown. -/
def failResponse : Action Thrown Session :=
  andThen (onStream id (modify fun c => { c with
    stream := { c.stream with response := c.stream.response.setStatus "500" } }))
    (sendResponse host id)

/-- A handler sends its response. What is thrown by that comes out of the handler. -/
def trySend : Action Thrown Session :=
  rescue (sendResponse host id) fun
    | .fault fault => throw (.fault fault)
    | _ => failResponse host id

/-- What the handler does. If it throws after its response was sent then the stream is gone by the
time that the status is set. -/
def conclude : Reply → Action Thrown Session
  | .keeps => modify fun s => { s with pending := id :: s.pending }
  | .sends => trySend host id
  | .throws => failResponse host id
  | .sendsAndThrows => fun s =>
    match (sendResponse host id s).thrown with
    | none => throw (.fault .nullStream) (sendResponse host id s).state
    | some _ => trySend host id s

/-- `response`. -/
def response : Action Thrown Session := fun s =>
  match s.slot id with
  | none => throw .outOfRange s
  | some none => throw (.fault .nullStream) s
  | some (some stream) =>
    let response := stream.response.setStatus "404"
    let handling := host.dispatch stream.request response
    andThen (onConnection (modify (Connection.emit (.dispatched stream.request response)))) (
      andThen (setResponse id handling.response) (conclude host id handling.reply)) s

/-- A request that is complete is dispatched. -/
def respondIfDone : Action Thrown Session := fun s =>
  match s.slot id with
  | some (some stream) => if stream.remoteDone then response host id s else done s
  | _ => done s

/-! ### Frames -/

variable (header : FrameHeader)

/-- The header is taken, and the frame noted. -/
def takeHeader (s : Session) : Session :=
  { s with
    safeHeader := none
    conn := s.conn.emit (.received header (s.conn.reader.viewed header.length)) }

def handleFrame : Action Thrown Session :=
  if header.streamId = 0 then onConnection (Connection.receive host header)
  else
    andThen (getOrCreateStream header.streamId) <|
    andThen (onStream header.streamId (Stream.receive host header)) <|
    respondIfDone host header.streamId

/-- The frame of the header that is kept is handled if its payload is there. -/
def receivePayload : Action Thrown Session := fun s =>
  match s.safeHeader with
  | none => done s
  | some header =>
    if s.conn.reader.size < header.length then done s
    else handleFrame host header (s.takeHeader header)

/-- The body of `receive`. -/
def receiveFrame : Action Thrown Session := fun s =>
  match s.safeHeader with
  | some _ => receivePayload host s
  | none =>
    if s.conn.reader.size < headerSize then done s
    else andThen receiveHeader (receivePayload host) s

def close (code : Http2ErrorCode) (lastStreamId : ℕ) : Action Thrown Session :=
  andThen (onConnection (Connection.send (.goaway lastStreamId code))) <|
  modify fun s => { s with
    safeHeader := none
    streams := OrderedMap.keep (· ≤ lastStreamId) s.streams
    status := .closed }

/-- The handlers of `receive`. -/
def handleThrown : Thrown → Action Thrown Session
  | .connectionError code lastStreamId => close code lastStreamId
  | .streamError streamId code =>
    andThen (onConnection (Connection.send (.rstStream streamId code))) (markStreamClosed streamId)
  | thrown => throw thrown

/-- `Session::receive`. -/
def receive : Action Thrown Session := rescue (receiveFrame host) handleThrown

/-! ### Runs -/

/-- What is thrown out of `receive` leaves the session as it is. -/
def conclusion (outcome : Outcome Thrown Session) : Session :=
  match outcome.thrown with
  | none => outcome.state
  | some thrown => { outcome.state with status := .failed thrown }

variable (bytes : List UInt8)

def pushBack (s : Session) : Session :=
  { s with conn := { s.conn with reader := s.conn.reader.pushBack bytes } }

/-- `ServerFlow::on_read`, for bytes that were received. -/
def onRead (s : Session) : Session :=
  if (s.pushBack bytes).conn.reader.size = 0 then s.pushBack bytes
  else conclusion (receive host (s.pushBack bytes))

/-- A handler sends the response it was asked for. An exception goes to the handler. -/
def lateReply (response : Response) (s : Session) : Option Session :=
  if id ∈ s.pending then
    let outcome := andThen (setResponse id response) (sendResponse host id)
      { s with pending := s.pending.erase id }
    match outcome.thrown with
    | some (.fault _) => none
    | _ => some outcome.state
  else none

end Session

inductive Label
  | read (bytes : List UInt8)
  | reply (id : ℕ) (response : Response)

/-- The connection of a server. Nothing is read any more when it is closed, or when `receive` has
failed. -/
def server (host : Host) : Transition.System Session Label where
  next
    | .read bytes, s =>
      if s.status = .running ∧ bytes ≠ [] then some (s.onRead host bytes) else none
    | .reply id response, s => s.lateReply host id response

end Congelado.Http2
