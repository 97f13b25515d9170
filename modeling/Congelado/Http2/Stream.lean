import Congelado.Lib.Attempt
import Congelado.Http2.Message
import Congelado.Http2.Reader
import Congelado.Http2.Settings
import Congelado.Http2.StateMachine

/-!
# Streams

What a frame does on the stream of the connection (`Connection.receive`) and on another one
(`Stream.receive`). The functions of the source throw in the middle of what they do, and what they
have done by then stays: they are actions that keep their state.

A stream takes the payload of `DATA` and of header fragments out of the reader with `grow_view`, and
the bytes of the frame are consumed after that. The other frames look at bytes of the reader and
leave them to be consumed.

The hooks of extensions are left out. That there are extensions matters for the frames of an unknown
type only, whose payload is taken out for the hooks.
-/

namespace Congelado.Http2

open Codec Attempt Action

/-! ### The surroundings -/

/-- What a request handler does with the function that sends its response. -/
inductive Reply
  | keeps
  | sends
  | throws
  | sendsAndThrows
  deriving DecidableEq

/-- The response a handler leaves, and what it does. -/
structure Handling where
  response : Response
  reply : Reply
  deriving DecidableEq

/-- What a session depends on. -/
structure Host where
  hit : Layout
  /-- The width of the Huffman decoder. -/
  width : ℕ
  /-- There are extensions. -/
  extensions : Bool := false
  /-- `m_dispatch`. -/
  dispatch : Request → Response → Handling

/-- Handlers that keep the requests to themselves. -/
def keepingHost : Host where
  hit := fun _ _ => false
  width := 4
  dispatch := fun _ response => ⟨response, .keeps⟩

/-- Handlers that send an empty response. -/
def emptyHost : Host :=
  { keepingHost with dispatch := fun _ response => ⟨{ response with body := [] }, .sends⟩ }

/-- `:method: GET`, as a whole request. -/
def smallRequest : List UInt8 :=
  Frame.write { type := .headers, flags := 0x05, streamId := 1, payload := [0x82] }

/-- What is seen of a session: the frames it has taken from the reader, the blocks it has given to
the decoder, the requests it has dispatched and the frames it has sent. -/
inductive Event
  | received (header : FrameHeader) (payload : List UInt8)
  | fed (streamId : ℕ) (block : List UInt8)
  | dispatched (request : Request) (response : Response)
  | sent (frame : Frame)
  deriving DecidableEq

/-! ### The connection -/

/-- What the streams of a connection share, with the stream of the connection. -/
structure Connection where
  reader : Reader := {}
  localSettings : Settings := {}
  remoteSettings : Settings := {}
  sendWindow : ℤ := defaultInitialWindowSize
  recvWindow : ℤ := defaultInitialWindowSize
  decodingTable : HPackTable := {}
  encodingTable : HPackTable := {}
  log : List Event := []

/-- What a read of the reader has, if the iteration does not run past the last node. -/
def Reader.read (count : ℕ) (reader : Reader) : Except Thrown (List UInt8) :=
  match reader.take count with
  | none => .error (.fault .nullNode)
  | some bytes => .ok bytes

/-- `ReadWindowIncrementAdaptor`. -/
def Reader.readWindowIncrement (reader : Reader) : Except Thrown ℕ := do
  let bytes ← reader.read 4
  let increment := readBigEndian bytes &&& 0x7FFFFFFF
  if increment = 0 then throw (connectionError .protocolError) else return increment

/-- `update_send_window`, for the window of a stream. The sum is one of 32 bits. -/
def raised (streamId : ℕ) (window : ℤ) (increment : ℕ) : Except Thrown ℤ :=
  if increment = 0 then .error (.connectionError .protocolError streamId)
  else if maxInitialWindowSize < (window + increment) % 2 ^ 32 then
    .error (.streamError streamId .flowControlError)
  else .ok ((window + increment) % 2 ^ 32)

namespace Connection

def emit (event : Event) (c : Connection) : Connection := { c with log := c.log ++ [event] }

def send (frame : Frame) : Action Thrown Connection := modify (emit (.sent frame))

def consume (bytes : ℕ) : Action Thrown Connection :=
  modify fun c => { c with reader := c.reader.consume bytes }

def updateSendWindow (increment : ℕ) : Action Thrown Connection :=
  reading (fun c => raised 0 c.sendWindow increment) fun sendWindow =>
    modify fun c => { c with sendWindow }

/-- `consume_window` for what was received. -/
def consumeWindow (size : ℕ) : Action Thrown Connection :=
  andThen (modify fun c => { c with recvWindow := c.recvWindow - size }) fun c =>
    if c.recvWindow < 0 then throw (.streamError 0 .flowControlError) c else done c

def receiveWindowUpdate : Action Thrown Connection :=
  reading (fun c => c.reader.readWindowIncrement) updateSendWindow

/-- What the peer has changed of the initial window is added to the window of the connection. -/
def settleWindow (oldWindow : ℕ) : Action Thrown Connection := fun c =>
  if oldWindow = c.remoteSettings.initialWindowSize then done c
  else
    let delta : ℤ := (c.remoteSettings.initialWindowSize : ℤ) - oldWindow
    andThen (updateSendWindow (delta % 2 ^ 32).toNat)
      (modify fun c => { c with
        remoteSettings := { c.remoteSettings with deltaWindowOnSettings := delta } }) c

/-- `handle_settings`, for settings that are not an acknowledgement. The settings are read from all
that is in the reader. -/
def handleSettings : Action Thrown Connection := fun c =>
  if c.remoteSettings.state = .implemented then throw (connectionError .protocolError) c
  else
    reading (fun c => Settings.read c.reader.rest) (fun settings =>
      andThen (modify fun c => { c with remoteSettings := c.remoteSettings.applyAll settings }) <|
      andThen (settleWindow c.remoteSettings.initialWindowSize) <|
      modify fun c => { c with
        remoteSettings := { c.remoteSettings with state := .acknowledged } }) c

/-- An unknown frame is taken out of the reader for the extensions. -/
def skipUnknown (host : Host) (header : FrameHeader) : Action Thrown Connection :=
  modify fun c =>
    if host.extensions then { c with reader := c.reader.growView header.length } else c

/-- `Stream<false>::receive`, and the frame that is sent for it. -/
def receive (host : Host) (header : FrameHeader) : Action Thrown Connection :=
  match header.type with
  | .windowUpdate => andThen receiveWindowUpdate (consume header.length)
  | .goaway =>
    andThen (modify fun c => { c with
      remoteSettings := { c.remoteSettings with lastStreamId := header.streamId } }) <|
    andThen (consume header.length) <|
    send (.goawayReply header.streamId)
  | .ping =>
    reading (fun c => c.reader.read 8) fun payload =>
      if header.has Flags.ack then
        -- the tracker copies eight bytes, whatever the payload has
        if payload.length < 8 then throw (.fault .outOfBounds) else consume header.length
      else andThen (consume header.length) (send (.pingAck payload))
  | .settings =>
    if header.has Flags.ack then
      andThen (modify fun c => { c with
        localSettings := { c.localSettings with state := .acknowledged } })
        (consume header.length)
    else andThen handleSettings <| andThen (consume header.length) <| send .settingsAck
  | .priority | .data | .headers | .pushPromise | .continuation | .rstStream =>
    throw (connectionError .protocolError)
  | .unknown _ => andThen (skipUnknown host header) (consume header.length)

end Connection

/-! ### A stream -/

structure Stream where
  id : ℕ
  state : StreamState := .idle
  sendWindow : ℤ
  recvWindow : ℤ
  request : Request
  response : Response
  headerBlock : Option (List UInt8) := some []
  trailerBlock : Option (List UInt8) := none
  expectingContinuation : Bool := false
  remoteDone : Bool := false
  primaryHeadersDone : Bool := false
  deriving DecidableEq

/-- A stream that was just created. -/
def Stream.create (id window : ℕ) : Stream where
  id
  sendWindow := window
  recvWindow := window
  request := { streamId := id }
  response := { streamId := id }

/-- What a frame on a stream may touch. -/
structure Context where
  conn : Connection
  stream : Stream

/-- What the decoding of a block throws. A table index that is out of range is told from the other
errors of the codec. -/
def refusal (streamId : ℕ) (block : List UInt8) (fed : Fed) : Option Thrown :=
  match fed.error with
  | some (.outOfRange _) => some (.streamError streamId .compressionError)
  | some e => some (.codec e)
  | none =>
    if fed.consumed < block.length then some (.streamError streamId .compressionError) else none

namespace Stream

def onConnection (f : Action Thrown Connection) : Action Thrown Context :=
  zoom Context.conn (fun conn c => { c with conn }) f

def updateSendWindow (increment : ℕ) : Action Thrown Context :=
  reading (fun c => raised c.stream.id c.stream.sendWindow increment) fun sendWindow =>
    andThen (modify fun c => { c with stream := { c.stream with sendWindow } })
      (onConnection (Connection.updateSendWindow increment))

/-- The window of the connection comes first. -/
def consumeWindow (size : ℕ) : Action Thrown Context :=
  andThen (onConnection (Connection.consumeWindow size)) <|
  andThen (modify fun c => { c with
    stream := { c.stream with recvWindow := c.stream.recvWindow - size } }) fun c =>
    if c.stream.recvWindow < 0 then throw (.streamError c.stream.id .flowControlError) c else done c

/-- The block a fragment belongs to: `get_header_block_for_write`. -/
def block (stream : Stream) : Option (List UInt8) :=
  if stream.primaryHeadersDone then some (stream.trailerBlock.getD []) else stream.headerBlock

def setBlock (block : Option (List UInt8)) (stream : Stream) : Stream :=
  if stream.primaryHeadersDone then { stream with trailerBlock := block }
  else { stream with headerBlock := block }

/-- The headers of a block are added to a target. The first block of a stream with an odd number
goes to the response, and trailers to a request that is dropped. -/
def addDecoded (entries : List HeaderEntry) (stream : Stream) : Except Fault Stream :=
  if stream.primaryHeadersDone then
    (Headers.addHeaders Headers.requestUnknown entries {}).map fun _ => stream
  else if stream.id % 2 = 0 then
    (Headers.addHeaders Headers.requestUnknown entries stream.request.headers).map fun headers =>
      { stream with request := { stream.request with headers } }
  else
    (Headers.addHeaders Headers.responseUnknown entries stream.response.headers).map fun headers =>
      { stream with response := { stream.response with headers } }

variable (host : Host) (block : List UInt8)

/-- A block goes to the decoder. -/
def feedBlock (c : Context) : Context where
  conn := { c.conn.emit (.fed c.stream.id block) with
    decodingTable := (feed host.hit host.width block c.conn.decodingTable).table }
  stream := c.stream

/-- `handle_header`. -/
def handleHeader : Action Thrown Context := fun c =>
  if block = [] then done c
  else
    let fed := feed host.hit host.width block c.conn.decodingTable
    let c := feedBlock host block c
    match c.stream.addDecoded fed.headers with
    | .error fault => throw (.fault fault) c
    | .ok stream =>
      match refusal stream.id block fed with
      | none => done { c with stream := { stream.setBlock none with primaryHeadersDone := true } }
      | some (.codec e) => throw (.codec e) { c with stream }
      | some thrown => throw thrown { c with stream := stream.setBlock none }

variable (header : FrameHeader)

def handleData : Action Thrown Context := fun c =>
  if header.length = 0 then done c
  else
    andThen (consumeWindow header.length) (fun c =>
      let payload := c.conn.reader.viewed header.length
      let c : Context := {
        conn := { c.conn with reader := c.conn.reader.growView header.length }
        stream := { c.stream with request :=
          { c.stream.request with body := c.stream.request.body ++ payload } } }
      if payload.length = header.length then done c
      else throw (.connectionError .internalError c.stream.id) c) c

/-- The size of the whole block is compared with the length of the fragment. -/
def handleFragment : Action Thrown Context := fun c =>
  match c.stream.block with
  | none => throw (.connectionError .protocolError c.stream.id) c
  | some written =>
    let block := written ++ c.conn.reader.viewed header.length
    let c : Context := {
      conn := { c.conn with reader := c.conn.reader.growView header.length }
      stream := c.stream.setBlock (some block) }
    if 0 < header.length ∧ block.length ≠ header.length then
      throw (.connectionError .internalError c.stream.id) c
    else if header.has Flags.endHeaders then
      handleHeader host block { c with stream := { c.stream with expectingContinuation := false } }
    else done { c with stream := { c.stream with expectingContinuation := true } }

def handleWindowUpdate : Action Thrown Context :=
  reading (fun c => c.conn.reader.readWindowIncrement) updateSendWindow

def handleReset : Action Thrown Context :=
  reading (fun c => c.conn.reader.read 4) fun bytes =>
    andThen (modify fun c => { c with stream := { c.stream with expectingContinuation := false } })
      fun c => throw (.streamError c.stream.id (getHttp2ErrorCode (readBigEndian bytes))) c

/-- What the type of a frame asks for. -/
def handle : Action Thrown Context :=
  match header.type with
  | .data => handleData header
  | .headers | .pushPromise | .continuation => handleFragment host header
  | .windowUpdate => handleWindowUpdate
  | .rstStream => handleReset
  | .priority | .settings | .ping | .goaway => throw (connectionError .protocolError)
  | .unknown _ => onConnection (Connection.skipUnknown host header)

def awaitContinuation : Action Thrown Context := fun c =>
  if c.stream.expectingContinuation ∧ header.type ≠ .continuation then
    throw (.connectionError .protocolError c.stream.id) c
  else done c

def advance : Action Thrown Context :=
  reading (fun c =>
    StreamStateMachine.advance c.stream.id header.type header.flags false c.stream.state)
      fun state =>
    modify fun c => { c with stream := { c.stream with state } }

/-- A request is complete when the peer has closed its side. -/
def settle : Action Thrown Context := modify fun c =>
  { c with stream := { c.stream with
      remoteDone := c.stream.remoteDone || c.stream.state = .halfClosedRemote
      expectingContinuation := c.stream.expectingContinuation && c.stream.state ≠ .closed } }

/-- `Stream<true>::receive`. -/
def receive : Action Thrown Context :=
  andThen (awaitContinuation header) <|
  andThen (advance header) <|
  andThen (handle host header) <|
  andThen (onConnection (Connection.consume header.length)) settle

end Stream

end Congelado.Http2
