import Congelado.Http2.Step

/-!
# An endpoint that also sends requests

`Session::send` takes the next odd number for a stream, encodes the request, moves the state of the
stream on, and sends the frames. The move is that of a frame that was received: `advance_send`
passes `false` for `is_local`, so that the stream is half closed by the peer from then on.

The runs of `endpoint` are those of `server`, with requests that are sent in between. `ClientFlow`
has the same session, and reads as `ServerFlow` does once the preface is out.
-/

namespace Congelado.Http2

open Codec Attempt Action

/-- The frames of the body of a request. -/
def Request.bodyFrames (maxFrameSize : ℕ) (request : Request) : List Frame :=
  if request.body = [] then
    [{ type := .data, flags := Flags.endStream, streamId := request.streamId }]
  else dataFrames request.streamId maxFrameSize request.body

/-- `advance_send`. -/
def Stream.advanceSend (type : FrameType) (flags : UInt8) : Action Thrown Context :=
  reading (fun c => StreamStateMachine.advance c.stream.id type flags false c.stream.state)
    fun state => modify fun c =>
      { c with stream := { c.stream with
          state
          expectingContinuation := c.stream.expectingContinuation && state ≠ .closed } }

theorem Stream.advanceSend_conn (type : FrameType) (flags : UInt8) (c : Context) :
    (advanceSend type flags c).state.conn = c.conn := by
  rw [advanceSend, reading]
  split <;> rfl

/-- `send`, on the stream that was taken for the request. -/
def Session.sendRequest (host : Host) (request : Request) : Action Thrown Session := fun s =>
  let frameSize := s.conn.localSettings.maxFrameSize
  match HpackEncoder.call host.hit frameSize true request.headers.getHeaders
    s.conn.encodingTable with
  | .outOfBounds => throw (.fault .outOfBounds) s
  | .threw _ table e => throw (.codec e) (s.setEncodingTable table)
  | .finished chunks table =>
    andThen (onStream request.streamId (Stream.advanceSend .headers Flags.endStream))
      (modify (sendFrames (headerFrames request.streamId chunks ++ request.bodyFrames frameSize)))
      (s.setEncodingTable table)

structure Endpoint where
  session : Session := {}
  lastClientStreamId : ℕ := 1

namespace Endpoint

/-- The number of the next request, of 32 bits. -/
def nextClientStreamId (e : Endpoint) : ℕ := (e.lastClientStreamId + 2) % 2 ^ 32

/-- `send`, from the state with the number of the request. -/
def sending (host : Host) (request : Request) (e : Endpoint) : Outcome Thrown Session :=
  andThen (Session.getOrCreateStream e.nextClientStreamId)
    (Session.sendRequest host { request with streamId := e.nextClientStreamId }) e.session

/-- The state after `send`. An exception goes to the caller. -/
def send (host : Host) (request : Request) (e : Endpoint) : Option Endpoint :=
  match (e.sending host request).thrown with
  | some (.fault _) => none
  | _ => some ⟨(e.sending host request).state, e.nextClientStreamId⟩

end Endpoint

inductive EndpointLabel
  /-- What `server` does. -/
  | serve (label : Label)
  | send (request : Request)

def endpoint (host : Host) : Transition.System Endpoint EndpointLabel where
  next
    | .serve label, e => ((server host).next label e.session).map fun session => { e with session }
    | .send request, e => e.send host request

end Congelado.Http2
