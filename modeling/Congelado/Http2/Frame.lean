import Congelado.Codec.Integers

/-!
# Frames

The frames of a connection: what is read of the header of a frame, the frames that are sent, and
the errors that are thrown on the way. The texts of the errors are only logged.
-/

namespace Congelado.Http2

open Codec (CodecError)

/-! ### Numbers -/

/-- `ReadBigEndianAdaptor`, of as many bytes as there are. -/
def readBigEndian (bytes : List UInt8) : ℕ := bytes.foldl (fun acc byte => 256 * acc + byte.toNat) 0

/-- `WriteBigEndianAdaptor`, for a type of so many bytes. -/
def writeBigEndian : ℕ → ℕ → List UInt8
  | 0, _ => []
  | size + 1, value => UInt8.ofNat (value >>> (8 * size)) :: writeBigEndian size value

/-! ### Errors -/

inductive Http2ErrorCode
  | noErrorCode | protocolError | internalError | flowControlError | settingsTimeout | streamClosed
  | frameSizeError | refusedStream | cancel | compressionError | connectError | enhanceYourCalm
  | inadequateSecurity | http11Required
  deriving DecidableEq

namespace Http2ErrorCode

def all : List Http2ErrorCode :=
  [noErrorCode, protocolError, internalError, flowControlError, settingsTimeout, streamClosed,
    frameSizeError, refusedStream, cancel, compressionError, connectError, enhanceYourCalm,
    inadequateSecurity, http11Required]

/-- `std::to_underlying`. -/
def toUnderlying (code : Http2ErrorCode) : ℕ := all.idxOf code

end Http2ErrorCode

def getHttp2ErrorCode (code : ℕ) : Http2ErrorCode := Http2ErrorCode.all[code]?.getD .internalError

/-- What is not an exception and cannot be caught. -/
inductive Fault
  /-- An iteration past the last node of a reader. -/
  | nullNode
  /-- A slot of the streams that is empty. -/
  | nullStream
  /-- A place of an array that it does not have. -/
  | outOfBounds
  /-- An exception in a function that is `noexcept`. -/
  | terminate
  deriving DecidableEq

inductive Thrown
  | connectionError (code : Http2ErrorCode) (lastStreamId : ℕ)
  | streamError (streamId : ℕ) (code : Http2ErrorCode)
  /-- What the codec throws. -/
  | codec (error : CodecError)
  /-- `std::out_of_range`, of `m_streams.at`. -/
  | outOfRange
  | fault (fault : Fault)
  deriving DecidableEq

def maxConnectedStreams : ℕ := 2 ^ 31 - 1

/-- A `ConnectionError` that names no stream. -/
def connectionError (code : Http2ErrorCode) : Thrown := .connectionError code maxConnectedStreams

/-! ### The header of a frame -/

inductive FrameType
  | data | headers | priority | rstStream | settings | pushPromise | ping | goaway | windowUpdate
  | continuation
  | unknown (code : UInt8)
  deriving DecidableEq

/-- The types that have a name, by their codes. -/
def FrameType.named : List FrameType :=
  [data, headers, priority, rstStream, settings, pushPromise, ping, goaway, windowUpdate,
    continuation]

def FrameType.ofByte (code : UInt8) : FrameType := named[code.toNat]?.getD (unknown code)

/-- `std::to_underlying`. -/
def FrameType.toUnderlying : FrameType → UInt8
  | unknown code => code
  | type => .ofNat (named.idxOf type)

namespace Flags

def endStream : UInt8 := 0x01
def ack : UInt8 := 0x01
def endHeaders : UInt8 := 0x04
def padded : UInt8 := 0x08
def priority : UInt8 := 0x20

end Flags

structure FrameHeader where
  length : ℕ
  type : FrameType
  flags : UInt8
  streamId : ℕ
  deriving DecidableEq

def FrameHeader.has (header : FrameHeader) (flag : UInt8) : Bool := header.flags &&& flag ≠ 0

def headerSize : ℕ := 9

/-- `ReadFrameHeaderAdaptor`. -/
def readFrameHeader (maxFrameSize : ℕ) (range : List UInt8) : Except Thrown FrameHeader :=
  if range.length < headerSize then .error (connectionError .frameSizeError)
  else
    let length := readBigEndian (range.take 3)
    if maxFrameSize < length then .error (connectionError .frameSizeError)
    else .ok {
      length
      type := .ofByte (range[3]?.getD 0)
      flags := range[4]?.getD 0
      streamId := readBigEndian ((range.drop 5).take 4) &&& 0x7FFFFFFF }

/-! ### Frames that are sent -/

structure Frame where
  type : FrameType
  flags : UInt8 := 0
  streamId : ℕ
  payload : List UInt8 := []
  deriving DecidableEq

namespace Frame

/-- `FrameHeaderClosureAdaptor`, and the payload. -/
def write (frame : Frame) : List UInt8 :=
  writeBigEndian 3 frame.payload.length ++ [frame.type.toUnderlying, frame.flags] ++
    writeBigEndian 4 frame.streamId ++ frame.payload

def rstStream (streamId : ℕ) (code : Http2ErrorCode) : Frame where
  type := .rstStream
  streamId
  payload := writeBigEndian 4 code.toUnderlying

variable (lastStreamId : ℕ)

/-- The code has the size of its enumeration, a byte. -/
def goaway (code : Http2ErrorCode) : Frame where
  type := .goaway
  streamId := 0
  payload := writeBigEndian 4 lastStreamId ++ writeBigEndian 1 code.toUnderlying

/-- The answer to a `GOAWAY`. -/
def goawayReply : Frame where
  type := .goaway
  streamId := 0
  payload := writeBigEndian 4 lastStreamId ++
    writeBigEndian 4 Http2ErrorCode.noErrorCode.toUnderlying

def pingAck (payload : List UInt8) : Frame where
  type := .ping
  flags := Flags.ack
  streamId := 0
  payload

def settingsAck : Frame where
  type := .settings
  flags := Flags.ack
  streamId := 0

end Frame

/-- `WriteFrameClosureAdapter` for the `DATA` of a body. -/
def dataFrames (streamId maxFrameSize : ℕ) (body : List UInt8) : List Frame :=
  let sliceSize := min maxFrameSize body.length
  let totalChunks := if body.length = 0 then 1 else (body.length + sliceSize - 1) / sliceSize
  (List.range totalChunks).map fun idx => {
    type := .data
    flags := if idx = totalChunks - 1 then Flags.endStream else 0
    streamId
    payload := (body.drop (idx * sliceSize)).take sliceSize }

end Congelado.Http2
