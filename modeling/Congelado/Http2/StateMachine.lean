import Congelado.Http2.Frame

/-!
# The states of a stream

`StreamStateMachine`: what a frame does to the state of a stream, and the frames that are errors in
a state.
-/

namespace Congelado.Http2

inductive StreamState
  | idle | opened | halfClosedLocal | halfClosedRemote | closed | reservedLocal | reservedRemote
  deriving DecidableEq

namespace StreamStateMachine

section Handlers

variable (id : ℕ) (type : FrameType) (endStream isLocal : Bool)

/-- A protocol error that names the stream. -/
def illegal : Except Thrown StreamState := .error (.connectionError .protocolError id)

def handleIdle : Except Thrown StreamState :=
  if type = .headers then
    if endStream then .ok (if isLocal then .halfClosedLocal else .halfClosedRemote)
    else .ok .opened
  else if type = .pushPromise then .ok (if isLocal then .reservedLocal else .reservedRemote)
  else illegal id

/-- The type is not looked at. -/
def handleOpen : Except Thrown StreamState :=
  if endStream then .ok (if isLocal then .halfClosedLocal else .halfClosedRemote)
  else .ok .opened

def handleHalfClosedLocal : Except Thrown StreamState :=
  if isLocal then
    if type = .data ∨ type = .headers then .error (.streamError id .streamClosed)
    else .ok .halfClosedLocal
  else if endStream then .ok .closed
  else .ok .halfClosedLocal

def handleHalfClosedRemote : Except Thrown StreamState :=
  if isLocal then
    if endStream then .ok .closed else .ok .halfClosedRemote
  else if type = .data ∨ type = .headers then .error (.streamError id .streamClosed)
  else .ok .halfClosedRemote

def handleReservedLocal : Except Thrown StreamState :=
  if isLocal ∧ type = .headers then .ok .halfClosedRemote
  else if ¬isLocal ∧ (type = .windowUpdate ∨ type = .rstStream) then .ok .reservedLocal
  else illegal id

def handleReservedRemote : Except Thrown StreamState :=
  if ¬isLocal ∧ type = .headers then .ok .halfClosedLocal
  else if isLocal ∧ (type = .windowUpdate ∨ type = .rstStream) then .ok .reservedRemote
  else illegal id

def handleClosed : Except Thrown StreamState :=
  if ¬isLocal ∧ (type = .windowUpdate ∨ type = .rstStream) then .ok .closed
  else if ¬isLocal ∧ (type = .data ∨ type = .headers) then
    .error (.connectionError .streamClosed id)
  else illegal id

end Handlers

variable (id : ℕ) (type : FrameType) (flags : UInt8)

def advance (isLocal : Bool) (state : StreamState) : Except Thrown StreamState :=
  let endStream : Bool := flags &&& Flags.endStream ≠ 0
  if type = .priority then .ok state
  else if type = .rstStream then if state = .idle then illegal id else .ok .closed
  else
    match state with
    | .idle => handleIdle id type endStream isLocal
    | .opened => handleOpen endStream isLocal
    | .halfClosedLocal => handleHalfClosedLocal id type endStream isLocal
    | .halfClosedRemote => handleHalfClosedRemote id type endStream isLocal
    | .reservedLocal => handleReservedLocal id type isLocal
    | .reservedRemote => handleReservedRemote id type isLocal
    | .closed => handleClosed id type isLocal

/-- What is received, by the state and the type of the frame. -/
theorem advance_remote (state : StreamState) :
    advance id type flags false state =
      if type = .priority then .ok state
      else if type = .rstStream then if state = .idle then illegal id else .ok .closed
      else
        match state with
        | .idle =>
          if type = .headers then
            .ok (if flags &&& Flags.endStream ≠ 0 then .halfClosedRemote else .opened)
          else if type = .pushPromise then .ok .reservedRemote
          else illegal id
        | .opened => .ok (if flags &&& Flags.endStream ≠ 0 then .halfClosedRemote else .opened)
        | .halfClosedLocal =>
            .ok (if flags &&& Flags.endStream ≠ 0 then .closed else .halfClosedLocal)
        | .halfClosedRemote =>
          if type = .data ∨ type = .headers then .error (.streamError id .streamClosed)
          else .ok .halfClosedRemote
        | .reservedLocal => if type = .windowUpdate then .ok .reservedLocal else illegal id
        | .reservedRemote => if type = .headers then .ok .halfClosedLocal else illegal id
        | .closed =>
          if type = .windowUpdate then .ok .closed
          else if type = .data ∨ type = .headers then .error (.connectionError .streamClosed id)
          else illegal id := by
  unfold advance
  by_cases hpriority : type = .priority
  · rw [if_pos hpriority, if_pos hpriority]
  by_cases hreset : type = .rstStream
  · rw [if_neg hpriority, if_pos hreset, if_neg hpriority, if_pos hreset]
  by_cases hend : flags &&& Flags.endStream = 0 <;> cases state <;>
    simp [handleIdle, handleOpen, handleHalfClosedLocal, handleHalfClosedRemote,
      handleReservedLocal, handleReservedRemote, handleClosed, hend, hreset]

end StreamStateMachine

end Congelado.Http2
