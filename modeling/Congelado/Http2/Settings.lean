import Congelado.Http2.Frame

/-!
# Settings

The settings of a side, what a `SETTINGS` frame does to them, and what the connection keeps beside
them: how far the exchange of settings has come, the last stream that the peer admits, and the
change of the windows that the streams have not seen yet.

The tracker of pings is left out: nothing of the layer sends a ping, so that there is none to be
acknowledged.
-/

namespace Congelado.Http2

inductive SettingsState
  | unacknowledged
  | acknowledged
  | implemented
  deriving DecidableEq

def defaultInitialWindowSize : ℕ := 2 ^ 16 - 1
def maxInitialWindowSize : ℕ := 2 ^ 31 - 1
def minFrameSize : ℕ := 2 ^ 14
def maxFrameSize : ℕ := 2 ^ 24 - 1

structure Settings where
  headerTableSize : ℕ := 4096
  enablePush : Bool := true
  maxConcurrentStreams : ℕ := 100
  initialWindowSize : ℕ := defaultInitialWindowSize
  maxFrameSize : ℕ := minFrameSize
  maxHeaderListSize : ℕ := 2 ^ 32 - 1
  vendorSettings : List (ℕ × ℕ) := []
  state : SettingsState := .unacknowledged
  lastStreamId : ℕ := maxConnectedStreams
  deltaWindowOnSettings : ℤ := 0
  deriving DecidableEq

namespace Settings

def apply (settingId value : ℕ) (settings : Settings) : Except Thrown Settings :=
  match settingId with
  | 0x1 => .ok { settings with headerTableSize := value }
  | 0x2 =>
    if 1 < value then .error (connectionError .protocolError)
    else .ok { settings with enablePush := value = 1 }
  | 0x3 => .ok { settings with maxConcurrentStreams := value }
  | 0x4 =>
    if maxInitialWindowSize < value then .error (connectionError .flowControlError)
    else .ok { settings with initialWindowSize := value }
  | 0x5 =>
    if value < minFrameSize ∨ Http2.maxFrameSize < value then
      .error (connectionError .protocolError)
    else .ok { settings with maxFrameSize := value }
  | 0x6 => .ok { settings with maxHeaderListSize := value }
  | _ => .ok { settings with vendorSettings := settings.vendorSettings ++ [(settingId, value)] }

/-- What is negotiated is replaced as a whole. -/
def applyAll (settings other : Settings) : Settings :=
  { settings with
    headerTableSize := other.headerTableSize
    enablePush := other.enablePush
    maxConcurrentStreams := other.maxConcurrentStreams
    initialWindowSize := other.initialWindowSize
    maxFrameSize := other.maxFrameSize
    maxHeaderListSize := other.maxHeaderListSize
    vendorSettings := other.vendorSettings }

/-- The chunks of six bytes. A shorter one at the end is dropped. -/
def pairs : List UInt8 → List (ℕ × ℕ)
  | a :: b :: c :: d :: e :: f :: rest =>
    (readBigEndian [a, b], readBigEndian [c, d, e, f]) :: pairs rest
  | _ => []

/-- The pairs are applied in order, until one of them is refused. -/
def applyEach (settings : Settings) : List (ℕ × ℕ) → Except Thrown Settings
  | [] => .ok settings
  | (settingId, value) :: rest => do
    let settings ← apply settingId value settings
    applyEach settings rest

/-- `ReadSettingsAdaptor`. -/
def read (data : List UInt8) : Except Thrown Settings := applyEach {} (pairs data)

end Settings

end Congelado.Http2
