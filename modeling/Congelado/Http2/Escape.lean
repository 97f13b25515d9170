import Congelado.Http2.Formed

/-!
# What comes out of a call

The handlers of `Session::receive` answer a `ConnectionError` with a `GOAWAY` and a `StreamError`
with a `RST_STREAM`. Out of the call comes what is neither of them, and what the answer to a
`StreamError` throws when there is no such stream: the windows of the connection are checked with
`StreamError`s on stream 0. `Calm` says when neither happens.
-/

namespace Congelado.Http2

open Codec Attempt Action Transition

variable {window : ℤ}

section Handled

variable (id : ℕ) (code : Http2ErrorCode)

/-- What is thrown is an error of the connection or of the stream. -/
def Thrown.Handled (e : Thrown) : Prop :=
  (∃ code lastStreamId, e = .connectionError code lastStreamId) ∨ ∃ code, e = .streamError id code

theorem Thrown.handled_connectionError (lastStreamId : ℕ) :
    Handled id (.connectionError code lastStreamId) := .inl ⟨code, lastStreamId, rfl⟩

theorem Thrown.handled_streamError : Handled id (.streamError id code) := .inr ⟨code, rfl⟩

end Handled

open Thrown (handled_connectionError handled_streamError)

/-! ### The condition -/

/-- The response can be encoded, with this table. -/
def Host.Encodes (host : Host) (response : Response) (table : HPackTable) : Prop :=
  ∃ chunks table', HpackEncoder.call host.hit minFrameSize true response.headers.getHeaders table =
    .finished chunks table'

/-- The handlers leave responses that can be encoded, and do not throw after they have sent one. -/
def Host.Reliable (host : Host) : Prop :=
  ∀ request response table,
    match (host.dispatch request response).reply with
    | .keeps => True
    | .sends => host.Encodes (host.dispatch request response).response table
    | .throws => host.Encodes ((host.dispatch request response).response.setStatus "500") table
    | .sendsAndThrows => False

namespace Session

/-- The block that a frame ends is decoded, or refused for an index that is out of range, and the
message takes its headers. -/
def Decodable (host : Host) (s : Session) (header : FrameHeader) (rest : List UInt8) : Prop :=
  let stream := s.target header.streamId
  let fed := feed host.hit host.width (stream.block.getD [] ++ rest.take header.length)
    s.conn.decodingTable
  (∀ e, fed.error = some e → ∃ what, e = .outOfRange what) ∧
    ∃ after, stream.addDecoded fed.headers = .ok after

/-- What a frame has to meet, by its type, for the window that the connection has when the frame is
handled. -/
def CalmFrame (host : Host) (window : ℤ) (s : Session) (header : FrameHeader) (rest : List UInt8) :
    Prop :=
  match header.type with
  | .windowUpdate => window + increment rest ≤ maxInitialWindowSize
  | .settings => header.has Flags.ack = false → ∀ settings, Settings.read rest = .ok settings →
      0 ≤ window + (settings.initialWindowSize - s.conn.remoteSettings.initialWindowSize : ℤ) ∧
      window + (settings.initialWindowSize - s.conn.remoteSettings.initialWindowSize : ℤ) ≤
        maxInitialWindowSize
  | .ping => header.has Flags.ack = true → 8 ≤ rest.length
  | .data => header.length ≤ s.conn.recvWindow
  | .headers | .pushPromise | .continuation =>
    header.has Flags.endHeaders = true → s.Decodable host header rest
  | .priority | .rstStream | .goaway | .unknown _ => True

/-- What a call finds, for it to return: the reader counts the bytes it has; a raise that is due
meets no closed stream and does not take the window of the connection over its limit; and the frame
at hand meets its conditions. -/
structure Calm (host : Host) (s : Session) : Prop where
  synced : s.conn.reader.Synced
  raise : s.due ≠ 0 →
    (∀ id, s.slot id ≠ some none) ∧ s.conn.sendWindow + s.due ≤ maxInitialWindowSize
  frame : ∀ header rest, s.upcoming = some (header, rest) →
    s.CalmFrame host (s.conn.sendWindow + s.due) header rest

end Session

/-- Each read finds the session calm. -/
def CalmStep (host : Host) (s : Session) : Label → Prop
  | .read bytes => (s.pushBack bytes).Calm host
  | .reply _ _ => True

/-! ### Windows -/

theorem raised_handled {id increment : ℕ} {e : Thrown}
    (h : raised id window increment = .error e) : e.Handled id := by
  obtain rfl | rfl := of_raised_error h
  · exact handled_connectionError id _ _
  · exact handled_streamError id _

theorem emod_window (hnonneg : 0 ≤ window) (hle : window ≤ maxInitialWindowSize) :
    window % 2 ^ 32 = window := by
  apply Int.emod_eq_of_lt hnonneg
  simp only [maxInitialWindowSize] at hle
  omega

/-! ### Frames that are calm -/

namespace Session.CalmFrame

variable {s : Session} {host : Host} {header : FrameHeader} {e : Thrown}
    (hcalm : s.CalmFrame host s.conn.sendWindow header s.conn.reader.rest)
    (hsynced : s.conn.reader.Synced) (hnonneg : 0 ≤ s.conn.sendWindow)

include hcalm hsynced

theorem increment_eq {value : ℕ} (hread : s.conn.reader.readWindowIncrement = .ok value)
    (htype : header.type = .windowUpdate) : value = increment s.conn.reader.rest ∧
      s.conn.sendWindow + value ≤ maxInitialWindowSize := by
  unfold CalmFrame at hcalm
  simp only [htype] at hcalm
  rw [hsynced.readWindowIncrement] at hread
  split_ifs at hread
  cases hread
  exact ⟨rfl, hcalm⟩

include hnonneg

/-- The window of the connection takes the increment. -/
theorem raised {value : ℕ} (hread : s.conn.reader.readWindowIncrement = .ok value)
    (htype : header.type = .windowUpdate) (h : raised 0 s.conn.sendWindow value = .error e) :
    e = .connectionError .protocolError 0 := by
  obtain ⟨-, hle⟩ := hcalm.increment_eq hsynced hread htype
  refine raised_of_le ?_ h
  rwa [emod_window (by omega) hle]

/-- The frames of the connection throw errors of the connection. -/
theorem of_connection (h : Connection.Cause header s.conn e) :
    ∃ code lastStreamId, e = .connectionError code lastStreamId := by
  cases h with
  | connection code lastStreamId => exact ⟨code, lastStreamId, rfl⟩
  | ahead h => exact absurd hsynced h
  | short htype hack hread h =>
    unfold CalmFrame at hcalm
    simp only [htype] at hcalm
    rw [hsynced.read] at hread
    cases hread
    rw [List.length_take] at h
    have := hcalm hack
    omega
  | window htype hread h => exact ⟨_, _, hcalm.raised hsynced hnonneg hread htype h⟩
  | settings htype hack hread h =>
    unfold CalmFrame at hcalm
    simp only [htype] at hcalm
    obtain ⟨hnonneg, hle⟩ := hcalm hack _ hread
    -- the difference is taken as one of 32 bits, and so is the sum
    refine ⟨_, _, raised_of_le ?_ h⟩
    rw [Int.toNat_of_nonneg (Int.emod_nonneg _ (by decide)), Int.add_emod_emod,
      emod_window hnonneg hle]
    exact hle

/-- The frames on a stream throw errors of the connection or of the stream. -/
theorem of_stream (h : Stream.Cause host header ⟨s.conn, s.target header.streamId⟩ e) :
    e.Handled (s.target header.streamId).id := by
  have hdecodable : header.type.isFragment = true → header.has Flags.endHeaders = true →
      s.Decodable host header s.conn.reader.rest := by
    intro htype hend
    unfold CalmFrame at hcalm
    obtain htype | htype | htype := FrameType.isFragment_iff.1 htype <;>
      simp only [htype] at hcalm <;> exact hcalm hend
  cases h with
  | connection => exact handled_connectionError _ _ _
  | ahead h => exact absurd hsynced h
  | closed | window | reset => exact handled_streamError _ _
  | connWindow htype h =>
    unfold CalmFrame at hcalm
    simp only [htype] at hcalm
    exact absurd h (not_lt.2 hcalm)
  | headers htype hend h =>
    obtain ⟨-, after, hafter⟩ := hdecodable htype hend
    cases hafter.symm.trans h
  | refused htype hend h =>
    unfold refusal at h
    split at h
    · cases h
      exact handled_streamError _ _
    · rename_i hne herror
      obtain ⟨what, rfl⟩ := (hdecodable htype hend).1 _ herror
      exact absurd rfl (hne what)
    · split_ifs at h
      cases h
      exact handled_streamError _ _
  | raised htype hread h =>
    obtain h | h := h
    · exact raised_handled h
    · rw [hcalm.raised hsynced hnonneg hread htype h]
      exact handled_connectionError _ _ _

end Session.CalmFrame

/-! ### The session -/

namespace Session

variable {s t : Session} {host : Host} {header : FrameHeader} {id : ℕ} {e : Thrown}
    {stream : Stream}

/-- What the handlers of `receive` answer without an exception. -/
def Caught (e : Thrown) (s : Session) : Prop :=
  match e with
  | .connectionError _ _ => True
  | .streamError id _ => id ≠ 0 ∧ s.slot id ≠ none
  | _ => False

theorem caught_of_handled (h : e.Handled id) (hid : id ≠ 0) (hslot : s.slot id ≠ none) :
    Caught e s := by
  obtain ⟨code, lastStreamId, rfl⟩ | ⟨code, rfl⟩ := h
  · trivial
  · exact ⟨hid, hslot⟩

theorem handleThrown_caught (h : Caught e s) : (handleThrown e s).thrown = none := by
  cases e with
  | connectionError code lastStreamId => rfl
  | streamError id code =>
    obtain ⟨hid, hslot⟩ := h
    obtain ⟨slot, hslot⟩ := Option.ne_none_iff_exists'.1 hslot
    simp only [handleThrown, andThen, onConnection, zoom, Connection.send, Action.modify,
      markStreamClosed, if_neg hid, slot_withConn, hslot]
    rfl
  | codec | outOfRange | fault => exact h.elim

/-! ### Responses -/

/-- A response that can be encoded is sent. -/
theorem sendResponse_ends (hid : id ≠ 0) (hslot : s.slot id = some (some stream))
    (hsize : s.conn.localSettings.maxFrameSize = minFrameSize)
    (h : host.Encodes stream.response s.conn.encodingTable) :
    (sendResponse host id s).thrown = none := by
  obtain ⟨chunks, table, hcall⟩ := h
  unfold sendResponse
  rw [hslot]
  simp only [hsize, hcall, markStreamClosed, if_neg hid]
  rw [show (sendFrames _ (s.setEncodingTable table)).slot id = some (some stream) from hslot]
  rfl

theorem trySend_ends (h : (sendResponse host id s).thrown = none) :
    (trySend host id s).thrown = none := by
  rwa [trySend, rescue, h]

theorem failResponse_ends (hid : id ≠ 0) (hslot : s.slot id = some (some stream))
    (hsize : s.conn.localSettings.maxFrameSize = minFrameSize)
    (h : host.Encodes (stream.response.setStatus "500") s.conn.encodingTable) :
    (failResponse host id s).thrown = none := by
  simp only [failResponse, andThen, onStream, hslot, Action.modify]
  exact sendResponse_ends hid (slot_setSlot_self _) hsize h

/-- A request is answered, or kept. -/
theorem response_ends (hhost : host.Reliable) (hformed : s.Formed)
    (hslot : s.slot id = some (some stream)) : (response host id s).thrown = none := by
  have hid := (hformed.streams id stream hslot).ne_zero
  have hreliable := hhost stream.request (stream.response.setStatus "404") s.conn.encodingTable
  unfold response
  rw [hslot]
  simp only [andThen, onConnection, zoom, setResponse, onStream, slot_withConn, hslot,
    Action.modify]
  cases hreply : (host.dispatch stream.request (stream.response.setStatus "404")).reply with
  | keeps => rfl
  | sends =>
    rw [hreply] at hreliable
    exact trySend_ends (sendResponse_ends hid (slot_setSlot_self _) hformed.maxFrameSize hreliable)
  | throws =>
    rw [hreply] at hreliable
    exact failResponse_ends hid (slot_setSlot_self _) hformed.maxFrameSize hreliable
  | sendsAndThrows =>
    rw [hreply] at hreliable
    exact hreliable.elim

theorem respondIfDone_ends (hhost : host.Reliable) (hformed : s.Formed) :
    (respondIfDone host id s).thrown = none := by
  unfold respondIfDone
  split
  · rename_i stream hslot
    split_ifs
    · exact response_ends hhost hformed hslot
    · rfl
  · rfl

/-! ### Frames -/

/-- A calm frame is handled without an exception that is not caught. -/
theorem handleFrame_caught (hhost : host.Reliable) (hformed : s.Formed)
    (hsynced : s.conn.reader.Synced)
    (hcalm : s.CalmFrame host s.conn.sendWindow header s.conn.reader.rest) :
    (handleFrame host header (s.takeHeader header)).Ends (fun _ => True) Caught := by
  have htaken := hformed.takeHeader header
  have htakenCalm :
    (s.takeHeader header).CalmFrame host (s.takeHeader header).conn.sendWindow header
    (s.takeHeader header).conn.reader.rest := hcalm
  unfold handleFrame
  split_ifs with hid
  · rw [onConnection, zoom_ends]
    refine (Connection.receive_cause host header _).mono (fun _ _ => ⟨⟩) fun e c he => ?_
    obtain ⟨code, lastStreamId, rfl⟩ := htakenCalm.of_connection hsynced hformed.nonneg he
    trivial
  · simp only [andThen_ends]
    refine ((getOrCreateStream_spec header.streamId (s.takeHeader header)).and
      (getOrCreateStream_formed htaken hid)).mono ?_ ?_
    · rintro t ⟨⟨hsame, hslot⟩, ht⟩
      have hconn : t.conn = (s.takeHeader header).conn := by
        obtain rfl | ⟨-, rfl⟩ := hsame <;> rfl
      have hreceived := onStream_receive_formed host header header.streamId ht
      rw [onStream_ends hslot, hconn] at hreceived ⊢
      refine ((Stream.receive_cause host header _).and hreceived).mono ?_ ?_
      · rintro c ⟨-, hc⟩
        refine Outcome.ends_iff.2 ⟨fun _ => ⟨⟩, fun e he => ?_⟩
        rw [respondIfDone_ends hhost hc] at he
        cases he
      · rintro e c ⟨he, -⟩
        have hhandled := htakenCalm.of_stream hsynced hformed.nonneg he
        rw [(ht.streams _ _ hslot).id] at hhandled
        refine caught_of_handled hhandled hid ?_
        rw [put, slot_setSlot_self]
        exact Option.some_ne_none _
    · rintro e t ⟨⟨-, code, lastStreamId, rfl⟩, -⟩
      trivial

/-! ### Headers -/

/-- A header that is refused is an error of the connection. -/
theorem exists_of_nextHeader_error (hsynced : s.conn.reader.Synced) (h : s.nextHeader = .error e) :
    ∃ code, e = connectionError code := by
  rw [nextHeader, hsynced.read] at h
  change readFrameHeader _ (s.conn.reader.rest.take headerSize) = _ at h
  unfold readFrameHeader at h
  split_ifs at h
  · exact ⟨_, (Except.error.inj h).symm⟩
  · simp only at h
    split_ifs at h
    exact ⟨_, (Except.error.inj h).symm⟩

/-- Each stream is raised along with the connection, which stays within its limit. -/
theorem each_raise_caught {delta : ℕ} {entries : List (ℕ × Option Stream)} (hformed : s.Formed)
    (hlive : ∀ entry ∈ entries, ∃ stream, s.slot entry.1 = some (some stream))
    (hle : s.conn.sendWindow + (entries.length * delta : ℕ) ≤ maxInitialWindowSize) :
    (each (fun entry => onStream entry.1 (Stream.updateSendWindow delta)) entries s).Ends
      (fun t => t.conn.sendWindow = s.conn.sendWindow + (entries.length * delta : ℕ)) Caught := by
  -- the entries that are left count for what the window has still to take
  induction entries generalizing s with
  | nil => simp [each]
  | cons entry entries ih =>
    obtain ⟨stream, hslot⟩ := hlive entry (.head _)
    have hstream := hformed.streams entry.1 stream hslot
    have hput : ∀ c, (s.put entry.1 c).slot entry.1 ≠ none := fun c => by
      rw [put, slot_setSlot_self]
      exact Option.some_ne_none _
    have hnonneg := hformed.nonneg
    rw [List.length_cons, Nat.succ_mul] at hle ⊢
    have hfirst : s.conn.sendWindow + delta ≤ maxInitialWindowSize := by omega
    have hmod : (s.conn.sendWindow + delta) % 2 ^ 32 = s.conn.sendWindow + delta :=
      emod_window (by omega) hfirst
    rw [each, andThen_ends, onStream_ends hslot]
    simp only [Stream.updateSendWindow, reading_ends, andThen_ends, modify_ends,
      Stream.onConnection, zoom_ends, Connection.updateSendWindow]
    refine ⟨fun e he => caught_of_handled (hstream.id ▸ raised_handled he) hstream.ne_zero (hput _),
      fun window _ => ⟨fun e he => ?_, fun after hafter => ?_⟩⟩
    · rw [raised_of_le (hmod.trans_le hfirst) he]
      trivial
    · obtain rfl := eq_of_raised hafter
      rw [hmod]
      refine (ih ?_ (fun other hother => ?_) ?_).mono (fun t ht => ?_) fun _ _ he => he
      · exact hformed.put (hslot ▸ nofun) hformed.maxFrameSize
          (by omega : 0 ≤ s.conn.sendWindow + delta) (List.append_nil _).symm nofun
          ⟨hstream.ne_zero, hstream.id, hstream.requestId⟩
      · by_cases hsame : other.1 = entry.1
        · rw [hsame]
          exact ⟨_, slot_setSlot_self _⟩
        · obtain ⟨stream', hslot'⟩ := hlive other (.tail _ hother)
          exact ⟨stream', (slot_setSlot_of_ne hsame _).trans hslot'⟩
      · change s.conn.sendWindow + delta + _ ≤ _
        omega
      · rw [ht]
        change s.conn.sendWindow + delta + _ = _
        omega

/-- The window of the connection is raised by what is due. -/
theorem raiseWindows_caught (hformed : s.Formed) {due : ℤ}
    (hdue : due = if 0 < s.conn.remoteSettings.deltaWindowOnSettings then
      s.streams.length * s.conn.remoteSettings.deltaWindowOnSettings else 0) (hraise : due ≠ 0 →
      (∀ id, s.slot id ≠ some none) ∧ s.conn.sendWindow + due ≤ maxInitialWindowSize) :
    (raiseWindows s).Ends (fun t => t.conn.sendWindow = s.conn.sendWindow + due) Caught := by
  unfold raiseWindows
  split_ifs at hdue ⊢ with hdelta
  · have hcast :
        due = (s.streams.length * s.conn.remoteSettings.deltaWindowOnSettings.toNat : ℕ) := by
      rw [hdue, Nat.cast_mul, Int.toNat_of_nonneg hdelta.le]
    rw [andThen_ends]
    simp only [onConnection, zoom_ends, modify_ends]
    by_cases hempty : s.streams = []
    · rw [hempty] at hdue ⊢
      simp [each, hdue]
    · have hne : due ≠ 0 := by
        rw [hdue]
        exact mul_ne_zero (by simpa using hempty) hdelta.ne'
      obtain ⟨hlive, hle⟩ := hraise hne
      rw [hcast] at hle ⊢
      refine each_raise_caught hformed (fun entry hentry => ?_) hle
      obtain ⟨slot, hslot⟩ := OrderedMap.find_eq_some_of_mem_keys (List.mem_map_of_mem hentry)
      cases slot with
      | none => exact absurd hslot (hlive entry.1)
      | some stream => exact ⟨stream, hslot⟩
  · rw [done_ends, hdue, add_zero]

/-- The header is read, and the window of the connection is raised by what is due. -/
theorem receiveHeader_caught (hformed : s.Formed) (hsafe : s.safeHeader = none)
    (hsize : headerSize ≤ s.conn.reader.size) (hsynced : s.conn.reader.Synced) (hraise : s.due ≠ 0 →
      (∀ id, s.slot id ≠ some none) ∧ s.conn.sendWindow + s.due ≤ maxInitialWindowSize) :
    (receiveHeader s).Ends (fun t => t.conn.sendWindow = s.conn.sendWindow + s.due) Caught := by
  refine receiveHeader_ends.2 ⟨fun e he => ?_, fun header _ => ?_⟩
  · obtain ⟨code, rfl⟩ := exists_of_nextHeader_error hsynced he
    trivial
  · split_ifs
    · trivial
    · unfold settleSettings
      split_ifs with hstate
      · simp only [andThen_ends, onConnection, zoom_ends, modify_ends]
        refine raiseWindows_caught (s := s.consumed headerSize)
          ⟨hformed.streams, hformed.maxFrameSize, hformed.nonneg, hformed.tallied⟩ ?_ hraise
        simp only [due, hsafe, hsize, true_and]
        rw [show s.conn.remoteSettings.state = .acknowledged from hstate]
        simp only [true_and]
        rfl
      · have hdue : s.due = 0 := if_neg fun h => hstate h.2.2.1
        rw [done_ends, hdue, add_zero]
        rfl

/-! ### Calls -/

theorem CalmFrame.headed {rest : List UInt8} (h : s.CalmFrame host window header rest)
    (hst : Headed s t) : t.CalmFrame host window header rest := by
  have hdecodable : s.Decodable host header rest → t.Decodable host header rest := by
    rintro ⟨herror, hadded⟩
    obtain ⟨window, htarget⟩ := exists_target_of_headed hst header.streamId
    rw [htarget] at herror hadded
    rw [← hst.decodingTable] at herror hadded
    refine ⟨herror, ?_⟩
    cases hafter : (t.target header.streamId).addDecoded _ with
    | ok after => exact ⟨after, rfl⟩
    | error fault =>
      obtain ⟨after, hadded⟩ := hadded
      cases hadded.symm.trans (Stream.addDecoded_error_of_eq hafter rfl rfl rfl rfl)
  unfold CalmFrame at h ⊢
  rw [hst.recvWindow, hst.initialWindowSize]
  cases htype : header.type with
  | headers | pushPromise | continuation =>
    simp only [htype] at h
    exact fun hend => hdecodable (h hend)
  | _ =>
    simp only [htype] at h
    exact h

/-- A call that finds the session calm returns. -/
theorem receive_ends (hhost : host.Reliable) (hformed : s.Formed) (hcalm : s.Calm host) :
    (receive host s).thrown = none := by
  have hends : (receiveFrame host s).Ends (fun _ => True) Caught := by
    refine receiveFrame_ends
      (P := fun t => t.conn.sendWindow = s.conn.sendWindow + s.due ∧ t.conn.reader.Synced)
      (fun hsafe => ?_) (fun hsafe hsize => ?_) (fun _ _ _ _ => ⟨⟩) ?_
    · have hdue : s.due = 0 := if_neg fun h => hsafe h.1
      exact ⟨by rw [hdue, add_zero], hcalm.synced⟩
    · refine ((receiveHeader_caught hformed hsafe hsize hcalm.synced hcalm.raise).and
        receiveHeader_spec).mono ?_ fun _ _ he => he.1
      rintro t ⟨hwindow, header, -, -, -, hreader⟩
      exact ⟨hwindow, hreader ▸ hcalm.synced.consume headerSize⟩
    · rintro header t ⟨hwindow, hsynced⟩ ht hupcoming -
      have hframe := (hcalm.frame header _ hupcoming).headed ht
      rw [← hwindow] at hframe
      exact handleFrame_caught hhost (hformed.headed ht) hsynced hframe
  obtain ⟨-, hcaught⟩ := Outcome.ends_iff.1 hends
  rw [receive, rescue]
  cases hthrown : (receiveFrame host s).thrown with
  | none => exact hthrown
  | some e => exact handleThrown_caught (hcaught e hthrown)

end Session

/-- What the body of `receive` throws is answered with the frame for it, and nothing else is. -/
def Session.Resolves (host : Host) (s : Session) : Prop :=
  ∀ e, (receiveFrame host s).thrown = some e → ∃ frame : Frame,
    (receive host s).state.conn.log = (receiveFrame host s).state.conn.log ++ [.sent frame] ∧
      ((∃ code lastStreamId, e = .connectionError code lastStreamId ∧
          frame = .goaway lastStreamId code) ∨
        ∃ id code, e = .streamError id code ∧ frame = .rstStream id code)

theorem Session.resolves_of_returns {host : Host} {s : Session}
    (h : (receive host s).thrown = none) :
    s.Resolves host := by
  intro e he
  have hreceive : receive host s = handleThrown e (receiveFrame host s).state := by
    rw [receive, rescue, he]
  rw [hreceive] at h ⊢
  cases e with
  | connectionError code lastStreamId => exact ⟨_, rfl, .inl ⟨code, lastStreamId, rfl, rfl⟩⟩
  | streamError id code =>
    exact ⟨_, congrArg Connection.log (markStreamClosed_conn id _), .inr ⟨id, code, rfl, rfl⟩⟩
  -- anything else would have come out
  | codec | outOfRange | fault => cases h

/-- The window of the connection is raised beyond its limit. -/
def overflowing : List Label :=
  [.read
    (Frame.write { type := .windowUpdate, streamId := 0, payload := [0x7F, 0xFF, 0xFF, 0xFF] })]

end Congelado.Http2
