import Congelado.Http2.Session

/-!
# What one read does

`Session::receive` reads the header of a frame, settles what the settings of the peer have changed,
and handles the frame when all of it is there (`receiveFrame_ends`). What the first part may touch
is said once (`Headed`), and so is what the answer to a request may touch (`Answered`). An invariant
of the connections that are running is shown for a read with `onRead_running`: a `ConnectionError`
ends the connection, anything but a `StreamError` fails, and a `StreamError` empties a slot.
-/

namespace Congelado.Http2

open Codec Attempt Action List

variable {e : Thrown} {reader : Reader} {D : List Event → Prop} {entries : List HeaderEntry}
    {type : FrameType} {window : ℤ} {frame : Frame}

/-- The increment in the payload of a `WINDOW_UPDATE`. -/
def increment (payload : List UInt8) : ℕ := readBigEndian (payload.take 4) &&& 0x7FFFFFFF

/-- The frames that carry a header block. -/
def FrameType.isFragment : FrameType → Bool
  | headers | pushPromise | continuation => true
  | _ => false

theorem FrameType.isFragment_iff : type.isFragment = true ↔
    type = headers ∨ type = pushPromise ∨ type = continuation := by
  cases type <;> simp [isFragment]

/-- The payload is taken out of the reader. -/
def FrameHeader.Viewed (host : Host) (header : FrameHeader) : Prop :=
  match header.type with
  | .data | .headers | .pushPromise | .continuation => header.streamId ≠ 0
  | .unknown _ => host.extensions = true
  | _ => False

theorem Reader.Synced.read (h : reader.Synced) (count : ℕ) :
    reader.read count = .ok (reader.rest.take count) := by
  rw [Reader.read, h.take]

theorem Reader.Synced.readWindowIncrement (h : reader.Synced) :
    reader.readWindowIncrement = if increment reader.rest = 0 then
      .error (connectionError .protocolError) else .ok (increment reader.rest) := by
  rw [Reader.readWindowIncrement, h.read]
  rfl

/-- What is closed under one event of a kind is closed under a list of them. -/
theorem closed_map {α : Type} {f : α → Event}
    (h : ∀ log a, D log → D (log ++ [f a])) (as : List α) {log : List Event} (hlog : D log) :
    D (log ++ as.map f) := by
  induction as generalizing log with
  | nil =>
    rwa [map_nil, append_nil]
  | cons a as ih =>
    rw [map_cons, append_cons]
    exact ih (h log a hlog)

/-! ### Streams that are closed -/

/-- The frames that a stream is closed with: an `RST_STREAM`, and the last `DATA` of a response. -/
def Event.Closes : Event → Prop
  | .sent frame => frame.type = .rstStream ∨ frame.type = .data ∧ frame.flags = Flags.endStream
  | _ => False

/-- A stream was closed. -/
def Closing (log : List Event) : Prop := ∃ event ∈ log, event.Closes

theorem closing_append {log events : List Event} :
    Closing (log ++ events) ↔ Closing log ∨ Closing events := by
  simp only [Closing, mem_append, or_and_right, exists_or]

/-- Every response ends its stream. -/
theorem Response.closing_bodyFrames (response : Response) {size : ℕ} (h : 0 < size) :
    Closing ((response.bodyFrames size).map .sent) := by
  unfold bodyFrames
  split_ifs with hbody
  · exact ⟨_, .head _, .inr ⟨rfl, rfl⟩⟩
  · have hlength := length_pos_of_ne_nil hbody
    have hchunks : 0 < (response.body.length + min size response.body.length - 1) /
        min size response.body.length := Nat.div_pos (by omega) (by omega)
    refine ⟨_, mem_map_of_mem (mem_map_of_mem (mem_range.2 ?_)), .inr ⟨rfl, if_pos rfl⟩⟩
    rw [if_neg hlength.ne']
    omega

/-! ### The reader -/

/-- A change that does not move the reader. -/
def Connection.SameReader (c d : Connection) : Prop := d.reader = c.reader

instance : Std.Refl Connection.SameReader := ⟨fun _ => rfl⟩

instance : IsTrans Connection Connection.SameReader := ⟨fun _ _ _ hcd hde => hde.trans hcd⟩

def Session.SameReader (s t : Session) : Prop := t.conn.reader = s.conn.reader

instance : IsTrans Session Session.SameReader := ⟨fun _ _ _ hst htu => htu.trans hst⟩

/-! ### What is thrown -/

theorem Settings.exists_of_read_error {data : List UInt8}
    (h : Settings.read data = .error e) : ∃ code, e = connectionError code := by
  suffices ∀ pairs settings, Settings.applyEach settings pairs = .error e →
      ∃ code, e = connectionError code from this _ _ h
  intro pairs
  induction pairs with
  | nil =>
    intro settings h
    cases h
  | cons pair pairs ih =>
    intro settings h
    rw [applyEach] at h
    cases happly : settings.apply pair.1 pair.2 with
    | error e' =>
      rw [happly] at h
      cases h
      unfold Settings.apply at happly
      split at happly
      · cases happly
      · split_ifs at happly
        exact ⟨_, (Except.error.inj happly).symm⟩
      · cases happly
      · split_ifs at happly
        exact ⟨_, (Except.error.inj happly).symm⟩
      · split_ifs at happly
        exact ⟨_, (Except.error.inj happly).symm⟩
      · cases happly
      · cases happly
    | ok settings' =>
      rw [happly] at h
      exact ih settings' h

theorem Reader.of_read_error {count : ℕ} (h : reader.read count = .error e) :
    ¬reader.Synced ∧ e = .fault .nullNode := by
  refine ⟨fun hsynced => ?_, ?_⟩
  · rw [hsynced.read] at h
    cases h
  · unfold Reader.read at h
    split at h
    · exact (Except.error.inj h).symm
    · cases h

theorem Reader.of_readWindowIncrement_error (h : reader.readWindowIncrement = .error e) :
    ¬reader.Synced ∧ e = .fault .nullNode ∨ e = connectionError .protocolError := by
  unfold Reader.readWindowIncrement at h
  cases hread : reader.read 4 with
  | error e' =>
    rw [hread] at h
    cases h
    exact .inl (of_read_error hread)
  | ok bytes =>
    rw [hread] at h
    change (if readBigEndian bytes &&& 0x7FFFFFFF = 0 then _ else _) = _ at h
    split_ifs at h
    · exact .inr (Except.error.inj h).symm
    · cases h

theorem of_raised_error {id increment : ℕ} (h : raised id window increment = .error e) :
    e = .connectionError .protocolError id ∨ e = .streamError id .flowControlError := by
  unfold raised at h
  split_ifs at h
  · exact .inl (Except.error.inj h).symm
  · exact .inr (Except.error.inj h).symm

/-- A window that does not go over its limit. -/
theorem raised_of_le {id increment : ℕ} (hle : (window + increment) % 2 ^ 32 ≤ maxInitialWindowSize)
    (h : raised id window increment = .error e) : e = .connectionError .protocolError id := by
  unfold raised at h
  split_ifs at h with hzero hover
  · exact (Except.error.inj h).symm
  · exact absurd hover (not_lt.2 hle)

theorem eq_of_raised {id increment : ℕ} {after : ℤ}
    (h : raised id window increment = .ok after) : after = (window + increment) % 2 ^ 32 := by
  unfold raised at h
  split_ifs at h
  exact (Except.ok.inj h).symm

theorem nonneg_of_raised {id increment : ℕ} {after : ℤ}
    (h : raised id window increment = .ok after) : 0 ≤ after := by
  rw [eq_of_raised h]
  exact Int.emod_nonneg _ (by decide)

/-- The `StreamError`s of the connection name no stream. -/
def Thrown.Unnamed (e : Thrown) : Prop := ∀ id code, e = .streamError id code → id = 0

/-- The `StreamError`s of a stream name it, or no stream. -/
def Thrown.Names (id : ℕ) (e : Thrown) : Prop :=
  ∀ id' code, e = .streamError id' code → id' = id ∨ id' = 0

/-- What the frames of a stream throw: a `StreamError` names the stream or none, and the slots of
the streams are not looked at. -/
def Thrown.OfFrame (id : ℕ) : Thrown → Prop
  | .streamError id' _ => id' = id ∨ id' = 0
  | .outOfRange | .fault .nullStream => False
  | _ => True

namespace Thrown.OfFrame

variable {id : ℕ}

theorem names (h : e.OfFrame id) : e.Names id := by
  rintro id' code rfl
  exact h

theorem unnamed (h : e.OfFrame 0) : e.Unnamed :=
    fun id code he => or_self_iff.1 (h.names id code he)

theorem of_conn (h : e.OfFrame 0) : e.OfFrame id := by
  cases e with
  | streamError id' code => exact .inr (or_self_iff.1 h)
  | fault fault => cases fault <;> exact h
  | _ => exact h

end Thrown.OfFrame

theorem throws_of_raised {id increment : ℕ}
    (h : raised id window increment = .error e) : e.OfFrame id := by
  obtain rfl | rfl := of_raised_error h
  · trivial
  · exact .inl rfl

namespace Connection

variable {host : Host} {header : FrameHeader} {c : Connection}

/-- Why a frame of the connection throws. -/
inductive Cause (header : FrameHeader) (c : Connection) : Thrown → Prop
  | connection (code : Http2ErrorCode) (lastStreamId : ℕ) :
    Cause header c (.connectionError code lastStreamId)
  | ahead (h : ¬c.reader.Synced) : Cause header c (.fault .nullNode)
  | short {payload : List UInt8} (htype : header.type = .ping) (hack : header.has Flags.ack = true)
    (hread : c.reader.read 8 = .ok payload) (h : payload.length < 8) :
    Cause header c (.fault .outOfBounds)
  | window {increment : ℕ} {e : Thrown} (htype : header.type = .windowUpdate)
    (hread : c.reader.readWindowIncrement = .ok increment)
    (h : raised 0 c.sendWindow increment = .error e) : Cause header c e
  | settings {settings : Settings} {e : Thrown} (htype : header.type = .settings)
    (hack : header.has Flags.ack = false) (hread : Settings.read c.reader.rest = .ok settings)
    (h : raised 0 c.sendWindow ((settings.initialWindowSize -
      c.remoteSettings.initialWindowSize : ℤ) % 2 ^ 32).toNat = .error e) : Cause header c e

theorem Cause.ofFrame (h : Cause header c e) : e.OfFrame 0 := by
  cases h with
  | connection | ahead | short => trivial
  | window _ _ h | settings _ _ _ h => exact throws_of_raised h

theorem handleSettings_cause (htype : header.type = .settings)
    (hack : header.has Flags.ack = false) :
    (handleSettings c).Ends (fun _ => True) fun e _ => Cause header c e := by
  unfold handleSettings
  split_ifs
  · exact .connection _ _
  · refine reading_ends.2 ⟨fun e he => ?_, fun settings hread => ?_⟩
    · obtain ⟨code, rfl⟩ := Settings.exists_of_read_error he
      exact .connection _ _
    · simp only [andThen_ends, modify_ends, settleWindow]
      split_ifs
      · trivial
      · simp only [andThen_ends, updateSendWindow, reading_ends, modify_ends]
        exact ⟨fun e he => .settings htype hack hread he, fun _ _ => ⟨⟩⟩

theorem receive_cause (host : Host) (header : FrameHeader) (c : Connection) :
    (receive host header c).Ends (fun _ => True) fun e _ => Cause header c e := by
  cases htype : header.type with
  | windowUpdate =>
    simp only [receive, htype, andThen_ends, receiveWindowUpdate, updateSendWindow, consume,
      modify_ends, reading_ends]
    refine ⟨fun e he => ?_,
      fun increment hread => ⟨fun e he => .window htype hread he, fun _ _ => ⟨⟩⟩⟩
    obtain ⟨hahead, rfl⟩ | rfl := Reader.of_readWindowIncrement_error he
    · exact .ahead hahead
    · exact .connection _ _
  | ping =>
    simp only [receive, htype, reading_ends]
    refine ⟨fun e he => ?_, fun payload hread => ?_⟩
    · obtain ⟨hahead, rfl⟩ := Reader.of_read_error he
      exact .ahead hahead
    · split_ifs with hack hshort
      · exact .short htype hack hread hshort
      · trivial
      · trivial
  | settings =>
    simp only [receive, htype]
    split_ifs with hack
    · trivial
    · simp only [andThen_ends, consume, send, modify_ends]
      exact handleSettings_cause htype (Bool.not_eq_true _ ▸ hack)
  | goaway | unknown | data | headers | priority | pushPromise | continuation | rstStream =>
    simp only [receive, htype]
    first | trivial | exact .connection _ _

theorem receive_throws (host : Host) (header : FrameHeader) (c : Connection) :
    (receive host header c).Ends (fun _ => True) fun e _ => e.OfFrame 0 :=
  (receive_cause host header c).mono (fun _ h => h) fun _ _ he => he.ofFrame

/-- What no frame of the connection touches. -/
structure Kept (c d : Connection) : Prop where
  maxFrameSize : d.localSettings.maxFrameSize = c.localSettings.maxFrameSize
  recvWindow : d.recvWindow = c.recvWindow
  decodingTable : d.decodingTable = c.decodingTable
  encodingTable : d.encodingTable = c.encodingTable
  nonneg : 0 ≤ c.sendWindow → 0 ≤ d.sendWindow
  log : ∃ frames : List Frame, d.log = c.log ++ frames.map .sent ∧
    ∀ f ∈ frames, f.type ≠ .data ∧ f.type ≠ .rstStream

instance : Std.Refl Kept := ⟨fun _ => ⟨rfl, rfl, rfl, rfl, id, [], by simp⟩⟩

instance : IsTrans Connection Kept where
  trans _ _ _ hcd hde := by
    obtain ⟨frames, hlog, hdata⟩ := hcd.log
    obtain ⟨frames', hlog', hdata'⟩ := hde.log
    refine ⟨hde.maxFrameSize.trans hcd.maxFrameSize, hde.recvWindow.trans hcd.recvWindow,
      hde.decodingTable.trans hcd.decodingTable, hde.encodingTable.trans hcd.encodingTable,
      hde.nonneg ∘ hcd.nonneg, frames ++ frames', ?_, forall_mem_append.2 ⟨hdata, hdata'⟩⟩
    rw [hlog', hlog, map_append, append_assoc]

/-- A change of the reader or of the settings. -/
theorem Kept.of_log {c d : Connection}
    (hsize : d.localSettings.maxFrameSize = c.localSettings.maxFrameSize)
    (h : d = { c with
      reader := d.reader, localSettings := d.localSettings, remoteSettings := d.remoteSettings }) :
    Kept c d := by
  refine ⟨hsize, ?_, ?_, ?_, ?_, [], ?_, nofun⟩ <;> rw [h]
  · exact id
  · exact (append_nil _).symm

theorem consume_keeps (bytes : ℕ) : Keeps Kept (consume bytes) := fun _ => .of_log rfl rfl

theorem send_keeps (h : frame.type ≠ .data ∧ frame.type ≠ .rstStream) : Keeps Kept (send frame) :=
  fun _ => ⟨rfl, rfl, rfl, rfl, id, [frame], rfl, forall_mem_singleton.2 h⟩

theorem updateSendWindow_keeps (increment : ℕ) : Keeps Kept (updateSendWindow increment) := by
  intro c
  rw [updateSendWindow, reading]
  cases hraised : raised 0 c.sendWindow increment with
  | error e => exact refl_of Kept c
  | ok window => exact ⟨rfl, rfl, rfl, rfl, fun _ => nonneg_of_raised hraised, [], by simp⟩

theorem handleSettings_keeps : Keeps Kept handleSettings := by
  intro c
  unfold handleSettings
  split_ifs
  · exact refl_of Kept c
  · refine Keeps.reading (fun settings => ?_) c
    refine Keeps.andThen (fun _ => .of_log rfl rfl) <|
      Keeps.andThen (fun d => ?_) fun _ => .of_log rfl rfl
    unfold settleWindow
    split_ifs
    · exact refl_of Kept d
    · exact (updateSendWindow_keeps _).andThen (fun _ => .of_log rfl rfl) d

theorem receive_keeps (host : Host) (header : FrameHeader) : Keeps Kept (receive host header) := by
  unfold receive
  cases header.type with
  | windowUpdate => exact (Keeps.reading updateSendWindow_keeps).andThen (consume_keeps _)
  | goaway =>
    exact Keeps.andThen (fun _ => .of_log rfl rfl) <|
      (consume_keeps _).andThen (send_keeps ⟨nofun, nofun⟩)
  | ping =>
    refine Keeps.reading fun payload => ?_
    split_ifs
    · exact Keeps.throw _
    · exact consume_keeps _
    · exact (consume_keeps _).andThen (send_keeps ⟨nofun, nofun⟩)
  | settings =>
    split_ifs
    · exact Keeps.andThen (fun _ => .of_log rfl rfl) (consume_keeps _)
    · exact handleSettings_keeps.andThen <| (consume_keeps _).andThen (send_keeps ⟨nofun, nofun⟩)
  | unknown code =>
    refine Keeps.andThen (fun c => ?_) (consume_keeps _)
    rw [skipUnknown, modify_state]
    split_ifs
    · exact .of_log rfl rfl
    · exact refl_of Kept c
  | data | headers | priority | pushPromise | continuation | rstStream => exact Keeps.throw _

end Connection

/-- The window is lowered before it is looked at. -/
theorem Connection.consumeWindow_state (size : ℕ) (c : Connection) :
    (consumeWindow size c).state = { c with recvWindow := c.recvWindow - size } := by
  by_cases h : c.recvWindow - size < 0
  · have hthrow : consumeWindow size c = Action.throw (.streamError 0 .flowControlError)
      { c with recvWindow := c.recvWindow - size } := if_pos h
    rw [hthrow, throw_state]
  · have hdone : consumeWindow size c = done { c with recvWindow := c.recvWindow - size } :=
      if_neg h
    rw [hdone, done_state]

/-! ### Headers of messages -/

namespace Headers

variable {headers : Headers} {fault : Fault} {value : Text} {token : Token}

theorem assign_spares (h : assign token value headers = .error fault) : fault ≠ .nullStream := by
  unfold assign at h
  split_ifs at h
  cases h
  exact nofun

theorem setToken_spares
    (h : setToken token value headers = .error fault) : fault ≠ .nullStream := by
  unfold setToken at h
  split_ifs at h
  · cases h
    exact nofun
  · exact assign_spares h

/-- The function for the names that are not known does not use a slot of the streams. -/
def Sparing (unknown : Text → Text → Headers → Except Fault Headers) : Prop :=
  ∀ name value headers fault, unknown name value headers = .error fault → fault ≠ .nullStream

theorem requestUnknown_sparing : Sparing requestUnknown := by
  intro name value headers fault h
  unfold requestUnknown at h
  split_ifs at h

theorem responseUnknown_sparing : Sparing responseUnknown := by
  intro name value headers fault h
  unfold responseUnknown at h
  split_ifs at h
  cases h
  exact nofun

variable {unknown : Text → Text → Headers → Except Fault Headers}

theorem setHeader_spares (hunknown : Sparing unknown) {name : Text}
    (h : setHeader unknown name value headers = .error fault) :
    fault ≠ .nullStream := by
  unfold setHeader at h
  split_ifs at h
  · cases h
    exact nofun
  · split at h
    · exact hunknown _ _ _ _ h
    · unfold setCookie at h
      split at h
      · exact assign_spares h
      · split_ifs at h
        exact assign_spares h
    · exact setToken_spares h

theorem addHeaders_spares (hunknown : Sparing unknown)
    (h : addHeaders unknown entries headers = .error fault) :
    fault ≠ .nullStream := by
  induction entries generalizing headers with
  | nil => cases h
  | cons entry entries ih =>
    unfold addHeaders at h
    cases hadd : addHeader unknown entry headers with
    | error fault' =>
      rw [hadd] at h
      obtain rfl : fault' = fault := Except.error.inj h
      unfold addHeader at hadd
      split at hadd
      · exact setToken_spares hadd
      · exact setHeader_spares hunknown hadd
    | ok after =>
      rw [hadd] at h
      exact ih h

end Headers

namespace Stream

variable {fault : Fault}

/-- A block is one of two fields. -/
theorem exists_setBlock (block : Option (List UInt8)) (stream : Stream) :
    ∃ headerBlock trailerBlock, stream.setBlock block =
      { stream with headerBlock, trailerBlock } := by
  unfold setBlock
  split_ifs <;> exact ⟨_, _, rfl⟩

/-- Only the windows change when a window is raised. -/
theorem exists_updateSendWindow (increment : ℕ) (c : Context) :
    ∃ conn window, (0 ≤ c.conn.sendWindow → 0 ≤ conn) ∧ (updateSendWindow increment c).state =
      ⟨{ c.conn with sendWindow := conn }, { c.stream with sendWindow := window }⟩ := by
  rw [updateSendWindow, reading]
  cases raised c.stream.id c.stream.sendWindow increment with
  | error e => exact ⟨c.conn.sendWindow, c.stream.sendWindow, fun h => h, rfl⟩
  | ok window =>
    simp only [andThen, Action.modify, onConnection, zoom, Connection.updateSendWindow, reading]
    cases hraised : raised 0 c.conn.sendWindow increment with
    | error e => exact ⟨c.conn.sendWindow, window, fun h => h, rfl⟩
    | ok conn => exact ⟨conn, window, fun _ => nonneg_of_raised hraised, rfl⟩

/-- Only the windows change when a payload is counted. -/
theorem exists_consumeWindow (size : ℕ) (c : Context) :
    ∃ conn window, (consumeWindow size c).state =
    ⟨{ c.conn with recvWindow := conn }, { c.stream with recvWindow := window }⟩ := by
  rw [consumeWindow, andThen, onConnection, zoom, Connection.consumeWindow_state]
  split
  · refine ⟨c.conn.recvWindow - size, c.stream.recvWindow - size, ?_⟩
    rw [andThen]
    change Outcome.state (if c.stream.recvWindow - size < 0 then _ else _) = _
    split <;> rfl
  · exact ⟨_, c.stream.recvWindow, rfl⟩

/-- The headers of a block go to one message, and change nothing else. -/
theorem addDecoded_eq (stream : Stream) (entries : List HeaderEntry) :
    ∃ unknown headers, ∃ set : Headers → Stream, Headers.Sparing unknown ∧
      stream.addDecoded entries = (Headers.addHeaders unknown entries headers).map set ∧
      ∀ headers, ∃ request response, set headers = { stream with request, response } ∧
        request.streamId = stream.request.streamId ∧ request.body = stream.request.body := by
  unfold addDecoded
  split_ifs
  · exact ⟨_, _, _, Headers.requestUnknown_sparing, rfl, fun _ => ⟨_, _, rfl, rfl, rfl⟩⟩
  · exact ⟨_, _, _, Headers.requestUnknown_sparing, rfl, fun _ => ⟨_, _, rfl, rfl, rfl⟩⟩
  · exact ⟨_, _, _, Headers.responseUnknown_sparing, rfl, fun _ => ⟨_, _, rfl, rfl, rfl⟩⟩

theorem exists_addDecoded {stream after : Stream}
    (h : stream.addDecoded entries = .ok after) : ∃ request response,
      after = { stream with request, response } ∧ request.streamId = stream.request.streamId ∧
        request.body = stream.request.body := by
  obtain ⟨unknown, headers, set, -, heq, hset⟩ := stream.addDecoded_eq entries
  rw [heq] at h
  cases hadd : Headers.addHeaders unknown entries headers with
  | error fault => simp [hadd, Except.map] at h
  | ok headers =>
    rw [hadd] at h
    exact Except.ok.inj h ▸ hset headers

/-- What is done with a block that has ended. -/
theorem exists_handleHeader (host : Host) (block : List UInt8) (c : Context) :
    ∃ decodingTable, ∃ blocks : List (List UInt8),
    ∃ request response headerBlock trailerBlock primary,
      (handleHeader host block c).state = {
        conn := { c.conn with decodingTable, log := c.conn.log ++ blocks.map (.fed c.stream.id) }
        stream := { c.stream with
          request, response, headerBlock, trailerBlock, primaryHeadersDone := primary } } ∧
      request.streamId = c.stream.request.streamId := by
  unfold handleHeader
  split_ifs
  · exact ⟨_, [], c.stream.request, c.stream.response, _, _, _, by simp; rfl, rfl⟩
  · simp only
    split
    · exact ⟨_, [block], c.stream.request, c.stream.response, _, _, _, rfl, rfl⟩
    · rename_i after hafter
      obtain ⟨request, response, rfl, hrequest, -⟩ := exists_addDecoded hafter
      obtain ⟨headerBlock, trailerBlock, hset⟩ :=
        exists_setBlock none { c.stream with request, response }
      rw [feedBlock, hset]
      split <;> exact ⟨_, [block], request, response, _, _, _, rfl, hrequest⟩

/-- What only fragments touch. -/
structure SameBlock (c d : Context) : Prop where
  log : d.conn.log = c.conn.log
  table : d.conn.decodingTable = c.conn.decodingTable
  block : d.stream.headerBlock = c.stream.headerBlock
  trailers : d.stream.trailerBlock = c.stream.trailerBlock
  primary : d.stream.primaryHeadersDone = c.stream.primaryHeadersDone

/-- What a frame on a stream may touch, whatever comes of it. -/
structure Touched (header : FrameHeader) (c d : Context) : Prop where
  id : d.stream.id = c.stream.id
  requestId : d.stream.request.streamId = c.stream.request.streamId
  localSettings : d.conn.localSettings = c.conn.localSettings
  remoteSettings : d.conn.remoteSettings = c.conn.remoteSettings
  encodingTable : d.conn.encodingTable = c.conn.encodingTable
  nonneg : 0 ≤ c.conn.sendWindow → 0 ≤ d.conn.sendWindow
  log : ∃ blocks : List (List UInt8), d.conn.log = c.conn.log ++ blocks.map (.fed c.stream.id)
  windows : header.type ≠ .windowUpdate →
    d.conn.sendWindow = c.conn.sendWindow ∧ d.stream.sendWindow = c.stream.sendWindow
  others : header.type.isFragment = false → SameBlock c d

/-- What its handler may touch. -/
structure Handled (host : Host) (header : FrameHeader) (c d : Context) : Prop
    extends Touched header c d where
  state : d.stream.state = c.stream.state
  remoteDone : d.stream.remoteDone = c.stream.remoteDone
  expecting : header.type.isFragment = false → header.type ≠ .rstStream →
    d.stream.expectingContinuation = c.stream.expectingContinuation
  reader : header.streamId ≠ 0 → d.conn.reader = c.conn.reader ∨ header.Viewed host ∧
    d.conn.reader = c.conn.reader.growView header.length

section Handled

variable {host : Host} {header : FrameHeader} {c : Context}

theorem Handled.of_other {connSend connRecv sendWindow recvWindow : ℤ}
    {body : List UInt8} {expecting : Bool} (hnonneg : 0 ≤ c.conn.sendWindow → 0 ≤ connSend)
    (hwindows : header.type ≠ .windowUpdate →
      connSend = c.conn.sendWindow ∧ sendWindow = c.stream.sendWindow)
    (hexpecting : header.type ≠ .rstStream → expecting = c.stream.expectingContinuation)
    (hreader : header.streamId ≠ 0 → reader = c.conn.reader ∨
      header.Viewed host ∧ reader = c.conn.reader.growView header.length) :
    Handled host header c {
      conn := { c.conn with reader, sendWindow := connSend, recvWindow := connRecv }
      stream := { c.stream with
        sendWindow, recvWindow, request := { c.stream.request with body }
        expectingContinuation := expecting } } :=
  ⟨⟨rfl, rfl, rfl, rfl, rfl, hnonneg, ⟨[], by simp⟩, hwindows, fun _ => ⟨rfl, rfl, rfl, rfl, rfl⟩⟩,
    rfl, rfl, fun _ => hexpecting, hreader⟩

theorem Handled.refl (c : Context) : Handled host header c c :=
  .of_other (fun h => h) (fun _ => ⟨rfl, rfl⟩) (fun _ => rfl) fun _ => .inl rfl

theorem handleFragment_handled (htype : header.type.isFragment = true) (c : Context) :
    Handled host header c (handleFragment host header c).state := by
  have hviewed : header.streamId ≠ 0 → header.Viewed host := by
    intro hid
    unfold FrameHeader.Viewed
    obtain htype | htype | htype := FrameType.isFragment_iff.1 htype <;> rw [htype] <;> exact hid
  -- each end of the handler leaves a context of this form
  have hfragment : ∀ (blocks : List (List UInt8)) {decodingTable headerBlock trailerBlock expecting
      primary} {request : Request} {response : Response},
      request.streamId = c.stream.request.streamId → Handled host header c {
        conn := { c.conn with
          reader := c.conn.reader.growView header.length, decodingTable
          log := c.conn.log ++ blocks.map (.fed c.stream.id) }
        stream := { c.stream with
          request, response, headerBlock, trailerBlock, expectingContinuation := expecting
          primaryHeadersDone := primary } } := by
    intro blocks _ _ _ _ _ request response hrequest
    refine ⟨⟨rfl, hrequest, rfl, rfl, rfl, fun h => h, ⟨blocks, rfl⟩, fun _ => ⟨rfl, rfl⟩, ?_⟩, rfl,
      rfl, ?_, fun hid => .inr ⟨hviewed hid, rfl⟩⟩
    all_goals
      intro hother
      rw [htype] at hother
      cases hother
  unfold handleFragment
  split
  · exact .refl c
  · rename_i written _
    obtain ⟨headerBlock, trailerBlock, hset⟩ :=
      exists_setBlock (some (written ++ c.conn.reader.viewed header.length)) c.stream
    simp only [hset]
    split_ifs
    · simpa using hfragment [] rfl
    · obtain ⟨_, blocks, _, _, _, _, _, hstate, hrequest⟩ := exists_handleHeader host
        (written ++ c.conn.reader.viewed header.length) _
      rw [hstate]
      exact hfragment blocks hrequest
    · simpa using hfragment [] rfl

theorem handle_handled (host : Host) (header : FrameHeader) (c : Context) :
    Handled host header c (handle host header c).state := by
  cases htype : header.type with
  | data =>
    simp only [handle, htype, handleData]
    split_ifs
    · exact .refl c
    -- the payload is viewed after the windows were found large enough
    · obtain ⟨conn, window, hstate⟩ := exists_consumeWindow header.length c
      unfold andThen
      split
      · simp only [hstate]
        split_ifs <;> exact .of_other (fun h => h) (fun _ => ⟨rfl, rfl⟩) (fun _ => rfl)
          fun hid => .inr ⟨by rw [FrameHeader.Viewed, htype]; exact hid, rfl⟩
      · rw [hstate]
        exact .of_other (fun h => h) (fun _ => ⟨rfl, rfl⟩) (fun _ => rfl) fun _ => .inl rfl
  | headers | pushPromise | continuation =>
    simp only [handle, htype]
    exact handleFragment_handled (by rw [htype]; rfl) c
  | windowUpdate =>
    simp only [handle, htype, handleWindowUpdate, reading]
    split
    · exact .refl c
    · obtain ⟨conn, window, hnonneg, hstate⟩ := exists_updateSendWindow _ c
      rw [hstate]
      exact .of_other hnonneg (fun h => absurd htype h) (fun _ => rfl) fun _ => .inl rfl
  | rstStream =>
    simp only [handle, htype, handleReset, reading]
    split
    · exact .refl c
    · exact .of_other (fun h => h) (fun _ => ⟨rfl, rfl⟩) (fun h => absurd htype h) fun _ => .inl rfl
  | unknown code =>
    simp only [handle, htype, onConnection, zoom, Connection.skipUnknown, modify_state]
    split_ifs with hextensions
    · exact .of_other (fun h => h) (fun _ => ⟨rfl, rfl⟩) (fun _ => rfl)
        fun _ => .inr ⟨by rw [FrameHeader.Viewed, htype]; exact hextensions, rfl⟩
    · exact .refl c
  | priority | settings | ping | goaway =>
    simp only [handle, htype]
    exact .refl c

end Handled

theorem addDecoded_spares {stream : Stream}
    (h : stream.addDecoded entries = .error fault) : fault ≠ .nullStream := by
  obtain ⟨unknown, headers, set, hunknown, heq, -⟩ := stream.addDecoded_eq entries
  rw [heq] at h
  cases hadd : Headers.addHeaders unknown entries headers with
  | error fault' =>
    rw [hadd] at h
    exact Except.error.inj h ▸ Headers.addHeaders_spares hunknown hadd
  | ok headers => simp [hadd, Except.map] at h

/-- The faults depend on the messages and on where the headers go. -/
theorem addDecoded_error_of_eq {a b : Stream} (h : a.addDecoded entries = .error fault)
    (hid : a.id = b.id) (hprimary : a.primaryHeadersDone = b.primaryHeadersDone)
    (hrequest : a.request = b.request) (hresponse : a.response = b.response) :
    b.addDecoded entries = .error fault := by
  unfold addDecoded at h ⊢
  rw [hid, hprimary, hrequest, hresponse] at h
  have hmap : ∀ (result : Except Fault Headers) (f g : Headers → Stream),
      result.map f = .error fault → result.map g = .error fault := by
    intro result f g hresult
    cases result with
    | error e =>
      cases hresult
      rfl
    | ok headers => cases hresult
  split_ifs at h ⊢ <;> exact hmap _ _ _ h

section Cause

variable {host : Host} {header : FrameHeader} {c : Context}

/-- The block that a fragment ends. -/
def wholeBlock (header : FrameHeader) (c : Context) : List UInt8 :=
  c.stream.block.getD [] ++ c.conn.reader.rest.take header.length

/-- Why a frame on a stream throws. -/
inductive Cause (host : Host) (header : FrameHeader) (c : Context) : Thrown → Prop
  | connection (code : Http2ErrorCode) (lastStreamId : ℕ) :
    Cause host header c (.connectionError code lastStreamId)
  | ahead (h : ¬c.conn.reader.Synced) : Cause host header c (.fault .nullNode)
  | closed (code : Http2ErrorCode) (hstate : c.stream.state = .halfClosedRemote)
    (htype : header.type = .data ∨ header.type = .headers) :
    Cause host header c (.streamError c.stream.id code)
  | connWindow (htype : header.type = .data) (h : c.conn.recvWindow < header.length) :
    Cause host header c (.streamError 0 .flowControlError)
  | window (htype : header.type = .data) (h : c.stream.recvWindow < header.length) :
    Cause host header c (.streamError c.stream.id .flowControlError)
  | headers {fault : Fault} (htype : header.type.isFragment = true)
    (hend : header.has Flags.endHeaders = true) (h : c.stream.addDecoded
      (feed host.hit host.width (wholeBlock header c) c.conn.decodingTable).headers =
        .error fault) :
    Cause host header c (.fault fault)
  | refused {e : Thrown} (htype : header.type.isFragment = true)
    (hend : header.has Flags.endHeaders = true) (h : refusal c.stream.id (wholeBlock header c)
      (feed host.hit host.width (wholeBlock header c) c.conn.decodingTable) = some e) :
    Cause host header c e
  | raised {increment : ℕ} {e : Thrown} (htype : header.type = .windowUpdate)
    (hread : c.conn.reader.readWindowIncrement = .ok increment)
    (h : raised c.stream.id c.stream.sendWindow increment = .error e ∨
      raised 0 c.conn.sendWindow increment = .error e) : Cause host header c e
  | reset (code : Http2ErrorCode) (htype : header.type = .rstStream) :
    Cause host header c (.streamError c.stream.id code)

theorem Cause.ofFrame (h : Cause host header c e) : e.OfFrame c.stream.id := by
  cases h with
  | connection | ahead => trivial
  | closed | window | reset => exact .inl rfl
  | connWindow => exact .inr rfl
  | @headers fault _ _ h =>
    have hne := addDecoded_spares h
    cases fault <;> trivial
  | refused _ _ h =>
    unfold refusal at h
    split at h
    · cases h
      exact .inl rfl
    · cases h
      trivial
    · split_ifs at h
      cases h
      exact .inl rfl
  | raised _ _ h =>
    obtain h | h := h
    · exact throws_of_raised h
    · exact (throws_of_raised h).of_conn

variable (state : StreamState)

theorem handleData_cause (htype : header.type = .data) :
    (handleData header { c with stream := { c.stream with state } }).Ends (fun _ => True)
      fun e _ => Cause host header c e := by
  unfold handleData
  split_ifs
  · trivial
  · simp only [consumeWindow, Connection.consumeWindow, andThen_ends, onConnection, zoom_ends,
      modify_ends]
    split
    · exact .connWindow htype (by omega)
    · rw [done_ends]
      split
      · exact .window htype (by omega)
      · rw [done_ends]
        split
        · trivial
        · exact .connection _ _

theorem handleFragment_cause (htype : header.type.isFragment = true) :
    (handleFragment host header { c with stream := { c.stream with state } }).Ends (fun _ => True)
      fun e _ => Cause host header c e := by
  unfold handleFragment
  split
  · exact .connection _ _
  · rename_i written hwritten
    have hblock : wholeBlock header c = written ++ c.conn.reader.viewed header.length := by
      rw [wholeBlock, show c.stream.block = some written from hwritten]
      rfl
    obtain ⟨headerBlock, trailerBlock, hset⟩ :=
      exists_setBlock (some (wholeBlock header c)) { c.stream with state }
    simp only [← hblock, hset]
    split_ifs with hlength hend
    · exact .connection _ _
    · unfold handleHeader
      split_ifs
      · trivial
      · simp only
        split
        · rename_i fault hfault
          exact .headers htype hend (addDecoded_error_of_eq hfault rfl rfl rfl rfl)
        · rename_i after hafter
          obtain ⟨request, response, rfl, -⟩ := exists_addDecoded hafter
          split
          · trivial
          · rename_i hrefused
            exact .refused htype hend hrefused
          · rename_i hrefused
            exact .refused htype hend hrefused
    · trivial

/-- A frame comes to its handler in a state that is known. -/
theorem receive_eq (host : Host) (header : FrameHeader) (c : Context) : receive host header c =
    if c.stream.expectingContinuation ∧ header.type ≠ .continuation then
      Action.throw (.connectionError .protocolError c.stream.id) c
    else
      match StreamStateMachine.advance c.stream.id header.type header.flags false
        c.stream.state with
      | .error e => Action.throw e c
      | .ok state => andThen (handle host header)
          (andThen (onConnection (Connection.consume header.length)) settle)
          { c with stream := { c.stream with state } } := by
  rw [receive, andThen, awaitContinuation]
  split_ifs
  · rfl
  · simp only [Action.done]
    rw [andThen, advance, reading]
    cases StreamStateMachine.advance c.stream.id header.type header.flags false c.stream.state with
    | error e => rfl
    | ok state => rfl

/-- What a frame on a stream comes to, by what its handler comes to. -/
theorem receive_ends {Q : Context → Prop} {E : Thrown → Context → Prop}
    (hawait : E (.connectionError .protocolError c.stream.id) c)
    (hadvance : ∀ e, StreamStateMachine.advance c.stream.id header.type header.flags false
      c.stream.state = .error e → E e c)
    (hhandle : ∀ state, (c.stream.expectingContinuation = true → header.type = .continuation) →
      StreamStateMachine.advance c.stream.id header.type header.flags false c.stream.state =
        .ok state →
      (handle host header { c with stream := { c.stream with state } }).Ends
        (fun d => Q (andThen (onConnection (Connection.consume header.length)) settle d).state) E) :
    (receive host header c).Ends Q E := by
  rw [receive_eq]
  split_ifs with hexpecting
  · exact hawait
  · split
    · exact hadvance _ ‹_›
    · rw [andThen_ends]
      refine hhandle _ (fun h => ?_) ‹_›
      by_contra hne
      exact hexpecting ⟨h, hne⟩

theorem receive_cause (host : Host) (header : FrameHeader) (c : Context) :
    (receive host header c).Ends (fun _ => True) fun e _ => Cause host header c e := by
  refine receive_ends (.connection _ _) (fun e he => ?_) fun state _ _ => ?_
  -- only a stream that the peer has half closed is refused as a stream
  · rw [StreamStateMachine.advance_remote] at he
    cases hstate : c.stream.state with
    | halfClosedRemote =>
      rw [hstate] at he
      simp only [reduceCtorEq, if_false] at he
      split_ifs at he with _ _ htype
      cases he
      exact .closed _ hstate htype
    | _ =>
      rw [hstate] at he
      split_ifs at he <;> cases he <;> exact .connection _ _
  · cases htype : header.type with
    | data =>
      simp only [handle, htype]
      exact handleData_cause state htype
    | headers | pushPromise | continuation =>
      simp only [handle, htype]
      exact handleFragment_cause state (by rw [htype]; rfl)
    -- either window may go over the limit
    | windowUpdate =>
      simp only [handle, htype, handleWindowUpdate, updateSendWindow, Connection.updateSendWindow,
        andThen_ends, modify_ends, onConnection, zoom_ends, reading_ends]
      refine ⟨fun e he => ?_, fun increment hread => ⟨fun e he => .raised htype hread (.inl he),
        fun _ _ => ⟨fun e he => .raised htype hread (.inr he), fun _ _ => ⟨⟩⟩⟩⟩
      obtain ⟨hahead, rfl⟩ | rfl := Reader.of_readWindowIncrement_error he
      · exact .ahead hahead
      · exact .connection _ _
    | rstStream =>
      simp only [handle, htype, handleReset, reading_ends, andThen_ends, modify_ends]
      refine ⟨fun e he => ?_, fun bytes _ => .reset _ htype⟩
      obtain ⟨hahead, rfl⟩ := Reader.of_read_error he
      exact .ahead hahead
    | unknown code =>
      simp only [handle, htype]
      trivial
    | priority | settings | ping | goaway =>
      simp only [handle, htype]
      exact .connection _ _

theorem receive_throws (host : Host) (header : FrameHeader) (c : Context) :
    (receive host header c).Ends (fun _ => True) fun e _ => e.OfFrame c.stream.id :=
  (receive_cause host header c).mono (fun _ h => h) fun _ _ he => he.ofFrame

/-- A raise of a window, for any increment. -/
theorem updateSendWindow_throws (increment : ℕ) (c : Context) :
    (updateSendWindow increment c).Ends (fun _ => True) fun e _ => e.OfFrame c.stream.id := by
  simp only [updateSendWindow, Connection.updateSendWindow, reading_ends, andThen_ends, modify_ends,
    onConnection, zoom_ends]
  exact ⟨fun e he => throws_of_raised he,
    fun _ _ => ⟨fun e he => (throws_of_raised he).of_conn, fun _ _ => ⟨⟩⟩⟩

end Cause

/-- Neither the state machine nor the end of a frame touches more. -/
theorem Touched.settled {header : FrameHeader} {c d : Context} {state : StreamState}
    {remoteDone expecting : Bool}
      (h : Touched header { c with stream := { c.stream with state } } d) :
    Touched header c {
      conn := { d.conn with reader }
      stream := { d.stream with remoteDone, expectingContinuation := expecting } } :=
  ⟨h.id, h.requestId, h.localSettings, h.remoteSettings, h.encodingTable, h.nonneg, h.log,
    h.windows,
    fun hother => ⟨(h.others hother).log, (h.others hother).table, (h.others hother).block,
      (h.others hother).trailers, (h.others hother).primary⟩⟩

theorem receive_touches (host : Host) (header : FrameHeader) (c : Context) :
    Touched header c (receive host header c).state := by
  have hrefl : Touched header c c := (Handled.refl c : Handled host header c c).toTouched
  refine Outcome.Ends.state (receive_ends hrefl (fun _ _ => hrefl) fun state _ _ => ?_)
  have h := handle_handled host header { c with stream := { c.stream with state } }
  exact (Outcome.Ends.of_state h.toTouched).mono (fun d hd => hd.settled) fun _ d hd => hd.settled

end Stream

namespace Session

variable {host : Host} {s t : Session} {id : ℕ} {Q : Session → Prop} {E : Thrown → Session → Prop}
    {stream : Stream} {J : Session → Prop} {bytes : List UInt8}

/-! ### Slots -/

@[simp] theorem slot_setSlot_self (stream : Option Stream) :
    (s.setSlot id stream).slot id = some stream := OrderedMap.find_put_self

theorem slot_setSlot_of_ne {other : ℕ} (h : other ≠ id) (stream : Option Stream) :
    (s.setSlot id stream).slot other = s.slot other := OrderedMap.find_put_of_ne h

@[simp] theorem setSlot_conn (stream : Option Stream) : (s.setSlot id stream).conn = s.conn := rfl

@[simp] theorem slot_withConn (conn : Connection) :
    ({ s with conn } : Session).slot id = s.slot id :=
  rfl

/-- The state with what an action on a stream leaves. -/
def put (id : ℕ) (c : Context) (s : Session) : Session :=
    { s with conn := c.conn }.setSlot id (some c.stream)

theorem onStream_ends (hslot : s.slot id = some (some stream))
    {f : Action Thrown Context} : (onStream id f s).Ends Q E ↔
      (f ⟨s.conn, stream⟩).Ends (fun c => Q (s.put id c)) fun e c => E e (s.put id c) := by
  unfold onStream
  rw [hslot]
  rfl

/-- The stream of a frame, which is created if there is none. -/
def target (id : ℕ) (s : Session) : Stream :=
  match s.slot id with
  | some (some stream) => stream
  | _ => .create id s.conn.remoteSettings.initialWindowSize

/-- The stream of a frame is there, or the connection ends. -/
theorem getOrCreateStream_spec (id : ℕ) (s : Session) : (getOrCreateStream id s).Ends
      (fun t => (t = s ∨ s.slot id = none ∧ t = s.setSlot id (some (s.target id))) ∧
        t.slot id = some (some (s.target id)))
      fun e t => t = s ∧ ∃ code lastStreamId, e = .connectionError code lastStreamId := by
  unfold getOrCreateStream
  split
  · rename_i stream hslot
    refine ⟨.inl rfl, ?_⟩
    rw [done_state, hslot, target, hslot]
  · exact ⟨rfl, _, _, rfl⟩
  · rename_i hslot
    split_ifs
    · exact ⟨rfl, _, _, rfl⟩
    · have htarget : s.target id = .create id s.conn.remoteSettings.initialWindowSize := by
        rw [target, hslot]
      rw [htarget]
      exact ⟨.inr ⟨hslot, rfl⟩, slot_setSlot_self _⟩

/-- A slot, without the window of its stream. -/
def shape (id : ℕ) (s : Session) : Option (Option Stream) :=
  (s.slot id).map (Option.map fun stream => { stream with sendWindow := 0 })

theorem shape_setSlot_self (stream : Option Stream) :
    (s.setSlot id stream).shape id = some
      (stream.map fun stream => { stream with sendWindow := 0 }) := by
  rw [shape, slot_setSlot_self]
  rfl

theorem shape_setSlot_of_ne {other : ℕ} (h : other ≠ id) (stream : Option Stream) :
    (s.setSlot id stream).shape other = s.shape other := by
  rw [shape, slot_setSlot_of_ne h, shape]

/-! ### The first part -/

/-- What the part before the payload never touches: all but the reader, the header that is kept, the
windows, and how far the settings of the peer have come. -/
structure Outline (s t : Session) : Prop where
  log : t.conn.log = s.conn.log
  localSettings : t.conn.localSettings = s.conn.localSettings
  initialWindowSize :
    t.conn.remoteSettings.initialWindowSize = s.conn.remoteSettings.initialWindowSize
  lastStreamId : t.conn.remoteSettings.lastStreamId = s.conn.remoteSettings.lastStreamId
  recvWindow : t.conn.recvWindow = s.conn.recvWindow
  decodingTable : t.conn.decodingTable = s.conn.decodingTable
  encodingTable : t.conn.encodingTable = s.conn.encodingTable
  shape : ∀ id, t.shape id = s.shape id
  pending : t.pending = s.pending
  status : t.status = s.status
  nonneg : 0 ≤ s.conn.sendWindow → 0 ≤ t.conn.sendWindow

/-- A raise of the windows does not touch the reader and the header either. -/
structure Raised (s t : Session) : Prop extends Outline s t where
  reader : t.conn.reader = s.conn.reader
  safeHeader : t.safeHeader = s.safeHeader

/-- The windows are not touched if no raise of them is due. -/
structure Headed (s t : Session) : Prop extends Outline s t where
  windows : s.conn.remoteSettings.deltaWindowOnSettings ≤ 0 →
    t.streams = s.streams ∧ t.conn.sendWindow = s.conn.sendWindow ∧
      t.conn.remoteSettings.deltaWindowOnSettings = s.conn.remoteSettings.deltaWindowOnSettings

theorem Outline.rfl' (s : Session) : Outline s s :=
  ⟨rfl, rfl, rfl, rfl, rfl, rfl, rfl, fun _ => rfl, rfl, rfl, id⟩

theorem Outline.trans {u : Session} (hst : Outline s t) (htu : Outline t u) : Outline s u :=
  ⟨htu.log.trans hst.log, htu.localSettings.trans hst.localSettings,
    htu.initialWindowSize.trans hst.initialWindowSize, htu.lastStreamId.trans hst.lastStreamId,
    htu.recvWindow.trans hst.recvWindow, htu.decodingTable.trans hst.decodingTable,
    htu.encodingTable.trans hst.encodingTable, fun id => (htu.shape id).trans (hst.shape id),
    htu.pending.trans hst.pending, htu.status.trans hst.status, htu.nonneg ∘ hst.nonneg⟩

instance : Std.Refl Raised := ⟨fun s => ⟨.rfl' s, rfl, rfl⟩⟩

instance : IsTrans Session Raised where
  trans _ _ _ hst htu := ⟨hst.toOutline.trans htu.toOutline, htu.reader.trans hst.reader,
    htu.safeHeader.trans hst.safeHeader⟩

theorem Headed.rfl' (s : Session) : Headed s s := ⟨.rfl' s, fun _ => ⟨rfl, rfl, rfl⟩⟩

/-- A window is raised in its slot. -/
theorem onStream_updateSendWindow_keeps (id increment : ℕ) :
    Keeps Raised (onStream id (Stream.updateSendWindow increment)) := by
  intro s
  unfold onStream
  split
  · exact refl_of Raised s
  · exact refl_of Raised s
  · rename_i stream hslot
    obtain ⟨conn, window, hnonneg, hstate⟩ :=
      Stream.exists_updateSendWindow increment ⟨s.conn, stream⟩
    rw [hstate]
    refine ⟨⟨rfl, rfl, rfl, rfl, rfl, rfl, rfl, fun other => ?_, rfl, rfl, hnonneg⟩, rfl, rfl⟩
    by_cases hother : other = id
    · subst hother
      rw [shape_setSlot_self, shape, hslot]
      rfl
    · rw [shape_setSlot_of_ne hother]
      rfl

theorem raiseWindows_keeps : Keeps Raised raiseWindows := by
  intro s
  unfold raiseWindows
  split
  · refine (Keeps.each (fun entry => ?_) _).andThen (fun t => ?_) s
    · exact onStream_updateSendWindow_keeps entry.1 _
    · exact ⟨⟨rfl, rfl, rfl, rfl, rfl, rfl, rfl, fun _ => rfl, rfl, rfl, id⟩, rfl, rfl⟩
  · exact refl_of Raised s

theorem raiseWindows_of_nonpos (h : s.conn.remoteSettings.deltaWindowOnSettings ≤ 0) :
    raiseWindows s = done s := if_neg (not_lt.2 h)

theorem settleSettings_keeps : Keeps Raised settleSettings := by
  intro s
  unfold settleSettings
  split
  · refine raiseWindows_keeps.andThen (fun t => ?_) s
    exact ⟨⟨rfl, rfl, rfl, rfl, rfl, rfl, rfl, fun _ => rfl, rfl, rfl, id⟩, rfl, rfl⟩
  · exact refl_of Raised s

theorem settleSettings_headed : Keeps Headed settleSettings := by
  intro s
  refine ⟨(settleSettings_keeps s).toOutline, fun hdelta => ?_⟩
  unfold settleSettings
  split
  · rw [andThen, raiseWindows_of_nonpos hdelta]
    exact ⟨rfl, rfl, rfl⟩
  · exact ⟨rfl, rfl, rfl⟩

/-- The bytes are off the reader. -/
def consumed (bytes : ℕ) (s : Session) : Session :=
  { s with conn := { s.conn with reader := s.conn.reader.consume bytes } }

theorem receiveHeader_ends : (receiveHeader s).Ends Q E ↔
    (∀ e, s.nextHeader = .error e → E e s) ∧ ∀ header, s.nextHeader = .ok header →
      if s.conn.remoteSettings.lastStreamId < header.streamId then
        E (.connectionError .protocolError s.conn.remoteSettings.lastStreamId)
          (s.consumed headerSize)
      else (settleSettings (s.consumed headerSize)).Ends
        (fun t => Q { t with safeHeader := some header }) E := by
  rw [receiveHeader, reading_ends]
  refine and_congr_right fun _ => forall_congr' fun header => forall_congr' fun _ => ?_
  simp only [andThen_ends, modify_ends, onConnection, zoom_ends, Connection.consume, checkStreamId]
  split <;> rfl

theorem Headed.consumed (bytes : ℕ) (h : Headed (s.consumed bytes) t)
    (safeHeader : Option FrameHeader) :
    Headed s { t with safeHeader } :=
  ⟨⟨h.log, h.localSettings, h.initialWindowSize, h.lastStreamId, h.recvWindow, h.decodingTable,
    h.encodingTable, h.shape, h.pending, h.status, h.nonneg⟩, h.windows⟩

/-- The header is kept, with the reader behind it. -/
theorem receiveHeader_spec : (receiveHeader s).Ends
    (fun t => ∃ header, s.nextHeader = .ok header ∧ Headed s t ∧ t.safeHeader = some header ∧
      t.conn.reader = s.conn.reader.consume headerSize)
    fun _ t => Headed s t := by
  refine receiveHeader_ends.2 ⟨fun _ _ => .rfl' s, fun header hheader => ?_⟩
  split
  · exact ((Headed.rfl' _).consumed headerSize s.safeHeader)
  · refine Outcome.ends_iff.2 ⟨fun _ => ⟨header, hheader, ?_, rfl, ?_⟩, fun _ _ => ?_⟩
    · exact (settleSettings_headed _).consumed headerSize (some header)
    · exact (settleSettings_keeps _).reader
    · exact (settleSettings_headed _).consumed headerSize (settleSettings _).state.safeHeader

/-! ### The frame at hand -/

/-- The frame that `receive` is going to handle, as its header and all the bytes behind it. There is
none if it is not there as a whole. -/
def upcoming (s : Session) : Option (FrameHeader × List UInt8) :=
  match s.safeHeader with
  | some header =>
    if s.conn.reader.size < header.length then none else some (header, s.conn.reader.rest)
  | none =>
    if s.conn.reader.size < headerSize then none
    else
      match s.nextHeader with
      | .error _ => none
      | .ok header =>
        if (s.consumed headerSize).conn.reader.size < header.length then none
        else some (header, (s.consumed headerSize).conn.reader.rest)

/-- The header of the frame at hand, if it is still to be read. -/
theorem of_upcoming {header : FrameHeader} {rest : List UInt8} (hsafe : s.safeHeader = none)
    (h : s.upcoming = some (header, rest)) : headerSize ≤ s.conn.reader.size ∧
      s.nextHeader = .ok header ∧ header.length ≤ (s.consumed headerSize).conn.reader.size ∧
      (s.consumed headerSize).conn.reader.rest = rest := by
  simp only [upcoming, hsafe] at h
  split_ifs at h with hsize
  split at h
  · cases h
  · rename_i next hnext
    split_ifs at h with hlength
    cases h
    exact ⟨not_lt.1 hsize, hnext, not_lt.1 hlength, rfl⟩

/-- By how much the window of the connection is raised before a frame is handled. -/
def due (s : Session) : ℤ :=
  if s.safeHeader = none ∧ headerSize ≤ s.conn.reader.size ∧
      s.conn.remoteSettings.state = .acknowledged ∧
      0 < s.conn.remoteSettings.deltaWindowOnSettings then
    s.streams.length * s.conn.remoteSettings.deltaWindowOnSettings
  else 0

/-- **What a call does.** It waits, it fails with the header, or it handles the frame at hand, in a
state with what is known after the header. -/
theorem receiveFrame_ends {P : Session → Prop} (hparked : s.safeHeader ≠ none → P s)
    (hheader : s.safeHeader = none → headerSize ≤ s.conn.reader.size → (receiveHeader s).Ends P E)
    (hwait : ∀ t, Headed s t → s.upcoming = none →
      t.conn.reader = s.conn.reader ∨ t.conn.reader = s.conn.reader.consume headerSize → Q t)
    (hframe : ∀ header t, P t → Headed s t → s.upcoming = some (header, t.conn.reader.rest) →
      header.length ≤ t.conn.reader.size →
      (handleFrame host header (t.takeHeader header)).Ends Q E) :
    (receiveFrame host s).Ends Q E := by
  unfold receiveFrame
  cases hsafe : s.safeHeader with
  | some header =>
    -- the header was taken by a call before, and the payload is waited for
    have hP : P s := hparked (hsafe ▸ Option.some_ne_none header)
    by_cases hsize : s.conn.reader.size < header.length
    · simp only [receivePayload, hsafe, if_pos hsize, done_ends]
      refine hwait s (.rfl' s) ?_ (.inl rfl)
      simp only [upcoming, hsafe, if_pos hsize]
    · simp only [receivePayload, hsafe, if_neg hsize]
      refine hframe header s hP (.rfl' s) ?_ (not_lt.1 hsize)
      simp only [upcoming, hsafe, if_neg hsize]
  | none =>
    by_cases hsize : s.conn.reader.size < headerSize
    · simp only [if_pos hsize, done_ends]
      refine hwait s (.rfl' s) ?_ (.inl rfl)
      simp only [upcoming, hsafe, if_pos hsize]
    · simp only [if_neg hsize, andThen_ends]
      refine (receiveHeader_spec.and (hheader hsafe (not_lt.1 hsize))).mono ?_ fun _ _ h => h.2
      -- `t` is the session behind the header, with the bytes of the payload in front
      rintro t ⟨⟨header, hheader, hheaded, hkept, hreader⟩, hP⟩
      by_cases hlength : t.conn.reader.size < header.length
      · simp only [receivePayload, hkept, if_pos hlength, done_ends]
        refine hwait t hheaded ?_ (.inr hreader)
        rw [hreader] at hlength
        simp only [upcoming, hsafe, if_neg hsize, hheader, consumed, if_pos hlength]
      · simp only [receivePayload, hkept, if_neg hlength]
        refine hframe header t hP hheaded ?_ (not_lt.1 hlength)
        rw [hreader] at hlength ⊢
        simp only [upcoming, hsafe, if_neg hsize, hheader, consumed, if_neg hlength]

/-! ### Responses -/

/-- What the sending of a response makes of a slot: the response of its stream has another head, or
the slot is empty. -/
def Answers (before after : Option (Option Stream)) : Prop :=
  after = before ∨ before ≠ none ∧ after = some none ∨
    ∃ stream response, before = some (some stream) ∧ after = some (some { stream with response }) ∧
      response.body = stream.response.body

theorem Answers.trans {a b c : Option (Option Stream)} (hab : Answers a b) (hbc : Answers b c) :
    Answers a c := by
  obtain rfl | ⟨hb, rfl⟩ | ⟨stream, response, rfl, rfl, hbody⟩ := hbc
  · exact hab
  · refine .inr (.inl ⟨?_, rfl⟩)
    rintro rfl
    obtain rfl | ⟨ha, -⟩ | ⟨stream, response, ha, -⟩ := hab
    · exact hb rfl
    · exact ha rfl
    · cases ha
  · obtain h | ⟨-, h⟩ | ⟨stream', response', rfl, h, hbody'⟩ := hab
    · exact .inr (.inr ⟨stream, response, h.symm, rfl, hbody⟩)
    · cases h
    · cases h
      exact .inr (.inr ⟨stream', response, rfl, rfl, hbody.trans hbody'⟩)

/-- The stream of a slot has a response without a body. -/
def Bodyless (slot : Option (Option Stream)) : Prop :=
  ∀ stream, slot = some (some stream) → stream.response.body = []

theorem Bodyless.answers {a b : Option (Option Stream)} (h : Bodyless a) (hab : Answers a b) :
    Bodyless b := by
  intro stream hb
  obtain rfl | ⟨-, rfl⟩ | ⟨stream', response, ha, rfl, hbody⟩ := hab
  · exact h stream hb
  · cases hb
  · cases hb
    exact hbody.trans (h stream' ha)

/-- The slots that are empty are those of the streams that were closed. -/
def Tallied (s : Session) : Prop := (∃ id, s.slot id = some none) ↔ Closing s.conn.log

theorem Tallied.setSlot (h : s.Tallied) (hslot : s.slot id ≠ some none) (stream : Stream) :
    (s.setSlot id (some stream)).Tallied := by
  refine Iff.trans (exists_congr fun other => ?_) h
  by_cases hother : other = id
  · subst hother
    simp [slot_setSlot_self, hslot]
  · rw [slot_setSlot_of_ne hother]

/-- A stream is closed with the frame that says so. -/
theorem tallied_of_closing (h : Closing s.conn.log) (id : ℕ) : (s.setSlot id none).Tallied :=
  iff_of_true ⟨id, slot_setSlot_self none⟩ h

/-- What the sending of a response on a stream may touch. -/
structure Sends (id : ℕ) (s t : Session) : Prop where
  conn : t.conn = { s.conn with log := t.conn.log, encodingTable := t.conn.encodingTable }
  log : ∃ frames : List Frame, t.conn.log = s.conn.log ++ frames.map .sent ∧
    (Bodyless (s.slot id) → ∀ frame ∈ frames, frame.type = .data → frame.payload = [])
  slot : Answers (s.slot id) (t.slot id)
  others : ∀ other ≠ id, t.slot other = s.slot other
  safeHeader : t.safeHeader = s.safeHeader
  pending : t.pending = s.pending
  status : t.status = s.status
  tallied : id ≠ 0 → 0 < s.conn.localSettings.maxFrameSize → s.Tallied → t.Tallied

instance : Std.Refl (Sends id) :=
  ⟨fun s => ⟨rfl, ⟨[], by simp, by simp⟩, .inl rfl, fun _ _ => rfl, rfl, rfl, rfl, fun _ _ h => h⟩⟩

instance : IsTrans Session (Sends id) where
  trans s t u hst htu := by
    obtain ⟨frames, hlog, hframes⟩ := hst.log
    obtain ⟨frames', hlog', hframes'⟩ := htu.log
    refine ⟨?_, ⟨frames ++ frames', ?_, fun hbody frame hframe => ?_⟩, hst.slot.trans htu.slot,
      fun other hother => (htu.others other hother).trans (hst.others other hother),
      htu.safeHeader.trans hst.safeHeader, htu.pending.trans hst.pending,
      htu.status.trans hst.status, fun hid hsize h => htu.tallied hid ?_ (hst.tallied hid hsize h)⟩
    · rw [htu.conn, hst.conn]
    · rw [hlog', hlog, map_append, append_assoc]
    · obtain hframe | hframe := mem_append.1 hframe
      · exact hframes hbody frame hframe
      · exact hframes' (hbody.answers hst.slot) frame hframe
    · rw [hst.conn]
      exact hsize

/-- A stream that is there after a response was there before, apart from its response. -/
theorem Sends.exists_stream {other : ℕ} (hst : Sends id s t)
    (hslot : t.slot other = some (some stream)) : ∃ before response,
      s.slot other = some (some before) ∧ stream = { before with response } := by
  by_cases hother : other = id
  · subst hother
    obtain hsame | ⟨-, hnone⟩ | ⟨before, response, hbefore, hafter, -⟩ := hst.slot
    · exact ⟨stream, stream.response, hsame.symm.trans hslot, rfl⟩
    · cases hnone.symm.trans hslot
    · cases hafter.symm.trans hslot
      exact ⟨before, response, hbefore, rfl⟩
  · exact ⟨stream, stream.response, (hst.others other hother).symm.trans hslot, rfl⟩

theorem markStreamClosed_conn (id : ℕ) (s : Session) :
    (markStreamClosed id s).state.conn = s.conn := by
  unfold markStreamClosed
  split_ifs
  · rfl
  · split <;> rfl

theorem markStreamClosed_status (id : ℕ) (s : Session) :
    (markStreamClosed id s).state.status = s.status := by
  unfold markStreamClosed
  split_ifs
  · rfl
  · split <;> rfl

/-- The frames of a header block carry no `DATA`. -/
theorem type_ne_data_of_mem_headerFrames {streamId : ℕ}
    {chunks : List (List UInt8 × HpackFlushReason)}
    (h : frame ∈ headerFrames streamId chunks) : frame.type ≠ .data := by
  rw [headerFrames, mem_map] at h
  obtain ⟨⟨⟨data, reason⟩, idx⟩, -, rfl⟩ := h
  simp only
  split <;> exact nofun

/-- The frames are out before the stream is closed. -/
theorem sendFrames_sends (table : HPackTable) {frames : List Frame}
    (hslot : s.slot id = some (some stream))
    (hclosing : 0 < s.conn.localSettings.maxFrameSize → Closing (frames.map .sent))
    (h : stream.response.body = [] → ∀ frame ∈ frames, frame.type = .data → frame.payload = []) :
    Sends id s (markStreamClosed id ((s.setEncodingTable table).sendFrames frames)).state := by
  have hframes : Bodyless (s.slot id) → ∀ frame ∈ frames, frame.type = .data → frame.payload = [] :=
    fun hbody => h (hbody stream hslot)
  unfold markStreamClosed
  split_ifs with hid
  · exact ⟨rfl, ⟨frames, rfl, hframes⟩, .inl rfl, fun _ _ => rfl, rfl, rfl, rfl,
      fun hne => absurd hid hne⟩
  · split
    · refine ⟨rfl, ⟨frames, rfl, hframes⟩, .inr (.inl ⟨?_, slot_setSlot_self none⟩),
        fun other hother => slot_setSlot_of_ne hother none, rfl, rfl, rfl, fun _ hsize _ => ?_⟩
      · exact hslot ▸ Option.some_ne_none _
      · exact tallied_of_closing (closing_append.2 (.inr (hclosing hsize))) id
    · rename_i hnone
      exact absurd (hnone.symm.trans hslot) nofun

theorem sendResponse_sends (host : Host) (id : ℕ) : Keeps (Sends id) (sendResponse host id) := by
  intro s
  unfold sendResponse
  split
  · exact refl_of (Sends id) s
  · exact refl_of (Sends id) s
  · rename_i stream hslot
    simp only
    split
    · exact refl_of (Sends id) s
    · exact ⟨rfl, ⟨[], by simp [setEncodingTable], by simp⟩, .inl rfl, fun _ _ => rfl,
        rfl, rfl, rfl, fun _ _ h => h⟩
    · refine sendFrames_sends _ hslot ?_ fun hbody frame hframe htype => ?_
      · intro hsize
        rw [map_append, closing_append]
        exact .inr (stream.response.closing_bodyFrames hsize)
      · obtain hframe | hframe := mem_append.1 hframe
        · exact absurd htype (type_ne_data_of_mem_headerFrames hframe)
        · rw [Response.bodyFrames, if_pos hbody, mem_singleton] at hframe
          rw [hframe]

/-- A change of the head of a response. -/
theorem onStream_response_sends (id : ℕ) (f : Response → Response)
    (hf : ∀ response, (f response).body = response.body) :
    Keeps (Sends id) (onStream id (Action.modify fun c => { c with
      stream := { c.stream with response := f c.stream.response } })) := by
  intro s
  unfold onStream
  split
  · exact refl_of (Sends id) s
  · exact refl_of (Sends id) s
  · rename_i stream hslot
    refine ⟨rfl, ⟨[], by simp, by simp⟩, .inr (.inr ⟨stream, f stream.response, hslot,
      slot_setSlot_self _, hf _⟩), fun other hother => slot_setSlot_of_ne hother _, rfl, rfl, rfl,
      fun _ _ h => h.setSlot ?_ _⟩
    exact hslot ▸ nofun

theorem failResponse_sends (host : Host) (id : ℕ) : Keeps (Sends id) (failResponse host id) :=
  (onStream_response_sends id (Response.setStatus "500") fun _ => rfl).andThen
    (sendResponse_sends host id)

theorem trySend_sends (host : Host) (id : ℕ) : Keeps (Sends id) (trySend host id) := by
  intro s
  rw [trySend, rescue]
  have hsent := sendResponse_sends host id s
  split
  · exact hsent
  · refine trans_of (Sends id) hsent ?_
    split
    · exact refl_of (Sends id) _
    · exact failResponse_sends host id _

theorem conclude_sends (host : Host) (id : ℕ) {reply : Reply} (h : reply ≠ .keeps) :
    Keeps (Sends id) (conclude host id reply) := by
  intro s
  cases reply with
  | keeps => exact absurd rfl h
  | sends => exact trySend_sends host id s
  | throws => exact failResponse_sends host id s
  | sendsAndThrows =>
    simp only [conclude]
    split
    · exact sendResponse_sends host id s
    · exact trySend_sends host id s

variable (host)

/-- A request is with its handler, and the response as the handler has left it. -/
def dispatching (id : ℕ) (stream : Stream) (s : Session) : Session :=
  let response := stream.response.setStatus "404"
  { s with conn := s.conn.emit (.dispatched stream.request response) }.setSlot id
    (some { stream with response := (host.dispatch stream.request response).response })

@[simp] theorem slot_dispatching_self (stream : Stream) :
    (s.dispatching host id stream).slot id = some (some { stream with response :=
      (host.dispatch stream.request (stream.response.setStatus "404")).response }) :=
  slot_setSlot_self _

theorem response_eq (h : s.slot id = some (some stream)) :
    response host id s = conclude host id
      (host.dispatch stream.request (stream.response.setStatus "404")).reply
      (s.dispatching host id stream) := by
  unfold response
  simp only [andThen, onConnection, zoom, setResponse, onStream, slot_withConn, h]
  rfl

/-- A request is dispatched once, and then its response may be sent. -/
theorem response_sends (h : s.slot id = some (some stream)) :
    ∃ pending, Sends id { s.dispatching host id stream with pending }
      (response host id s).state := by
  rw [response_eq host h]
  by_cases hreply : (host.dispatch stream.request (stream.response.setStatus "404")).reply = .keeps
  · rw [hreply]
    exact ⟨id :: s.pending, refl_of (Sends id) _⟩
  · exact ⟨s.pending, conclude_sends host id hreply _⟩

/-- The answer to a request is noted, and goes through the encoder. -/
theorem respondIfDone_conn (id : ℕ) (s : Session) : ∃ log encodingTable,
    (respondIfDone host id s).state.conn = { s.conn with log, encodingTable } := by
  unfold respondIfDone
  split
  · rename_i stream hslot
    split_ifs
    · obtain ⟨pending, hsends⟩ := response_sends host hslot
      exact ⟨_, _, hsends.conn⟩
    · exact ⟨_, _, rfl⟩
  · exact ⟨_, _, rfl⟩

variable {host}

/-! ### Reads -/

/-- A stream is reset. -/
def reset (id : ℕ) (code : Http2ErrorCode) (s : Session) : Session :=
  { s with conn := s.conn.emit (.sent (.rstStream id code)) }.setSlot id none

/-- A connection that is still running after something was thrown has reset a stream. -/
theorem handleThrown_running
    (h : ∀ id code, e = .streamError id code → id ≠ 0 → s.slot id ≠ none → J (s.reset id code)) :
    (handleThrown e s).Ends (fun t => t.status = .running → J t) fun _ _ => True := by
  cases e with
  | connectionError code lastStreamId =>
    exact nofun
  | streamError id code =>
    simp only [handleThrown, andThen_ends, onConnection, zoom_ends, Connection.send, modify_ends]
    unfold markStreamClosed
    split_ifs with hid
    · trivial
    · split
      · rename_i hslot
        intro _
        refine h id code rfl hid ?_
        rw [slot_withConn] at hslot
        rw [hslot]
        exact Option.some_ne_none _
      · trivial
  | codec | outOfRange | fault => trivial

/-- **Invariants of running connections**, for a read. -/
theorem onRead_running (hbytes : bytes ≠ [])
    (h : (receiveFrame host (s.pushBack bytes)).Ends J fun e t =>
      ∀ id code, e = .streamError id code → id ≠ 0 → t.slot id ≠ none → J (t.reset id code)) :
    (s.onRead host bytes).status = .running → J (s.onRead host bytes) := by
  have hsize : (s.pushBack bytes).conn.reader.size ≠ 0 := by
    have hlength := length_pos_of_ne_nil hbytes
    change s.conn.reader.size + bytes.length ≠ 0
    omega
  have hends : (receive host (s.pushBack bytes)).Ends (fun t => t.status = .running → J t)
      fun _ _ => True := by
    rw [receive, rescue_ends]
    exact h.mono (fun t ht _ => ht) fun e t ht => handleThrown_running ht
  rw [onRead, if_neg hsize, conclusion]
  unfold Outcome.Ends at hends
  split at hends
  · rename_i hthrown
    rwa [hthrown]
  · rename_i e hthrown
    rw [hthrown]
    exact nofun

section

variable (hsent : ∀ log frame, D log → D (log ++ [.sent frame]))

include hsent

/-- What is thrown is answered with a frame, or not at all. -/
theorem handleThrown_log
    (e : Thrown) (h : D s.conn.log) : D (handleThrown e s).state.conn.log := by
  cases e with
  | connectionError code lastStreamId => exact hsent s.conn.log _ h
  | streamError id code =>
    change D (markStreamClosed id _).state.conn.log
    rw [markStreamClosed_conn]
    exact hsent s.conn.log _ h
  | codec | outOfRange | fault => exact h

/-- A property of the log, for a read that may end the connection. -/
theorem onRead_log (hlog : D s.conn.log)
    (h : (receiveFrame host (s.pushBack bytes)).Ends (fun t => D t.conn.log)
      fun _ t => D t.conn.log) :
    D (s.onRead host bytes).conn.log := by
  have hreceive : D (receive host (s.pushBack bytes)).state.conn.log := by
    rw [receive, rescue]
    obtain ⟨hdone, hthrown⟩ := Outcome.ends_iff.1 h
    split
    · rename_i hnone
      exact hdone hnone
    · rename_i e he
      exact handleThrown_log hsent e (hthrown e he)
  unfold onRead
  split_ifs
  · exact hlog
  · unfold conclusion
    split <;> exact hreceive

end

/-- What is done with a frame: no frame is taken, and the status and the other streams are left
alone. -/
structure Framed (id : ℕ) (s t : Session) : Prop where
  status : t.status = s.status
  others : ∀ other ≠ id, t.slot other = s.slot other
  log : ∃ events : List Event, t.conn.log = s.conn.log ++ events ∧
    ∀ header payload, .received header payload ∉ events

instance : Std.Refl (Framed id) := ⟨fun _ => ⟨rfl, fun _ _ => rfl, [], by simp⟩⟩

instance : IsTrans Session (Framed id) where
  trans _ _ _ hst htu := by
    obtain ⟨events, hlog, hnone⟩ := hst.log
    obtain ⟨events', hlog', hnone'⟩ := htu.log
    refine ⟨htu.status.trans hst.status, fun other h => (htu.others other h).trans
      (hst.others other h),
      events ++ events', by rw [hlog', hlog, append_assoc], fun header payload hmem => ?_⟩
    exact (mem_append.1 hmem).elim (hnone header payload) (hnone' header payload)

theorem getOrCreateStream_framed (id : ℕ) : Keeps (Framed id) (getOrCreateStream id) := by
  intro s
  unfold getOrCreateStream
  split
  · exact refl_of (Framed id) s
  · exact refl_of (Framed id) s
  · split_ifs
    · exact refl_of (Framed id) s
    · exact ⟨rfl, fun other h => slot_setSlot_of_ne h _, [], by simp⟩

theorem onStream_receive_framed (host : Host) (header : FrameHeader) (id : ℕ) :
    Keeps (Framed id) (onStream id (Stream.receive host header)) := by
  intro s
  unfold onStream
  split
  · exact refl_of (Framed id) s
  · exact refl_of (Framed id) s
  · rename_i stream hslot
    obtain ⟨blocks, hlog⟩ := (Stream.receive_touches host header ⟨s.conn, stream⟩).log
    exact ⟨rfl, fun other h => slot_setSlot_of_ne h _, _, hlog, by simp⟩

theorem respondIfDone_framed (host : Host) (id : ℕ) :
    Keeps (Framed id) (respondIfDone host id) := by
  intro s
  unfold respondIfDone
  split
  · rename_i stream hslot
    split_ifs
    · obtain ⟨pending, hsends⟩ := response_sends host hslot
      obtain ⟨frames, hlog, -⟩ := hsends.log
      have hdispatched : Framed id s { s.dispatching host id stream with pending } :=
        ⟨rfl, fun other h => slot_setSlot_of_ne h _, [_], rfl, by simp⟩
      exact trans_of (Framed id) hdispatched ⟨hsends.status, hsends.others, _, hlog, by simp⟩
    · exact refl_of (Framed id) s
  · exact refl_of (Framed id) s

theorem handleFrame_framed (host : Host) (header : FrameHeader) :
    Keeps (Framed header.streamId) (handleFrame host header) := by
  unfold handleFrame
  split_ifs
  · intro s
    obtain ⟨frames, hlog, -⟩ := (Connection.receive_keeps host header s.conn).log
    exact ⟨rfl, fun _ _ => rfl, _, hlog, by simp⟩
  · exact (getOrCreateStream_framed _).andThen <|
      (onStream_receive_framed host header _).andThen (respondIfDone_framed host _)

/-- A call closes the connection or leaves it running. -/
theorem receive_status (host : Host) (s : Session) :
    (receive host s).Ends (fun t => t.status = s.status ∨ t.status = .closed) fun _ _ => True := by
  have hframe : (receiveFrame host s).Ends (fun t => t.status = s.status)
      fun _ t => t.status = s.status := by
    refine receiveFrame_ends (P := fun _ => True) (fun _ => ⟨⟩) (fun _ _ => ?_)
      (fun _ ht _ _ => ht.status) fun header t _ ht _ _ => .of_state ?_
    · exact receiveHeader_spec.mono (fun _ _ => ⟨⟩) fun _ _ ht => ht.status
    · exact (handleFrame_framed host header _).status.trans ht.status
  rw [receive, rescue_ends]
  refine hframe.mono (fun t ht => .inl ht) fun e t ht => ?_
  cases e with
  | connectionError code lastStreamId => exact .inr rfl
  | streamError id code =>
    refine Outcome.ends_iff.2 ⟨fun _ => .inl ?_, fun _ _ => ⟨⟩⟩
    exact (markStreamClosed_status id _).trans ht
  | codec | outOfRange | fault => trivial

theorem headed_pushBack (bytes : List UInt8) : Headed s (s.pushBack bytes) :=
  ⟨⟨rfl, rfl, rfl, rfl, rfl, rfl, rfl, fun _ => rfl, rfl, rfl, id⟩, fun _ => ⟨rfl, rfl, rfl⟩⟩

/-- A late response is sent on a stream that is there, or there is no slot. -/
theorem lateReply_cases {response : Response} (h : s.lateReply host id response = some t) :
    ∃ pending, pending = s.pending.erase id ∧ (t = { s with pending } ∨
      ∃ stream, s.slot id = some (some stream) ∧ t = (sendResponse host id
        ({ s with pending }.setSlot id (some { stream with response }))).state) := by
  unfold lateReply at h
  split_ifs at h
  refine ⟨s.pending.erase id, rfl, ?_⟩
  simp only [andThen, setResponse, onStream] at h
  cases hslot : s.slot id with
  | none =>
    rw [show ({ s with pending := s.pending.erase id } : Session).slot id = none from hslot] at h
    exact .inl (Option.some.inj h).symm
  | some stream =>
    cases stream with
    | none =>
      rw [show ({ s with pending := s.pending.erase id } : Session).slot id = some none
        from hslot] at h
      cases h
    | some stream =>
      refine .inr ⟨stream, rfl, ?_⟩
      rw [show ({ s with pending := s.pending.erase id } : Session).slot id = some (some stream)
        from hslot] at h
      split at h
      · cases h
      · exact (Option.some.inj h).symm

theorem lateReply_sends {response : Response} (h : s.lateReply host id response = some t) :
    ∃ pending, pending = s.pending.erase id ∧ (t = { s with pending } ∨
      ∃ stream, s.slot id = some (some stream) ∧
        Sends id ({ s with pending }.setSlot id (some { stream with response })) t) := by
  obtain ⟨pending, herase, rfl | ⟨stream, hslot, rfl⟩⟩ := lateReply_cases h
  · exact ⟨pending, herase, .inl rfl⟩
  · exact ⟨pending, herase, .inr ⟨stream, hslot, sendResponse_sends host id _⟩⟩

end Session

section Runs

open Congelado.Http2.Session

variable {host : Host} {ok : Session → Label → Prop} {J : Session → Prop} {t : Session}

/-- **Invariants of connections.** What the first part of a call, a reset and a late response keep,
and what each frame keeps that meets the condition, holds as long as the connection is running. What
a log has when each frame keeps it, however the frame ends, it has in every state. -/
theorem logged_of_run (h : (server host).Run ok {} t) (hinit : J {})
    (hlog : ∀ s, J s → D s.conn.log) (hsent : ∀ log frame, D log → D (log ++ [.sent frame]))
    (hheaded : ∀ s t, J s → Headed s t → J t)
    (hreset : ∀ s id code, J s → id ≠ 0 → J (s.reset id code))
    (hframe : ∀ s bytes header t, ok s (.read bytes) → Headed (s.pushBack bytes) t →
      (s.pushBack bytes).upcoming = some (header, t.conn.reader.rest) →
      header.length ≤ t.conn.reader.size → J t →
      (handleFrame host header (t.takeHeader header)).Ends J fun e u => D u.conn.log ∧
        ∀ id code, e = .streamError id code → id ≠ 0 → u.slot id ≠ none → J (u.reset id code))
    (hpending : ∀ s pending, J s → J { s with pending })
    (hreply : ∀ s pending t id response stream, J s → ok s (.reply id response) →
      s.slot id = some (some stream) →
      Sends id ({ s with pending }.setSlot id (some { stream with response })) t → J t) :
    (t.status = .running → J t) ∧ D t.conn.log := by
  refine h.invariant (I := fun t => (t.status = .running → J t) ∧ D t.conn.log)
    ⟨fun _ => hinit, hlog _ hinit⟩ ?_
  intro s l u hs hok hnext
  cases l with
  | read bytes =>
    simp only [server, Option.ite_none_right_eq_some, Option.some.injEq] at hnext
    obtain ⟨⟨hrunning, hbytes⟩, rfl⟩ := hnext
    have hpushed : J (s.pushBack bytes) := hheaded s _ (hs.1 hrunning) (headed_pushBack bytes)
    -- what is thrown is handled behind the call, so `J` is asked for after the reset
    have hends : (receiveFrame host (s.pushBack bytes)).Ends J fun e u => D u.conn.log ∧
        ∀ id code, e = .streamError id code → id ≠ 0 → u.slot id ≠ none → J (u.reset id code) := by
      refine receiveFrame_ends (P := fun _ => True) (fun _ => ⟨⟩) (fun _ _ => ?_) ?_ ?_
      · refine receiveHeader_spec.mono (fun _ _ => ⟨⟩) fun e t ht => ?_
        have hJ := hheaded _ t hpushed ht
        exact ⟨hlog t hJ, fun id code _ hid _ => hreset t id code hJ hid⟩
      · exact fun t ht _ _ => hheaded _ t hpushed ht
      · intro header t _ ht hupcoming hsize
        exact hframe s bytes header t hok ht hupcoming hsize (hheaded _ t hpushed ht)
    exact ⟨onRead_running hbytes (hends.mono (fun _ h => h) fun _ _ h => h.2),
      onRead_log hsent hs.2 (hends.mono hlog fun _ _ h => h.1)⟩
  | reply id response =>
    obtain ⟨pending, -, rfl | ⟨stream, hslot, hsends⟩⟩ := lateReply_sends hnext
    · exact ⟨fun hrunning => hpending s pending (hs.1 hrunning), hs.2⟩
    · refine ⟨fun hrunning => ?_, ?_⟩
      · have hrunning' : s.status = .running := hsends.status.symm.trans hrunning
        exact hreply s pending u id response stream (hs.1 hrunning') hok hslot hsends
      · obtain ⟨frames, hframes, -⟩ := hsends.log
        rw [hframes]
        exact closed_map hsent frames hs.2

end Runs

end Congelado.Http2
