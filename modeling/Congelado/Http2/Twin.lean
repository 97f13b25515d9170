import Congelado.Http2.Step

/-!
# Sessions with other readers

Two sessions are twins if they differ by their readers only. Most of what a session does does not
look at the reader, so that it goes the same way for twins; what looks at the reader are the
adaptors that read numbers and settings, and `grow_view`. In particular the part before the payload
only looks at the header, and does not see whether more bytes are there (`receiveHeader_pushBack`).
-/

namespace Congelado.Http2

open Codec Attempt Action

variable {f : Action Thrown Connection}

/-! ### The connection -/

namespace Connection

/-- They differ by their readers only. -/
def Twin (c d : Connection) : Prop := ∃ reader, d = { c with reader }

theorem updateSendWindow_twin (increment : ℕ) : Respects Twin (updateSendWindow increment) := by
  refine Respects.reading ?_ fun sendWindow => Respects.modify ?_
  · rintro c _ ⟨reader, rfl⟩
    rfl
  · rintro c _ ⟨reader, rfl⟩
    exact ⟨reader, rfl⟩

theorem consumeWindow_twin (size : ℕ) : Respects Twin (consumeWindow size) := by
  refine Respects.andThen (Respects.modify ?_) ?_
  · rintro c _ ⟨reader, rfl⟩
    exact ⟨reader, rfl⟩
  · rintro c _ ⟨reader, rfl⟩
    simp only
    split_ifs <;> exact ⟨rfl, reader, rfl⟩

theorem consume_twin (bytes : ℕ) : Respects Twin (consume bytes) := by
  refine Respects.modify ?_
  rintro c _ ⟨reader, rfl⟩
  exact ⟨reader.consume bytes, rfl⟩

theorem send_twin (frame : Frame) : Respects Twin (send frame) := by
  refine Respects.modify ?_
  rintro c _ ⟨reader, rfl⟩
  exact ⟨reader, rfl⟩

/-- The view grows by the length of the frame, whatever is in the reader. -/
theorem skipUnknown_twin (host : Host) (header : FrameHeader) :
    Respects Twin (skipUnknown host header) := by
  refine Respects.modify ?_
  rintro c _ ⟨reader, rfl⟩
  split_ifs
  · exact ⟨reader.growView header.length, rfl⟩
  · exact ⟨reader, rfl⟩

end Connection

/-! ### Streams -/

namespace Stream

/-- A stream with a connection and with a twin of it. -/
def Twin (c d : Context) : Prop := ∃ reader, d = { c with conn := { c.conn with reader } }

/-- What the connection does for twins, it does for the stream. -/
theorem onConnection_twin (h : Respects Connection.Twin f) :
    Respects Twin (onConnection f) := by
  refine Respects.zoom h ?_ ?_
  · rintro c _ ⟨reader, rfl⟩
    exact ⟨reader, rfl⟩
  · rintro c _ a _ ⟨reader, rfl⟩ ⟨reader', rfl⟩
    exact ⟨reader', rfl⟩

/-- A change of the stream. -/
theorem modify_twin (f : Stream → Stream) :
    Respects Twin
      (Action.modify fun c => { c with stream := f c.stream } : Action Thrown Context) := by
  refine Respects.modify ?_
  rintro c _ ⟨reader, rfl⟩
  exact ⟨reader, rfl⟩

theorem updateSendWindow_twin (increment : ℕ) : Respects Twin (updateSendWindow increment) := by
  refine Respects.reading ?_ fun sendWindow => ?_
  · rintro c _ ⟨reader, rfl⟩
    rfl
  · exact (modify_twin fun stream => { stream with sendWindow }).andThen
      (onConnection_twin (Connection.updateSendWindow_twin increment))

theorem consumeWindow_twin (size : ℕ) : Respects Twin (consumeWindow size) := by
  refine (onConnection_twin (Connection.consumeWindow_twin size)).andThen
    ((modify_twin fun stream => { stream with recvWindow := stream.recvWindow - size }).andThen ?_)
  rintro c _ ⟨reader, rfl⟩
  simp only
  split_ifs <;> exact ⟨rfl, reader, rfl⟩

/-- The decoder is fed with the block that was collected, not from the reader. -/
theorem handleHeader_twin (host : Host) (block : List UInt8) :
    Respects Twin (handleHeader host block) := by
  rintro c _ ⟨reader, rfl⟩
  unfold handleHeader
  split_ifs
  · exact ⟨rfl, reader, rfl⟩
  · simp only [feedBlock]
    split
    · exact ⟨rfl, reader, rfl⟩
    · split <;> exact ⟨rfl, reader, rfl⟩

theorem settle_twin : Respects Twin settle :=
  modify_twin fun stream => { stream with
    remoteDone := stream.remoteDone || stream.state = .halfClosedRemote
    expectingContinuation := stream.expectingContinuation && stream.state ≠ .closed }

/-- What is left when the frame was handled. -/
theorem finish_twin (bytes : ℕ) :
    Respects Twin (andThen (onConnection (Connection.consume bytes)) settle) :=
  (onConnection_twin (Connection.consume_twin bytes)).andThen settle_twin

end Stream

/-! ### The session -/

namespace Session

variable {s t : Session}

def Twin (s t : Session) : Prop := ∃ reader, t = { s with conn := { s.conn with reader } }

theorem Twin.symm (h : Twin s t) : Twin t s := by
  obtain ⟨reader, rfl⟩ := h
  exact ⟨s.conn.reader, rfl⟩

theorem Twin.trans {s t u : Session} (hst : Twin s t) (htu : Twin t u) : Twin s u := by
  obtain ⟨reader, rfl⟩ := hst
  obtain ⟨reader', rfl⟩ := htu
  exact ⟨reader', rfl⟩

theorem Twin.status (h : Twin s t) : t.status = s.status := by
  obtain ⟨reader, rfl⟩ := h
  rfl

theorem onConnection_twin (h : Respects Connection.Twin f) :
    Respects Twin (onConnection f) := by
  refine Respects.zoom h ?_ ?_
  · rintro s _ ⟨reader, rfl⟩
    exact ⟨reader, rfl⟩
  · rintro s _ a _ ⟨reader, rfl⟩ ⟨reader', rfl⟩
    exact ⟨reader', rfl⟩

theorem onStream_related (hst : Twin s t) (id : ℕ) {f : Action Thrown Context}
    (h : ∀ stream, s.slot id = some (some stream) →
      (f ⟨s.conn, stream⟩).Related Stream.Twin (f ⟨t.conn, stream⟩)) :
    (onStream id f s).Related Twin (onStream id f t) := by
  obtain ⟨reader, rfl⟩ := hst
  unfold onStream
  rw [slot_withConn]
  match hslot : s.slot id with
  | none | some none => exact ⟨rfl, reader, rfl⟩
  | some (some stream) =>
    obtain ⟨hthrown, reader', hstate⟩ := h stream hslot
    refine ⟨hthrown, reader', ?_⟩
    simp only [hstate]
    rfl

variable (id : ℕ)

theorem onStream_twin {f : Action Thrown Context} (h : Respects Stream.Twin f) :
    Respects Twin (onStream id f) := by
  intro s t hst
  refine onStream_related hst id fun stream _ => ?_
  obtain ⟨reader, rfl⟩ := hst
  exact h _ _ ⟨reader, rfl⟩

theorem checkStreamId_twin (header : FrameHeader) : Respects Twin (checkStreamId header) := by
  rintro s _ ⟨reader, rfl⟩
  unfold checkStreamId
  split_ifs <;> exact ⟨rfl, reader, rfl⟩

theorem raiseWindows_twin : Respects Twin raiseWindows := by
  rintro s _ ⟨reader, rfl⟩
  unfold raiseWindows
  split_ifs
  · refine (Respects.each (fun entry => onStream_twin _ (Stream.updateSendWindow_twin _)) _).andThen
      (onConnection_twin (Respects.modify ?_)) s _ ⟨reader, rfl⟩
    rintro c _ ⟨reader, rfl⟩
    exact ⟨reader, rfl⟩
  · exact ⟨rfl, reader, rfl⟩

theorem settleSettings_twin : Respects Twin settleSettings := by
  rintro s _ ⟨reader, rfl⟩
  unfold settleSettings
  split_ifs
  · refine raiseWindows_twin.andThen (onConnection_twin (Respects.modify ?_)) s _ ⟨reader, rfl⟩
    rintro c _ ⟨reader, rfl⟩
    exact ⟨reader, rfl⟩
  · exact ⟨rfl, reader, rfl⟩

theorem getOrCreateStream_twin : Respects Twin (getOrCreateStream id) := by
  rintro s _ ⟨reader, rfl⟩
  unfold getOrCreateStream
  rw [slot_withConn]
  match s.slot id with
  | none =>
    simp only
    split_ifs <;> exact ⟨rfl, reader, rfl⟩
  | some none | some (some _) => exact ⟨rfl, reader, rfl⟩

theorem markStreamClosed_twin : Respects Twin (markStreamClosed id) := by
  rintro s _ ⟨reader, rfl⟩
  unfold markStreamClosed
  split_ifs
  · exact ⟨rfl, reader, rfl⟩
  · rw [slot_withConn]
    match s.slot id with
    | none | some _ => exact ⟨rfl, reader, rfl⟩

theorem sendResponse_twin (host : Host) (id : ℕ) : Respects Twin (sendResponse host id) := by
  rintro s _ ⟨reader, rfl⟩
  unfold sendResponse
  rw [slot_withConn]
  match s.slot id with
  | none | some none => exact ⟨rfl, reader, rfl⟩
  | some (some stream) =>
    simp only
    split
    · exact ⟨rfl, reader, rfl⟩
    · exact ⟨rfl, reader, rfl⟩
    · exact markStreamClosed_twin id _ _ ⟨reader, rfl⟩

theorem setResponse_twin (id : ℕ) (response : Response) : Respects Twin (setResponse id response) :=
  onStream_twin id (Stream.modify_twin fun stream => { stream with response })

section

variable (host : Host)

include host

variable (id : ℕ)

theorem failResponse_twin : Respects Twin (failResponse host id) :=
  (onStream_twin id (Stream.modify_twin fun stream =>
    { stream with response := stream.response.setStatus "500" })).andThen
      (sendResponse_twin host id)

theorem trySend_twin : Respects Twin (trySend host id) := by
  refine (sendResponse_twin host id).rescue fun e => ?_
  cases e with
  | fault fault => exact Respects.throw _
  | _ => exact failResponse_twin host id

theorem conclude_twin (reply : Reply) : Respects Twin (conclude host id reply) := by
  cases reply with
  | keeps =>
    refine Respects.modify ?_
    rintro s _ ⟨reader, rfl⟩
    exact ⟨reader, rfl⟩
  | sends => exact trySend_twin host id
  | throws => exact failResponse_twin host id
  | sendsAndThrows =>
    intro s t hst
    obtain ⟨hthrown, hstate⟩ := sendResponse_twin host id s t hst
    simp only [conclude, ← hthrown]
    split
    · exact ⟨rfl, hstate⟩
    · exact trySend_twin host id s t hst

theorem response_twin : Respects Twin (response host id) := by
  rintro s _ ⟨reader, rfl⟩
  unfold response
  rw [slot_withConn]
  match s.slot id with
  | none | some none => exact ⟨rfl, reader, rfl⟩
  | some (some stream) =>
    refine ((onConnection_twin (Respects.modify ?_)).andThen ((setResponse_twin id _).andThen
      (conclude_twin host id _))) s _ ⟨reader, rfl⟩
    rintro c _ ⟨reader, rfl⟩
    exact ⟨reader, rfl⟩

theorem respondIfDone_twin : Respects Twin (respondIfDone host id) := by
  rintro s _ ⟨reader, rfl⟩
  unfold respondIfDone
  rw [slot_withConn]
  match s.slot id with
  | none | some none => exact ⟨rfl, reader, rfl⟩
  | some (some stream) =>
    simp only
    split_ifs
    · exact response_twin host id s _ ⟨reader, rfl⟩
    · exact ⟨rfl, reader, rfl⟩

end

theorem handleThrown_twin (e : Thrown) : Respects Twin (handleThrown e) := by
  cases e with
  | connectionError code lastStreamId =>
    rw [handleThrown, close]
    refine (onConnection_twin (Connection.send_twin _)).andThen (Respects.modify ?_)
    rintro s _ ⟨reader, rfl⟩
    exact ⟨reader, rfl⟩
  | streamError id code =>
    exact (onConnection_twin (Connection.send_twin _)).andThen (markStreamClosed_twin id)
  | codec | outOfRange | fault => exact Respects.throw _

/-! ### More bytes -/

end Session

namespace Reader

variable {reader : Reader} {count : ℕ}

section

variable (hrest : count ≤ reader.rest.length)

include hrest

theorem read_pushBack (hsize : count ≤ reader.size)
    (bytes : List UInt8) : (reader.pushBack bytes).read count = reader.read count := by
  have hmin : min count (reader.pushBack bytes).size = count :=
    min_eq_left (hsize.trans (Nat.le_add_right _ _))
  have hlength : ¬(reader.pushBack bytes).rest.length < count := by
    rw [pushBack, List.length_append]
    omega
  rw [read, read, take, take, hmin, if_neg hlength, min_eq_left hsize, if_neg (not_lt.2 hrest),
    pushBack, List.take_append_of_le_length hrest]

theorem consume_pushBack (hsize : count ≤ reader.size) (bytes : List UInt8) :
    (reader.pushBack bytes).consume count = (reader.consume count).pushBack bytes := by
  rw [consume, pushBack, pushBack, consume, List.drop_append_of_le_length hrest,
    Nat.sub_add_comm hsize]

theorem viewed_pushBack (bytes : List UInt8) :
    (reader.pushBack bytes).viewed count = reader.viewed count :=
  List.take_append_of_le_length hrest

end

/-- What was read is there. -/
theorem le_length_of_read {bytes : List UInt8} (hsize : count ≤ reader.size)
    (h : reader.read count = .ok bytes) : count ≤ reader.rest.length := by
  unfold read at h
  split at h
  · cases h
  · rename_i htake
    unfold take at htake
    split_ifs at htake with hlength
    rw [min_eq_left hsize] at hlength
    exact not_lt.1 hlength

end Reader

variable (bytes : List UInt8)

/-- More bytes in the reader. -/
def Connection.pushBack (c : Connection) : Connection :=
  { c with reader := c.reader.pushBack bytes }

def Context.pushBack (c : Context) : Context :=
  { c with conn := c.conn.pushBack bytes }

namespace Session

/-- What does not look at the reader and leaves it alone does not see more bytes. -/
theorem pushBack_of_twin {f : Action Thrown Session} (htwin : Respects Twin f)
    (hreader : Keeps SameReader f) (bytes : List UInt8) (s : Session) :
    f (s.pushBack bytes) = (f s).map (pushBack bytes) := by
  obtain ⟨hthrown, reader, hstate⟩ := htwin s (s.pushBack bytes) ⟨_, rfl⟩
  have hsame : reader = (f s).state.conn.reader.pushBack bytes := by
    have hbefore := hreader s
    have hafter := hreader (s.pushBack bytes)
    rw [SameReader, hstate] at hafter
    rw [SameReader] at hbefore
    rwa [hbefore]
  rw [hsame] at hstate
  exact Outcome.ext hstate hthrown.symm

/-- A header that was read is there. -/
theorem le_length_of_nextHeader {s : Session} {header : FrameHeader}
    (hsize : headerSize ≤ s.conn.reader.size) (h : s.nextHeader = .ok header) :
    headerSize ≤ s.conn.reader.rest.length := by
  rw [nextHeader] at h
  cases hread : s.conn.reader.read headerSize with
  | error e =>
    rw [hread] at h
    cases h
  | ok bytes => exact Reader.le_length_of_read hsize hread

section Header

variable {s : Session} (hrest : headerSize ≤ s.conn.reader.rest.length)
  (hsize : headerSize ≤ s.conn.reader.size) (bytes : List UInt8)

include hrest hsize

theorem nextHeader_pushBack : (s.pushBack bytes).nextHeader = s.nextHeader := by
  have hread : (s.pushBack bytes).conn.reader.read headerSize = s.conn.reader.read headerSize :=
    Reader.read_pushBack hrest hsize bytes
  rw [nextHeader, hread]
  rfl

theorem consumed_pushBack :
    (s.pushBack bytes).consumed headerSize = (s.consumed headerSize).pushBack bytes := by
  have hconsume : (s.pushBack bytes).conn.reader.consume headerSize =
      (s.conn.reader.consume headerSize).pushBack bytes :=
    Reader.consume_pushBack hrest hsize bytes
  rw [consumed, hconsume]
  rfl

/-- The part before the payload does not see more bytes. -/
theorem receiveHeader_pushBack :
    receiveHeader (s.pushBack bytes) = (receiveHeader s).map (pushBack bytes) := by
  rw [receiveHeader, reading, reading, nextHeader_pushBack hrest hsize]
  cases s.nextHeader with
  | error e => rfl
  | ok header =>
    have hmore : ∀ t, andThen (checkStreamId header) (andThen settleSettings
        (Action.modify fun s => { s with safeHeader := some header })) (t.pushBack bytes) =
        (andThen (checkStreamId header) (andThen settleSettings
          (Action.modify fun s => { s with safeHeader := some header })) t).map
            (pushBack bytes) := by
      refine pushBack_of_twin ((checkStreamId_twin header).andThen
        (settleSettings_twin.andThen (Respects.modify ?_))) (Keeps.andThen (fun t => ?_)
        (Keeps.andThen (fun t => (settleSettings_keeps t).reader) ?_)) bytes
      · rintro t _ ⟨reader, rfl⟩
        exact ⟨reader, rfl⟩
      · unfold checkStreamId
        split_ifs <;> rfl
      · exact fun _ => rfl
    have hconsumed := hmore (s.consumed headerSize)
    rwa [← consumed_pushBack hrest hsize] at hconsumed

end Header

end Session

end Congelado.Http2
