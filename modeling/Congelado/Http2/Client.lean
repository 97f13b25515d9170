import Congelado.Http2.Endpoint
import Congelado.Http2.Formed

/-!
# Responses to requests

A request that was sent on a new stream leaves the stream half closed by the peer, since the state
machine is told that `END_STREAM` was received. From then on the stream is `Shut`, whatever else
happens on the connection, until a frame comes on it. If that is the `HEADERS` frame of a response
then the stream is reset or the connection ends, so that no response is ever accepted
(`not_accepted`).
-/

namespace Congelado.Http2

open Codec Attempt Action List Transition

variable {request : Request}

/-! ### Responses -/

/-- The headers of the frames that were received on a stream. -/
def framesOn (id : ℕ) (events : List Event) : List FrameHeader :=
  events.filterMap fun
    | .received header _ => if header.streamId = id then some header else none
    | _ => none

/-- The last of the frames has the flag, and no other. -/
def FlaggedLast (flag : UInt8) (frames : List FrameHeader) : Prop :=
  frames.map (·.has flag) = List.replicate (frames.length - 1) false ++ [true]

instance (flag : UInt8) (frames : List FrameHeader) : Decidable (FlaggedLast flag frames) :=
  inferInstanceAs (Decidable (_ = _))

/-- A legal response: `HEADERS` and its `CONTINUATION`s up to `END_HEADERS`, and then `DATA`. The
stream is ended by the last `DATA` frame, or by the `HEADERS` frame if there is no `DATA`. -/
structure LegalResponse (first : FrameHeader) (more body : List FrameHeader) : Prop where
  headers : first.type = .headers
  continuations : ∀ frame ∈ more, frame.type = .continuation
  endHeaders : FlaggedLast Flags.endHeaders (first :: more)
  data : ∀ frame ∈ body, frame.type = .data
  endStream : if body = [] then first.has Flags.endStream = true
    else first.has Flags.endStream = false ∧ FlaggedLast Flags.endStream body

/-- What has happened from one state to a later one. -/
def since (s t : Session) : List Event := t.conn.log.drop s.conn.log.length

/-- The response on a stream was delivered once, the stream was not reset, and the connection was
neither closed nor failed. -/
structure Accepted (id : ℕ) (s t : Session) : Prop where
  running : t.status = .running
  not_reset : ∀ code, .sent (.rstStream id code) ∉ since s t
  delivered : ((since s t).countP fun
    | .dispatched request _ => request.streamId = id
    | _ => false) = 1

/-! ### Streams that are shut -/

theorem framesOn_append (id : ℕ) (events events' : List Event) :
    framesOn id (events ++ events') = framesOn id events ++ framesOn id events' :=
  filterMap_append

namespace Session

variable {s t : Session} {host : Host} {header : FrameHeader} {id : ℕ} {other : ℕ}

/-- A stream that is half closed by the peer, or gone. -/
def Shut (id : ℕ) (s : Session) : Prop :=
  s.slot id = some none ∨
    ∃ stream, s.slot id = some (some stream) ∧ stream.id = id ∧ stream.state = .halfClosedRemote

theorem Shut.of_slot (h : s.Shut id) (hslot : t.slot id = s.slot id) : t.Shut id := by
  rwa [Shut, hslot]

theorem Shut.stream {stream : Stream} (h : s.Shut id) (hslot : s.slot id = some (some stream)) :
    stream.id = id ∧ stream.state = .halfClosedRemote := by
  obtain hgone | ⟨_, hlive, hstream⟩ := h
  · cases hgone.symm.trans hslot
  · cases hlive.symm.trans hslot
    exact hstream

/-- What changes in the part before the payload is the window of the stream. -/
theorem Shut.headed (h : s.Shut id) (hst : Headed s t) : t.Shut id := by
  have hshape := hst.shape id
  cases hslot : t.slot id with
  | none =>
    rw [shape, hslot, Option.map_none, eq_comm, shape, Option.map_eq_none_iff] at hshape
    obtain hgone | ⟨stream, hlive, -⟩ := h
    · rw [hgone] at hshape
      cases hshape
    · rw [hlive] at hshape
      cases hshape
  | some slot =>
    cases slot with
    | none => exact .inl hslot
    | some stream =>
      obtain ⟨window, hbefore⟩ := exists_of_shape hshape hslot
      obtain ⟨hid, hstate⟩ := h.stream hbefore
      exact .inr ⟨stream, hslot, hid, hstate⟩

/-! ### Frames of other streams -/

/-- What is noted is not a frame that was received on the stream. -/
def Unreceived (id : ℕ) (s t : Session) : Prop :=
  ∃ events : List Event, t.conn.log = s.conn.log ++ events ∧ framesOn id events = []

instance : Std.Refl (Unreceived id) := ⟨fun _ => ⟨[], (append_nil _).symm, rfl⟩⟩

instance : IsTrans Session (Unreceived id) where
  trans _ _ _ hst htu := by
    obtain ⟨events, hlog, hframes⟩ := hst
    obtain ⟨events', hlog', hframes'⟩ := htu
    refine ⟨events ++ events', ?_, ?_⟩
    · rw [hlog', hlog, append_assoc]
    · rw [framesOn_append, hframes, hframes', append_nil]

theorem Unreceived.of_log (h : t.conn.log = s.conn.log) : Unreceived id s t :=
  ⟨[], h.trans (append_nil _).symm, rfl⟩

/-- Frames are sent. -/
theorem Unreceived.of_sent {frames : List Frame} (h : t.conn.log = s.conn.log ++ frames.map .sent) :
    Unreceived id s t := by
  refine ⟨_, h, ?_⟩
  rw [framesOn, filterMap_map]
  exact filterMap_eq_nil_iff.2 fun _ _ => rfl

theorem Unreceived.of_framed (h : Framed other s t) : Unreceived id s t := by
  obtain ⟨events, hlog, hnone⟩ := h.log
  refine ⟨events, hlog, filterMap_eq_nil_iff.2 fun event hevent => ?_⟩
  cases event with
  | received header payload => exact absurd hevent (hnone header payload)
  | fed | dispatched | sent => rfl

/-! ### Frames of a stream that is shut -/

/-- The stream is gone or does not admit a header block any more. -/
theorem handleFrame_headers (host : Host) (hid : header.streamId ≠ 0)
    (htype : header.type = .headers)
    (hshut : s.Shut header.streamId) :
    (handleFrame host header s).Ends (fun _ => False) fun e _ =>
      (∃ code lastStreamId, e = .connectionError code lastStreamId) ∨
        ∃ code, e = .streamError header.streamId code := by
  rw [handleFrame, if_neg hid]
  simp only [andThen_ends]
  obtain hgone | ⟨stream, hslot, hstream, hstate⟩ := hshut
  · rw [getOrCreateStream, hgone]
    exact .inl ⟨_, _, rfl⟩
  · rw [getOrCreateStream, hslot, done_ends, onStream_ends hslot]
    have hadvance :
      StreamStateMachine.advance stream.id header.type header.flags false stream.state =
        .error (.streamError header.streamId .streamClosed) := by
      rw [StreamStateMachine.advance_remote, htype, hstate, hstream]
      rfl
    refine Stream.receive_ends (.inl ⟨_, _, rfl⟩) (fun e he => ?_) fun state _ hok => ?_
    · rw [hadvance] at he
      exact .inr ⟨_, (Except.error.inj he).symm⟩
    · rw [hadvance] at hok
      cases hok

/-! ### Steps -/

/-- As long as the connection is running and the stream is not reset, a stream that was shut is shut
until a frame is received on it, and the first such frame is not `HEADERS`. -/
structure Refuses (id : ℕ) (s t : Session) : Prop where
  running : t.status = .running → s.status = .running
  log : ∃ events : List Event, t.conn.log = s.conn.log ++ events ∧
    (s.Shut id → t.status = .running → (∀ code, .sent (.rstStream id code) ∉ events) →
      t.Shut id ∧ framesOn id events = [] ∨
        ∃ header rest, framesOn id events = header :: rest ∧ header.type ≠ .headers)

instance : Std.Refl (Refuses id) :=
  ⟨fun _ => ⟨fun h => h, [], (append_nil _).symm, fun h _ _ => .inl ⟨h, rfl⟩⟩⟩

instance : IsTrans Session (Refuses id) where
  trans _ _ _ hst htu := by
    obtain ⟨events, hlog, hfirst⟩ := hst.log
    obtain ⟨events', hlog', hsecond⟩ := htu.log
    refine ⟨hst.running ∘ htu.running, events ++ events', ?_, fun hshut hrunning hreset => ?_⟩
    · rw [hlog', hlog, append_assoc]
    · have hreset₁ : ∀ code, .sent (.rstStream id code) ∉ events :=
        fun code hmem => hreset code (mem_append_left _ hmem)
      have hreset₂ : ∀ code, .sent (.rstStream id code) ∉ events' :=
        fun code hmem => hreset code (mem_append_right _ hmem)
      rw [framesOn_append]
      obtain ⟨hstill, hnone⟩ | ⟨header, rest, hframes, htype⟩ :=
        hfirst hshut (htu.running hrunning) hreset₁
      · rw [hnone, nil_append]
        exact hsecond hstill hrunning hreset₂
      · rw [hframes]
        exact .inr ⟨header, rest ++ framesOn id events', rfl, htype⟩

/-- What is done without a frame that was received. -/
structure Unmoved (id : ℕ) (s t : Session) : Prop where
  status : t.status = s.status
  log : Unreceived id s t
  shut : s.Shut id → t.Shut id

instance : Std.Refl (Unmoved id) := ⟨fun s => ⟨rfl, refl_of (Unreceived id) s, fun h => h⟩⟩

instance : IsTrans Session (Unmoved id) where
  trans _ _ _ hst htu := ⟨htu.status.trans hst.status, trans_of (Unreceived id) hst.log htu.log,
    htu.shut ∘ hst.shut⟩

theorem Unmoved.refuses (h : Unmoved id s t) : Refuses id s t := by
  obtain ⟨events, hlog, hframes⟩ := h.log
  exact ⟨fun hrunning => h.status.symm.trans hrunning, events, hlog,
    fun hshut _ _ => .inl ⟨h.shut hshut, hframes⟩⟩

/-- A stream may end in the handling of what was thrown. -/
theorem handleThrown_refuses (e : Thrown) (s : Session) :
    Refuses id s (handleThrown e s).state := by
  cases e with
  | connectionError code lastStreamId => exact ⟨nofun, _, rfl, fun _ => nofun⟩
  | streamError other code =>
    refine Unmoved.refuses ⟨?_, ?_, fun hshut => ?_⟩
    · exact markStreamClosed_status other _
    · have hconn : (handleThrown (.streamError other code) s).state.conn =
          s.conn.emit (.sent (.rstStream other code)) := markStreamClosed_conn other _
      exact ⟨[.sent (.rstStream other code)], congrArg Connection.log hconn, rfl⟩
    · change (markStreamClosed other _).state.Shut id
      unfold markStreamClosed
      split_ifs
      · exact hshut.of_slot rfl
      · split
        · by_cases hother : id = other
          · subst hother
            exact .inl (slot_setSlot_self none)
          · exact (hshut.of_slot rfl).of_slot (slot_setSlot_of_ne hother none)
        · exact hshut.of_slot rfl
  | codec | outOfRange | fault => exact refl_of (Refuses id) s

/-- A frame of another stream. -/
theorem handleFrame_unmoved (host : Host) (h : header.streamId ≠ id) (s : Session) :
    Unmoved id s (handleFrame host header (s.takeHeader header)).state := by
  have htaken : Unmoved id s (s.takeHeader header) :=
    ⟨rfl, ⟨_, rfl, by simp [framesOn, h]⟩, fun hshut => hshut.of_slot rfl⟩
  have hframed := handleFrame_framed host header (s.takeHeader header)
  refine trans_of (Unmoved id) htaken ⟨hframed.status, .of_framed hframed, fun hshut => ?_⟩
  exact hshut.of_slot (hframed.others id h.symm)

/-- The connection ends or the stream is reset. -/
theorem handleThrown_headers {e : Thrown} {events : List Event}
    (hlog : t.conn.log = s.conn.log ++ events) (hstatus : t.status = s.status)
    (h : (∃ code lastStreamId, e = .connectionError code lastStreamId) ∨
      ∃ code, e = .streamError id code) : Refuses id s (handleThrown e t).state := by
  obtain ⟨code, lastStreamId, rfl⟩ | ⟨code, rfl⟩ := h
  · refine ⟨nofun, events ++ [.sent (.goaway lastStreamId code)], ?_, fun _ => nofun⟩
    rw [← append_assoc, ← hlog]
    rfl
  · refine ⟨fun hrunning => ?_, events ++ [.sent (.rstStream id code)], ?_, fun _ _ hreset => ?_⟩
    · have hkept : (handleThrown (.streamError id code) t).state.status = t.status :=
        markStreamClosed_status id _
      exact hstatus.symm.trans (hkept.symm.trans hrunning)
    · change (markStreamClosed id _).state.conn.log = _
      rw [markStreamClosed_conn, ← append_assoc, ← hlog]
      rfl
    · exact absurd (mem_append_right events (mem_singleton.2 rfl)) (hreset code)

/-- A frame that is handled, and what is thrown by that. -/
theorem handleFrame_refuses (hid : id ≠ 0) (header : FrameHeader) (s : Session) :
    (handleFrame host header (s.takeHeader header)).Ends (Refuses id s) fun e t =>
      Refuses id s (handleThrown e t).state := by
  by_cases hheader : header.streamId = id
  · subst hheader
    have hframed := handleFrame_framed host header (s.takeHeader header)
    obtain ⟨events, hlog, hframes⟩ : Unreceived header.streamId (s.takeHeader header) _ :=
      .of_framed hframed
    have hstatus := hframed.status
    have hlog' : (handleFrame host header (s.takeHeader header)).state.conn.log = s.conn.log ++
        (.received header (s.conn.reader.viewed header.length) :: events) := by
      rw [hlog, append_cons]
      rfl
    have hreceived : framesOn header.streamId
        (.received header (s.conn.reader.viewed header.length) :: events) = [header] := by
      rw [← hframes]
      simp [framesOn]
    by_cases hheaders : header.type = .headers ∧ s.Shut header.streamId
    · -- the frame is refused
      have hends := handleFrame_headers host hid hheaders.1
        (hheaders.2.of_slot (t := s.takeHeader header) rfl)
      refine Outcome.ends_iff.2 ⟨fun hdone => ?_, fun e he => ?_⟩
      · exact absurd ((Outcome.ends_iff.1 hends).1 hdone) not_false
      · exact handleThrown_headers hlog' hstatus ((Outcome.ends_iff.1 hends).2 e he)
    · -- the stream was not shut, or its first frame is one of another type
      have hrefuses :
          Refuses header.streamId s (handleFrame host header (s.takeHeader header)).state := by
        refine ⟨fun hrunning => hstatus.symm.trans hrunning, _, hlog', fun hshut _ _ => ?_⟩
        exact .inr ⟨header, [], hreceived, fun htype => hheaders ⟨htype, hshut⟩⟩
      refine Outcome.ends_iff.2 ⟨fun _ => hrefuses, fun e _ => ?_⟩
      exact trans_of (Refuses header.streamId) hrefuses (handleThrown_refuses e _)
  · have hcalm := (handleFrame_unmoved host hheader s).refuses
    refine Outcome.ends_iff.2 ⟨fun _ => hcalm, fun e _ => ?_⟩
    exact trans_of (Refuses id) hcalm (handleThrown_refuses e _)

/-- The frame of a read. -/
theorem receiveFrame_refuses (host : Host) (hid : id ≠ 0) (s : Session) :
    (receiveFrame host s).Ends (Refuses id s) fun e t => Refuses id s (handleThrown e t).state := by
  have hheaded : ∀ t, Headed s t → Refuses id s t := fun t ht =>
    Unmoved.refuses ⟨ht.status, .of_log ht.log, fun hshut => hshut.headed ht⟩
  refine receiveFrame_ends (P := fun _ => True) (fun _ => ⟨⟩) (fun _ _ => ?_)
    (fun t ht _ _ => hheaded t ht) fun header t _ ht _ _ => ?_
  · refine receiveHeader_spec.mono (fun _ _ => ⟨⟩) fun e t ht => ?_
    exact trans_of (Refuses id) (hheaded t ht) (handleThrown_refuses e t)
  · exact (handleFrame_refuses hid header t).mono
      (fun u hu => trans_of (Refuses id) (hheaded t ht) hu)
      fun e u hu => trans_of (Refuses id) (hheaded t ht) hu

theorem onRead_refuses (hid : id ≠ 0) (bytes : List UInt8) (s : Session) :
    Refuses id s (s.onRead host bytes) := by
  have hpushed : Refuses id s (s.pushBack bytes) :=
    Unmoved.refuses ⟨rfl, .of_log rfl, fun hshut => hshut.of_slot rfl⟩
  refine trans_of (Refuses id) hpushed ?_
  have hreceive : Refuses id (s.pushBack bytes) (receive host (s.pushBack bytes)).state := by
    obtain ⟨hdone, hthrown⟩ := Outcome.ends_iff.1
      (receiveFrame_refuses host hid (s.pushBack bytes))
    rw [receive, rescue]
    cases he : (receiveFrame host (s.pushBack bytes)).thrown with
    | none => exact hdone he
    | some e => exact hthrown e he
  unfold onRead
  split_ifs
  · exact refl_of (Refuses id) _
  · unfold conclusion
    split
    · exact hreceive
    · obtain ⟨events, hlog, -⟩ := hreceive.log
      exact ⟨Status.noConfusion, events, hlog, fun _ => Status.noConfusion⟩

theorem lateReply_unmoved {response : Response}
    (h : s.lateReply host other response = some t) : Unmoved id s t := by
  obtain ⟨pending, -, rfl | ⟨stream, hslot, hsends⟩⟩ := lateReply_sends h
  · exact ⟨rfl, .of_log rfl, fun hshut => hshut.of_slot rfl⟩
  · obtain ⟨frames, hlog, -⟩ := hsends.log
    refine ⟨hsends.status, .of_sent hlog, fun hshut => ?_⟩
    have hset : ({ s with pending }.setSlot other (some { stream with response })).Shut id := by
      by_cases hother : id = other
      · subst hother
        obtain ⟨hid, hstate⟩ := hshut.stream hslot
        exact .inr ⟨_, slot_setSlot_self _, hid, hstate⟩
      · exact hshut.of_slot (slot_setSlot_of_ne hother _)
    by_cases hother : id = other
    · subst hother
      obtain hsame | ⟨-, hnone⟩ | ⟨stream, response, hbefore, hafter, -⟩ := hsends.slot
      · exact hset.of_slot hsame
      · exact .inl hnone
      · obtain ⟨hid, hstate⟩ := hset.stream hbefore
        exact .inr ⟨_, hafter, hid, hstate⟩
    · exact hset.of_slot (hsends.others id hother)

/-- A stream that is shut does not admit another request. -/
theorem onStream_advanceSend_unmoved (other : ℕ) (flags : UInt8) :
    Keeps (Unmoved id) (onStream other (Stream.advanceSend .headers flags)) := by
  intro s
  unfold onStream
  split
  · exact refl_of (Unmoved id) s
  · exact refl_of (Unmoved id) s
  · rename_i stream hslot
    have hconn := Stream.advanceSend_conn .headers flags ⟨s.conn, stream⟩
    refine ⟨rfl, .of_log (congrArg Connection.log hconn), fun hshut => ?_⟩
    by_cases hother : id = other
    · subst hother
      obtain ⟨hid, hstate⟩ := hshut.stream hslot
      have hadvance : StreamStateMachine.advance stream.id .headers flags false stream.state =
          .error (.streamError stream.id .streamClosed) := by
        rw [StreamStateMachine.advance_remote, hstate]
        rfl
      have hstream : (Stream.advanceSend .headers flags ⟨s.conn, stream⟩).state.stream =
          stream := by
        rw [Stream.advanceSend, reading, hadvance]
        rfl
      refine .inr ⟨_, slot_setSlot_self _, ?_, ?_⟩
      · rwa [hstream]
      · rwa [hstream]
    · exact hshut.of_slot (slot_setSlot_of_ne hother _)

theorem sendRequest_unmoved (host : Host) (request : Request) :
    Keeps (Unmoved id) (sendRequest host request) := by
  intro s
  unfold sendRequest
  simp only
  split
  · exact refl_of (Unmoved id) s
  · exact ⟨rfl, .of_log rfl, fun hshut => hshut.of_slot rfl⟩
  · rename_i chunks table _
    have htable : Unmoved id s (s.setEncodingTable table) :=
      ⟨rfl, .of_log rfl, fun hshut => hshut.of_slot rfl⟩
    refine trans_of (Unmoved id) htable
      (Keeps.andThen (onStream_advanceSend_unmoved _ _) (fun t => ?_) _)
    exact ⟨rfl, .of_sent rfl, fun hshut => hshut.of_slot rfl⟩

theorem getOrCreateStream_unmoved (other : ℕ) : Keeps (Unmoved id) (getOrCreateStream other) := by
  intro s
  have hframed := getOrCreateStream_framed other s
  refine ⟨hframed.status, .of_framed hframed, fun hshut => ?_⟩
  by_cases hother : id = other
  · subst hother
    obtain hgone | ⟨stream, hslot, hid, hstate⟩ := hshut
    · rw [getOrCreateStream, hgone]
      exact .inl hgone
    · rw [getOrCreateStream, hslot]
      exact .inr ⟨stream, hslot, hid, hstate⟩
  · exact hshut.of_slot (hframed.others id hother)

end Session

open Congelado.Http2.Session

variable {host : Host} {id : ℕ} {e e' : Endpoint}

theorem Endpoint.send_unmoved (h : e.send host request = some e') :
    Unmoved id e.session e'.session := by
  have hstate : (e.sending host request).state = e'.session := by
    unfold send at h
    split at h
    · cases h
    · rw [← Option.some.inj h]
  rw [← hstate]
  exact (getOrCreateStream_unmoved _).andThen (sendRequest_unmoved host _) e.session

theorem endpoint_refuses (hid : id ≠ 0) {label : EndpointLabel}
    (h : (endpoint host).next label e = some e') : Refuses id e.session e'.session := by
  cases label with
  | send request => exact (Endpoint.send_unmoved h).refuses
  | serve label =>
    obtain ⟨session, hserve, rfl⟩ := Option.map_eq_some_iff.1 h
    cases label with
    | reply other response => exact (lateReply_unmoved hserve).refuses
    | read bytes =>
      simp only [server, Option.ite_none_right_eq_some, Option.some.injEq] at hserve
      obtain ⟨-, rfl⟩ := hserve
      exact onRead_refuses hid bytes e.session

/-! ### Requests -/

/-- The request is sent on its stream, which is half closed by the peer then. -/
theorem Session.sendRequest_shut (request : Request) {s : Session} {window : ℕ}
    (hslot : s.slot request.streamId = some (some (.create request.streamId window)))
    (hthrown : (sendRequest host request s).thrown = none) :
    (sendRequest host request s).state.Shut request.streamId := by
  unfold sendRequest at hthrown ⊢
  simp only at hthrown ⊢
  split at hthrown
  · cases hthrown
  · cases hthrown
  · rename_i chunks table _
    have hslot' : (s.setEncodingTable table).slot request.streamId =
        some (some (.create request.streamId window)) := hslot
    rw [andThen, onStream, hslot']
    exact .inr ⟨_, slot_setSlot_self _, rfl, rfl⟩

/-- The number of a stream that is created is odd. -/
theorem Endpoint.shut_of_send
    (hnew : e.session.slot e.nextClientStreamId = none) (hsend : e.send host request = some e')
    (hthrown : (e.sending host request).thrown = none) :
    e.nextClientStreamId ≠ 0 ∧ e'.session.Shut e.nextClientStreamId := by
  have hsession : (e.sending host request).state = e'.session := by
    rw [send, hthrown] at hsend
    rw [← Option.some.inj hsend]
  by_cases hodd : e.nextClientStreamId % 2 = 0
  · have hcreate : getOrCreateStream e.nextClientStreamId e.session =
        Action.throw (connectionError .protocolError) e.session := by
      rw [getOrCreateStream, hnew]
      exact if_pos hodd
    rw [sending, andThen, hcreate] at hthrown
    cases hthrown
  · have hcreate : getOrCreateStream e.nextClientStreamId e.session =
        done (e.session.setSlot e.nextClientStreamId
          (some
            (.create e.nextClientStreamId e.session.conn.remoteSettings.initialWindowSize))) := by
      rw [getOrCreateStream, hnew]
      exact if_neg hodd
    rw [sending, andThen, hcreate] at hthrown hsession
    refine ⟨fun hzero => hodd (by rw [hzero]), ?_⟩
    rw [← hsession]
    exact Session.sendRequest_shut { request with streamId := e.nextClientStreamId }
      (slot_setSlot_self _) hthrown

/-- **No response is accepted.** After a request was sent on a new stream, whatever is read, sent
and answered on the connection: if the frames that were received on the stream are a legal response
then the response was not delivered once, or the stream was reset, or the connection has ended. -/
theorem not_accepted {request : Request} {t : Endpoint} {first : FrameHeader}
    {more body : List FrameHeader} (hnew : e.session.slot e.nextClientStreamId = none)
    (hsend : e.send host request = some e') (hthrown : (e.sending host request).thrown = none)
    (hrun : (endpoint host).Run System.Any e' t) (hlegal : LegalResponse first more body)
    (hframes : framesOn e.nextClientStreamId (since e'.session t.session) = first ::
      (more ++ body)) :
    ¬Accepted e.nextClientStreamId e'.session t.session := by
  intro haccepted
  obtain ⟨hid, hshut⟩ := Endpoint.shut_of_send hnew hsend hthrown
  have hrefuses : Refuses e.nextClientStreamId e'.session t.session := by
    refine hrun.invariant (I := fun u => Refuses e.nextClientStreamId e'.session u.session)
      (refl_of (Refuses e.nextClientStreamId) _) fun u label v hu _ hnext => ?_
    exact trans_of (Refuses e.nextClientStreamId) hu (endpoint_refuses hid hnext)
  obtain ⟨events, hlog, hfirst⟩ := hrefuses.log
  have hsince : since e'.session t.session = events := by
    rw [since, hlog, drop_left]
  have hreset := haccepted.not_reset
  rw [hsince] at hframes hreset
  obtain ⟨-, hnone⟩ | ⟨header, rest, hheader, htype⟩ := hfirst hshut haccepted.running hreset
  · rw [hnone] at hframes
    cases hframes
  · rw [hheader] at hframes
    cases hframes
    exact htype hlegal.headers

/-- A request without headers, on the first stream of a client. -/
def bareRequest : Request := { streamId := 0 }

/-- `:status: 200`, as a whole response. -/
def smallResponse : List UInt8 :=
  Frame.write { type := .headers, flags := 0x05, streamId := 3, payload := [0x88] }

/-- An empty header block and a body of one byte. -/
def byteResponse : List EndpointLabel :=
  [.serve (.read (Frame.write { type := .headers, flags := Flags.endHeaders, streamId := 3 })),
    .serve (.read (Frame.write
      { type := .data, flags := Flags.endStream, streamId := 3, payload := [0x21] }))]

theorem not_accepted_byte : ∃ e t : Endpoint, Endpoint.send keepingHost bareRequest {} = some e ∧
    (endpoint keepingHost).Run System.Any e t ∧
    framesOn 3 (since e.session t.session) =
      [⟨0, .headers, Flags.endHeaders, 3⟩, ⟨1, .data, Flags.endStream, 3⟩] ∧
    ¬Accepted 3 e.session t.session := by
  obtain ⟨e, hsend, hplayed⟩ : ∃ e, Endpoint.send keepingHost bareRequest {} = some e ∧
      ((endpoint keepingHost).play byteResponse e).any fun t =>
        framesOn 3 (since e.session t.session) =
          [⟨0, .headers, Flags.endHeaders, 3⟩, ⟨1, .data, Flags.endStream, 3⟩] :=
    System.exists_of_any (by decide +kernel)
  obtain ⟨t, hrun, hframes⟩ := (endpoint keepingHost).exists_run byteResponse hplayed
  have hlegal : LegalResponse ⟨0, .headers, Flags.endHeaders, 3⟩ []
      [⟨1, .data, Flags.endStream, 3⟩] := by
    exact ⟨rfl, by simp, by decide, by simp, by decide⟩
  exact ⟨e, t, hsend, hrun, hframes,
    not_accepted (e := {}) (by decide) hsend (by decide +kernel) hrun hlegal hframes⟩

/-- The stream of the request is reset by the response. -/
theorem response_reset : ∃ e t : Endpoint, Endpoint.send keepingHost bareRequest {} = some e ∧
    (endpoint keepingHost).next (.serve (.read smallResponse)) e = some t ∧
    framesOn 3 (since e.session t.session) = [⟨1, .headers, 0x05, 3⟩] ∧
    LegalResponse ⟨1, .headers, 0x05, 3⟩ [] [] ∧
    .sent (.rstStream 3 .streamClosed) ∈ since e.session t.session ∧
    ¬Accepted 3 e.session t.session := by
  obtain ⟨e, hsend, hserved⟩ : ∃ e, Endpoint.send keepingHost bareRequest {} = some e ∧
      ((endpoint keepingHost).next (.serve (.read smallResponse)) e).any fun t =>
        framesOn 3 (since e.session t.session) = [⟨1, .headers, 0x05, 3⟩] ∧
          .sent (.rstStream 3 .streamClosed) ∈ since e.session t.session :=
    System.exists_of_any (by decide +kernel)
  obtain ⟨t, hnext, hframes, hreset⟩ := System.exists_of_any hserved
  exact ⟨e, t, hsend, hnext, hframes, ⟨rfl, by simp, by decide, by simp, by decide⟩, hreset,
    fun h => h.not_reset _ hreset⟩

end Congelado.Http2
