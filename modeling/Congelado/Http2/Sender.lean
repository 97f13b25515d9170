import Congelado.Http2.Endpoint
import Congelado.Http2.Windows

/-!
# What is sent within the windows

The peer grants bytes: to the connection with the initial size of its window and with each
`WINDOW_UPDATE`, and to a stream in the same way, with the initial size that the settings of the
peer say. A step stays `WithinWindows` if it sends no `DATA`, or no more than has been granted by
then.

Neither `send_response` nor `send` looks at a window. A body goes out as a whole, so that a run
stays within the windows as long as every body that is sent `Fits` into them.
-/

namespace Congelado.Http2

open Codec Attempt Action List

variable {frames : List Frame} {event : Event}
open Event (credit debit debitOn)

variable {e e' : Endpoint}

/-! ### What a step may send -/

/-- The `DATA` of a step is in what the peer has granted to the connection and to the stream. -/
structure WithinWindows (s t : Endpoint) : Prop where
  connection : total debit s.session.conn.log < total debit t.session.conn.log →
    total debit t.session.conn.log ≤
      defaultInitialWindowSize + total (credit 0) t.session.conn.log
  streams : ∀ id, total (debitOn id) s.session.conn.log < total (debitOn id) t.session.conn.log →
    total (debitOn id) t.session.conn.log ≤
      t.session.conn.remoteSettings.initialWindowSize + total (credit id) t.session.conn.log

/-- There is room for so many bytes on a stream. -/
def Session.Room (id size : ℕ) (s : Session) : Prop :=
  size = 0 ∨
    total debit s.conn.log + size ≤ defaultInitialWindowSize + total (credit 0) s.conn.log ∧
      total (debitOn id) s.conn.log + size ≤
        s.conn.remoteSettings.initialWindowSize + total (credit id) s.conn.log

/-- The bodies that a step may send have room: the ones that the handlers send at once if the frame
at hand is one of a stream, the one of a late response, and the one of a request. -/
def Fits (host : Host) (e : Endpoint) : EndpointLabel → Prop
  | .serve (.read bytes) =>
    ∀ header rest, (e.session.pushBack bytes).upcoming = some (header, rest) → header.streamId ≠ 0 →
      ∀ request response, (host.dispatch request response).reply ≠ .keeps →
        e.session.Room (host.dispatch request response).response.streamId
          (host.dispatch request response).response.body.length
  | .serve (.reply _ response) => e.session.Room response.streamId response.body.length
  | .send request => e.session.Room e.nextClientStreamId request.body.length

/-! ### Counting -/

theorem total_credit_le (id : ℕ) (log events : List Event) :
    total (credit id) log ≤ total (credit id) (log ++ events) := by
  have hnonneg : 0 ≤ total (credit id) events := by
    refine sum_nonneg fun x hx => ?_
    obtain ⟨event, -, rfl⟩ := mem_map.1 hx
    cases event with
    | received header payload =>
      rw [Event.credit]
      split_ifs
      · exact Int.natCast_nonneg _
      · exact le_rfl
    | fed | dispatched | sent => exact le_rfl
  rw [total_append]
  omega

/-- The events spend at most so many bytes, all of them on one stream. -/
structure Spent (id size : ℕ) (events : List Event) : Prop where
  connection : total debit events ≤ size
  stream : total (debitOn id) events ≤ size
  others : ∀ other ≠ id, total (debitOn other) events = 0

theorem debitOn_eq_zero (h : event.debit = 0) (id : ℕ) : event.debitOn id = 0 := by
  cases event with
  | sent frame =>
    rw [Event.debit] at h
    rw [Event.debitOn]
    split_ifs with hon
    · rwa [if_pos hon.1] at h
    · rfl
  | received | fed | dispatched => rfl

namespace Spent

variable {id size : ℕ} {events events' : List Event}

theorem of_debit_eq_zero (h : ∀ event ∈ events, event.debit = 0) (id size : ℕ) :
    Spent id size events := by
  have hother : ∀ other, total (debitOn other) events = 0 :=
    fun other => total_eq_zero fun event hevent => debitOn_eq_zero (h event hevent) other
  refine ⟨?_, ?_, fun other _ => hother other⟩
  · rw [total_eq_zero h]
    exact Int.natCast_nonneg size
  · rw [hother id]
    exact Int.natCast_nonneg size

/-- What nothing is spent with comes before or after the rest. -/
theorem append {size' : ℕ} (h : Spent id size events) (h' : Spent id size' events') :
    Spent id (size + size') (events ++ events') := by
  have hconnection := h.connection
  have hconnection' := h'.connection
  have hstream := h.stream
  have hstream' := h'.stream
  refine ⟨?_, ?_, fun other hother => ?_⟩
  · rw [total_append, Nat.cast_add]
    omega
  · rw [total_append, Nat.cast_add]
    omega
  · rw [total_append, h.others other hother, h'.others other hother, add_zero]

end Spent

/-- The slices of a body are no longer than the body. -/
theorem sum_slices_le (k n : ℕ) (body : List UInt8) :
    ((List.range n).map fun idx => ((body.drop (idx * k)).take k).length).sum ≤ body.length := by
  induction n generalizing body with
  | zero => exact Nat.zero_le _
  | succ n ih =>
    have hrest := ih (body.drop k)
    have hshift : ∀ idx, body.drop ((idx + 1) * k) = (body.drop k).drop (idx * k) := by
      intro idx
      rw [drop_drop, Nat.succ_mul, Nat.add_comm]
    rw [range_succ_eq_map, map_cons, map_map, sum_cons, zero_mul,
      drop_zero, length_take]
    simp only [Function.comp_def, Nat.succ_eq_add_one, hshift]
    rw [length_drop] at hrest
    omega

/-- `DATA` is spent on its stream. -/
theorem spent_dataFrames (id maxFrameSize : ℕ) (body : List UInt8) :
    Spent id body.length ((dataFrames id maxFrameSize body).map .sent) := by
  have hsum := sum_slices_le (min maxFrameSize body.length)
    (if body.length = 0 then 1 else (body.length + min maxFrameSize body.length - 1) /
      min maxFrameSize body.length) body
  refine ⟨?_, ?_, fun other hother => total_eq_zero fun event hevent => ?_⟩
  · rw [total, dataFrames, map_map, map_map]
    refine le_trans (le_of_eq ?_) (Int.ofNat_le.2 hsum)
    rw [Nat.cast_list_sum, map_map]
    rfl
  · rw [total, dataFrames, map_map, map_map]
    refine le_trans (le_of_eq ?_) (Int.ofNat_le.2 hsum)
    rw [Nat.cast_list_sum, map_map]
    refine congrArg List.sum (map_congr_left fun idx _ => ?_)
    exact if_pos ⟨rfl, rfl⟩
  · simp only [dataFrames, map_map, mem_map] at hevent
    obtain ⟨idx, -, rfl⟩ := hevent
    exact if_neg fun hon => hother hon.2.symm

theorem spent_headerFrames (id size streamId : ℕ) (chunks : List (List UInt8 × HpackFlushReason)) :
    Spent id size ((headerFrames streamId chunks).map .sent) := by
  refine .of_debit_eq_zero (fun event hevent => ?_) id size
  obtain ⟨frame, hframe, rfl⟩ := mem_map.1 hevent
  exact if_neg (Session.type_ne_data_of_mem_headerFrames hframe)

/-- An empty `DATA` frame spends nothing. -/
theorem spent_body {id maxFrameSize : ℕ} {body : List UInt8}
    (h : frames = if body = [] then [{ type := .data, flags := Flags.endStream, streamId := id }]
      else dataFrames id maxFrameSize body) : Spent id body.length (frames.map .sent) := by
  subst h
  split_ifs with hbody
  · refine .of_debit_eq_zero (fun event hevent => ?_) id _
    rw [map_cons, map_nil, mem_singleton] at hevent
    rw [hevent]
    rfl
  · exact spent_dataFrames id maxFrameSize body

/-! ### What a connection sends -/

namespace Connection

variable {c d e : Connection} {id size : ℕ}

/-- No `DATA` is sent. -/
def Silent (c d : Connection) : Prop :=
  ∃ events : List Event, d.log = c.log ++ events ∧ ∀ event ∈ events, event.debit = 0

instance : IsTrans Connection Silent where
  trans _ _ _ hcd hde := by
    obtain ⟨events, hlog, hevents⟩ := hcd
    obtain ⟨events', hlog', hevents'⟩ := hde
    refine ⟨events ++ events', ?_, fun event hevent => ?_⟩
    · rw [hlog', hlog, append_assoc]
    · obtain hevent | hevent := mem_append.1 hevent
      · exact hevents event hevent
      · exact hevents' event hevent

theorem Silent.of_log (h : d.log = c.log) : Silent c d :=
  ⟨[], h.trans (append_nil _).symm, nofun⟩

theorem Silent.emit (c : Connection) (h : event.debit = 0) :
    Silent c (c.emit event) := by
  refine ⟨[event], rfl, fun e he => ?_⟩
  rwa [mem_singleton.1 he]

/-- At most so many bytes are sent, all of them on one stream, and the initial size of the windows
is not touched. -/
structure Spends (id size : ℕ) (c d : Connection) : Prop where
  initialWindowSize : d.remoteSettings.initialWindowSize = c.remoteSettings.initialWindowSize
  log : ∃ events : List Event, d.log = c.log ++ events ∧ Spent id size events

theorem Spends.trans {size' : ℕ} (hcd : Spends id size c d) (hde : Spends id size' d e) :
    Spends id (size + size') c e := by
  obtain ⟨events, hlog, hspent⟩ := hcd.log
  obtain ⟨events', hlog', hspent'⟩ := hde.log
  refine ⟨hde.initialWindowSize.trans hcd.initialWindowSize, events ++ events', ?_,
    hspent.append hspent'⟩
  rw [hlog', hlog, append_assoc]

/-- What sends nothing comes first. -/
theorem Spends.after (hde : Spends id size d e) (hcd : Spends id 0 c d) : Spends id size c e :=
  zero_add size ▸ hcd.trans hde

/-- What sends nothing comes last. -/
theorem Spends.before (hcd : Spends id size c d) (hde : Spends id 0 d e) : Spends id size c e :=
  hcd.trans hde

section

variable (hremote : d.remoteSettings.initialWindowSize = c.remoteSettings.initialWindowSize)

include hremote

theorem Spends.of_silent (h : Silent c d) : Spends id size c d := by
  obtain ⟨events, hlog, hevents⟩ := h
  exact ⟨hremote, events, hlog, .of_debit_eq_zero hevents id size⟩

/-- Nothing is noted. -/
theorem Spends.of_log (hlog : d.log = c.log) : Spends id size c d :=
  .of_silent hremote (.of_log hlog)

end

theorem receive_silent (host : Host) (header : FrameHeader) :
    Keeps Silent (receive host header) := by
  intro c
  obtain ⟨frames, hlog, hdata⟩ := (receive_keeps host header c).log
  refine ⟨frames.map .sent, hlog, fun event hevent => ?_⟩
  obtain ⟨frame, hframe, rfl⟩ := mem_map.1 hevent
  exact if_neg (hdata frame hframe).1

end Connection

/-- Nothing is sent unless there is room for it. -/
theorem withinWindows_of_spends {id size : ℕ}
    (h : Connection.Spends id size e.session.conn e'.session.conn)
    (hroom : e.session.Room id size) :
    WithinWindows e e' := by
  obtain ⟨events, hlog, hspent⟩ := h.log
  have hconnection := hspent.connection
  have hstream := hspent.stream
  refine ⟨fun hgrows => ?_, fun other hgrows => ?_⟩
  · have hcredit := total_credit_le 0 e.session.conn.log events
    rw [hlog] at hgrows ⊢
    rw [total_append] at hgrows ⊢
    obtain rfl | ⟨hroom, -⟩ := hroom
    · simp only [Nat.cast_zero] at hconnection
      omega
    · omega
  · have hcredit := total_credit_le other e.session.conn.log events
    rw [hlog] at hgrows ⊢
    rw [h.initialWindowSize]
    rw [total_append] at hgrows ⊢
    by_cases hother : other = id
    · subst hother
      obtain rfl | ⟨-, hroom⟩ := hroom
      · simp only [Nat.cast_zero] at hstream
        omega
      · omega
    · rw [hspent.others other hother] at hgrows
      omega

/-- A step that sends no `DATA` may change the initial size of the windows. -/
theorem withinWindows_of_silent (h : e.session.conn.Silent e'.session.conn) :
    WithinWindows e e' := by
  obtain ⟨events, hlog, hevents⟩ := h
  refine ⟨fun hgrows => ?_, fun other hgrows => ?_⟩
  · rw [hlog, total_append, total_eq_zero hevents] at hgrows
    omega
  · rw [hlog, total_append,
      total_eq_zero fun event hevent => debitOn_eq_zero (hevents event hevent) other] at hgrows
    omega

/-! ### The session -/

namespace Session

open Connection (Spends)

variable {s t : Session} {c d e : Connection} {host : Host} {header : FrameHeader} {id : ℕ}
    {stream : Stream}

/-! ### Responses -/

/-- A message spends its body. -/
theorem sendFrames_spends (table : HPackTable) (chunks : List (List UInt8 × HpackFlushReason))
    (maxFrameSize : ℕ) (body : List UInt8)
    (h : frames = if body = [] then [{ type := .data, flags := Flags.endStream, streamId := id }]
      else dataFrames id maxFrameSize body) :
    Spends id body.length s.conn
      ((s.setEncodingTable table).sendFrames (headerFrames id chunks ++ frames)).conn := by
  refine ⟨rfl, _, rfl, ?_⟩
  rw [map_append]
  exact zero_add body.length ▸ (spent_headerFrames id 0 id chunks).append (spent_body h)

theorem sendResponse_spends (host : Host) (hslot : s.slot id = some (some stream)) :
    Spends stream.response.streamId stream.response.body.length s.conn
      (sendResponse host id s).state.conn := by
  unfold sendResponse
  rw [hslot]
  simp only
  split
  · exact .of_log rfl rfl
  · exact .of_log rfl rfl
  · rename_i chunks table _
    rw [markStreamClosed_conn]
    exact sendFrames_spends table chunks _ _ rfl

/-- Nothing is sent if it throws. -/
theorem sendResponse_of_thrown (hid : id ≠ 0) (hslot : s.slot id = some (some stream))
    {e : Thrown} (h : (sendResponse host id s).thrown = some e) :
    ∃ table, (sendResponse host id s).state = s.setEncodingTable table := by
  unfold sendResponse at h ⊢
  rw [hslot] at h ⊢
  simp only at h ⊢
  split at h
  · exact ⟨s.conn.encodingTable, rfl⟩
  · exact ⟨_, rfl⟩
  · rename_i chunks table _
    have hslot' :
      ((s.setEncodingTable table).sendFrames (headerFrames stream.response.streamId chunks ++
        stream.response.bodyFrames s.conn.localSettings.maxFrameSize)).slot id = some
          (some stream) :=
      hslot
    rw [markStreamClosed, if_neg hid, hslot'] at h
    cases h

theorem failResponse_spends (hslot : s.slot id = some (some stream)) :
    Spends stream.response.streamId stream.response.body.length s.conn
      (failResponse host id s).state.conn := by
  have hfail : failResponse host id s = sendResponse host id (s.setSlot id
      (some { stream with response := stream.response.setStatus "500" })) := by
    rw [failResponse, andThen, onStream, hslot]
    rfl
  rw [hfail]
  have hsent := sendResponse_spends (s := s.setSlot id
    (some { stream with response := stream.response.setStatus "500" })) host (slot_setSlot_self _)
  exact Spends.after hsent (.of_log rfl rfl)

theorem trySend_spends (hid : id ≠ 0) (hslot : s.slot id = some (some stream)) :
    Spends stream.response.streamId stream.response.body.length s.conn
      (trySend host id s).state.conn := by
  rw [trySend, rescue]
  cases hthrown : (sendResponse host id s).thrown with
  | none => exact sendResponse_spends host hslot
  | some e =>
    -- what was thrown has sent nothing, so that the second attempt is the only one that sends
    obtain ⟨table, hstate⟩ := sendResponse_of_thrown hid hslot hthrown
    have hfail : Spends stream.response.streamId stream.response.body.length s.conn
        (failResponse host id (s.setEncodingTable table)).state.conn :=
      (failResponse_spends (s := s.setEncodingTable table) hslot).after (.of_log rfl rfl)
    simp only [hstate]
    cases e with
    | fault fault => exact .of_log rfl rfl
    | connectionError | streamError | codec | outOfRange => exact hfail

theorem conclude_spends (hid : id ≠ 0) (hslot : s.slot id = some (some stream))
    {reply : Reply} (hreply : reply ≠ .keeps) :
    Spends stream.response.streamId stream.response.body.length s.conn
      (conclude host id reply s).state.conn := by
  cases reply with
  | keeps => exact absurd rfl hreply
  | sends => exact trySend_spends hid hslot
  | throws => exact failResponse_spends hslot
  | sendsAndThrows =>
    simp only [conclude]
    split
    · exact sendResponse_spends host hslot
    · exact trySend_spends hid hslot

/-- At most one body of those that handlers send at once is sent. -/
def Offers (host : Host) (c d : Connection) : Prop :=
  Spends 0 0 c d ∨ ∃ request response, (host.dispatch request response).reply ≠ .keeps ∧
    Spends (host.dispatch request response).response.streamId
      (host.dispatch request response).response.body.length c d

theorem Offers.after (hde : Offers host d e) (hcd : ∀ id, Spends id 0 c d) : Offers host c e := by
  obtain hde | ⟨request, response, hreply, hde⟩ := hde
  · exact .inl (hde.after (hcd 0))
  · exact .inr ⟨request, response, hreply, hde.after (hcd _)⟩

theorem Offers.before (hcd : Offers host c d) (hde : ∀ id, Spends id 0 d e) : Offers host c e := by
  obtain hcd | ⟨request, response, hreply, hcd⟩ := hcd
  · exact .inl (hcd.before (hde 0))
  · exact .inr ⟨request, response, hreply, hcd.before (hde _)⟩

theorem respondIfDone_offers (hid : id ≠ 0) (s : Session) :
    Offers host s.conn (respondIfDone host id s).state.conn := by
  unfold respondIfDone
  split
  · rename_i stream hslot
    split_ifs
    · have hdispatching : ∀ id', Spends id' 0 s.conn (s.dispatching host id stream).conn :=
        fun id' => .of_silent rfl (.emit s.conn rfl)
      rw [response_eq host hslot]
      refine Offers.after ?_ hdispatching
      by_cases hreply :
          (host.dispatch stream.request (stream.response.setStatus "404")).reply = .keeps
      · rw [hreply]
        exact .inl (.of_log rfl rfl)
      · exact .inr ⟨_, _, hreply, conclude_spends hid (slot_dispatching_self host stream) hreply⟩
    · exact .inl (.of_log rfl rfl)
  · exact .inl (.of_log rfl rfl)

/-! ### Reads -/

theorem getOrCreateStream_conn (id : ℕ) (s : Session) :
    (getOrCreateStream id s).state.conn = s.conn := by
  unfold getOrCreateStream
  split
  · rfl
  · rfl
  · split_ifs <;> rfl

theorem onStream_receive_spends (id' : ℕ) (s : Session) :
    Spends id' 0 s.conn (onStream id (Stream.receive host header) s).state.conn := by
  unfold onStream
  split
  · exact .of_log rfl rfl
  · exact .of_log rfl rfl
  · rename_i stream hslot
    have htouched := Stream.receive_touches host header ⟨s.conn, stream⟩
    obtain ⟨blocks, hlog⟩ := htouched.log
    refine .of_silent (congrArg Settings.initialWindowSize htouched.remoteSettings)
      ⟨_, hlog, fun event hevent => ?_⟩
    obtain ⟨block, -, rfl⟩ := mem_map.1 hevent
    rfl

/-- A frame of a stream. -/
theorem handleFrame_offers (hid : header.streamId ≠ 0) (s : Session) :
    (handleFrame host header s).Ends (fun t => Offers host s.conn t.conn)
      fun _ t => Offers host s.conn t.conn := by
  rw [handleFrame, if_neg hid]
  simp only [andThen_ends]
  refine Outcome.ends_iff.2 ⟨fun _ => ?_, fun _ _ => ?_⟩
  · have hreceived : ∀ id', Spends id' 0 s.conn (onStream header.streamId
        (Stream.receive host header) (getOrCreateStream header.streamId s).state).state.conn := by
      intro id'
      exact getOrCreateStream_conn header.streamId s ▸ onStream_receive_spends id' _
    refine Outcome.ends_iff.2 ⟨fun _ => ?_, fun _ _ => .inl (hreceived 0)⟩
    exact .of_state ((respondIfDone_offers hid _).after hreceived)
  · rw [getOrCreateStream_conn]
    exact .inl (.of_log rfl rfl)

/-- What a read may send: nothing, or a body that a handler sends at once for a frame of a
stream. -/
def Reads (host : Host) (s t : Session) : Prop :=
  s.conn.Silent t.conn ∨
    (∃ header rest, s.upcoming = some (header, rest) ∧ header.streamId ≠ 0) ∧
      Offers host s.conn t.conn

theorem receiveFrame_reads (host : Host) (s : Session) :
    (receiveFrame host s).Ends (Reads host s) fun _ => Reads host s := by
  refine receiveFrame_ends (P := fun _ => True) (fun _ => ⟨⟩) (fun _ _ => ?_)
    (fun t ht _ _ => .inl (.of_log ht.log)) fun header t _ ht hupcoming _ => ?_
  · exact receiveHeader_spec.mono (fun _ _ => ⟨⟩) fun _ t ht => .inl (.of_log ht.log)
  · have htaken : s.conn.Silent (t.takeHeader header).conn :=
      trans_of Connection.Silent (.of_log ht.log) (.emit t.conn rfl)
    by_cases hid : header.streamId = 0
    · refine .of_state (.inl ?_)
      rw [handleFrame, if_pos hid]
      exact trans_of Connection.Silent htaken (Connection.receive_silent host header _)
    · have hbefore : ∀ id', Spends id' 0 s.conn (t.takeHeader header).conn :=
        fun id' => .of_silent ht.initialWindowSize htaken
      have hframe : ∃ header rest, s.upcoming = some (header, rest) ∧ header.streamId ≠ 0 :=
        ⟨header, _, hupcoming, hid⟩
      exact (handleFrame_offers hid (t.takeHeader header)).mono
        (fun u hu => .inr ⟨hframe, hu.after hbefore⟩) fun _ u hu => .inr ⟨hframe, hu.after hbefore⟩

theorem handleThrown_silent (e : Thrown) (s : Session) :
    s.conn.Silent (handleThrown e s).state.conn ∧
      (handleThrown e s).state.conn.remoteSettings = s.conn.remoteSettings := by
  cases e with
  | connectionError code lastStreamId => exact ⟨.emit s.conn rfl, rfl⟩
  | streamError id code =>
    have hconn : (handleThrown (.streamError id code) s).state.conn =
        s.conn.emit (.sent (.rstStream id code)) := markStreamClosed_conn id _
    rw [hconn]
    exact ⟨.emit s.conn rfl, rfl⟩
  | codec | outOfRange | fault => exact ⟨.of_log rfl, rfl⟩

theorem onRead_reads (host : Host) (bytes : List UInt8) (s : Session) :
    Reads host (s.pushBack bytes) (s.onRead host bytes) := by
  have hreceive : Reads host (s.pushBack bytes) (receive host (s.pushBack bytes)).state := by
    obtain ⟨hdone, hthrown⟩ := Outcome.ends_iff.1 (receiveFrame_reads host (s.pushBack bytes))
    rw [receive, rescue]
    cases he : (receiveFrame host (s.pushBack bytes)).thrown with
    | none => exact hdone he
    | some e =>
      obtain ⟨hsilent, hremote⟩ :=
        handleThrown_silent e (receiveFrame host (s.pushBack bytes)).state
      obtain hbefore | ⟨hframe, hbefore⟩ := hthrown e he
      · exact .inl (trans_of Connection.Silent hbefore hsilent)
      · exact .inr ⟨hframe, hbefore.before fun id' => .of_silent (congrArg _ hremote) hsilent⟩
  unfold onRead
  split_ifs
  · exact .inl (.of_log rfl)
  · unfold conclusion
    split <;> exact hreceive

/-- A late response spends its body. -/
theorem lateReply_spends {response : Response} (h : s.lateReply host id response = some t) :
    Spends response.streamId response.body.length s.conn t.conn := by
  obtain ⟨pending, -, rfl | ⟨stream, -, rfl⟩⟩ := lateReply_cases h
  · exact .of_log rfl rfl
  · have hsent := sendResponse_spends (s := { s with pending }.setSlot id
      (some { stream with response })) host (slot_setSlot_self _)
    exact hsent.after (.of_log rfl rfl)

end Session

/-! ### Requests -/

theorem Session.sendRequest_spends (host : Host) (request : Request) (s : Session) :
    Connection.Spends request.streamId request.body.length s.conn
      (sendRequest host request s).state.conn := by
  unfold sendRequest
  simp only
  split
  · exact .of_log rfl rfl
  · exact .of_log rfl rfl
  · rename_i chunks table _
    -- the state of the stream comes first, and the connection is not touched by that
    have hconn : (onStream request.streamId (Stream.advanceSend .headers Flags.endStream)
        (s.setEncodingTable table)).state.conn = (s.setEncodingTable table).conn := by
      unfold onStream
      split
      · rfl
      · rfl
      · exact Stream.advanceSend_conn _ _ _
    rw [andThen]
    split
    · have hsent : Connection.Spends request.streamId request.body.length s.conn
          ((s.setEncodingTable table).sendFrames (headerFrames request.streamId chunks ++
            request.bodyFrames s.conn.localSettings.maxFrameSize)).conn :=
        sendFrames_spends table chunks _ _ rfl
      refine ⟨?_, ?_⟩
      · simp only [modify_state, sendFrames, hconn]
        rfl
      · simp only [modify_state, sendFrames, hconn]
        exact hsent.log
    · rw [hconn]
      exact .of_log rfl rfl

theorem Endpoint.send_spends {host : Host} {request : Request} (h : e.send host request = some e') :
    Connection.Spends e.nextClientStreamId request.body.length e.session.conn e'.session.conn := by
  have hstate : (e.sending host request).state = e'.session := by
    unfold send at h
    split at h
    · cases h
    · rw [← Option.some.inj h]
  have hconn := Session.getOrCreateStream_conn e.nextClientStreamId e.session
  rw [← hstate, sending, andThen]
  split
  · exact hconn ▸ Session.sendRequest_spends host
      { request with streamId := e.nextClientStreamId } _
  · rw [hconn]
    exact .of_log rfl rfl

/-! ### The runs -/

/-- **The windows.** As long as every body that is sent fits into the windows, what is sent is
within what the peer has granted. -/
theorem withinWindows_of_fits (host : Host) : (endpoint host).Steps (Fits host) WithinWindows
    {} := by
  intro e label e' _ hfits hnext
  cases label with
  | send request => exact withinWindows_of_spends (Endpoint.send_spends hnext) hfits
  | serve label =>
    obtain ⟨session, hserve, rfl⟩ := Option.map_eq_some_iff.1 hnext
    cases label with
    | reply id response => exact withinWindows_of_spends (Session.lateReply_spends hserve) hfits
    | read bytes =>
      simp only [server, Option.ite_none_right_eq_some, Option.some.injEq] at hserve
      obtain ⟨-, rfl⟩ := hserve
      obtain hsilent | ⟨⟨header, rest, hupcoming, hid⟩, hoffers⟩ :=
        Session.onRead_reads host bytes e.session
      · exact withinWindows_of_silent hsilent
      · obtain hspends | ⟨request, response, hreply, hspends⟩ := hoffers
        · exact withinWindows_of_spends (hspends.after (.of_log rfl rfl)) (.inl rfl)
        · exact withinWindows_of_spends (hspends.after (.of_log rfl rfl))
            (hfits header rest hupcoming hid request response hreply)

/-- Handlers that answer with one byte. -/
def byteHost : Host :=
  { keepingHost with dispatch := fun _ response => ⟨{ response with body := [0x21] }, .sends⟩ }

theorem withinWindows_of_fits_byte : ∃ e, (endpoint byteHost).next (.serve (.read smallRequest))
    {} =
    some e ∧ total debit e.session.conn.log = 1 ∧ WithinWindows {} e := by
  have hroom : (0 : ℤ) + (1 : ℕ) ≤ (defaultInitialWindowSize : ℤ) + 0 := by decide
  have hfits : Fits byteHost {} (.serve (.read smallRequest)) := by
    intro _ _ _ _ _ _ _
    exact .inr ⟨hroom, hroom⟩
  obtain ⟨e, hnext, hdebit⟩ : ∃ e, (endpoint byteHost).next (.serve (.read smallRequest))
    {} = some e ∧
      total debit e.session.conn.log = 1 := Transition.System.exists_of_any (by decide +kernel)
  exact ⟨e, hnext, hdebit, withinWindows_of_fits byteHost _ _ _ .refl hfits hnext⟩

/-- `SETTINGS_INITIAL_WINDOW_SIZE` of zero. -/
def closedWindow : List UInt8 :=
  Frame.write { type := .settings, streamId := 0, payload := [0, 4, 0, 0, 0, 0] }

/-- A byte is sent on a stream whose window is empty. -/
theorem byte_overdraws : ¬(endpoint byteHost).Steps Transition.System.Any WithinWindows {} := by
  intro h
  have hsettings : ((endpoint byteHost).play [.serve (.read closedWindow)] {}).isSome := by
    decide +kernel
  have hrequest : ((endpoint byteHost).play
      ([.serve (.read closedWindow)] ++ [.serve (.read smallRequest)]) {}).isSome := by
    decide +kernel
  have hstreams := (h.of_play (Option.some_get hsettings).symm
    (Option.some_get hrequest).symm).streams 1
  clear h
  revert hsettings hrequest
  decide +kernel

end Congelado.Http2
